import EchoLang.Proofs.Listing.Names

namespace EchoLang

open Token

section Trees

-- The same tree of instructions, up to float constants that are written alike.
inductive Instr.Alike : Instr → Instr → Prop
  | operate {op op' : Operation} (h : op.Alike op') : Alike (.operate op) (.operate op')
  | call (name : String) : Alike (.call name) (.call name)
  | block (label : Label) {body body' : List Instr} (h : List.Forall₂ Alike body body') :
      Alike (.block label body) (.block label body')
  | loop (label : Label) {body body' : List Instr} (h : List.Forall₂ Alike body body') :
      Alike (.loop label body) (.loop label body')
  | branch (label : Label) : Alike (.branch label) (.branch label)
  | branchIf (label : Label) : Alike (.branchIf label) (.branchIf label)

-- What comes next is not indented as far.
def Dedents (depth : Nat) (rest : List String) : Prop :=
  ∀ line ∈ rest.head?, ¬(Instr.indent depth).toList <+: line.toList

theorem isPrefix_indent (depth : Nat) (text : String) :
    (Instr.indent depth).toList <+: (Instr.indent depth ++ text).toList := by
  rw [String.toList_append]
  exact List.prefix_append _ _

theorem dedents_end (depth : Nat) (rest : List String) :
    Dedents (depth + 1) ((Instr.indent depth ++ "end") :: rest) := by
  intro line hline hindent
  obtain rfl : Instr.indent depth ++ "end" = line := Option.some.inj hline
  have hsplit : (Instr.indent (depth + 1)).toList =
      (Instr.indent depth).toList ++ [' ', ' '] := by
    simp [Instr.indent, Nat.mul_add, List.replicate_add]
  rw [hsplit, String.toList_append, List.prefix_append_right_inj] at hindent
  revert hindent
  decide

mutual

theorem alike_of_linesBelow : ∀ (i : Instr) {j : Instr} {depth : Nat} {rest rest' : List String},
    i.SameHead j → i.linesBelow depth ++ rest = j.linesBelow depth ++ rest' →
      i.Alike j ∧ rest = rest'
  | .block label body, _, depth, rest, rest', .block _ _ body', h => by
      simp only [Instr.linesBelow, List.append_assoc] at h
      obtain ⟨hbody, hrest⟩ :=
        alike_of_bodyLines body (dedents_end depth rest) (dedents_end depth rest') h
      exact ⟨.block label hbody, List.tail_eq_of_cons_eq hrest⟩
  | .loop label body, _, depth, rest, rest', .loop _ _ body', h => by
      simp only [Instr.linesBelow, List.append_assoc] at h
      obtain ⟨hbody, hrest⟩ :=
        alike_of_bodyLines body (dedents_end depth rest) (dedents_end depth rest') h
      exact ⟨.loop label hbody, List.tail_eq_of_cons_eq hrest⟩
  | .operate _, _, _, _, _, .operate hop, h => ⟨.operate hop, h⟩
  | .call name, _, _, _, _, .call _, h => ⟨.call name, h⟩
  | .branch label, _, _, _, _, .branch _, h => ⟨.branch label, h⟩
  | .branchIf label, _, _, _, _, .branchIf _, h => ⟨.branchIf label, h⟩

-- The induction is on the first tree. What follows a body is part of the statement, because where
-- the body ends is seen from the indentation of the next line only.
theorem alike_of_bodyLines : ∀ (body : List Instr) {body' : List Instr} {depth : Nat}
    {rest rest' : List String}, Dedents depth rest → Dedents depth rest' →
    Instr.bodyLines depth body ++ rest = Instr.bodyLines depth body' ++ rest' →
      List.Forall₂ Instr.Alike body body' ∧ rest = rest'
  | [], [], _, _, _, _, _, h => ⟨.nil, h⟩
  | [], j :: more, depth, _, _, hrest, _, h => by
      rw [Instr.bodyLines, Instr.bodyLines, Instr.lines_eq] at h
      subst h
      exact absurd (isPrefix_indent depth _) (hrest _ rfl)
  | i :: more, [], depth, _, _, _, hrest', h => by
      rw [Instr.bodyLines, Instr.bodyLines, Instr.lines_eq] at h
      subst h
      exact absurd (isPrefix_indent depth _) (hrest' _ rfl)
  | i :: more, j :: more', depth, rest, rest', hrest, hrest', h => by
      simp only [Instr.bodyLines, Instr.lines_eq, List.append_assoc, List.cons_append,
        List.cons.injEq] at h
      have hhead := Instr.sameHead_of_mnemonic ((String.append_right_inj _).mp h.1)
      obtain ⟨hi, htail⟩ := alike_of_linesBelow i hhead h.2
      obtain ⟨hmore, hrest⟩ := alike_of_bodyLines more hrest hrest' htail
      exact ⟨.cons hi hmore, hrest⟩

end

theorem Instr.Alike.mnemonic_eq {i j : Instr} (h : i.Alike j) : i.mnemonic = j.mnemonic := by
  cases h with
  | operate hop =>
      cases hop with
      | floatConst hwrite => exact congrArg ("f32.const " ++ ·) hwrite
      | same => rfl
  | _ => rfl

mutual

theorem linesBelow_of_alike : ∀ (i : Instr) {j : Instr} (depth : Nat), i.Alike j →
    i.linesBelow depth = j.linesBelow depth
  | .block _ body, _, depth, .block _ h | .loop _ body, _, depth, .loop _ h =>
      congrArg (· ++ _) (bodyLines_of_alike body (depth + 1) h)
  | .operate _, _, _, .operate _ | .call _, _, _, .call _ | .branch _, _, _, .branch _
  | .branchIf _, _, _, .branchIf _ => rfl

theorem bodyLines_of_alike : ∀ (body : List Instr) {body' : List Instr} (depth : Nat),
    List.Forall₂ Instr.Alike body body' → Instr.bodyLines depth body = Instr.bodyLines depth body'
  | [], _, _, .nil => rfl
  | i :: more, _, depth, .cons hi hmore => by
      rw [Instr.bodyLines, Instr.bodyLines, Instr.lines_eq, Instr.lines_eq, hi.mnemonic_eq,
        linesBelow_of_alike i depth hi, bodyLines_of_alike more depth hmore]

end

end Trees

section Heads

-- A name in the text ends where the letters do.
theorem Effect.Worded.line_injective {e e' : Effect} (he : e.Worded) (he' : e'.Worded)
    (h : e.line = e'.line) : e = e' := by
  have htext := congrArg String.toList h
  rw [e.line_eq, e'.line_eq] at htext
  simp only [String.toList_append, List.append_assoc, List.append_cancel_left_eq] at htext
  obtain ⟨hmodule, htext⟩ :=
    append_inj_of_stops he.module.2 he'.module.2 (by simp [Stops]) (by simp [Stops]) htext
  obtain ⟨hfield, htext⟩ := append_inj_of_stops he.field.2 he'.field.2 (by simp [Stops])
    (by simp [Stops]) (List.append_cancel_left htext)
  obtain ⟨hname, htext⟩ := append_inj_of_stops he.name.2 he'.name.2 (by simp [Stops])
    (by simp [Stops]) (List.append_cancel_left htext)
  have hparam := List.append_cancel_right (List.append_cancel_left htext)
  have hparam : e.param = e'.param := by
    revert hparam
    cases e.param <;> cases e'.param <;> decide
  simp only [String.toList_inj] at hname hmodule hfield
  cases e
  cases e'
  exact (Effect.mk.injEq ..).mpr ⟨hname, hmodule, hfield, hparam⟩

theorem localsText_injective : ∀ {locals locals' : List String},
    (∀ l ∈ locals, IsWord l.toList) → (∀ l ∈ locals', IsWord l.toList) →
    localsText locals = localsText locals' → locals = locals'
  | [], [], _, _, _ => rfl
  | [], l :: rest, _, _, h | l :: rest, [], _, _, h => by
      have htext := congrArg String.toList h
      simp [localsText] at htext
  | l :: rest, l' :: rest', hlocals, hlocals', h => by
      have htext := congrArg String.toList h
      simp only [localsText, List.map_cons, String.join_cons, String.toList_append,
        List.append_assoc, List.append_cancel_left_eq] at htext
      obtain ⟨hl, htext⟩ := append_inj_of_stops (hlocals l List.mem_cons_self).2
        (hlocals' l' List.mem_cons_self).2 (by simp [Stops]) (by simp [Stops]) htext
      have hrest := localsText_injective (fun l hl => hlocals l (List.mem_cons_of_mem _ hl))
        (fun l hl => hlocals' l (List.mem_cons_of_mem _ hl))
        (String.toList_inj.mp (List.append_cancel_left htext))
      rw [String.toList_inj.mp hl, hrest]

theorem stops_localsText (locals : List String) :
    Stops Char.isAlpha (localsText locals).toList := by
  cases locals <;> simp [Stops, localsText]

theorem localsText_ne_export (locals : List String) (name rest : String) :
    localsText locals ≠ " (export \"" ++ name ++ "\")" ++ rest := by
  intro h
  have htext := congrArg String.toList h
  cases locals <;> simp [localsText] at htext

-- Behind the name comes the export, if there is one, and then the locals. Both begin with a space
-- and differ in the word behind the bracket.
theorem FunctionDef.Worded.head_injective {f f' : FunctionDef} (hf : f.Worded) (hf' : f'.Worded)
    (h : f.head = f'.head) :
    f.name = f'.name ∧ f.exported = f'.exported ∧ f.locals = f'.locals := by
  have hstops (f : FunctionDef) :
      Stops Char.isAlpha (f.exportText.toList ++ (localsText f.locals).toList) := by
    unfold exportText
    split
    · simp [Stops]
    · exact stops_localsText f.locals
  have htext := congrArg String.toList h
  simp only [f.head_eq, f'.head_eq, String.toList_append, List.append_assoc,
    List.append_cancel_left_eq] at htext
  obtain ⟨hname, htext⟩ := append_inj_of_stops hf.name.2 hf'.name.2 (hstops f) (hstops f') htext
  rw [← String.toList_append, ← String.toList_append, String.toList_inj] at htext
  have hname := String.toList_inj.mp hname
  refine ⟨hname, ?_⟩
  unfold exportText at htext
  cases hexported : f.exported <;> cases hexported' : f'.exported <;>
    simp only [hexported, hexported', if_true, if_false, Bool.false_eq_true, hname,
      String.empty_append] at htext
  case false.true => exact absurd htext (localsText_ne_export _ _ _)
  case true.false => exact absurd htext.symm (localsText_ne_export _ _ _)
  case false.false => exact ⟨rfl, localsText_injective hf.locals hf'.locals htext⟩
  case true.true =>
    exact ⟨rfl, localsText_injective hf.locals hf'.locals ((String.append_right_inj _).mp htext)⟩

end Heads

section Modules

structure FunctionDef.Alike (f f' : FunctionDef) : Prop where
  name : f.name = f'.name
  exported : f.exported = f'.exported
  locals : f.locals = f'.locals
  body : List.Forall₂ Instr.Alike f.body f'.body

theorem FunctionDef.Alike.lines_eq {f f' : FunctionDef} (h : f.Alike f') : f.lines = f'.lines := by
  have hhead : f.head = f'.head := by
    rw [f.head_eq, f'.head_eq, exportText, exportText, h.name, h.exported, h.locals]
  rw [lines, lines, hhead, bodyLines_of_alike f.body 2 h.body]

theorem dedents_close (rest : List String) : Dedents 2 ("  )" :: rest) := by
  intro line hline
  obtain rfl : "  )" = line := Option.some.inj hline
  decide

-- No function begins with the line that ends the module.
theorem FunctionDef.head_ne_close (f : FunctionDef) : f.head ≠ ")" := by
  intro h
  have htext := congrArg String.toList h
  simp [f.head_eq] at htext

theorem alike_of_functionLines : ∀ {functions functions' : List FunctionDef},
    (∀ f ∈ functions, f.Worded) → (∀ f ∈ functions', f.Worded) →
    functions.flatMap (·.lines) ++ [")"] = functions'.flatMap (·.lines) ++ [")"] →
      List.Forall₂ FunctionDef.Alike functions functions'
  | [], [], _, _, _ => .nil
  | [], f :: _, _, _, h => absurd (List.head_eq_of_cons_eq h).symm f.head_ne_close
  | f :: _, [], _, _, h => absurd (List.head_eq_of_cons_eq h) f.head_ne_close
  | f :: more, f' :: more', hall, hall', h => by
      simp only [List.flatMap_cons, FunctionDef.lines, List.cons_append, List.append_assoc,
        List.cons.injEq] at h
      obtain ⟨hname, hexported, hlocals⟩ :=
        (hall f List.mem_cons_self).head_injective (hall' f' List.mem_cons_self) h.1
      obtain ⟨hbody, hrest⟩ := alike_of_bodyLines f.body (dedents_close _) (dedents_close _) h.2
      have hmore := alike_of_functionLines (fun g hg => hall g (List.mem_cons_of_mem _ hg))
        (fun g hg => hall' g (List.mem_cons_of_mem _ hg)) (List.tail_eq_of_cons_eq hrest)
      exact .cons ⟨hname, hexported, hlocals, hbody⟩ hmore

theorem imports_of_lines : ∀ {imports imports' : List Effect}, (∀ e ∈ imports, e.Worded) →
    (∀ e ∈ imports', e.Worded) → imports.map (·.line) = imports'.map (·.line) → imports = imports'
  | [], [], _, _, _ => rfl
  | e :: rest, e' :: rest', hall, hall', h => by
      obtain ⟨he, hrest⟩ := List.cons.inj h
      rw [(hall e List.mem_cons_self).line_injective (hall' e' List.mem_cons_self) he,
        imports_of_lines (fun e he => hall e (List.mem_cons_of_mem _ he))
          (fun e he => hall' e (List.mem_cons_of_mem _ he)) hrest]

def isImportLine (line : String) : Bool :=
  "  (import".toList.isPrefixOf line.toList

theorem isImportLine_line (e : Effect) : isImportLine e.line := by
  simp [isImportLine, e.line_eq]

theorem stops_functionLines (functions : List FunctionDef) :
    Stops isImportLine (functions.flatMap (·.lines) ++ [")"]) := by
  intro line hline
  cases functions with
  | nil =>
      obtain rfl : ")" = line := Option.some.inj hline
      decide
  | cons f rest =>
      obtain rfl : f.head = line := Option.some.inj hline
      simp [isImportLine, f.head_eq, List.isPrefixOf]

variable {m m' : CodeModule}

theorem CodeModule.alike_of_listing (hunit : m.unit = m'.unit) (hm : m.Worded) (hm' : m'.Worded)
    (h : m.listing = m'.listing) :
    m.imports = m'.imports ∧ List.Forall₂ FunctionDef.Alike m.functions m'.functions := by
  have hlines := linesBelow_of_listing hunit hm hm' h
  have himport (m : CodeModule) : ∀ line ∈ m.imports.map (·.line), isImportLine line := by
    intro line hline
    obtain ⟨e, _, rfl⟩ := List.mem_map.mp hline
    exact isImportLine_line e
  simp only [linesBelow, List.append_assoc] at hlines
  obtain ⟨himports, hfunctions⟩ := append_inj_of_stops (himport m) (himport m')
    (stops_functionLines _) (stops_functionLines _) hlines
  exact ⟨imports_of_lines hm.imports hm'.imports himports,
    alike_of_functionLines hm.functions hm'.functions hfunctions⟩

theorem functionLines_of_alike {functions functions' : List FunctionDef}
    (h : List.Forall₂ FunctionDef.Alike functions functions') :
    functions.flatMap (·.lines) = functions'.flatMap (·.lines) := by
  induction h with
  | nil => rfl
  | cons hf _ ih => rw [List.flatMap_cons, List.flatMap_cons, hf.lines_eq, ih]

theorem CodeModule.listing_of_alike (hunit : m.unit = m'.unit) (himports : m.imports = m'.imports)
    (hfunctions : List.Forall₂ FunctionDef.Alike m.functions m'.functions) :
    m.listing = m'.listing := by
  rw [listing_eq, listing_eq, linesBelow, linesBelow, hunit, himports,
    functionLines_of_alike hfunctions]

-- Modules of one unit with words for names have one listing if and only if they are the same up
-- to float constants that are written alike. All modules of source texts have words for names.
theorem listing_determines_module :
    (∀ m m' : CodeModule, m.unit = m'.unit → m.Worded → m'.Worded →
      (m.listing = m'.listing ↔
        m.imports = m'.imports ∧ List.Forall₂ FunctionDef.Alike m.functions m'.functions)) ∧
    ∀ (target : Target) (unit source : String) (optimize : Bool) (m : CodeModule),
      CodeModule.ofSource target unit source optimize = .ok m → m.Worded := by
  refine ⟨fun m m' hunit hm hm' => ⟨CodeModule.alike_of_listing hunit hm hm', ?_⟩, ?_⟩
  · rintro ⟨himports, hfunctions⟩
    exact CodeModule.listing_of_alike hunit himports hfunctions
  · intro target unit source optimize m h
    exact CodeModule.worded_of_ofSource h

-- A function that prints, with some code before.
def printingModule (code : List Instr) : CodeModule :=
  ⟨"print", [.echo], [⟨"main", true, ["x"], code ++ [.call Effect.echo.name]⟩]⟩

-- A branch behind a block and a branch inside of it give different listings.
theorem listing_determines_module_nested :
    let label : Label := ⟨.ifThen, 0⟩
    let behind := printingModule [.block label [], .branch label]
    let inside := printingModule [.block label [.branch label]]
    behind.Worded ∧ inside.Worded ∧ behind.listing ≠ inside.listing ∧
      ∃ m, CodeModule.ofSource .listing "countdown" countdownSource true = .ok m ∧ m.Worded := by
  intro label behind inside
  have hworded {code : List Instr} (hcode : CallsWords [] code) : (printingModule code).Worded := by
    have hmain : IsWord "main".toList := by decide
    have hlocal : IsWord "x".toList := by decide
    refine ⟨List.forall_mem_singleton.mpr Effect.worded_echo, List.forall_mem_singleton.mpr
      ⟨hmain, List.forall_mem_singleton.mpr hlocal, fun name hname => ?_⟩⟩
    rw [codeReferences_append] at hname
    rcases List.mem_append.mp hname with hname | hname
    · exact hcode name hname
    · rw [Reference.callee.inj (List.mem_singleton.mp hname)]
      exact Effect.worded_echo.name
  have hbehind : behind.Worded := hworded (by simp [CallsWords, codeReferences, Instr.references])
  have hinside : inside.Worded := hworded (by simp [CallsWords, codeReferences, Instr.references])
  refine ⟨hbehind, hinside, fun h => ?_, ?_⟩
  · obtain ⟨_, hfunctions⟩ := (listing_determines_module.1 behind inside rfl hbehind hinside).mp h
    cases hfunctions with
    | cons hmain _ =>
        cases hmain.body with
        | cons hblock _ =>
            cases hblock with
            | block _ hbody => cases hbody
  · have hsource : (CodeModule.ofSource .listing "countdown" countdownSource true).toBool := by
      decide +kernel
    cases hm : CodeModule.ofSource .listing "countdown" countdownSource true with
    | error e =>
        rw [hm] at hsource
        cases hsource
    | ok m => exact ⟨m, rfl, listing_determines_module.2 _ _ _ _ m hm⟩

end Modules

end EchoLang
