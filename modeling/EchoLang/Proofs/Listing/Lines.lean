import EchoLang.Proofs.Listing.Mnemonics
import EchoLang.Proofs.Token.Classes
import EchoLang.Proofs.Wasm.Refusal

namespace EchoLang

open Token

def OneLine (text : String) : Prop :=
  '\n' ∉ text.toList

namespace OneLine

@[simp] theorem append_iff (first second : String) :
    OneLine (first ++ second) ↔ OneLine first ∧ OneLine second := by
  simp [OneLine]

theorem of_forall {text : String} {p : Char → Bool} (h : ∀ c ∈ text.toList, p c)
    (hp : p '\n' = false) : OneLine text := by
  intro hmem
  rw [h _ hmem] at hp
  cases hp

theorem of_isWord {text : String} (h : IsWord text.toList) : OneLine text :=
  of_forall h.2 (by decide)

theorem ofList_digits {ds : List Char} (h : ∀ c ∈ ds, c.isDigit) : OneLine (String.ofList ds) :=
  of_forall (by rwa [String.toList_ofList]) (by decide : Char.isDigit '\n' = false)

theorem repr (n : Nat) : OneLine n.repr :=
  of_forall (isDigit_repr n) (by decide)

theorem repr_int (n : Int) : OneLine n.repr := by
  cases n with
  | ofNat n => exact repr n
  | negSucc n => exact (append_iff "-" _).mpr ⟨by simp [OneLine], repr _⟩

theorem join {texts : List String} (h : ∀ text ∈ texts, OneLine text) :
    OneLine (String.join texts) := by
  induction texts with
  | nil => simp [OneLine]
  | cons text rest ih =>
      rw [String.join_cons, append_iff]
      exact ⟨h _ List.mem_cons_self, ih fun text hmem => h text (List.mem_cons_of_mem _ hmem)⟩

end OneLine

section Numbers

theorem oneLine_zeros (n : Nat) : OneLine (NumberFormat.zeros n) := by
  refine OneLine.ofList_digits fun c hc => ?_
  rw [List.eq_of_mem_replicate hc]
  decide

theorem oneLine_writePositional (d : Decimal) : OneLine (NumberFormat.plain.writePositional d) := by
  have hdigits := OneLine.ofList_digits (isDigit_toDigits d.coefficient)
  have htake (k : Nat) := OneLine.ofList_digits fun c hc =>
    isDigit_toDigits d.coefficient c (List.mem_of_mem_take (i := k) hc)
  have hdrop (k : Nat) := OneLine.ofList_digits fun c hc =>
    isDigit_toDigits d.coefficient c (List.mem_of_mem_drop (i := k) hc)
  have hpoint : OneLine "." := by simp [OneLine]
  have hzero : OneLine "0." := by simp [OneLine]
  have hmark : OneLine NumberFormat.plain.wholeMark := by simp [OneLine, NumberFormat.plain]
  unfold NumberFormat.writePositional
  simp only
  split
  · simp [hdigits, hmark, oneLine_zeros]
  · split
    · simp [htake, hdrop, hpoint]
    · simp [hdigits, hzero, oneLine_zeros]

theorem oneLine_write (x : Float32) : OneLine (NumberFormat.plain.write x) := by
  have hsign : OneLine (if x.toBits < 0x80000000 then "" else "-") := by
    split <;> simp [OneLine]
  unfold NumberFormat.write
  simp only
  split
  · simp [OneLine]
  · split
    · rw [OneLine.append_iff]
      exact ⟨hsign, by simp [OneLine]⟩
    · split
      · rw [OneLine.append_iff, OneLine.append_iff]
        exact ⟨⟨hsign, by simp [OneLine]⟩, by simp [OneLine, NumberFormat.plain]⟩
      · rw [OneLine.append_iff]
        exact ⟨hsign, oneLine_writePositional _⟩

end Numbers

section Code

-- The lines of a scope below its head.
def Instr.linesBelow (depth : Nat) : Instr → List String
  | block _ body | loop _ body => bodyLines (depth + 1) body ++ [indent depth ++ "end"]
  | operate _ | call _ | branch _ | branchIf _ => []

theorem Instr.lines_eq (depth : Nat) (i : Instr) :
    i.lines depth = (indent depth ++ i.mnemonic) :: i.linesBelow depth := by
  cases i <;> rfl

theorem oneLine_indent (depth : Nat) : OneLine (Instr.indent depth) := by
  simp [OneLine, Instr.indent, List.mem_replicate]

theorem oneLine_argument (i : Instr) (h : ∀ name, i = .call name → IsWord name.toList) :
    OneLine i.argument := by
  have hspace : OneLine " " := by simp [OneLine]
  have hlabel (label : Label) : OneLine (" " ++ label.render) := by
    have hkind : OneLine label.kind.name := by cases label.kind <;> simp [OneLine, LabelKind.name]
    rw [label.render_eq]
    simp only [OneLine.append_iff]
    exact ⟨hspace, ⟨by simp [OneLine], hkind⟩, OneLine.repr _⟩
  cases i with
  | operate op =>
      cases op with
      | floatConst x => exact (OneLine.append_iff _ _).mpr ⟨hspace, oneLine_write x.value⟩
      | intConst value => exact (OneLine.append_iff _ _).mpr ⟨hspace, OneLine.repr_int _⟩
      | get slot | set slot => exact (OneLine.append_iff _ _).mpr ⟨hspace, OneLine.repr _⟩
      | _ => simp [OneLine, Instr.argument, Operation.argument]
  | call name =>
      have hname := OneLine.of_isWord (h name rfl)
      exact (OneLine.append_iff _ _).mpr ⟨by simp [OneLine], hname⟩
  | block label _ | loop label _ | branch label | branchIf label => exact hlabel label

theorem oneLine_mnemonic (i : Instr) (h : ∀ name, i = .call name → IsWord name.toList) :
    OneLine i.mnemonic := by
  rw [Instr.mnemonic_eq, OneLine.append_iff]
  exact ⟨fun hmem => (i.chars_keyword _ hmem).2 rfl, oneLine_argument i h⟩

-- All functions called in the code have words for names.
def CallsWords (scopes : List Label) (body : List Instr) : Prop :=
  ∀ name, .callee name ∈ codeReferences scopes body → IsWord name.toList

theorem callsWords_cons {scopes : List Label} {i : Instr} {rest : List Instr} :
    CallsWords scopes (i :: rest) ↔
      (∀ name, .callee name ∈ i.references scopes → IsWord name.toList) ∧
        CallsWords scopes rest := by
  simp only [CallsWords, codeReferences, List.mem_append, or_imp, forall_and]

mutual

theorem oneLine_linesBelow : ∀ (i : Instr) (scopes : List Label) (depth : Nat),
    (∀ name, .callee name ∈ i.references scopes → IsWord name.toList) →
      ∀ line ∈ i.linesBelow depth, OneLine line
  | .block label body, scopes, depth, h | .loop label body, scopes, depth, h => by
      intro line hline
      rcases List.mem_append.mp hline with hbody | hend
      · exact oneLine_bodyLines body (label :: scopes) (depth + 1) h line hbody
      · rw [List.mem_singleton.mp hend, OneLine.append_iff]
        exact ⟨oneLine_indent depth, by simp [OneLine]⟩
  | .operate _, _, _, _ | .call _, _, _, _ | .branch _, _, _, _ | .branchIf _, _, _, _ => nofun

theorem oneLine_bodyLines : ∀ (body : List Instr) (scopes : List Label) (depth : Nat),
    CallsWords scopes body → ∀ line ∈ Instr.bodyLines depth body, OneLine line
  | [], _, _, _ => nofun
  | i :: rest, scopes, depth, h => by
      obtain ⟨hi, hrest⟩ := callsWords_cons.mp h
      intro line hline
      rw [Instr.bodyLines, Instr.lines_eq] at hline
      rcases List.mem_append.mp hline with hhead | htail
      · rcases List.mem_cons.mp hhead with rfl | hbelow
        · rw [OneLine.append_iff]
          refine ⟨oneLine_indent depth, oneLine_mnemonic i fun name hcall => hi name ?_⟩
          rw [hcall]
          exact List.mem_singleton_self _
        · exact oneLine_linesBelow i scopes depth hi line hbelow
      · exact oneLine_bodyLines rest scopes depth hrest line htail

end

end Code

section Modules

structure Effect.Worded (e : Effect) : Prop where
  name : IsWord e.name.toList
  module : IsWord e.module.toList
  field : IsWord e.field.toList

structure FunctionDef.Worded (f : FunctionDef) : Prop where
  name : IsWord f.name.toList
  locals : ∀ l ∈ f.locals, IsWord l.toList
  callees : CallsWords [] f.body

-- Every name in the module is a word.
structure CodeModule.Worded (m : CodeModule) : Prop where
  imports : ∀ e ∈ m.imports, e.Worded
  functions : ∀ f ∈ m.functions, f.Worded

variable {m m' : CodeModule}

theorem Effect.line_eq (e : Effect) :
    e.line = "  (import \"" ++ e.module ++ "\" \"" ++ e.field ++ "\" (func $" ++ e.name ++
      " (param " ++ e.param.name ++ ")))" :=
  rfl

-- What follows the name in the head of a function.
def FunctionDef.exportText (f : FunctionDef) : String :=
  if f.exported then " (export \"" ++ f.name ++ "\")" else ""

def localsText (locals : List String) : String :=
  String.join (locals.map fun l => " (local $" ++ l ++ " f32)")

theorem FunctionDef.head_eq (f : FunctionDef) :
    f.head = "  (func $" ++ f.name ++ f.exportText ++ localsText f.locals :=
  rfl

-- The lines behind the one that names the unit.
def CodeModule.linesBelow (m : CodeModule) : List String :=
  m.imports.map (·.line) ++ m.functions.flatMap (·.lines) ++ [")"]

theorem CodeModule.listing_eq (m : CodeModule) :
    m.listing = "(module $" ++ m.unit ++ "\n" ++ String.join (m.linesBelow.map (· ++ "\n")) := by
  rw [listing, lines, List.map_cons, String.join_cons]
  rfl

theorem Effect.Worded.oneLine {e : Effect} (h : e.Worded) : OneLine e.line := by
  have hparam : OneLine e.param.name := by cases e.param <;> simp [OneLine, NumKind.name]
  rw [e.line_eq]
  simp only [OneLine.append_iff, OneLine.of_isWord h.name, OneLine.of_isWord h.module,
    OneLine.of_isWord h.field, hparam]
  simp [OneLine]

theorem FunctionDef.Worded.oneLine_head {f : FunctionDef} (h : f.Worded) : OneLine f.head := by
  have hname := OneLine.of_isWord h.name
  have hexport : OneLine f.exportText := by
    unfold exportText
    split
    · simp only [OneLine.append_iff]
      exact ⟨⟨by simp [OneLine], hname⟩, by simp [OneLine]⟩
    · simp [OneLine]
  have hlocals : OneLine (localsText f.locals) := by
    refine OneLine.join fun text htext => ?_
    obtain ⟨l, hl, rfl⟩ := List.mem_map.mp htext
    simp only [OneLine.append_iff]
    exact ⟨⟨by simp [OneLine], OneLine.of_isWord (h.locals l hl)⟩, by simp [OneLine]⟩
  rw [f.head_eq]
  simp only [OneLine.append_iff]
  exact ⟨⟨⟨by simp [OneLine], hname⟩, hexport⟩, hlocals⟩

theorem FunctionDef.Worded.oneLine {f : FunctionDef} (h : f.Worded) :
    ∀ line ∈ f.lines, OneLine line := by
  intro line hline
  rcases List.mem_cons.mp hline with rfl | hline
  · exact h.oneLine_head
  · rcases List.mem_append.mp hline with hbody | hend
    · exact oneLine_bodyLines f.body [] 2 h.callees line hbody
    · rw [List.mem_singleton.mp hend]
      simp [OneLine]

theorem CodeModule.Worded.oneLine (h : m.Worded) : ∀ line ∈ m.linesBelow, OneLine line := by
  intro line hline
  rcases List.mem_append.mp hline with hline | hlast
  · rcases List.mem_append.mp hline with himport | hfunction
    · obtain ⟨e, he, rfl⟩ := List.mem_map.mp himport
      exact (h.imports e he).oneLine
    · obtain ⟨f, hf, hline⟩ := List.mem_flatMap.mp hfunction
      exact (h.functions f hf).oneLine line hline
  · rw [List.mem_singleton.mp hlast]
    simp [OneLine]

-- A text whose lines all end with a line feed tells its lines.
theorem lines_inj_of_join : ∀ {lines lines' : List String}, (∀ line ∈ lines, OneLine line) →
    (∀ line ∈ lines', OneLine line) →
    String.join (lines.map (· ++ "\n")) = String.join (lines'.map (· ++ "\n")) → lines = lines'
  | [], [], _, _, _ => rfl
  | [], line :: rest, _, _, h | line :: rest, [], _, _, h => by
      have htext := congrArg String.toList h
      simp at htext
  | line :: rest, line' :: rest', hlines, hlines', h => by
      have hchars {line : String} (hline : OneLine line) : ∀ c ∈ line.toList, c != '\n' :=
        fun c hc => bne_iff_ne.mpr fun heq => hline (heq ▸ hc)
      have htext := congrArg String.toList h
      simp only [List.map_cons, String.join_cons, String.toList_append, List.append_assoc] at htext
      obtain ⟨hline, htext⟩ := append_inj_of_stops (p := (· != '\n'))
        (hchars (hlines line List.mem_cons_self)) (hchars (hlines' line' List.mem_cons_self))
        (by simp [Stops]) (by simp [Stops]) htext
      have hrest := lines_inj_of_join (fun l hl => hlines l (List.mem_cons_of_mem _ hl))
        (fun l hl => hlines' l (List.mem_cons_of_mem _ hl))
        (String.toList_inj.mp (List.append_cancel_left htext))
      rw [String.toList_inj.mp hline, hrest]

theorem CodeModule.linesBelow_of_listing (hunit : m.unit = m'.unit) (hm : m.Worded)
    (hm' : m'.Worded) (h : m.listing = m'.listing) : m.linesBelow = m'.linesBelow := by
  rw [listing_eq, listing_eq, hunit] at h
  exact lines_inj_of_join hm.oneLine hm'.oneLine
    ((String.append_right_inj _).mp h)

end Modules

end EchoLang
