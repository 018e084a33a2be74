import EchoLang.Proofs.Lowering.Mentions
import EchoLang.Proofs.Lowering.Modules

namespace EchoLang

def Stmt.procedureName? : Stmt → Option String
  | procedure name _ _ _ => some name
  | _ => none

-- Every use of a variable comes behind a declaration of it.
def DeclaredFirst (body : List Stmt) : Prop :=
  ∀ earlier name loc later, bodyMentions body = earlier ++ .uses name loc :: later →
    .declares name ∈ earlier

structure Program.WellScoped (p : Program) : Prop where
  procedures : ∀ s ∈ p, s.isProcedure
  names : (p.filterMap Stmt.procedureName?).Nodup
  flat : ∀ name exported body loc, .procedure name exported body loc ∈ p → BodyProcedureFree body
  declared : ∀ name exported body loc, .procedure name exported body loc ∈ p → DeclaredFirst body

section Bodies

variable {first second mentions : List Mention}

-- What can be said inside of a procedure.
def Mention.isInner : Mention → Bool
  | stray _ | opens .. => false
  | _ => true

-- All is said inside of a procedure, and no procedure is nested there.
structure Inner (free : Prop) (mentions : List Mention) : Prop where
  inner : ∀ mention ∈ mentions, mention.isInner
  free_iff : free ↔ ∀ loc, .nested loc ∉ mentions

theorem Inner.append {free free' : Prop} (h : Inner free first) (h' : Inner free' second) :
    Inner (free ∧ free') (first ++ second) := by
  refine ⟨?_, ?_⟩
  · intro mention hmem
    rcases List.mem_append.mp hmem with hmem | hmem
    · exact h.inner mention hmem
    · exact h'.inner mention hmem
  · simp only [h.free_iff, h'.free_iff, List.mem_append, not_or, forall_and]

theorem Expr.inner_mentions (e : Expr) : Inner True e.mentions := by
  induction e with
  | number value loc => exact ⟨by simp [mentions], by simp [mentions]⟩
  | var name loc => exact ⟨by simp [mentions, Mention.isInner], by simp [mentions]⟩
  | paren inner loc ih => exact ih
  | binary left op right loc ihLeft ihRight =>
      have h := ihLeft.append ihRight
      rwa [true_and] at h

-- An expression before other mentions.
theorem Inner.behind {free : Prop} (e : Expr) (h : Inner free mentions) :
    Inner free (e.mentions ++ mentions) := by
  have happend := e.inner_mentions.append h
  rwa [true_and] at happend

mutual

theorem Stmt.inner_mentions : ∀ s : Stmt, Inner s.ProcedureFree s.mentions
  | .echo value loc => value.inner_mentions
  | .procedure name exported body loc =>
      ⟨by simp [Stmt.mentions, Mention.isInner], by simp [Stmt.mentions, Stmt.ProcedureFree]⟩
  | .declare name value loc =>
      .behind value ⟨by simp [Mention.isInner], by simp [Stmt.ProcedureFree]⟩
  | .assign name value loc =>
      .behind value ⟨by simp [Mention.isInner], by simp [Stmt.ProcedureFree]⟩
  | .loop condition body loc => .behind condition (inner_bodyMentions body)
  | .ifThen condition body loc => .behind condition (inner_bodyMentions body)
  | .ifElse condition first second loc =>
      .behind condition ((inner_bodyMentions first).append (inner_bodyMentions second))

theorem inner_bodyMentions : ∀ body : List Stmt, Inner (BodyProcedureFree body) (bodyMentions body)
  | [] => ⟨by simp [bodyMentions], by simp [bodyMentions, BodyProcedureFree]⟩
  | s :: rest => s.inner_mentions.append (inner_bodyMentions rest)

end

-- Inside of a procedure all that was said there counts, and nothing that was said before.
theorem sinceOpening_of_inner (before : List Mention) (name : String) (loc : Location)
    (h : ∀ mention ∈ mentions, mention.isInner) :
    sinceOpening (before ++ [.opens name loc] ++ mentions) = mentions := by
  induction mentions using List.reverseRecOn with
  | nil => simp [sinceOpening_concat, Mention.isOpening]
  | append_singleton mentions mention ih =>
      have hmention := h mention (by simp)
      have hopening : mention.isOpening = false := by
        cases mention <;> simp_all [Mention.isInner, Mention.isOpening]
      rw [← List.append_assoc, sinceOpening_concat, hopening,
        ih fun other hother => h other (List.mem_append_left _ hother)]
      rfl

theorem clean_bodyMentions (before : List Mention) (name : String) (loc : Location)
    (body : List Stmt) : Clean (before ++ [.opens name loc]) (bodyMentions body) ↔
      BodyProcedureFree body ∧ DeclaredFirst body := by
  have hinner := inner_bodyMentions body
  have hsince {earlier later : List Mention} {mention : Mention}
      (hsplit : bodyMentions body = earlier ++ mention :: later) :
      sinceOpening (before ++ [.opens name loc] ++ earlier) = earlier := by
    apply sinceOpening_of_inner
    intro other hmem
    exact hinner.inner other (by rw [hsplit]; exact List.mem_append_left _ hmem)
  rw [hinner.free_iff]
  constructor
  · intro h
    refine ⟨?_, ?_⟩
    · intro loc' hmem
      obtain ⟨earlier, later, hsplit⟩ := List.append_of_mem hmem
      exact h earlier _ later hsplit _ .nested
    · intro earlier used loc' later hsplit
      by_contra hunknown
      refine h earlier _ later hsplit _ (.unknown ?_)
      rwa [hsince hsplit]
  · rintro ⟨hfree, hdeclared⟩ earlier mention later hsplit e hviolates
    have hmem : mention ∈ bodyMentions body := by simp [hsplit]
    cases hviolates with
    | stray => exact absurd (hinner.inner _ hmem) (by simp [Mention.isInner])
    | duplicate _ => exact absurd (hinner.inner _ hmem) (by simp [Mention.isInner])
    | nested => exact hfree _ hmem
    | @unknown used loc' hunknown =>
        rw [hsince hsplit] at hunknown
        exact hunknown (hdeclared earlier used loc' later hsplit)

end Bodies

section Programs

variable {name : String} {exported : Bool} {body : List Stmt} {loc : Location} {rest : Program}

theorem wellScoped_cons :
    Program.WellScoped (.procedure name exported body loc :: rest) ↔
      (BodyProcedureFree body ∧ DeclaredFirst body) ∧
        name ∉ rest.filterMap Stmt.procedureName? ∧ rest.WellScoped := by
  have hnames : List.filterMap Stmt.procedureName? (.procedure name exported body loc :: rest) =
      name :: rest.filterMap Stmt.procedureName? := rfl
  constructor
  · intro h
    have hnodup := h.names
    rw [hnames, List.nodup_cons] at hnodup
    refine ⟨⟨h.flat _ _ _ _ List.mem_cons_self, h.declared _ _ _ _ List.mem_cons_self⟩,
      hnodup.1, ?_, hnodup.2, ?_, ?_⟩
    · exact fun s hs => h.procedures s (List.mem_cons_of_mem _ hs)
    · exact fun _ _ _ _ hmem => h.flat _ _ _ _ (List.mem_cons_of_mem _ hmem)
    · exact fun _ _ _ _ hmem => h.declared _ _ _ _ (List.mem_cons_of_mem _ hmem)
  · rintro ⟨⟨hflat, hdeclared⟩, hname, hrest⟩
    refine ⟨?_, by rw [hnames]; exact List.nodup_cons.mpr ⟨hname, hrest.names⟩, ?_, ?_⟩
    · intro s hs
      rcases List.mem_cons.mp hs with rfl | hs
      · rfl
      · exact hrest.procedures s hs
    · intro _ _ _ _ hmem
      rcases List.mem_cons.mp hmem with heq | hmem
      · cases heq
        exact hflat
      · exact hrest.flat _ _ _ _ hmem
    · intro _ _ _ _ hmem
      rcases List.mem_cons.mp hmem with heq | hmem
      · cases heq
        exact hdeclared
      · exact hrest.declared _ _ _ _ hmem

-- Inside of a procedure no other one is opened.
theorem opens_mem_iff {before : List Mention} {other : String} {loc' : Location} :
    .opens other loc' ∈ before ++ Stmt.topMentions (.procedure name exported body loc) ↔
      .opens other loc' ∈ before ∨ other = name ∧ loc' = loc := by
  have hinner : .opens other loc' ∉ bodyMentions body := by
    intro hmem
    exact absurd ((inner_bodyMentions body).inner _ hmem) (by simp [Mention.isInner])
  rw [Stmt.topMentions, List.mem_append, List.mem_cons, Mention.opens.injEq]
  simp [hinner]

-- Names that are not taken before a procedure nor by itself.
theorem fresh_iff {before : List Mention} {names : List String} :
    (∀ other ∈ names, ∀ loc', .opens other loc' ∉
      before ++ Stmt.topMentions (.procedure name exported body loc)) ↔
      name ∉ names ∧ ∀ other ∈ names, ∀ loc', .opens other loc' ∉ before := by
  constructor
  · intro h
    refine ⟨?_, ?_⟩
    · intro hname
      exact h name hname loc (opens_mem_iff.mpr (.inr ⟨rfl, rfl⟩))
    · intro other hother loc' hmem
      exact h other hother loc' (opens_mem_iff.mpr (.inl hmem))
  · rintro ⟨hname, hbefore⟩ other hother loc' hmem
    rcases opens_mem_iff.mp hmem with hmem | ⟨rfl, -⟩
    · exact hbefore other hother loc' hmem
    · exact hname hother

-- Nothing is wrong with the mentions of a program if and only if it is well scoped and its
-- procedures have names that were not there before.
theorem clean_mentions (before : List Mention) (p : Program) :
    Clean before p.mentions ↔ p.WellScoped ∧
      ∀ name ∈ p.filterMap Stmt.procedureName?, ∀ loc, .opens name loc ∉ before := by
  induction p generalizing before with
  | nil =>
      have hempty : Program.WellScoped [] := ⟨by simp, by simp, by simp, by simp⟩
      exact ⟨fun _ => ⟨hempty, by simp⟩, fun _ => clean_nil⟩
  | cons s rest ih =>
      have hmentions : Program.mentions (s :: rest) = s.topMentions ++ Program.mentions rest := rfl
      rw [hmentions, clean_append, ih]
      cases s with
      | procedure name exported body loc =>
          have hopen : (∀ e, ¬Violates before (.opens name loc) e) ↔
              ∀ loc', .opens name loc' ∉ before := by
            simp only [violates_opens_iff, not_and, forall_exists_index]
            exact ⟨fun h loc' hmem => h _ loc' hmem rfl, fun h e loc' hmem => absurd hmem (h loc')⟩
          have hnames : List.filterMap Stmt.procedureName?
              (.procedure name exported body loc :: rest) =
                name :: rest.filterMap Stmt.procedureName? := rfl
          rw [fresh_iff, wellScoped_cons, hnames, List.forall_mem_cons, Stmt.topMentions,
            clean_cons, hopen, clean_bodyMentions]
          tauto
      | _ =>
          refine ⟨fun h => ?_, fun h => ?_⟩
          · exact absurd .stray (h.1 [] _ [] rfl _)
          · exact absurd (h.1.procedures _ List.mem_cons_self) (by simp [Stmt.isProcedure])

-- Lowering fails at the first violation.
theorem lower_eq_error_iff {p : Program} (hlabels : p.branchings ≤ LabelCounter.limit)
    (e : CompileError) : p.lower = .error e ↔ FirstViolation [] p.mentions e := by
  rw [← reflects_nil.foldlM_eq_error_iff, ← error?_eq_some_iff, ← error?_eq_some_iff,
    error?_foldlM_mentions p [] .empty .start (by simpa [LabelCounter.start] using hlabels)]
  rfl

end Programs

-- A program has code if and only if it is well scoped. Otherwise the error is that of the
-- first violation in the text.
theorem addProgram_accepts_wellScoped {p : Program} (hlabels : p.branchings ≤ LabelCounter.limit)
    (unit : String) :
    (((CodeModule.empty unit).addProgram .listing p).2 = none ↔ p.WellScoped) ∧
      ∀ e, ((CodeModule.empty unit).addProgram .listing p).2 = some e ↔
        FirstViolation [] p.mentions e := by
  have hfails (e : CompileError) : ((CodeModule.empty unit).addProgram .listing p).2 = some e ↔
      FirstViolation [] p.mentions e := by
    rw [CodeModule.snd_addProgram_listing, error?_eq_some_iff, lower_eq_error_iff hlabels]
  refine ⟨?_, hfails⟩
  have hscoped : p.WellScoped ↔ Clean [] p.mentions := by
    rw [clean_mentions]
    simp
  rw [hscoped, clean_iff, Option.eq_none_iff_forall_ne_some]
  simp only [ne_eq, hfails]

-- The first procedure declares a variable in a loop and uses it behind the loop. The second
-- one assigns to a variable of that name, and reads it for the value.
def leakingProgram : Program :=
  [.procedure "main" true
      [.loop (.number 1 ⟨1, 8⟩) [.declare "x" (.number 2 ⟨2, 11⟩) ⟨2, 7⟩] ⟨1, 1⟩,
        .echo (.var "x" ⟨4, 6⟩) ⟨4, 1⟩] ⟨1, 1⟩,
    .procedure "tick" false
      [.assign "x" (.binary (.number 1 ⟨6, 5⟩) .add (.var "x" ⟨6, 9⟩) ⟨6, 7⟩) ⟨6, 1⟩] ⟨5, 1⟩]

theorem addProgram_accepts_wellScoped_leaking :
    leakingProgram.branchings ≤ LabelCounter.limit ∧ ¬leakingProgram.WellScoped ∧
      FirstViolation [] leakingProgram.mentions (.naming ⟨6, 9⟩ (.unknownVariable "x")) ∧
      Program.WellScoped (leakingProgram.take 1) := by
  have hlabels : leakingProgram.branchings ≤ LabelCounter.limit := by decide
  have hfails : ((CodeModule.empty "").addProgram .listing leakingProgram).2 =
      some (.naming ⟨6, 9⟩ (.unknownVariable "x")) := by decide +kernel
  have haccepts : ((CodeModule.empty "").addProgram .listing (leakingProgram.take 1)).2 = none := by
    decide +kernel
  have hboth := addProgram_accepts_wellScoped hlabels ""
  refine ⟨hlabels, ?_, (hboth.2 _).mp hfails, ?_⟩
  · rw [← hboth.1, hfails]
    simp
  · exact (addProgram_accepts_wellScoped (p := leakingProgram.take 1) (by decide) "").1.mp haccepts

end EchoLang
