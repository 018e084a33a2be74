import EchoLang.Proofs.Lowering.Modules
import EchoLang.Proofs.Token.Words

namespace EchoLang

namespace Program

variable {p : Program}

-- The statements of a program in two parts, each of them in the order of the program.
structure Splits (p : Program) (free procedures : List Stmt) : Prop where
  perm : (free ++ procedures).Perm p
  free_sublist : free.Sublist p
  procedures_sublist : procedures.Sublist p
  not_isProcedure : ∀ s ∈ free, s.isProcedure = false
  isProcedure : ∀ s ∈ procedures, s.isProcedure = true

theorem splits_freeStatements (p : Program) : p.Splits p.freeStatements p.procedures where
  perm := by
    have hperm := List.filter_append_perm (·.isProcedure) p
    exact List.perm_append_comm.trans hperm
  free_sublist := List.filter_sublist
  procedures_sublist := List.filter_sublist
  not_isProcedure := by
    intro s hs
    simpa using List.of_mem_filter hs
  isProcedure := by
    intro s hs
    exact List.of_mem_filter hs

theorem declaresEntry_iff : p.declaresEntry = true ↔ p.Declares entryName := by
  unfold declaresEntry Declares
  rw [List.any_eq_true]
  constructor
  · rintro ⟨s, hs, hname⟩
    cases s with
    | procedure name exported body loc =>
        have hname : name = entryName := of_decide_eq_true hname
        subst hname
        exact ⟨exported, body, loc, hs⟩
    | _ => cases hname
  · rintro ⟨exported, body, loc, hs⟩
    exact ⟨_, hs, by simp [Stmt.isProcedureNamed]⟩

theorem withEntry_of_declares (h : p.Declares entryName) : p.withEntry = p := by
  rw [withEntry, if_pos (declaresEntry_iff.mpr h)]

theorem withEntry_of_not_declares (h : ¬ p.Declares entryName) :
    p.withEntry = p.entry :: p.procedures := by
  rw [withEntry, if_neg (mt declaresEntry_iff.mp h)]

theorem declares_withEntry (p : Program) : p.withEntry.Declares entryName := by
  by_cases h : p.Declares entryName
  · rw [withEntry_of_declares h]
    exact h
  · rw [withEntry_of_not_declares h]
    exact ⟨true, p.freeStatements, _, List.mem_cons_self⟩

-- All that giving a program an entry point does to its statements.
structure KeepsStatements (p q : Program) : Prop where
  declared : p.Declares entryName → q = p
  made : ¬ p.Declares entryName → ∃ free procedures loc, p.Splits free procedures ∧
    q = .procedure entryName true free loc :: procedures

theorem keepsStatements_withEntry (p : Program) : p.KeepsStatements p.withEntry where
  declared := withEntry_of_declares
  made h := ⟨_, _, _, p.splits_freeStatements, withEntry_of_not_declares h⟩

end Program

theorem LowersTo.isProcedure {stmt : Stmt} {f : FunctionDef} (h : LowersTo stmt f) :
    stmt.isProcedure = true := by
  cases h
  rfl

-- `echo` is a keyword, and those never name a procedure.
theorem Lowered.echo_not_mem_names {source : String} {p : Program} {m : CodeModule}
    (h : Lowered p.withEntry m) (hsource : Program.ofSource source = .ok p) :
    Effect.echo.name ∉ m.functions.map (·.name) := by
  intro hmem
  obtain ⟨exported, body, loc, hproc⟩ := h.mem_names_iff.mp hmem
  exact Program.name_not_keyword_of_withEntry hsource hproc (by decide)

-- The functions of a program. One of them is the entry point, and they hold all of its
-- statements.
structure Program.HasOneEntry (p : Program) (functions : List FunctionDef) : Prop where
  nodup : (functions.map (·.name)).Nodup
  echo : Effect.echo.name ∉ functions.map (·.name)
  entry : (functions.map (·.name)).count Program.entryName = 1
  -- An entry point that is made is exported, stands first and holds what stands outside of
  -- procedures.
  made : ¬ p.Declares Program.entryName →
    ∃ free procedures loc main others, p.Splits free procedures ∧ functions = main :: others ∧
      LowersTo (.procedure Program.entryName true free loc) main ∧
      List.Forall₂ LowersTo procedures others
  declared : p.Declares Program.entryName →
    (∀ s ∈ p, s.isProcedure = true) ∧ List.Forall₂ LowersTo p functions

theorem hasOneEntry_of_lowered {source : String} {p : Program} {m : CodeModule}
    (hsource : Program.ofSource source = .ok p) (hlowered : Lowered p.withEntry m) :
    p.HasOneEntry m.functions where
  nodup := hlowered.names
  echo := hlowered.echo_not_mem_names hsource
  entry := by
    have hmem := hlowered.mem_names_iff.mpr p.declares_withEntry
    exact List.count_eq_one_of_mem hlowered.names hmem
  made := by
    intro hmade
    have hfunctions := hlowered.functions
    rw [Program.withEntry_of_not_declares hmade] at hfunctions
    obtain ⟨main, others, hmain, hothers, hcons⟩ := List.forall₂_cons_left_iff.mp hfunctions
    exact ⟨_, _, _, main, others, p.splits_freeStatements, hcons, hmain, hothers⟩
  declared := by
    intro hdeclared
    have hfunctions := hlowered.functions
    rw [Program.withEntry_of_declares hdeclared] at hfunctions
    refine ⟨?_, hfunctions⟩
    intro s hs
    obtain ⟨f, _, hlowers⟩ := exists_of_forall₂ hfunctions.flip hs
    exact hlowers.isProcedure

-- Every text that compiles has one entry point and loses no statement on the way. Giving a
-- program an entry point keeps what it has, and a second time it changes nothing.
theorem exactly_one_entry :
    (∀ {target : Target} {unit source : String} {m : CodeModule},
      (CodeModule.empty unit).addSource target source = (m, none) →
        ∃ p, Program.ofSource source = .ok p ∧ p.HasOneEntry m.functions) ∧
    ∀ p : Program, p.withEntry.withEntry = p.withEntry ∧ p.KeepsStatements p.withEntry := by
  refine ⟨?_, ?_⟩
  · intro target unit source m h
    obtain ⟨p, hsource, hadd⟩ := CodeModule.of_addSource h
    exact ⟨p, hsource, hasOneEntry_of_lowered hsource (lowered_of_addProgram hadd)⟩
  · intro p
    exact ⟨Program.withEntry_of_declares p.declares_withEntry, p.keepsStatements_withEntry⟩

-- Statements before, between and behind procedures.
def scatteredSource : String :=
  "let a = 1 export proc tick echo 2 end echo a proc tock end a = 3"

-- An entry point that is declared, and last.
def declaringSource : String :=
  "proc tick echo 2 end proc main let a = 1 echo a end"

theorem exactly_one_entry_scattered :
    (∃ m p, (CodeModule.empty "unit").addSource .listing scatteredSource = (m, none) ∧
      Program.ofSource scatteredSource = .ok p ∧ ¬ p.Declares Program.entryName ∧
      p.HasOneEntry m.functions) ∧
    ∃ m p, (CodeModule.empty "unit").addSource .listing declaringSource = (m, none) ∧
      Program.ofSource declaringSource = .ok p ∧ p.Declares Program.entryName ∧
      p.HasOneEntry m.functions := by
  have hscattered : ((CodeModule.empty "unit").addSource .listing scatteredSource).2.isNone ∧
      (Program.ofSource scatteredSource).map Program.declaresEntry = .ok false := by decide +kernel
  have hdeclaring : ((CodeModule.empty "unit").addSource .listing declaringSource).2.isNone ∧
      (Program.ofSource declaringSource).map Program.declaresEntry = .ok true := by decide +kernel
  constructor
  · obtain ⟨m, hadd⟩ : ∃ m,
        (CodeModule.empty "unit").addSource .listing scatteredSource = (m, none) :=
      ⟨_, Prod.ext rfl (Option.isNone_iff_eq_none.mp hscattered.1)⟩
    obtain ⟨p, hp, hentry⟩ := exactly_one_entry.1 hadd
    rw [hp] at hscattered
    refine ⟨m, p, hadd, hp, ?_, hentry⟩
    rw [← Program.declaresEntry_iff, Except.ok.inj hscattered.2]
    decide
  · obtain ⟨m, hadd⟩ : ∃ m,
        (CodeModule.empty "unit").addSource .listing declaringSource = (m, none) :=
      ⟨_, Prod.ext rfl (Option.isNone_iff_eq_none.mp hdeclaring.1)⟩
    obtain ⟨p, hp, hentry⟩ := exactly_one_entry.1 hadd
    rw [hp] at hdeclaring
    exact ⟨m, p, hadd, hp, Program.declaresEntry_iff.mp (Except.ok.inj hdeclaring.2), hentry⟩

end EchoLang
