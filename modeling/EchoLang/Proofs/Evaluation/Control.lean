import EchoLang.Proofs.Evaluation.Implements

namespace EchoLang

open Machine Evaluation

namespace Evaluation

variable {condition : Expr} {body : Evaluation} {mem next : Memory} {d : Datum} {fault : Fault}

-- A round ends the repetition on its own or hands one memory over to the rest.
theorem round_cases (condition : Expr) (body : Evaluation) (mem : Memory) :
    (∃ r, ∀ rest, round condition body rest mem = r) ∨
      ∃ next, ∀ rest, round condition body rest mem = rest next := by
  unfold round withValue
  cases condition.eval mem.vars with
  | error fault => exact .inl ⟨_, fun _ => rfl⟩
  | ok d =>
      by_cases hflag : d.toFlag = true
      · simp only [hflag, if_true]
        cases hbody : body mem with
        | none => exact .inl ⟨none, fun _ => by simp [andThen, hbody]⟩
        | some r =>
            obtain ⟨next, end?⟩ := r
            cases end? with
            | none => exact .inr ⟨next, fun _ => andThen_of_finished hbody⟩
            | some fault => exact .inl ⟨_, fun _ => andThen_of_fault hbody⟩
      · simp only [hflag]
        exact .inl ⟨_, fun _ => rfl⟩

theorem rounds_succ {n : Nat} {r : Memory × Option Fault}
    (h : rounds condition body n mem = some r) : rounds condition body (n + 1) mem = some r := by
  induction n generalizing mem with
  | zero => cases h
  | succ n ih =>
      rw [rounds] at h ⊢
      rcases round_cases condition body mem with ⟨o, ho⟩ | ⟨next, hnext⟩
      · rwa [ho] at h ⊢
      · rw [hnext] at h ⊢
        exact ih h

-- More rounds than are needed change nothing.
theorem rounds_of_le {n k : Nat} (hle : n ≤ k) {r : Memory × Option Fault}
    (h : rounds condition body n mem = some r) : rounds condition body k mem = some r := by
  induction hle with
  | refl => exact h
  | step _ ih => exact rounds_succ ih

theorem repeatWhile_eq_some_iff {r : Memory × Option Fault} :
    repeatWhile condition body mem = some r ↔ ∃ n, rounds condition body n mem = some r := by
  unfold repeatWhile
  constructor
  · intro h
    split at h
    · rename_i hends
      rw [← h]
      exact hends.choose_spec
    · cases h
  · intro ⟨n, hn⟩
    have hends : ∃ r n, rounds condition body n mem = some r := ⟨r, n, hn⟩
    obtain ⟨k, hk⟩ := hends.choose_spec
    have hn' := rounds_of_le (Nat.le_max_left n k) hn
    have hk' := rounds_of_le (Nat.le_max_right n k) hk
    rw [dif_pos hends, ← hk', hn']

-- A repetition is a round followed by the same repetition.
theorem repeatWhile_eq (condition : Expr) (body : Evaluation) (mem : Memory) :
    repeatWhile condition body mem = round condition body (repeatWhile condition body) mem := by
  rcases round_cases condition body mem with ⟨o, ho⟩ | ⟨next, hnext⟩
  · rw [ho]
    apply Option.ext
    intro r
    rw [repeatWhile_eq_some_iff]
    constructor
    · intro ⟨n, hn⟩
      cases n with
      | zero => cases hn
      | succ n => rwa [rounds, ho] at hn
    · intro hr
      exact ⟨1, by rw [rounds, ho, hr]⟩
  · rw [hnext]
    apply Option.ext
    intro r
    rw [repeatWhile_eq_some_iff, repeatWhile_eq_some_iff]
    constructor
    · intro ⟨n, hn⟩
      cases n with
      | zero => cases hn
      | succ n =>
          rw [rounds, hnext] at hn
          exact ⟨n, hn⟩
    · intro ⟨n, hn⟩
      exact ⟨n + 1, by rw [rounds, hnext, hn]⟩

theorem repeatWhile_of_error (h : condition.eval mem.vars = .error fault) :
    repeatWhile condition body mem = some (mem, some fault) := by
  rw [repeatWhile_eq, round, withValue, h]

theorem repeatWhile_of_false (h : condition.eval mem.vars = .ok d) (hd : d.toFlag = false) :
    repeatWhile condition body mem = some (mem, none) := by
  rw [repeatWhile_eq, round, withValue, h]
  simp [hd, done]

theorem repeatWhile_of_true (h : condition.eval mem.vars = .ok d) (hd : d.toFlag = true) :
    repeatWhile condition body mem = body.andThen (repeatWhile condition body) mem := by
  rw [repeatWhile_eq, round, withValue, h]
  simp only [hd, if_true]

-- A repetition that ends does so after finitely many rounds.
theorem repeatWhile_induct {motive : Memory → Memory × Option Fault → Prop}
    (herror : ∀ mem fault, condition.eval mem.vars = .error fault → motive mem (mem, some fault))
    (hfalse : ∀ mem d, condition.eval mem.vars = .ok d → d.toFlag = false → motive mem (mem, none))
    (hfault : ∀ mem d next fault, condition.eval mem.vars = .ok d → d.toFlag = true →
      body mem = some (next, some fault) → motive mem (next, some fault))
    (hagain : ∀ mem d next r, condition.eval mem.vars = .ok d → d.toFlag = true →
      body mem = some (next, none) → repeatWhile condition body next = some r → motive next r →
      motive mem r)
    {r : Memory × Option Fault} (h : repeatWhile condition body mem = some r) : motive mem r := by
  obtain ⟨n, hn⟩ := repeatWhile_eq_some_iff.mp h
  clear h
  induction n generalizing mem with
  | zero => cases hn
  | succ n ih =>
      rw [rounds, round, withValue] at hn
      cases hd : condition.eval mem.vars with
      | error fault =>
          simp only [hd] at hn
          cases hn
          exact herror mem fault hd
      | ok d =>
          simp only [hd] at hn
          cases hflag : d.toFlag with
          | false =>
              simp only [hflag, Bool.false_eq_true, if_false] at hn
              cases hn
              exact hfalse mem d hd hflag
          | true =>
              simp only [hflag, if_true] at hn
              obtain ⟨⟨next, end?⟩, hbody, _⟩ := Option.bind_eq_some_iff.mp hn
              cases end? with
              | some fault =>
                  rw [andThen_of_fault hbody] at hn
                  cases hn
                  exact hfault mem d next fault hd hflag hbody
              | none =>
                  rw [andThen_of_finished hbody] at hn
                  have hnext := repeatWhile_eq_some_iff.mpr ⟨n, hn⟩
                  exact hagain mem d next r hd hflag hbody hnext (ih hn)

end Evaluation

namespace Setting

variable {S : Setting} {config : MachineConfig} {s t : State} {mem : Memory} {label : Label}
  {good : Flow → State → Prop} {bad : Trap → State → Prop}

theorem ends_branch (hstop : s.steps = config.maxSteps → bad (.stepLimit config.maxSteps) s)
    (hgo : ∀ trace, good (.branch label) { s with steps := s.steps + 1, trace := trace }) :
    Ends (S.exec config [.branch label]) s good bad := by
  unfold exec
  rw [execBody_singleton, execInstr_eq, ends_bind, ends_countStep]
  split
  · rename_i hlimit
    exact hstop hlimit
  · simp only [perform, ends_bind, ends_record, ends_pure]
    exact hgo _

theorem ends_branchIf {n : Int32}
    (hstop : s.steps = config.maxSteps →
      bad (.stepLimit config.maxSteps) (s.push (.i32 n)))
    (hgo : ∀ trace, good (if n = 0 then .next else .branch label)
      { s with steps := s.steps + 1, trace := trace }) :
    Ends (S.exec config [.branchIf label]) (s.push (.i32 n)) good bad := by
  unfold exec
  rw [execBody_singleton, execInstr_eq, ends_bind, ends_countStep]
  split
  · rename_i hlimit
    exact hstop hlimit
  · simp only [perform, ends_bind, ends_record, ends_pure]
    exact hgo _

theorem ends_block {body : List Instr}
    (hstop : s.steps = config.maxSteps → bad (.stepLimit config.maxSteps) s)
    (hgo : ∀ trace, s.steps ≠ config.maxSteps →
      Ends (S.exec config body) { s with steps := s.steps + 1, trace := trace }
        (fun flow t =>
          if flow = .branch label then good .next (cut s.stack.length t) else good flow t)
        bad) :
    Ends (S.exec config [.block label body]) s good bad := by
  unfold exec
  rw [execBody_singleton, execInstr_eq, ends_bind, ends_countStep]
  split
  · rename_i hlimit
    exact hstop hlimit
  · rename_i hlimit
    simp only [perform, ends_bind, ends_record, ends_runBlock]
    exact hgo _ hlimit

theorem ends_loop {body : List Instr}
    (hstop : s.steps = config.maxSteps → bad (.stepLimit config.maxSteps) s)
    (hgo : ∀ trace, s.steps ≠ config.maxSteps →
      Ends (loopFrom config label s.stack.length (S.exec config body))
        { s with steps := s.steps + 1, trace := trace } good bad) :
    Ends (S.exec config [.loop label body]) s good bad := by
  unfold exec
  rw [execBody_singleton, execInstr_eq, ends_bind, ends_countStep]
  split
  · rename_i hlimit
    exact hstop hlimit
  · rename_i hlimit
    simp only [perform, ends_bind, ends_record]
    exact hgo _ hlimit

theorem ends_isZero {n : Int32}
    (hstop : s.steps = config.maxSteps →
      bad (.stepLimit config.maxSteps) (s.push (.i32 n)))
    (hgo : ∀ trace, good .next
      (State.push { s with steps := s.steps + 1, trace := trace } (.i32 (flag (n = 0))))) :
    Ends (S.exec config [.operate .isZero]) (s.push (.i32 n)) good bad := by
  unfold exec
  rw [execBody_singleton, ends_operate]
  split
  · rename_i hlimit
    exact hstop hlimit
  · exact hgo (recorded config S.function (.operate .isZero)
      (State.push { s with steps := s.steps + 1 } (.i32 (flag (n = 0)))))

-- Steps stay within their limit.
theorem ends_within {code : List Instr} (h : Ends (S.exec config code) s good bad)
    (hle : s.steps ≤ config.maxSteps) :
    Ends (S.exec config code) s (fun flow t => good flow t ∧ t.steps ≤ config.maxSteps) bad := by
  refine (h.and (exec_progresses code s)).imp ?_ fun _ _ h => h.1
  rintro flow t ⟨hgood, hadvance, _⟩
  exact ⟨hgood, hadvance.within hle⟩

-- A guard goes on if its condition holds and leaves the block if not.
theorem ends_guard (config : MachineConfig) (label : Label) {slots : Slots} {condition : Expr}
    {test : List Operation}
    (htest : condition.lowerAs slots .flag = .ok test) (hext : S.slots.Extends slots)
    (hs : S.Represents mem s) :
    Ends (S.exec config (guardCode label test)) s
      (fun flow t => t.steps = s.steps + (test.length + 2) ∧ t.stack = s.stack ∧
        S.Represents mem t ∧ ∃ d, condition.eval mem.vars = .ok d ∧
          flow = if d.toFlag then .next else .branch label)
      (Interrupted config (condition.eval mem.vars) (test.length + 2) s) := by
  have hcode : guardCode label test =
      straight test ++ ([.operate .isZero] ++ [.branchIf label]) := by
    simp [guardCode, straight]
  rw [hcode, exec_append, ends_bind]
  refine (ends_lowerAs htest hext hs).imp ?_ ?_
  · rintro flow t ⟨rfl, d, trace, hd, rfl⟩
    change Ends (S.exec config _) _ _ _
    rw [exec_append, ends_bind]
    refine ends_isZero (s := { s with steps := s.steps + test.length, trace := trace }) ?_ ?_
    · intro hlimit
      exact ⟨rfl, .inl ⟨rfl, by dsimp only at hlimit; omega⟩⟩
    · intro trace
      refine ends_branchIf
        (s := { s with steps := s.steps + test.length + 1, trace := trace }) ?_ ?_
      · intro hlimit
        exact ⟨rfl, .inl ⟨rfl, by dsimp only at hlimit; omega⟩⟩
      · intro trace
        refine ⟨rfl, rfl, hs.congr rfl rfl, d, hd, ?_⟩
        cases d.toFlag <;> rfl
  · rintro trap t ⟨hprinted, hcause⟩
    refine ⟨hprinted, hcause.imp ?_ id⟩
    rintro ⟨htrap, hlimit⟩
    exact ⟨htrap, by omega⟩

theorem implements_ifThen (id : Nat) {slots : Slots} {condition : Expr} {test : List Operation}
    {code : List Instr} {e : Evaluation} (htest : condition.lowerAs slots .flag = .ok test)
    (hext : S.slots.Extends slots) (hcode : S.Implements code e) :
    S.Implements [ifThenCode id test code]
      (withValue condition fun d => if d.toFlag then e else done) := by
  intro mem
  obtain ⟨n, hn⟩ := hcode mem
  refine ⟨1 + (test.length + 2) + n, fun config s hle hs => ?_⟩
  refine ends_block ?_ ?_
  · intro hlimit
    exact stopped_of_limit rfl (by omega)
  · intro trace hlimit
    rw [exec_append, ends_bind]
    have hguard := ends_guard config ⟨.ifThen, id⟩ htest hext
      (hs.congr (t := { s with steps := s.steps + 1, trace := trace }) rfl rfl)
    refine (ends_within hguard (by dsimp only; omega)).imp ?_ ?_
    · rintro flow t ⟨⟨hsteps, hstack, hrep, d, hd, rfl⟩, hwithin⟩
      dsimp only at hsteps hstack
      rw [withValue_of_ok hd]
      cases d.toFlag with
      | false =>
          have hcut : cut s.stack.length t = t := cut_eq_self (by rw [hstack])
          simp only [continueWith, Bool.false_eq_true, if_false, ends_pure, if_true, hcut]
          exact ⟨trivial, by omega, hstack, mem, rfl, hrep⟩
      | true =>
          refine (hn config t hwithin hrep).imp ?_ ?_
          · rintro flow u ⟨rfl, hfin⟩
            exact ⟨rfl, hfin.mono (by omega) hstack⟩
          · intro trap u hstop
            exact hstop.mono (by omega)
    · intro trap t ht
      exact ht.stopped (hs.congr rfl rfl) (fun fault => withValue_of_error) (by dsimp only; omega)

theorem implements_ifElse (id : Nat) {slots : Slots} {condition : Expr} {test : List Operation}
    {first second : List Instr} {e e' : Evaluation}
    (htest : condition.lowerAs slots .flag = .ok test) (hext : S.slots.Extends slots)
    (hfirst : S.Implements first e) (hsecond : S.Implements second e') :
    S.Implements [ifElseCode id test first second]
      (withValue condition fun d => if d.toFlag then e else e') := by
  intro mem
  obtain ⟨n, hn⟩ := hfirst mem
  obtain ⟨k, hk⟩ := hsecond mem
  refine ⟨2 + (test.length + 2) + (n + 1) + k, fun config s hle hs => ?_⟩
  refine ends_block ?_ ?_
  · intro hlimit
    exact stopped_of_limit rfl (by omega)
  · intro trace hlimit
    rw [exec_cons, ends_bind]
    refine ends_block ?_ ?_
    · intro hlimit
      exact stopped_of_limit rfl (by dsimp only at hlimit; omega)
    · intro trace hlimit
      dsimp only at hlimit
      rw [List.append_assoc, exec_append, ends_bind]
      have hguard := ends_guard config ⟨.ifThen, id⟩ htest hext
        (hs.congr (t := { s with steps := s.steps + 1 + 1, trace := trace }) rfl rfl)
      refine (ends_within hguard (by dsimp only; omega)).imp ?_ ?_
      · rintro flow t ⟨⟨hsteps, hstack, hrep, d, hd, rfl⟩, hwithin⟩
        dsimp only at hsteps hstack
        have hcut : cut s.stack.length t = t := cut_eq_self (by rw [hstack])
        rw [withValue_of_ok hd]
        cases d.toFlag with
        | false =>
            -- the inner block has been left and the second body follows
            simp only [continueWith, Bool.false_eq_true, if_false, ends_pure, if_true, hcut]
            refine (hk config t hwithin hrep).imp ?_ ?_
            · rintro flow u ⟨rfl, hfin⟩
              exact ⟨rfl, hfin.mono (by omega) hstack⟩
            · intro trap u hstop
              exact hstop.mono (by omega)
        | true =>
            change Ends (S.exec config _) _ _ _
            rw [exec_append, ends_bind]
            refine (hn config t hwithin hrep).imp ?_ ?_
            · rintro flow u ⟨rfl, hfin⟩
              have husteps := hfin.steps_le
              refine ends_branch ?_ ?_
              · intro hlimit
                exact stopped_of_limit rfl (by omega)
              · intro trace
                have hcutu : cut s.stack.length { u with steps := u.steps + 1, trace := trace } =
                    { u with steps := u.steps + 1, trace := trace } :=
                  cut_eq_self (by dsimp only; rw [hfin.stack_eq, hstack])
                obtain ⟨next, hnext, hmem⟩ := hfin.memory
                simp only [Flow.branch.injEq, Label.mk.injEq, reduceCtorEq, false_and, if_false,
                  continueWith, ends_pure, if_true, hcutu]
                exact ⟨trivial, by dsimp only; omega, hfin.stack_eq.trans hstack, next, hnext,
                  hmem.congr rfl rfl⟩
            · intro trap u hstop
              exact hstop.mono (by omega)
      · intro trap t ht
        exact ht.stopped (hs.congr rfl rfl) (fun fault => withValue_of_error)
          (by dsimp only; omega)

def roundCode (id : Nat) (test : List Operation) (code : List Instr) : List Instr :=
  guardCode ⟨.whileExit, id⟩ test ++ code ++ [.branch ⟨.whileLoop, id⟩]

section Loop

variable {slots : Slots} {condition : Expr} {test : List Operation} {code : List Instr}
  {e : Evaluation}

-- A round that does not trap leaves the loop if the condition fails, and goes back
-- to its start with the memory that the body leaves if not.
theorem ends_round (id : Nat) {n : Nat} (htest : condition.lowerAs slots .flag = .ok test)
    (hext : S.slots.Extends slots) (hle : s.steps ≤ config.maxSteps) (hs : S.Represents mem s)
    (hn : ∀ s, s.steps ≤ config.maxSteps → S.Represents mem s → Ends (S.exec config code) s
      (fun flow t => flow = .next ∧ S.Finished (e mem) n s t) (Stopped config (e mem) n s)) :
    Ends (S.exec config (roundCode id test code)) s
      (fun flow t => t.steps ≤ s.steps + (test.length + 3 + n) ∧ t.stack = s.stack ∧
        ∃ d, condition.eval mem.vars = .ok d ∧
          ((d.toFlag = false ∧ flow = .branch ⟨.whileExit, id⟩ ∧ S.Represents mem t) ∨
            (d.toFlag = true ∧ flow = .branch ⟨.whileLoop, id⟩ ∧
              ∃ next, e mem = some (next, none) ∧ S.Represents next t)))
      (Stopped config (repeatWhile condition e mem) (test.length + 3 + n) s) := by
  unfold roundCode
  rw [List.append_assoc, exec_append, ends_bind]
  refine (ends_within (ends_guard config _ htest hext hs) hle).imp ?_ ?_
  · rintro flow t ⟨⟨hsteps, hstack, hrep, d, hd, rfl⟩, hwithin⟩
    cases hflag : d.toFlag with
    | false => exact ⟨by omega, hstack, d, hd, .inl ⟨hflag, rfl, hrep⟩⟩
    | true =>
        change Ends (S.exec config _) _ _ _
        rw [exec_append, ends_bind, repeatWhile_of_true hd hflag]
        refine (hn t hwithin hrep).imp ?_ ?_
        · rintro flow u ⟨rfl, hfin⟩
          have husteps := hfin.steps_le
          refine ends_branch ?_ ?_
          · intro hlimit
            exact stopped_of_limit rfl (by omega)
          · intro trace
            obtain ⟨next, hnext, hmem⟩ := hfin.memory
            exact ⟨by dsimp only; omega, hfin.stack_eq.trans hstack, d, hd,
              .inr ⟨hflag, rfl, next, hnext, hmem.congr rfl rfl⟩⟩
        · rintro trap u (⟨htrap, hlimit⟩ | ⟨fault, next, htrap, hnext, hprinted⟩)
          · refine .inl ⟨htrap, fun hend => ?_⟩
            have hlt := hlimit fun hnone => hend (andThen_of_none hnone)
            omega
          · exact .inr ⟨fault, next, htrap, andThen_of_fault hnext, hprinted⟩
  · intro trap t ht
    exact ht.stopped hs (fun fault => repeatWhile_of_error) (by omega)

-- The loop from a state on, by what its next round does.
theorem ends_loopFrom_of_round (id : Nat) {n : Nat}
    (htest : condition.lowerAs slots .flag = .ok test)
    (hext : S.slots.Extends slots) (hle : s.steps ≤ config.maxSteps) (hs : S.Represents mem s)
    (hn : ∀ s, s.steps ≤ config.maxSteps → S.Represents mem s → Ends (S.exec config code) s
      (fun flow t => flow = .next ∧ S.Finished (e mem) n s t) (Stopped config (e mem) n s))
    (hexit : ∀ d t, condition.eval mem.vars = .ok d → d.toFlag = false →
      t.steps ≤ s.steps + (test.length + 3 + n) → t.stack = s.stack → S.Represents mem t →
      good (.branch ⟨.whileExit, id⟩) t)
    (hagain : ∀ d t next, condition.eval mem.vars = .ok d → d.toFlag = true →
      e mem = some (next, none) → s.steps < t.steps → t.steps ≤ config.maxSteps →
      t.steps ≤ s.steps + (test.length + 3 + n) → t.stack = s.stack → S.Represents next t →
      Ends (loopFrom config ⟨.whileLoop, id⟩ s.stack.length
          (S.exec config (roundCode id test code)))
        t good bad)
    (hstop : ∀ trap t,
      Stopped config (repeatWhile condition e mem) (test.length + 3 + n) s trap t → bad trap t) :
    Ends (loopFrom config ⟨.whileLoop, id⟩ s.stack.length (S.exec config (roundCode id test code)))
      s good bad := by
  rw [ends_loopFrom (exec_progresses _) hle]
  refine ((ends_round id htest hext hle hs hn).and (exec_progresses _ s)).imp ?_ ?_
  · rintro flow t ⟨⟨hsteps, hstack, d, hd, ⟨hflag, rfl, hrep⟩ | ⟨hflag, rfl, next, hnext, hrep⟩⟩,
      hadvance, hlt⟩
    · rw [if_neg (by simp)]
      exact hexit d t hd hflag hsteps hstack hrep
    · rw [if_pos rfl, cut_eq_self (by rw [hstack])]
      exact hagain d t next hd hflag hnext (hlt (by simp)) (hadvance.within hle) hsteps hstack hrep
  · intro trap t ht
    exact hstop trap t ht.1

-- Nothing but the limit ends a repetition that has no end.
theorem ends_loopFrom_of_none (id : Nat) (htest : condition.lowerAs slots .flag = .ok test)
    (hext : S.slots.Extends slots) (hcode : S.Implements code e)
    (hnone : repeatWhile condition e mem = none) (hle : s.steps ≤ config.maxSteps)
    (hs : S.Represents mem s) :
    Ends (loopFrom config ⟨.whileLoop, id⟩ s.stack.length (S.exec config (roundCode id test code)))
      s (fun _ _ => False) (fun trap _ => trap = .stepLimit config.maxSteps) := by
  -- each round that comes to its end leaves fewer steps for the others
  induction hleft : config.maxSteps - s.steps using Nat.strongRecOn generalizing s mem with
  | ind left ih =>
      obtain ⟨n, hn⟩ := hcode mem
      refine ends_loopFrom_of_round id htest hext hle hs (hn config) ?_ ?_ ?_
      · intro d t hd hflag _ _ _
        rw [repeatWhile_of_false hd hflag] at hnone
        cases hnone
      · intro d t next hd hflag hnext hlt hwithin _ hstack hrep
        rw [repeatWhile_of_true hd hflag, andThen_of_finished hnext] at hnone
        rw [← hstack]
        exact ih (config.maxSteps - t.steps) (by omega) hnone hwithin hrep rfl
      · rintro trap t (⟨htrap, _⟩ | ⟨fault, next, _, hsome, _⟩)
        · exact htrap
        · rw [hnone] at hsome
          cases hsome

-- From the memory on, the loop leaves through its exit in the end, or traps, as
-- the outcome tells.
def LoopEnds (S : Setting) (id : Nat) (test : List Operation) (code : List Instr) (mem : Memory)
    (outcome : Option (Memory × Option Fault)) : Prop :=
  ∃ n, ∀ config s, s.steps ≤ config.maxSteps → S.Represents mem s →
    Ends (loopFrom config ⟨.whileLoop, id⟩ s.stack.length
        (S.exec config (roundCode id test code))) s
      (fun flow t => flow = .branch ⟨.whileExit, id⟩ ∧ S.Finished outcome n s t)
      (Stopped config outcome n s)

-- By induction on the rounds. Each of them needs some number of steps.
theorem loopEnds_of_some (id : Nat) (htest : condition.lowerAs slots .flag = .ok test)
    (hext : S.slots.Extends slots) (hcode : S.Implements code e) {r : Memory × Option Fault}
    (hr : repeatWhile condition e mem = some r) : S.LoopEnds id test code mem (some r) := by
  refine repeatWhile_induct (motive := fun mem r => S.LoopEnds id test code mem (some r))
    ?_ ?_ ?_ ?_ hr
  · intro mem fault herror
    obtain ⟨n, hn⟩ := hcode mem
    refine ⟨test.length + 3 + n, fun config s hle hs => ?_⟩
    refine ends_loopFrom_of_round id htest hext hle hs (hn config) ?_ ?_ ?_
    · intro d t hd
      cases herror.symm.trans hd
    · intro d t next hd
      cases herror.symm.trans hd
    · intro trap t hstop
      rwa [repeatWhile_of_error herror] at hstop
  · intro mem d hd hflag
    obtain ⟨n, hn⟩ := hcode mem
    refine ⟨test.length + 3 + n, fun config s hle hs => ?_⟩
    refine ends_loopFrom_of_round id htest hext hle hs (hn config) ?_ ?_ ?_
    · intro d' t hd' hflag' hsteps hstack hrep
      exact ⟨rfl, hsteps, hstack, mem, rfl, hrep⟩
    · intro d' t next hd' hflag'
      cases hd.symm.trans hd'
      cases hflag.symm.trans hflag'
    · intro trap t hstop
      rwa [repeatWhile_of_false hd hflag] at hstop
  · intro mem d next fault hd hflag hnext
    obtain ⟨n, hn⟩ := hcode mem
    refine ⟨test.length + 3 + n, fun config s hle hs => ?_⟩
    refine ends_loopFrom_of_round id htest hext hle hs (hn config) ?_ ?_ ?_
    · intro d' t hd' hflag'
      cases hd.symm.trans hd'
      cases hflag.symm.trans hflag'
    · intro d' t next' hd' hflag' hnext'
      cases hnext.symm.trans hnext'
    · intro trap t hstop
      rwa [repeatWhile_of_true hd hflag, andThen_of_fault hnext] at hstop
  · intro mem d next r hd hflag hnext hrest ih
    obtain ⟨n, hn⟩ := hcode mem
    obtain ⟨k, hk⟩ := ih
    refine ⟨test.length + 3 + n + k, fun config s hle hs => ?_⟩
    refine ends_loopFrom_of_round id htest hext hle hs (hn config) ?_ ?_ ?_
    · intro d' t hd' hflag'
      cases hd.symm.trans hd'
      cases hflag.symm.trans hflag'
    · intro d' t next' hd' hflag' hnext' _ hwithin hsteps hstack hrep
      cases hnext.symm.trans hnext'
      rw [← hstack]
      refine (hk config t hwithin hrep).imp ?_ ?_
      · rintro flow u ⟨hflow, hfin⟩
        exact ⟨hflow, hfin.mono (by omega) hstack⟩
      · intro trap u hstop
        exact hstop.mono (by omega)
    · intro trap t hstop
      rw [repeatWhile_of_true hd hflag, andThen_of_finished hnext, hrest] at hstop
      exact hstop.mono (by omega)

theorem loopEnds_repeatWhile (id : Nat) (htest : condition.lowerAs slots .flag = .ok test)
    (hext : S.slots.Extends slots) (hcode : S.Implements code e) (mem : Memory) :
    S.LoopEnds id test code mem (repeatWhile condition e mem) := by
  cases hr : repeatWhile condition e mem with
  | some r => exact loopEnds_of_some id htest hext hcode hr
  | none =>
      refine ⟨0, fun config s hle hs => ?_⟩
      refine (ends_loopFrom_of_none id htest hext hcode hr hle hs).imp ?_ ?_
      · intro flow t hfalse
        exact hfalse.elim
      · intro trap t htrap
        exact .inl ⟨htrap, fun hend => absurd rfl hend⟩

theorem implements_loop (id : Nat) (htest : condition.lowerAs slots .flag = .ok test)
    (hext : S.slots.Extends slots) (hcode : S.Implements code e) :
    S.Implements [loopCode id test code] (repeatWhile condition e) := by
  intro mem
  obtain ⟨n, hn⟩ := loopEnds_repeatWhile id htest hext hcode mem
  refine ⟨n + 2, fun config s hle hs => ?_⟩
  refine ends_block ?_ ?_
  · intro hlimit
    exact stopped_of_limit rfl (by omega)
  · intro trace hlimit
    refine ends_loop ?_ ?_
    · intro hlimit
      exact stopped_of_limit rfl (by dsimp only at hlimit; omega)
    · intro trace hlimit
      dsimp only at hlimit
      refine (hn config { s with steps := s.steps + 1 + 1, trace := trace }
        (by dsimp only; omega) (hs.congr rfl rfl)).imp ?_ ?_
      · rintro flow t ⟨rfl, hfin⟩
        rw [if_pos rfl, cut_eq_self (by rw [hfin.stack_eq])]
        exact ⟨rfl, hfin.mono (by dsimp only; omega) rfl⟩
      · intro trap t hstop
        exact hstop.mono (by dsimp only; omega)

end Loop

-- Lowered code does what its statements do.
theorem implements_of_lowers {ctx after : Context} {body : List Stmt} {code : List Instr}
    (h : Lowers ctx body code after) (hext : S.slots.Extends after.slots) :
    S.Implements code (evalBody body) := by
  induction h with
  | nil => exact implements_nil
  | echo hvalue later ih =>
      have hfirst := implements_echo hvalue (hext.trans later.extends)
      rw [List.append_cons, evalBody, Stmt.eval]
      exact hfirst.append (ih hext)
  | declare hvalue later ih =>
      have hdeclared := hext.trans later.extends
      have hfirst := implements_set hvalue (hdeclared.trans (Slots.declare_extends _ _))
        (Slots.resolve?_of_extends hdeclared (Slots.resolve?_declare _ _))
      rw [evalBody, Stmt.eval]
      exact hfirst.append (ih hext)
  | assign hvalue hslot later ih =>
      have hknown := hext.trans later.extends
      have hfirst := implements_set hvalue hknown (Slots.resolve?_of_extends hknown hslot)
      rw [evalBody, Stmt.eval]
      exact hfirst.append (ih hext)
  | loop hlimit htest inner later ihInner ihLater =>
      have hnext := hext.trans later.extends
      rw [evalBody, Stmt.eval]
      exact (implements_loop _ htest (hnext.trans inner.extends) (ihInner hnext)).append
        (ihLater hext)
  | ifThen hlimit htest inner later ihInner ihLater =>
      have hnext := hext.trans later.extends
      rw [evalBody, Stmt.eval]
      exact (implements_ifThen _ htest (hnext.trans inner.extends) (ihInner hnext)).append
        (ihLater hext)
  | ifElse hlimit htest innerFirst innerSecond later ihFirst ihSecond ihLater =>
      have hnext := hext.trans later.extends
      have hmiddle := hnext.trans innerSecond.extends
      rw [evalBody, Stmt.eval]
      exact (implements_ifElse _ htest (hmiddle.trans innerFirst.extends)
        (ihFirst hmiddle) (ihSecond hnext)).append (ihLater hext)

end Setting

end EchoLang
