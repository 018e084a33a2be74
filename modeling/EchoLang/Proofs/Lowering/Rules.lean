import EchoLang.Lowering.Stmt
import EchoLang.Proofs.Except
import EchoLang.Proofs.Lowering.Slots

namespace EchoLang

-- The context behind a number that was given out.
def Context.afterLabel (ctx : Context) : Context :=
  { ctx with labels := ⟨ctx.labels.next + 1⟩ }

@[simp] theorem Context.next_afterLabel (ctx : Context) :
    ctx.afterLabel.labels.next = ctx.labels.next + 1 := rfl

theorem Context.of_takeLabel {ctx inside : Context} {loc : Location} {id : Nat}
    (h : ctx.takeLabel loc = .ok (id, inside)) :
    ctx.labels.next ≠ LabelCounter.limit ∧ id = ctx.labels.next ∧ inside = ctx.afterLabel := by
  obtain ⟨⟨number, labels⟩, htake, h⟩ := exists_of_bind_eq_ok h
  injection h with h
  injection h with hid hinside
  subst hid hinside
  unfold LabelCounter.take at htake
  split at htake
  · cases htake
  · rename_i hlimit
    injection htake with htake
    injection htake with hnumber hlabels
    subst hnumber hlabels
    exact ⟨hlimit, rfl, rfl⟩

theorem Slots.of_require {slots : Slots} {name : String} {loc : Location} {slot : Nat}
    (h : slots.require name loc = .ok slot) : slots.resolve? name = some slot := by
  unfold Slots.require at h
  split at h
  · rename_i hslot
    injection h with h
    rw [hslot, h]
  · cases h

-- The code that leaves the block of the given label if the test fails.
def guardCode (label : Label) (test : List Operation) : List Instr :=
  straight (test ++ [.isZero]) ++ [.branchIf label]

def loopCode (id : Nat) (test : List Operation) (body : List Instr) : Instr :=
  .block ⟨.whileExit, id⟩ [.loop ⟨.whileLoop, id⟩
    (guardCode ⟨.whileExit, id⟩ test ++ body ++ [.branch ⟨.whileLoop, id⟩])]

def ifThenCode (id : Nat) (test : List Operation) (body : List Instr) : Instr :=
  .block ⟨.ifThen, id⟩ (guardCode ⟨.ifThen, id⟩ test ++ body)

def ifElseCode (id : Nat) (test : List Operation) (first second : List Instr) : Instr :=
  .block ⟨.ifExit, id⟩ (.block ⟨.ifThen, id⟩
    (guardCode ⟨.ifThen, id⟩ test ++ first ++ [.branch ⟨.ifExit, id⟩]) :: second)

-- Statements become code in a context and leave another one behind.
inductive Lowers : Context → List Stmt → List Instr → Context → Prop where
  | nil {ctx : Context} : Lowers ctx [] [] ctx
  | echo {ctx after : Context} {value : Expr} {loc : Location} {code : List Operation}
      {rest : List Stmt} {others : List Instr}
      (hvalue : value.lowerAs ctx.slots .float = .ok code)
      (later : Lowers ctx rest others after) :
      Lowers ctx (.echo value loc :: rest)
        (straight code ++ .call Effect.echo.name :: others) after
  | declare {ctx after : Context} {name : String} {value : Expr} {loc : Location}
      {code : List Operation} {rest : List Stmt} {others : List Instr}
      (hvalue : value.lowerAs ctx.slots .float = .ok code)
      (later : Lowers (ctx.declare name).2 rest others after) :
      Lowers ctx (.declare name value loc :: rest)
        (straight (code ++ [.set (ctx.declare name).1]) ++ others) after
  | assign {ctx after : Context} {name : String} {value : Expr} {loc : Location} {slot : Nat}
      {code : List Operation} {rest : List Stmt} {others : List Instr}
      (hvalue : value.lowerAs ctx.slots .float = .ok code)
      (hslot : ctx.slots.resolve? name = some slot)
      (later : Lowers ctx rest others after) :
      Lowers ctx (.assign name value loc :: rest)
        (straight (code ++ [.set slot]) ++ others) after
  | loop {ctx next after : Context} {condition : Expr} {body rest : List Stmt} {loc : Location}
      {test : List Operation} {code others : List Instr}
      (hlimit : ctx.labels.next ≠ LabelCounter.limit)
      (htest : condition.lowerAs ctx.slots .flag = .ok test)
      (inner : Lowers ctx.afterLabel body code next)
      (later : Lowers next rest others after) :
      Lowers ctx (.loop condition body loc :: rest)
        (loopCode ctx.labels.next test code :: others) after
  | ifThen {ctx next after : Context} {condition : Expr} {body rest : List Stmt} {loc : Location}
      {test : List Operation} {code others : List Instr}
      (hlimit : ctx.labels.next ≠ LabelCounter.limit)
      (htest : condition.lowerAs ctx.slots .flag = .ok test)
      (inner : Lowers ctx.afterLabel body code next)
      (later : Lowers next rest others after) :
      Lowers ctx (.ifThen condition body loc :: rest)
        (ifThenCode ctx.labels.next test code :: others) after
  | ifElse {ctx middle next after : Context} {condition : Expr} {first second rest : List Stmt}
      {loc : Location} {test : List Operation} {firstCode secondCode others : List Instr}
      (hlimit : ctx.labels.next ≠ LabelCounter.limit)
      (htest : condition.lowerAs ctx.slots .flag = .ok test)
      (innerFirst : Lowers ctx.afterLabel first firstCode middle)
      (innerSecond : Lowers middle second secondCode next)
      (later : Lowers next rest others after) :
      Lowers ctx (.ifElse condition first second loc :: rest)
        (ifElseCode ctx.labels.next test firstCode secondCode :: others) after

theorem of_lowerGuard {slots : Slots} {label : Label} {condition : Expr} {code : List Instr}
    (h : condition.lowerGuard slots label = .ok code) :
    ∃ test, condition.lowerAs slots .flag = .ok test ∧ code = guardCode label test := by
  obtain ⟨test, htest, h⟩ := exists_of_bind_eq_ok h
  injection h with h
  exact ⟨test, htest, h.symm⟩

mutual

theorem lowers_cons : ∀ (stmt : Stmt) {ctx middle after : Context} {code others : List Instr}
    {rest : List Stmt}, stmt.lower ctx = .ok (code, middle) → Lowers middle rest others after →
      Lowers ctx (stmt :: rest) (code ++ others) after
  | .echo value loc, ctx, middle, after, code, others, rest, h, later => by
      rw [Stmt.lower] at h
      obtain ⟨ops, hvalue, h⟩ := exists_of_bind_eq_ok h
      cases h
      simpa using Lowers.echo hvalue later
  | .declare name value loc, ctx, middle, after, code, others, rest, h, later => by
      rw [Stmt.lower] at h
      obtain ⟨ops, hvalue, h⟩ := exists_of_bind_eq_ok h
      cases h
      exact Lowers.declare hvalue later
  | .assign name value loc, ctx, middle, after, code, others, rest, h, later => by
      rw [Stmt.lower] at h
      obtain ⟨ops, hvalue, h⟩ := exists_of_bind_eq_ok h
      obtain ⟨slot, hslot, h⟩ := exists_of_bind_eq_ok h
      cases h
      exact Lowers.assign hvalue (Slots.of_require hslot) later
  | .loop condition body loc, ctx, middle, after, code, others, rest, h, later => by
      rw [Stmt.lower] at h
      obtain ⟨⟨id, inside⟩, hlabel, h⟩ := exists_of_bind_eq_ok h
      obtain ⟨hlimit, rfl, rfl⟩ := Context.of_takeLabel hlabel
      obtain ⟨guard, hguard, h⟩ := exists_of_bind_eq_ok h
      obtain ⟨test, htest, rfl⟩ := of_lowerGuard hguard
      obtain ⟨⟨inner, next⟩, hinner, h⟩ := exists_of_bind_eq_ok h
      cases h
      exact Lowers.loop hlimit htest (lowers_of_lowerBody body hinner) later
  | .ifThen condition body loc, ctx, middle, after, code, others, rest, h, later => by
      rw [Stmt.lower] at h
      obtain ⟨⟨id, inside⟩, hlabel, h⟩ := exists_of_bind_eq_ok h
      obtain ⟨hlimit, rfl, rfl⟩ := Context.of_takeLabel hlabel
      obtain ⟨guard, hguard, h⟩ := exists_of_bind_eq_ok h
      obtain ⟨test, htest, rfl⟩ := of_lowerGuard hguard
      obtain ⟨⟨inner, next⟩, hinner, h⟩ := exists_of_bind_eq_ok h
      cases h
      exact Lowers.ifThen hlimit htest (lowers_of_lowerBody body hinner) later
  | .ifElse condition first second loc, ctx, middle, after, code, others, rest, h, later => by
      rw [Stmt.lower] at h
      obtain ⟨⟨id, inside⟩, hlabel, h⟩ := exists_of_bind_eq_ok h
      obtain ⟨hlimit, rfl, rfl⟩ := Context.of_takeLabel hlabel
      obtain ⟨guard, hguard, h⟩ := exists_of_bind_eq_ok h
      obtain ⟨test, htest, rfl⟩ := of_lowerGuard hguard
      obtain ⟨⟨firstCode, between⟩, hfirst, h⟩ := exists_of_bind_eq_ok h
      obtain ⟨⟨secondCode, next⟩, hsecond, h⟩ := exists_of_bind_eq_ok h
      cases h
      exact Lowers.ifElse hlimit htest (lowers_of_lowerBody first hfirst)
        (lowers_of_lowerBody second hsecond) later
  | .procedure name exported body loc, ctx, middle, after, code, others, rest, h, later => by
      rw [Stmt.lower] at h
      cases h

-- Every successful lowering follows the rules.
theorem lowers_of_lowerBody : ∀ (body : List Stmt) {ctx after : Context} {code : List Instr},
    lowerBody body ctx = .ok (code, after) → Lowers ctx body code after
  | [], ctx, after, code, h => by
      rw [lowerBody] at h
      cases h
      exact .nil
  | stmt :: rest, ctx, after, code, h => by
      rw [lowerBody] at h
      obtain ⟨⟨first, middle⟩, hfirst, h⟩ := exists_of_bind_eq_ok h
      obtain ⟨⟨others, last⟩, hothers, h⟩ := exists_of_bind_eq_ok h
      cases h
      exact lowers_cons stmt hfirst (lowers_of_lowerBody rest hothers)

end

-- There is a number as long as the last one has not been reached.
theorem takeLabel_of_ne {ctx : Context} (h : ctx.labels.next ≠ LabelCounter.limit)
    (loc : Location) : ctx.takeLabel loc = .ok (ctx.labels.next, ctx.afterLabel) := by
  unfold Context.takeLabel LabelCounter.take
  rw [if_neg h]
  rfl

-- A `while` and an `if` begin with a label and a guard.
theorem opening_eq {ctx : Context} {condition : Expr} {test : List Operation} {α : Type}
    (hlimit : ctx.labels.next ≠ LabelCounter.limit)
    (htest : condition.lowerAs ctx.slots .flag = .ok test) (label : Nat → Label) (loc : Location)
    (next : Nat × Context → List Instr → Except CompileError α) :
    (ctx.takeLabel loc >>= fun inside =>
      condition.lowerGuard inside.2.slots (label inside.1) >>= next inside) =
    next (ctx.labels.next, ctx.afterLabel) (guardCode (label ctx.labels.next) test) := by
  rw [takeLabel_of_ne hlimit]
  change condition.lowerGuard ctx.slots _ >>= _ = _
  unfold Expr.lowerGuard
  rw [htest]
  rfl

theorem lowerBody_cons {stmt : Stmt} {rest : List Stmt} {ctx middle after : Context}
    {code others : List Instr} (h : stmt.lower ctx = .ok (code, middle))
    (hrest : lowerBody rest middle = .ok (others, after)) :
    lowerBody (stmt :: rest) ctx = .ok (code ++ others, after) := by
  rw [lowerBody, h]
  change lowerBody rest middle >>= _ = _
  rw [hrest]
  rfl

theorem lowerBody_cons_scope {stmt : Stmt} {rest : List Stmt} {ctx middle after : Context}
    {scope : Instr} {others : List Instr} (h : stmt.lower ctx = .ok ([scope], middle))
    (hrest : lowerBody rest middle = .ok (others, after)) :
    lowerBody (stmt :: rest) ctx = .ok (scope :: others, after) :=
  lowerBody_cons h hrest

-- What follows the rules is a successful lowering.
theorem Lowers.lowerBody_eq {ctx after : Context} {body : List Stmt} {code : List Instr}
    (h : Lowers ctx body code after) : lowerBody body ctx = .ok (code, after) := by
  induction h with
  | nil => rw [lowerBody]
  | @echo _ _ _ _ ops _ others hvalue _ ih =>
      have hcode : straight ops ++ .call Effect.echo.name :: others =
          (straight ops ++ [.call Effect.echo.name]) ++ others := by simp
      rw [hcode]
      refine lowerBody_cons ?_ ih
      rw [Stmt.lower, hvalue]
      rfl
  | declare hvalue _ ih =>
      refine lowerBody_cons ?_ ih
      rw [Stmt.lower, hvalue]
      rfl
  | assign hvalue hslot _ ih =>
      refine lowerBody_cons ?_ ih
      rw [Stmt.lower, hvalue]
      change Slots.require _ _ _ >>= _ = _
      rw [Slots.require, hslot]
      rfl
  | loop hlimit htest _ _ ihInner ihLater =>
      refine lowerBody_cons_scope ?_ ihLater
      rw [Stmt.lower]
      refine (opening_eq hlimit htest (⟨.whileExit, ·⟩) _ _).trans ?_
      rw [ihInner]
      rfl
  | ifThen hlimit htest _ _ ihInner ihLater =>
      refine lowerBody_cons_scope ?_ ihLater
      rw [Stmt.lower]
      refine (opening_eq hlimit htest (⟨.ifThen, ·⟩) _ _).trans ?_
      rw [ihInner]
      rfl
  | ifElse hlimit htest _ _ _ ihFirst ihSecond ihLater =>
      refine lowerBody_cons_scope ?_ ihLater
      rw [Stmt.lower]
      refine (opening_eq hlimit htest (⟨.ifThen, ·⟩) _ _).trans ?_
      rw [ihFirst]
      change lowerBody _ _ >>= _ = _
      rw [ihSecond]
      rfl

theorem Lowers.extends {ctx after : Context} {body : List Stmt} {code : List Instr}
    (h : Lowers ctx body code after) : after.slots.Extends ctx.slots := by
  induction h with
  | nil => exact Slots.Extends.refl _
  | echo _ _ ih => exact ih
  | declare _ _ ih => exact ih.trans (Slots.declare_extends _ _)
  | assign _ _ _ ih => exact ih
  | loop _ _ _ _ ihInner ihLater => exact ihLater.trans ihInner
  | ifThen _ _ _ _ ihInner ihLater => exact ihLater.trans ihInner
  | ifElse _ _ _ _ _ ihFirst ihSecond ihLater => exact (ihLater.trans ihSecond).trans ihFirst

-- A procedure and the function that it becomes.
inductive LowersTo : Stmt → FunctionDef → Prop where
  | procedure {name : String} {exported : Bool} {body : List Stmt} {loc : Location}
      {labels : LabelCounter} {code : List Instr} {after : Context}
      (h : Lowers ⟨.empty, labels⟩ body code after) :
      LowersTo (.procedure name exported body loc) ⟨name, exported, after.slots.names, code⟩

section Procedures

variable {declared : List String} {labels : LabelCounter} {p : Program} {stmt : Stmt}
  {functions : List FunctionDef}

-- All that lowering a procedure and those behind it does.
theorem of_lowerProcedures_cons (h : lowerProcedures declared labels (stmt :: p) = .ok functions) :
    ∃ name exported body loc code after others, stmt = .procedure name exported body loc ∧
      name ∉ declared ∧ Lowers ⟨.empty, labels⟩ body code after ∧
      lowerProcedures (name :: declared) after.labels p = .ok others ∧
      functions = ⟨name, exported, after.slots.names, code⟩ :: others := by
  cases stmt with
  | procedure name exported body loc =>
      rw [lowerProcedures] at h
      split at h
      · cases h
      · rename_i hnew
        obtain ⟨⟨code, after⟩, hbody, h⟩ := exists_of_bind_eq_ok h
        obtain ⟨others, hothers, h⟩ := exists_of_bind_eq_ok h
        cases h
        exact ⟨name, exported, body, loc, code, after, others, rfl, hnew,
          lowers_of_lowerBody body hbody, hothers, rfl⟩
  | _ =>
      rw [lowerProcedures] at h
      · cases h
      · intros
        simp_all

theorem lowersTo_of_lowerProcedures (h : lowerProcedures declared labels p = .ok functions) :
    List.Forall₂ LowersTo p functions := by
  induction p generalizing declared labels functions with
  | nil =>
      rw [lowerProcedures] at h
      cases h
      exact .nil
  | cons stmt rest ih =>
      obtain ⟨name, exported, body, loc, code, after, others, rfl, hnew, hbody, hothers, rfl⟩ :=
        of_lowerProcedures_cons h
      exact .cons (.procedure hbody) (ih hothers)

-- No two functions of a lowered program have one name.
theorem names_of_lowerProcedures (h : lowerProcedures declared labels p = .ok functions) :
    (functions.map (·.name)).Nodup ∧ ∀ f ∈ functions, f.name ∉ declared := by
  induction p generalizing declared labels functions with
  | nil =>
      rw [lowerProcedures] at h
      cases h
      simp
  | cons stmt rest ih =>
      obtain ⟨name, exported, body, loc, code, after, others, rfl, hnew, hbody, hothers, rfl⟩ :=
        of_lowerProcedures_cons h
      obtain ⟨hnodup, hfresh⟩ := ih hothers
      have hname : name ∉ others.map (·.name) := by
        intro hmem
        obtain ⟨f, hf, rfl⟩ := List.mem_map.mp hmem
        exact hfresh f hf (by simp)
      refine ⟨List.nodup_cons.mpr ⟨hname, hnodup⟩, ?_⟩
      intro f hf
      cases List.mem_cons.mp hf with
      | inl hf => rw [hf]; exact hnew
      | inr hf => exact fun hmem => hfresh f hf (List.mem_cons_of_mem _ hmem)

end Procedures

end EchoLang
