import EchoLang.Proofs.Lowering.Modules

namespace EchoLang

namespace Operation

-- The kinds of the operands that an operation takes, the top first.
def operands : Operation → List NumKind
  | floatConst _ | intConst _ | get _ => []
  | floatOp _ | floatTest _ => [.f32, .f32]
  | intOp _ | remainder => [.i32, .i32]
  | isZero | ofSigned | ofUnsigned => [.i32]
  | truncate | saturate | set _ => [.f32]

def results : Operation → List NumKind
  | floatConst _ | floatOp _ | ofSigned | ofUnsigned | get _ => [.f32]
  | intConst _ | floatTest _ | intOp _ | isZero | remainder | truncate | saturate => [.i32]
  | set _ => []

-- The slot that an operation reads or writes is one of the first `n`.
def Fits (n : Nat) : Operation → Prop
  | get slot | set slot => slot < n
  | _ => True

end Operation

-- Code of a function with `n` slots, inside of scopes of which the innermost comes
-- first, that finds operands of the given kinds and leaves none. The rules are strict: a
-- scope begins and ends without operands, and nothing follows a branch.
inductive Typed (n : Nat) : List Label → List NumKind → List Instr → Prop where
  | nil {scopes : List Label} : Typed n scopes [] []
  | operate {scopes : List Label} {kinds : List NumKind} {op : Operation} {rest : List Instr}
      (hfits : op.Fits n) (later : Typed n scopes (op.results ++ kinds) rest) :
      Typed n scopes (op.operands ++ kinds) (.operate op :: rest)
  | echo {scopes : List Label} {kinds : List NumKind} {rest : List Instr}
      (later : Typed n scopes kinds rest) :
      Typed n scopes (Effect.echo.param :: kinds) (.call Effect.echo.name :: rest)
  | block {scopes : List Label} {label : Label} {body rest : List Instr}
      (inner : Typed n (label :: scopes) [] body) (later : Typed n scopes [] rest) :
      Typed n scopes [] (.block label body :: rest)
  | loop {scopes : List Label} {label : Label} {body rest : List Instr}
      (inner : Typed n (label :: scopes) [] body) (later : Typed n scopes [] rest) :
      Typed n scopes [] (.loop label body :: rest)
  | branch {scopes : List Label} {label : Label} (hlabel : label ∈ scopes) :
      Typed n scopes [] [.branch label]
  | branchIf {scopes : List Label} {label : Label} {rest : List Instr} (hlabel : label ∈ scopes)
      (later : Typed n scopes [] rest) : Typed n scopes [.i32] (.branchIf label :: rest)

def FunctionDef.Typed (f : FunctionDef) : Prop :=
  EchoLang.Typed f.locals.length [] [] f.body

-- Each shape is of one kind.
def Shape.kind : Shape → NumKind
  | float => .f32
  | int | flag => .i32

section Lowering

variable {n : Nat} {scopes : List Label} {kinds : List NumKind} {rest : List Instr} {slots : Slots}

theorem straight_append (first second : List Operation) :
    straight (first ++ second) = straight first ++ straight second :=
  List.map_append

theorem typed_operate {base : List NumKind} {op : Operation} (hfits : op.Fits n)
    (hkinds : kinds = op.operands ++ base) (h : Typed n scopes (op.results ++ base) rest) :
    Typed n scopes kinds (.operate op :: rest) := by
  subst hkinds
  exact .operate hfits h

theorem typed_convert (own shape : Shape) (h : Typed n scopes (shape.kind :: kinds) rest) :
    Typed n scopes (own.kind :: kinds) (straight (own.convert shape) ++ rest) := by
  cases own <;> cases shape
  case int.float | flag.float | float.int => exact typed_operate trivial rfl h
  case float.flag | int.flag =>
    exact typed_operate trivial rfl (typed_operate trivial rfl h)
  all_goals exact h

theorem typed_convertOperand (op : Operator) (shape : Shape)
    (h : Typed n scopes (op.operandShape.kind :: kinds) rest) :
    Typed n scopes (shape.kind :: kinds) (straight (op.convertOperand shape) ++ rest) := by
  unfold Operator.convertOperand
  split
  · rename_i hremainder
    obtain ⟨hop, hshape⟩ := hremainder
    subst hop hshape
    exact typed_operate trivial rfl h
  · exact typed_convert shape op.operandShape h

theorem typed_code (op : Operator) (h : Typed n scopes (op.resultShape.kind :: kinds) rest) :
    Typed n scopes (op.operandShape.kind :: op.operandShape.kind :: kinds)
      (straight op.code ++ rest) := by
  cases op
  case remainder =>
    exact typed_operate trivial rfl (typed_operate trivial rfl h)
  all_goals exact typed_operate trivial rfl h

-- The code of an expression adds one operand of the kind of its shape.
theorem typed_lower (e : Expr) {code : List Operation} {shape : Shape}
    (he : e.lower slots = .ok (code, shape)) (hslots : slots.size ≤ n)
    (h : Typed n scopes (shape.kind :: kinds) rest) :
    Typed n scopes kinds (straight code ++ rest) := by
  induction e generalizing code shape kinds rest with
  | number value loc =>
      cases he
      exact typed_operate trivial rfl h
  | var name loc =>
      obtain ⟨slot, hslot, he⟩ := exists_of_bind_eq_ok he
      cases he
      have hlt := Slots.lt_size_of_resolve? (Slots.of_require hslot)
      exact typed_operate (Nat.lt_of_lt_of_le hlt hslots) rfl h
  | paren inner loc ih => exact ih he h
  | binary left op right loc ihLeft ihRight =>
      rw [Expr.lower] at he
      obtain ⟨⟨leftCode, leftShape⟩, hleft, he⟩ := exists_of_bind_eq_ok he
      obtain ⟨⟨rightCode, rightShape⟩, hright, he⟩ := exists_of_bind_eq_ok he
      cases he
      simp only [straight_append, List.append_assoc]
      apply ihLeft hleft
      apply typed_convertOperand
      apply ihRight hright
      apply typed_convertOperand
      exact typed_code op h

theorem typed_lowerAs {value : Expr} {shape : Shape} {code : List Operation}
    (hvalue : value.lowerAs slots shape = .ok code) (hslots : slots.size ≤ n)
    (h : Typed n scopes (shape.kind :: kinds) rest) :
    Typed n scopes kinds (straight code ++ rest) := by
  obtain ⟨⟨own, ownShape⟩, hown, hvalue⟩ := exists_of_bind_eq_ok hvalue
  cases hvalue
  rw [straight_append, List.append_assoc]
  exact typed_lower value hown hslots (typed_convert ownShape shape h)

theorem typed_guard {condition : Expr} {label : Label} {test : List Operation}
    (htest : condition.lowerAs slots .flag = .ok test) (hslots : slots.size ≤ n)
    (hlabel : label ∈ scopes) (h : Typed n scopes [] rest) :
    Typed n scopes [] (guardCode label test ++ rest) := by
  have hcode : guardCode label test ++ rest =
      straight test ++ (.operate .isZero :: .branchIf label :: rest) := by
    simp [guardCode, straight]
  rw [hcode]
  exact typed_lowerAs htest hslots (typed_operate trivial rfl (.branchIf hlabel h))

theorem typed_set {value : Expr} {slot : Nat} {code : List Operation}
    (hvalue : value.lowerAs slots .float = .ok code) (hslots : slots.size ≤ n) (hslot : slot < n)
    (h : Typed n scopes [] rest) :
    Typed n scopes [] (straight (code ++ [.set slot]) ++ rest) := by
  rw [straight_append, List.append_assoc]
  exact typed_lowerAs hvalue hslots (typed_operate hslot rfl h)

-- Statements find no operands and leave none. What follows them can be any code that
-- does the same.
theorem typed_of_lowers {ctx after : Context} {body : List Stmt} {code : List Instr}
    (hbody : Lowers ctx body code after) (hslots : after.slots.size ≤ n)
    (h : Typed n scopes [] rest) : Typed n scopes [] (code ++ rest) := by
  induction hbody generalizing scopes rest with
  | nil => exact h
  | echo hvalue later ih =>
      have hsize := Slots.size_le_of_extends later.extends
      rw [List.append_assoc]
      exact typed_lowerAs hvalue (Nat.le_trans hsize hslots) (.echo (ih hslots h))
  | @declare ctx _ name _ _ _ _ _ hvalue later ih =>
      have hsize := Slots.size_le_of_extends later.extends
      have hdeclared := Slots.size_le_of_extends (Slots.declare_extends ctx.slots name)
      have hslot := Slots.lt_size_of_resolve? (Slots.resolve?_declare ctx.slots name)
      change (ctx.slots.declare name).2.size ≤ _ at hsize
      rw [List.append_assoc]
      exact typed_set hvalue (by omega) (by change (ctx.slots.declare name).1 < n; omega)
        (ih hslots h)
  | assign hvalue hslot later ih =>
      have hsize := Slots.size_le_of_extends later.extends
      have hlt := Slots.lt_size_of_resolve? hslot
      rw [List.append_assoc]
      exact typed_set hvalue (by omega) (by omega) (ih hslots h)
  | loop hlimit htest inner later ihInner ihLater =>
      have hnext := Nat.le_trans (Slots.size_le_of_extends later.extends) hslots
      have hinner := Nat.le_trans (Slots.size_le_of_extends inner.extends) hnext
      refine .block (.loop ?_ .nil) (ihLater hslots h)
      rw [List.append_assoc]
      apply typed_guard htest hinner (by simp)
      exact ihInner hnext (.branch (by simp))
  | ifThen hlimit htest inner later ihInner ihLater =>
      have hnext := Nat.le_trans (Slots.size_le_of_extends later.extends) hslots
      have hinner := Nat.le_trans (Slots.size_le_of_extends inner.extends) hnext
      refine .block ?_ (ihLater hslots h)
      apply typed_guard htest hinner (by simp)
      simpa using ihInner hnext .nil
  | ifElse hlimit htest innerFirst innerSecond later ihFirst ihSecond ihLater =>
      have hnext := Nat.le_trans (Slots.size_le_of_extends later.extends) hslots
      have hsecond := Nat.le_trans (Slots.size_le_of_extends innerSecond.extends) hnext
      have hfirst := Nat.le_trans (Slots.size_le_of_extends innerFirst.extends) hsecond
      refine .block (.block ?_ ?_) (ihLater hslots h)
      · rw [List.append_assoc]
        apply typed_guard htest hfirst (by simp)
        exact ihFirst hsecond (.branch (by simp))
      · simpa using ihSecond hnext .nil

theorem typed_of_lowersTo {stmt : Stmt} {f : FunctionDef} (h : LowersTo stmt f) : f.Typed := by
  cases h with
  | procedure hbody =>
      have hcode : Typed _ [] [] _ := typed_of_lowers hbody (Nat.le_refl _) .nil
      rwa [List.append_nil] at hcode

end Lowering

end EchoLang
