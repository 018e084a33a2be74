import EchoLang.Proofs.Lowering.Modules

namespace EchoLang

-- A place is a name in the text and a slot in code.
inductive Access (α : Type) where
  | read (place : α)
  | write (place : α)
deriving DecidableEq

namespace Access

variable {α β : Type}

def place : Access α → α
  | read place => place
  | write place => place

def map (f : α → β) : Access α → Access β
  | read place => read (f place)
  | write place => write (f place)

theorem place_map (f : α → β) (access : Access α) : (access.map f).place = f access.place := by
  cases access <;> rfl

end Access

section Text

def Expr.reads : Expr → List String
  | number _ _ => []
  | var name _ => [name]
  | binary left _ right _ => left.reads ++ right.reads
  | paren inner _ => inner.reads

def Expr.accesses (e : Expr) : List (Access String) := e.reads.map .read

mutual

-- A value is read before its target is written.
def Stmt.accesses : Stmt → List (Access String)
  | .echo value _ => value.accesses
  | .procedure .. => []
  | .declare name value _ | .assign name value _ => value.accesses ++ [.write name]
  | .loop condition body _ | .ifThen condition body _ => condition.accesses ++ bodyAccesses body
  | .ifElse condition first second _ =>
      condition.accesses ++ bodyAccesses first ++ bodyAccesses second

def bodyAccesses : List Stmt → List (Access String)
  | [] => []
  | s :: rest => s.accesses ++ bodyAccesses rest

end

mutual

-- The names that are declared, once for each declaration.
def Stmt.declarations : Stmt → List String
  | .declare name _ _ => [name]
  | .loop _ body _ | .ifThen _ body _ => bodyDeclarations body
  | .ifElse _ first second _ => bodyDeclarations first ++ bodyDeclarations second
  | .echo .. | .procedure .. | .assign .. => []

def bodyDeclarations : List Stmt → List String
  | [] => []
  | s :: rest => s.declarations ++ bodyDeclarations rest

end

end Text

section Code

def Operation.access? : Operation → Option (Access Nat)
  | get slot => some (.read slot)
  | set slot => some (.write slot)
  | _ => none

mutual

def Instr.accesses : Instr → List (Access Nat)
  | .operate op => op.access?.toList
  | .block _ body | .loop _ body => codeAccesses body
  | .call _ | .branch _ | .branchIf _ => []

def codeAccesses : List Instr → List (Access Nat)
  | [] => []
  | instr :: rest => instr.accesses ++ codeAccesses rest

end

@[simp] theorem codeAccesses_append (first second : List Instr) :
    codeAccesses (first ++ second) = codeAccesses first ++ codeAccesses second := by
  induction first with
  | nil => rfl
  | cons instr rest ih => rw [List.cons_append, codeAccesses, codeAccesses, ih, List.append_assoc]

@[simp] theorem codeAccesses_straight (code : List Operation) :
    codeAccesses (straight code) = code.filterMap Operation.access? := by
  induction code with
  | nil => rfl
  | cons op rest ih =>
      rw [straight, List.map_cons, codeAccesses, ← straight, ih, Instr.accesses]
      cases h : op.access? with
      | none => rw [List.filterMap_cons_none h]; rfl
      | some access => rw [List.filterMap_cons_some h]; rfl

@[simp] theorem codeAccesses_guardCode (label : Label) (test : List Operation) :
    codeAccesses (guardCode label test) = test.filterMap Operation.access? := by
  simp [guardCode, codeAccesses, Instr.accesses, Operation.access?]

end Code

section Expressions

variable {slots final : Slots} {shape : Shape} {e : Expr} {code : List Operation}

-- Between the variables of an expression no slot is accessed.
theorem accesses_convert (own shape : Shape) :
    (own.convert shape).filterMap Operation.access? = [] := by
  cases own <;> cases shape <;> rfl

theorem accesses_convertOperand (op : Operator) (own : Shape) :
    (op.convertOperand own).filterMap Operation.access? = [] := by
  unfold Operator.convertOperand
  split
  · rfl
  · exact accesses_convert own _

theorem accesses_code (op : Operator) : op.code.filterMap Operation.access? = [] := by
  cases op <;> rfl

-- The accesses of an operation are those of its operands.
theorem Expr.accesses_lower_binary {left right : Expr} {op : Operator} {loc : Location}
    (h : (Expr.binary left op right loc).lower slots = .ok (code, shape)) :
    ∃ leftCode leftShape rightCode rightShape, left.lower slots = .ok (leftCode, leftShape) ∧
      right.lower slots = .ok (rightCode, rightShape) ∧
      code.filterMap Operation.access? =
        leftCode.filterMap Operation.access? ++ rightCode.filterMap Operation.access? := by
  rw [Expr.lower] at h
  obtain ⟨⟨leftCode, leftShape⟩, hleft, h⟩ := exists_of_bind_eq_ok h
  obtain ⟨⟨rightCode, rightShape⟩, hright, h⟩ := exists_of_bind_eq_ok h
  cases h
  refine ⟨leftCode, leftShape, rightCode, rightShape, hleft, hright, ?_⟩
  simp [accesses_convertOperand, accesses_code]

-- The slots are those of the names, access by access.
def Slots.Matches (slots : Slots) (code : List (Access Nat)) (text : List (Access String)) :
    Prop :=
  code.map (Access.map (slots.names[·]?)) = text.map (Access.map some)

theorem Slots.Matches.nil : slots.Matches [] [] := rfl

theorem Slots.Matches.append {first second : List (Access Nat)}
    {first' second' : List (Access String)} (h : slots.Matches first first')
    (h' : slots.Matches second second') : slots.Matches (first ++ second) (first' ++ second') := by
  unfold Slots.Matches at h h' ⊢
  rw [List.map_append, List.map_append, h, h']

theorem Slots.matches_read {name : String} {slot : Nat} (h : slots.resolve? name = some slot) :
    slots.Matches [.read slot] [.read name] := by
  simp [Slots.Matches, Access.map, names_of_resolve? h]

theorem Slots.matches_write {name : String} {slot : Nat} (h : slots.resolve? name = some slot) :
    slots.Matches [.write slot] [.write name] := by
  simp [Slots.Matches, Access.map, names_of_resolve? h]

-- Slots that are added later do not matter, so that the table can be that of the function.
theorem Expr.matches_lower (hext : final.Extends slots) (h : e.lower slots = .ok (code, shape)) :
    final.Matches (code.filterMap Operation.access?) e.accesses := by
  induction e generalizing code shape with
  | number value loc =>
      cases h
      exact .nil
  | var name loc =>
      obtain ⟨slot, hslot, h⟩ := exists_of_bind_eq_ok h
      cases h
      exact Slots.matches_read (Slots.resolve?_of_extends hext (Slots.of_require hslot))
  | paren inner loc ih => exact ih h
  | binary left op right loc ihLeft ihRight =>
      obtain ⟨leftCode, leftShape, rightCode, rightShape, hleft, hright, haccesses⟩ :=
        Expr.accesses_lower_binary h
      rw [haccesses, Expr.accesses, Expr.reads, List.map_append]
      exact (ihLeft hleft).append (ihRight hright)

theorem Expr.matches_lowerAs (hext : final.Extends slots)
    (h : e.lowerAs slots shape = .ok code) :
    final.Matches (code.filterMap Operation.access?) e.accesses := by
  obtain ⟨⟨own, ownShape⟩, hown, h⟩ := exists_of_bind_eq_ok h
  cases h
  rw [List.filterMap_append, accesses_convert, List.append_nil]
  exact Expr.matches_lower hext hown

end Expressions

section Bodies

variable {ctx after : Context} {body : List Stmt} {code : List Instr}

-- A body declares its names one after the other, whatever they are declared in.
theorem Lowers.slots_eq (h : Lowers ctx body code after) :
    after.slots = (bodyDeclarations body).foldl (fun s name => (s.declare name).2) ctx.slots := by
  induction h with
  | nil => rfl
  | echo _ _ ih | declare _ _ ih | assign _ _ _ ih => exact ih
  | loop _ _ _ _ ihInner ihLater | ifThen _ _ _ _ ihInner ihLater =>
      rw [ihLater, ihInner, bodyDeclarations, Stmt.declarations, List.foldl_append]
      rfl
  | ifElse _ _ _ _ _ ihFirst ihSecond ihLater =>
      rw [ihLater, ihSecond, ihFirst, bodyDeclarations, Stmt.declarations, List.foldl_append,
        List.foldl_append]
      rfl

-- The table of a function extends all tables on the way to it, so that what is accessed early
-- has its slot there too.
theorem Lowers.matches {final : Slots} (h : Lowers ctx body code after)
    (hext : final.Extends after.slots) : final.Matches (codeAccesses code) (bodyAccesses body) := by
  induction h with
  | nil => exact .nil
  | echo hvalue later ih =>
      have hvalue := Expr.matches_lowerAs (hext.trans later.extends) hvalue
      simpa [codeAccesses, Instr.accesses, bodyAccesses, Stmt.accesses] using
        hvalue.append (ih hext)
  | @declare ctx after name value loc ops rest others hvalue later ih =>
      have hdeclared := hext.trans later.extends
      have htarget : final.resolve? name = some (ctx.declare name).1 :=
        Slots.resolve?_of_extends hdeclared (ctx.slots.resolve?_declare name)
      have hvalue := Expr.matches_lowerAs (hdeclared.trans (ctx.slots.declare_extends name)) hvalue
      simpa [Operation.access?, bodyAccesses, Stmt.accesses] using
        (hvalue.append (Slots.matches_write htarget)).append (ih hext)
  | assign hvalue hslot later ih =>
      have hbefore := hext.trans later.extends
      have htarget := Slots.resolve?_of_extends hbefore hslot
      have hvalue := Expr.matches_lowerAs hbefore hvalue
      simpa [Operation.access?, bodyAccesses, Stmt.accesses] using
        (hvalue.append (Slots.matches_write htarget)).append (ih hext)
  | loop _ htest inner later ihInner ihLater =>
      have hinner := hext.trans later.extends
      have htest := Expr.matches_lowerAs (hinner.trans inner.extends) htest
      simpa [loopCode, codeAccesses, Instr.accesses, bodyAccesses, Stmt.accesses] using
        (htest.append (ihInner hinner)).append (ihLater hext)
  | ifThen _ htest inner later ihInner ihLater =>
      have hinner := hext.trans later.extends
      have htest := Expr.matches_lowerAs (hinner.trans inner.extends) htest
      simpa [ifThenCode, codeAccesses, Instr.accesses, bodyAccesses, Stmt.accesses] using
        (htest.append (ihInner hinner)).append (ihLater hext)
  | ifElse _ htest innerFirst innerSecond later ihFirst ihSecond ihLater =>
      have hsecond := hext.trans later.extends
      have hfirst := hsecond.trans innerSecond.extends
      have htest := Expr.matches_lowerAs (hfirst.trans innerFirst.extends) htest
      simpa [ifElseCode, codeAccesses, Instr.accesses, bodyAccesses, Stmt.accesses] using
        ((htest.append (ihFirst hfirst)).append (ihSecond hsecond)).append (ihLater hext)

end Bodies

-- A slot that has a name is one of the table.
theorem Slots.Matches.lt {slots : Slots} {code : List (Access Nat)} {text : List (Access String)}
    (h : slots.Matches code text) {access : Access Nat} (haccess : access ∈ code) :
    access.place < slots.names.length := by
  have hmem : access.map (slots.names[·]?) ∈ text.map (Access.map some) :=
    h ▸ List.mem_map_of_mem haccess
  obtain ⟨named, _, hnamed⟩ := List.mem_map.mp hmem
  have hplace := congrArg Access.place hnamed
  rw [Access.place_map, Access.place_map] at hplace
  exact (List.getElem?_eq_some_iff.mp hplace.symm).1

-- The locals of a function are the variables of its procedure in the order in which they are
-- declared first, and the slots that its code reads and writes are those of the variables
-- that the text reads and writes.
theorem slots_stand_for_names {target : Target} {unit : String} {p : Program} {m : CodeModule}
    (h : (CodeModule.empty unit).addProgram target p = (m, none)) {k : Nat} {name : String}
    {exported : Bool} {body : List Stmt} {loc : Location}
    (hk : p[k]? = some (.procedure name exported body loc)) :
    ∃ f, m.functions[k]? = some f ∧ f.name = name ∧ f.exported = exported ∧
      f.locals = (bodyDeclarations body).eraseDups ∧ f.locals.Nodup ∧
      (∀ access ∈ codeAccesses f.body, access.place < f.locals.length) ∧
      (codeAccesses f.body).map (Access.map (f.locals[·]?)) =
        (bodyAccesses body).map (Access.map some) := by
  obtain ⟨f, hf, hlowers⟩ := (lowered_of_addProgram h).getElem?_functions hk
  cases hlowers with
  | @procedure _ _ _ _ labels code after hbody =>
      have hmatches := hbody.matches (Slots.Extends.refl after.slots)
      have hlocals : after.slots.names = (bodyDeclarations body).eraseDups := by
        rw [hbody.slots_eq, Slots.names_foldl_declare]
        simp [Slots.empty]
      refine ⟨_, hf, rfl, rfl, hlocals, ?_, fun access => hmatches.lt, hmatches⟩
      rw [hlocals]
      exact nodup_eraseDups _

-- The loop of the second procedure declares a variable that is used behind it, and another one
-- for the second time.
def redeclaringProgram : Program :=
  [.procedure "tick" false [.declare "a" (.number 1 .start) .start] .start,
    .procedure "main" true
      [.declare "b" (.number 1 .start) .start,
        .loop (.var "b" .start)
          [.declare "a" (.binary (.var "b" .start) .add (.number 1 .start) .start) .start,
            .declare "b" (.binary (.var "a" .start) .multiply (.var "b" .start) .start) .start]
          .start,
        .assign "a" (.var "b" .start) .start]
      .start]

theorem slots_stand_for_names_redeclared :
    ∃ m f, (CodeModule.empty "").addProgram .listing redeclaringProgram = (m, none) ∧
      m.functions[1]? = some f ∧ f.locals = ["b", "a"] ∧
      (∀ access ∈ codeAccesses f.body, access.place < 2) ∧
      (codeAccesses f.body).map (Access.map (f.locals[·]?)) =
        [.write (some "b"), .read (some "b"), .read (some "b"), .write (some "a"),
          .read (some "a"), .read (some "b"), .write (some "b"), .read (some "b"),
          .write (some "a")] := by
  obtain ⟨m, hm⟩ : ∃ m, (CodeModule.empty "").addProgram .listing redeclaringProgram = (m, none) :=
    ⟨_, rfl⟩
  obtain ⟨f, hf, _, _, hlocals, _, hbound, haccesses⟩ := slots_stand_for_names hm (k := 1) rfl
  have hlocals : f.locals = ["b", "a"] := hlocals.trans (by decide)
  refine ⟨m, f, hm, hf, hlocals, ?_, haccesses⟩
  rw [hlocals] at hbound
  exact hbound

end EchoLang
