import EchoLang.Proofs.Lowering.Accesses
import EchoLang.Proofs.Lowering.Tables

namespace EchoLang

section Text

def Expr.requests (e : Expr) : List SlotRequest := e.reads.map .resolve

mutual

-- What a table is asked while the statement is lowered. The target of a value comes behind the
-- variables of the value, and only `let` declares it.
def Stmt.requests : Stmt → List SlotRequest
  | .echo value _ => value.requests
  | .procedure .. => []
  | .declare name value _ => value.requests ++ [.declare name]
  | .assign name value _ => value.requests ++ [.resolve name]
  | .loop condition body _ | .ifThen condition body _ => condition.requests ++ bodyRequests body
  | .ifElse condition first second _ =>
      condition.requests ++ bodyRequests first ++ bodyRequests second

def bodyRequests : List Stmt → List SlotRequest
  | [] => []
  | s :: rest => s.requests ++ bodyRequests rest

end

end Text

namespace Slots

variable {s middle after : Slots} {name : String} {requests others : List SlotRequest}
  {first second : List (Access Nat)}

theorem serve_append (s : Slots) (requests others : List SlotRequest) :
    s.serve (requests ++ others) =
      ((s.serve requests).1 ++ ((s.serve requests).2.serve others).1,
        ((s.serve requests).2.serve others).2) := by
  induction requests generalizing s with
  | nil => rfl
  | cons r rest ih =>
      rw [List.cons_append, serve_cons, ih, serve_cons]
      rfl

-- The requests are answered with the slots that the code accesses, one by one.
def Gives (s : Slots) (requests : List SlotRequest) (code : List (Access Nat)) (after : Slots) :
    Prop :=
  s.serve requests = (code.map fun access => some access.place, after)

theorem Gives.nil (s : Slots) : s.Gives [] [] s := rfl

theorem Gives.append (h : s.Gives requests first middle) (h' : middle.Gives others second after) :
    s.Gives (requests ++ others) (first ++ second) after := by
  unfold Gives at h h' ⊢
  rw [serve_append, h, h', List.map_append]

theorem gives_resolved (access : Access Nat) (h : s.resolve? name = some access.place) :
    s.Gives [.resolve name] [access] s :=
  congrArg (fun found => ([found], s)) h

theorem gives_declared (s : Slots) (name : String) :
    s.Gives [.declare name] [.write (s.declare name).1] (s.declare name).2 := rfl

end Slots

section Expressions

variable {slots : Slots} {shape : Shape} {e : Expr} {code : List Operation}

theorem Expr.gives_lower (h : e.lower slots = .ok (code, shape)) :
    slots.Gives e.requests (code.filterMap Operation.access?) slots := by
  induction e generalizing code shape with
  | number bits loc =>
      cases h
      exact .nil slots
  | var name loc =>
      obtain ⟨slot, hslot, h⟩ := exists_of_bind_eq_ok h
      cases h
      exact Slots.gives_resolved (.read slot) (Slots.of_require hslot)
  | paren inner loc ih => exact ih h
  | binary left op right loc ihLeft ihRight =>
      obtain ⟨leftCode, leftShape, rightCode, rightShape, hleft, hright, haccesses⟩ :=
        Expr.accesses_lower_binary h
      rw [haccesses, Expr.requests, Expr.reads, List.map_append]
      exact (ihLeft hleft).append (ihRight hright)

theorem Expr.gives_lowerAs (h : e.lowerAs slots shape = .ok code) :
    slots.Gives e.requests (code.filterMap Operation.access?) slots := by
  obtain ⟨⟨own, ownShape⟩, hown, h⟩ := exists_of_bind_eq_ok h
  cases h
  rw [List.filterMap_append, accesses_convert, List.append_nil]
  exact Expr.gives_lower hown

end Expressions

-- Lowering is a conversation with the table: all that it learns are the answers, and each
-- answer is the slot of one access.
theorem Lowers.gives {ctx after : Context} {body : List Stmt} {code : List Instr}
    (h : Lowers ctx body code after) :
    ctx.slots.Gives (bodyRequests body) (codeAccesses code) after.slots := by
  induction h with
  | nil => exact .nil _
  | echo hvalue _ ih =>
      simpa [codeAccesses, Instr.accesses, bodyRequests, Stmt.requests] using
        (Expr.gives_lowerAs hvalue).append ih
  | @declare ctx _ name _ _ _ _ _ hvalue _ ih =>
      have htarget : ctx.slots.Gives [.declare name] [.write (ctx.declare name).1]
          (ctx.declare name).2.slots := ctx.slots.gives_declared name
      simpa [Operation.access?, bodyRequests, Stmt.requests] using
        ((Expr.gives_lowerAs hvalue).append htarget).append ih
  | assign hvalue hslot _ ih =>
      simpa [Operation.access?, bodyRequests, Stmt.requests] using
        ((Expr.gives_lowerAs hvalue).append (Slots.gives_resolved (.write _) hslot)).append ih
  | loop _ htest _ _ ihInner ihLater =>
      simpa [loopCode, codeAccesses, Instr.accesses, bodyRequests, Stmt.requests] using
        ((Expr.gives_lowerAs htest).append ihInner).append ihLater
  | ifThen _ htest _ _ ihInner ihLater =>
      simpa [ifThenCode, codeAccesses, Instr.accesses, bodyRequests, Stmt.requests] using
        ((Expr.gives_lowerAs htest).append ihInner).append ihLater
  | ifElse _ htest _ _ _ ihFirst ihSecond ihLater =>
      simpa [ifElseCode, codeAccesses, Instr.accesses, bodyRequests, Stmt.requests] using
        (((Expr.gives_lowerAs htest).append ihFirst).append ihSecond).append ihLater

-- Slots of 32 bits are as good as numbers: as long as the variables of a procedure can be told
-- apart by them, a table that cuts slots off gives those of the code.
theorem indexed_slots_of_addProgram {target : Target} {unit : String} {p : Program}
    {m : CodeModule} (h : (CodeModule.empty unit).addProgram target p = (m, none)) {k : Nat}
    {name : String} {exported : Bool} {body : List Stmt} {loc : Location}
    (hk : p[k]? = some (.procedure name exported body loc)) :
    ∃ f, m.functions[k]? = some f ∧ (f.locals.length ≤ UInt32.size →
      (IndexedSlots.empty.serve (bodyRequests body)).1.map (·.map UInt32.toNat) =
        (codeAccesses f.body).map (fun access => some access.place) ∧
      (IndexedSlots.empty.serve (bodyRequests body)).2.names = f.locals) := by
  obtain ⟨f, hf, hlowers⟩ := (lowered_of_addProgram h).getElem?_functions hk
  refine ⟨f, hf, ?_⟩
  cases hlowers with
  | @procedure _ _ _ _ labels code after hbody =>
      intro hroom
      have hgives : Slots.empty.serve (bodyRequests body) = _ := hbody.gives
      have hsize : (Slots.empty.serve (bodyRequests body)).2.size ≤ UInt32.size := by
        rw [hgives]
        exact hroom
      obtain ⟨hanswers, hmirrors⟩ := IndexedSlots.mirrors_empty.serve hsize
      rw [hgives] at hanswers hmirrors
      exact ⟨hanswers, hmirrors.names⟩

end EchoLang
