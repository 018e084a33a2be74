import EchoLang.Proofs.Machine.Straight

namespace EchoLang

open Exec Machine

-- What is taken for the same when two runs are compared: traces and traps. All else that is in
-- their states has to be equal.
structure Comparison where
  traces : Array TraceEntry → Array TraceEntry → Prop
  traps : Trap → Trap → Prop
  traps_refl : ∀ trap, traps trap trap

namespace Comparison

variable {K : Comparison} {α β γ δ : Type}

-- The computations have returned related results, or they have trapped for the same reason.
inductive SameEnd (K : Comparison) (rel : α → β → Prop) :
    EStateM.Result Trap State α → EStateM.Result Trap State β → Prop where
  | ok {a : α} {b : β} {t : State} {trace : Array TraceEntry} (h : rel a b)
      (htrace : K.traces t.trace trace) : SameEnd K rel (.ok a t) (.ok b { t with trace := trace })
  | trap {trap trap' : Trap} {t : State} {trace : Array TraceEntry} (h : K.traps trap trap')
      (htrace : K.traces t.trace trace) :
      SameEnd K rel (.error trap t) (.error trap' { t with trace := trace })

-- Started in the same state, the computations come to the same end.
def Alike (K : Comparison) (rel : α → β → Prop) (c : Exec α) (c' : Exec β) : Prop :=
  ∀ s trace, K.traces s.trace trace → K.SameEnd rel (c s) (c' { s with trace := trace })

section Rules

variable {rel : α → β → Prop} {rel' : γ → δ → Prop}

theorem alike_pure {a : α} {b : β} (h : rel a b) : K.Alike rel (pure a) (pure b) :=
  fun _ _ htrace => .ok h htrace

theorem alike_throw {trap trap' : Trap} (h : K.traps trap trap') :
    K.Alike rel (throw trap) (throw trap') :=
  fun _ _ htrace => .trap h htrace

theorem Alike.bind {c : Exec α} {c' : Exec β} {f : α → Exec γ} {f' : β → Exec δ}
    (hc : K.Alike rel c c') (hf : ∀ a b, rel a b → K.Alike rel' (f a) (f' b)) :
    K.Alike rel' (c >>= f) (c' >>= f') := by
  intro s trace htrace
  have hs := hc s trace htrace
  simp only [Bind.bind, EStateM.bind]
  generalize c s = r at hs ⊢
  generalize c' { s with trace := trace } = r' at hs ⊢
  cases hs with
  | ok h htrace => exact hf _ _ h _ _ htrace
  | trap h htrace => exact .trap h htrace

theorem Alike.imp {other : α → β → Prop} {c : Exec α} {c' : Exec β} (h : K.Alike rel c c')
    (himp : ∀ a b, rel a b → other a b) : K.Alike other c c' := by
  rw [← bind_pure c, ← bind_pure c']
  exact h.bind fun a b hab => alike_pure (himp a b hab)

-- After computations with the same result.
theorem Alike.after {c c' : Exec γ} {f : γ → Exec α} {f' : γ → Exec β} (hc : K.Alike Eq c c')
    (hf : ∀ a, K.Alike rel (f a) (f' a)) : K.Alike rel (c >>= f) (c' >>= f') := by
  refine hc.bind ?_
  rintro a _ rfl
  exact hf a

-- Work on operands and slots sees nothing of the trace.
theorem alike_of_local {c : Exec α} (hc : Local c) : K.Alike Eq c c := by
  intro s trace htrace
  have hleft := hc s s
  have hright : c { s with trace := trace } =
      mapState (State.working { s with trace := trace }) (c s) := hc { s with trace := trace } s
  rw [State.working_self] at hleft
  rw [hright, hleft]
  cases c s with
  | ok a t => exact .ok rfl htrace
  | error trap t => exact .trap (K.traps_refl trap) htrace

theorem alike_print (x : Float32) : K.Alike Eq (print x) (print x) :=
  fun _ _ htrace => .ok rfl htrace

end Rules

section Code

variable {config : MachineConfig} {rel : Flow → Flow → Prop}

theorem alike_countStep : K.Alike Eq (countStep config) (countStep config) := by
  intro s trace htrace
  rw [countStep_apply, countStep_apply]
  dsimp only
  split
  · exact .trap (K.traps_refl _) htrace
  · exact .ok rfl htrace

theorem alike_inFrame (slots : Array Float32) {body body' : Exec Flow}
    (hbody : K.Alike rel body body') :
    K.Alike rel (inFrame slots body) (inFrame slots body') := by
  intro s trace htrace
  have hs := hbody { s with slots := slots, frames := s.frames + 1 } trace htrace
  unfold inFrame
  generalize body { s with slots := slots, frames := s.frames + 1 } = r at hs ⊢
  generalize body' _ = r' at hs ⊢
  cases hs with
  | ok h htrace => exact .ok h htrace
  | trap h htrace => exact .trap h htrace

variable {φ φ' : Type} {inner outer : φ → φ' → Prop} {body : Exec φ} {body' : Exec φ'}

-- What a scope makes of the end of its body may depend on the height of the stack at its entry.
theorem Alike.inScope {finish : Nat → φ → Exec φ} {finish' : Nat → φ' → Exec φ'}
    (hbody : K.Alike inner body body')
    (hfinish : ∀ height flow flow', inner flow flow' →
      K.Alike outer (finish height flow) (finish' height flow')) :
    K.Alike outer (fun s => (body >>= finish s.stack.length) s)
      (fun s => (body' >>= finish' s.stack.length) s) := by
  intro s trace htrace
  exact hbody.bind (hfinish s.stack.length) s trace htrace

-- Loops that go on alike after each round, by induction on the rounds.
theorem Alike.rounds {next : Exec φ → φ → Exec φ} {next' : Exec φ' → φ' → Exec φ'}
    {loop : Nat → Exec φ} {loop' : Nat → Exec φ'} (hbody : K.Alike inner body body')
    (hzero : K.Alike outer (loop 0) (loop' 0))
    (hsucc : ∀ rounds, loop (rounds + 1) = body >>= next (loop rounds))
    (hsucc' : ∀ rounds, loop' (rounds + 1) = body' >>= next' (loop' rounds))
    (hnext : ∀ again again', K.Alike outer again again' → ∀ flow flow', inner flow flow' →
      K.Alike outer (next again flow) (next' again' flow')) (rounds : Nat) :
    K.Alike outer (loop rounds) (loop' rounds) := by
  induction rounds with
  | zero => exact hzero
  | succ rounds ih =>
      rw [hsucc, hsucc']
      exact hbody.bind (hnext _ _ ih)

end Code

end Comparison

end EchoLang
