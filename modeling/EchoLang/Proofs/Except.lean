import Mathlib.Data.List.Forall2

namespace EchoLang

variable {ε δ α β γ : Type}

theorem exists_of_bind_eq_ok {x : Except ε α} {f : α → Except ε β} {b : β}
    (h : x >>= f = .ok b) : ∃ a, x = .ok a ∧ f a = .ok b := by
  cases x with
  | ok a => exact ⟨a, rfl, h⟩
  | error e => cases h

theorem exists_of_toBool {x : Except ε α} (h : x.toBool = true) : ∃ a, x = .ok a := by
  cases x with
  | ok a => exact ⟨a, rfl⟩
  | error e => cases h

theorem exists_of_map_eq_ok {x : Except ε α} {f : α → β} {b : β} (h : x.map f = .ok b) :
    ∃ a, x = .ok a ∧ f a = b := by
  cases x with
  | ok a => exact ⟨a, rfl, Except.ok.inj h⟩
  | error e => cases h

-- The members of a list one after the other.
theorem forall₂_of_mapM {f : α → Except ε β} {l : List α} {r : List β}
    (h : l.mapM f = .ok r) : List.Forall₂ (fun a b => f a = .ok b) l r := by
  induction l generalizing r with
  | nil =>
      cases h
      exact .nil
  | cons a l ih =>
      rw [List.mapM_cons] at h
      obtain ⟨b, hb, h⟩ := exists_of_bind_eq_ok h
      obtain ⟨rest, hrest, h⟩ := exists_of_bind_eq_ok h
      cases h
      exact .cons hb (ih hrest)

theorem exists_mapM_of_forall {f : α → Except ε β} {l : List α} (h : ∀ a ∈ l, ∃ b, f a = .ok b) :
    ∃ r, l.mapM f = .ok r := by
  induction l with
  | nil => exact ⟨[], rfl⟩
  | cons a l ih =>
      obtain ⟨b, hb⟩ := h a List.mem_cons_self
      obtain ⟨rest, hrest⟩ := ih fun a' ha' => h a' (List.mem_cons_of_mem _ ha')
      refine ⟨b :: rest, ?_⟩
      rw [List.mapM_cons, hb, hrest]
      rfl

-- Every member of the second list comes from one of the first.
theorem exists_of_forall₂ {R : α → β → Prop} {l : List α} {r : List β}
    (h : List.Forall₂ R l r) {b : β} (hb : b ∈ r) : ∃ a ∈ l, R a b := by
  obtain ⟨i, hi, hget⟩ := List.getElem_of_mem hb
  have hi' : i < l.length := h.length_eq ▸ hi
  refine ⟨l[i], List.getElem_mem hi', ?_⟩
  rw [← hget]
  exact h.get hi' hi

-- What is done to every result can be done at the end.
theorem mapM_eq_map {f : α → Except ε β} {g : α → Except ε γ} {w : β → γ}
    (h : ∀ a, g a = (f a).map w) (l : List α) : l.mapM g = (l.mapM f).map (List.map w) := by
  induction l with
  | nil => rfl
  | cons a l ih =>
      rw [List.mapM_cons, List.mapM_cons, h a, ih]
      cases f a with
      | error e => rfl
      | ok b =>
          cases l.mapM f with
          | error e => rfl
          | ok rest => rfl

-- The same outcome in other words.
def translate (onError : ε → δ) (onOk : α → β) : Except ε α → Except δ β
  | .ok a => .ok (onOk a)
  | .error e => .error (onError e)

theorem bind_translate_of_ok {onError : ε → δ} {onOk : α → β} {α' β' : Type} {onOk' : α' → β'}
    {x : Except ε α} {next : α → Except ε α'} {next' : β → Except δ β'}
    (h : ∀ a, x = .ok a → next' (onOk a) = translate onError onOk' (next a)) :
    translate onError onOk x >>= next' = translate onError onOk' (x >>= next) := by
  cases x with
  | ok a => exact h a rfl
  | error e => rfl

theorem bind_translate {onError : ε → δ} {onOk : α → β} {α' β' : Type} {onOk' : α' → β'}
    (x : Except ε α) {next : α → Except ε α'} {next' : β → Except δ β'}
    (h : ∀ a, next' (onOk a) = translate onError onOk' (next a)) :
    translate onError onOk x >>= next' = translate onError onOk' (x >>= next) :=
  bind_translate_of_ok fun a _ => h a

-- What follows changes only the wording of the result.
theorem translate_bind {onError : ε → δ} {onOk : α → β} {α' : Type} {onOk' : α' → β}
    (x : Except ε α) {next : α → Except ε α'}
    (h : ∀ a, .ok (onOk a) = translate onError onOk' (next a)) :
    translate onError onOk x = translate onError onOk' (x >>= next) := by
  cases x with
  | ok a => exact h a
  | error e => rfl

theorem ite_translate {onError : ε → δ} {onOk : α → β} {c c' : Prop} [Decidable c] [Decidable c']
    {x y : Except ε α} {x' y' : Except δ β} (hc : c' ↔ c) (hx : x' = translate onError onOk x)
    (hy : y' = translate onError onOk y) :
    (if c' then x' else y') = translate onError onOk (if c then x else y) := by
  by_cases h : c
  · rw [if_pos h, if_pos (hc.mpr h), hx]
  · rw [if_neg h, if_neg (mt hc.mp h), hy]

-- The error of a computation that fails.
def error? : Except ε α → Option ε
  | .ok _ => none
  | .error e => some e

theorem error?_eq_some_iff {x : Except ε α} {e : ε} : error? x = some e ↔ x = .error e := by
  cases x <;> simp [error?]

theorem error?_eq_none_iff {x : Except ε α} : error? x = none ↔ ∃ a, x = .ok a := by
  cases x <;> simp [error?]

-- What follows always fails in the same way, if it fails.
theorem error?_bind_or {x : Except ε α} {next : α → Except ε β} {later : Option ε}
    (h : ∀ a, error? (next a) = later) : error? (x >>= next) = (error? x).or later := by
  cases x with
  | ok a => exact h a
  | error e => rfl

theorem error?_bind {x : Except ε α} {next : α → Except ε β} (h : ∀ a, error? (next a) = none) :
    error? (x >>= next) = error? x := by
  rw [error?_bind_or h, Option.or_none]

-- The first member of a list that fails is the one that counts.
theorem error?_mapM (f : α → Except ε β) (l : List α) :
    error? (l.mapM f) = l.findSome? fun a => error? (f a) := by
  induction l with
  | nil => rfl
  | cons a l ih =>
      rw [List.mapM_cons, error?_bind_or fun _ => error?_bind fun _ => rfl, ih, List.findSome?_cons]
      cases error? (f a) <;> rfl

end EchoLang
