import EchoLang.Lowering.Slots

namespace EchoLang

theorem nodup_eraseDups {α : Type} [BEq α] [LawfulBEq α] (l : List α) : l.eraseDups.Nodup := by
  induction hlength : l.length using Nat.strongRecOn generalizing l with
  | ind n ih =>
      cases l with
      | nil => simp
      | cons a l =>
          rw [List.eraseDups_cons]
          refine List.nodup_cons.mpr ⟨?_, ?_⟩
          · simp
          · have hle := List.length_filter_le (fun b => !b == a) l
            exact ih _ (by rw [List.length_cons] at hlength; omega) _ rfl

namespace Slots

variable {s t u : Slots} {name other : String} {slot : Nat}

-- A table with the same slots and perhaps more behind them.
def Extends (t s : Slots) : Prop := s.names <+: t.names

theorem Extends.refl (s : Slots) : s.Extends s := List.prefix_refl _

theorem Extends.trans (h : u.Extends t) (h' : t.Extends s) : u.Extends s :=
  List.IsPrefix.trans h' h

theorem resolve?_of_extends (h : t.Extends s) (hs : s.resolve? name = some slot) :
    t.resolve? name = some slot := by
  obtain ⟨more, hmore⟩ := h
  unfold resolve? at hs ⊢
  rw [← hmore, List.idxOf?, List.findIdx?_append]
  rw [List.idxOf?] at hs
  rw [hs]
  rfl

theorem names_of_resolve? (h : s.resolve? name = some slot) : s.names[slot]? = some name := by
  obtain ⟨hlt, hname, _⟩ := List.idxOf?_eq_some_iff.mp h
  rw [List.getElem?_eq_getElem hlt, hname]

theorem lt_size_of_resolve? (h : s.resolve? name = some slot) : slot < s.size := by
  obtain ⟨hlt, _⟩ := List.idxOf?_eq_some_iff.mp h
  exact hlt

-- Different names have different slots.
theorem resolve?_inj (h : s.resolve? name = some slot) (h' : s.resolve? other = some slot) :
    name = other := by
  have hname := names_of_resolve? h
  rw [names_of_resolve? h'] at hname
  exact (Option.some.inj hname).symm

theorem size_le_of_extends (h : t.Extends s) : s.size ≤ t.size := List.IsPrefix.length_le h

theorem declare_extends (s : Slots) (name : String) : (s.declare name).2.Extends s := by
  unfold declare
  cases s.resolve? name with
  | some slot => exact Extends.refl s
  | none => exact List.prefix_append _ _

theorem resolve?_declare (s : Slots) (name : String) :
    (s.declare name).2.resolve? name = some (s.declare name).1 := by
  unfold declare
  cases h : s.resolve? name with
  | some slot => exact h
  | none =>
      unfold resolve? List.idxOf? at h ⊢
      simp [List.findIdx?_append, h]

theorem resolve?_eq_none_iff : s.resolve? name = none ↔ name ∉ s.names :=
  List.idxOf?_eq_none_iff

-- A declaration adds its name and nothing else.
theorem mem_names_declare : other ∈ (s.declare name).2.names ↔ other ∈ s.names ∨ other = name := by
  unfold declare
  cases h : s.resolve? name with
  | some slot =>
      have hmem : name ∈ s.names := List.mem_of_getElem? (names_of_resolve? h)
      constructor
      · exact .inl
      · rintro (hother | rfl)
        · exact hother
        · exact hmem
  | none => simp

theorem names_declare (s : Slots) (name : String) :
    (s.declare name).2.names = if name ∈ s.names then s.names else s.names ++ [name] := by
  unfold declare
  cases h : s.resolve? name with
  | some slot => rw [if_pos (List.mem_of_getElem? (names_of_resolve? h))]
  | none => rw [if_neg (resolve?_eq_none_iff.mp h)]

-- Names that are declared one after the other have slots in the order in which they were new.
theorem names_foldl_declare (s : Slots) (names : List String) :
    (names.foldl (fun s name => (s.declare name).2) s).names =
      s.names ++ (names.filter (· ∉ s.names)).eraseDups := by
  induction names generalizing s with
  | nil => simp
  | cons name rest ih =>
      rw [List.foldl_cons, ih, names_declare]
      by_cases h : name ∈ s.names
      · rw [if_pos h, List.filter_cons_of_neg (by simpa using h)]
      · rw [if_neg h, List.filter_cons_of_pos (by simpa using h), List.eraseDups_cons,
          List.filter_filter, List.append_assoc, List.singleton_append]
        congr 3
        apply List.filter_congr
        intro other _
        by_cases hother : other = name <;> simp [hother]

end Slots

end EchoLang
