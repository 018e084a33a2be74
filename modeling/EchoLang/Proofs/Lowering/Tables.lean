import EchoLang.Proofs.Lowering.Slots
import Mathlib.Data.List.Nodup

namespace EchoLang

-- What a table is asked.
inductive SlotRequest where
  | declare (name : String)
  | resolve (name : String)

namespace SlotRequest

def declared? : SlotRequest → Option String
  | declare name => some name
  | resolve _ => none

-- The names that are declared, as often as they are and in this order.
def declared (requests : List SlotRequest) : List String :=
  requests.filterMap declared?

-- The answers to requests, and what they leave behind of the table.
def serve {Table Answer : Type} (answer : Table → SlotRequest → Answer × Table) (t : Table) :
    List SlotRequest → List Answer × Table
  | [] => ([], t)
  | r :: rest =>
    let (first, t) := answer t r
    let (others, t) := serve answer t rest
    (first :: others, t)

end SlotRequest

namespace Slots

variable {s : Slots} {name other : String} {slot : Nat}

def answer (s : Slots) : SlotRequest → Option Nat × Slots
  | .declare name => (some (s.declare name).1, (s.declare name).2)
  | .resolve name => (s.resolve? name, s)

def serve (s : Slots) (requests : List SlotRequest) : List (Option Nat) × Slots :=
  SlotRequest.serve answer s requests

theorem serve_cons (s : Slots) (r : SlotRequest) (rest : List SlotRequest) :
    s.serve (r :: rest) =
      ((s.answer r).1 :: ((s.answer r).2.serve rest).1, ((s.answer r).2.serve rest).2) := rfl

theorem answer_extends (s : Slots) (r : SlotRequest) : (s.answer r).2.Extends s := by
  cases r with
  | declare name => exact declare_extends s name
  | resolve name => exact Extends.refl s

theorem serve_extends (s : Slots) (requests : List SlotRequest) :
    (s.serve requests).2.Extends s := by
  induction requests generalizing s with
  | nil => exact Extends.refl s
  | cons r rest ih =>
      rw [serve_cons]
      exact (ih _).trans (answer_extends s r)

-- Only declarations change a table.
theorem serve_eq_foldl (s : Slots) (requests : List SlotRequest) :
    (s.serve requests).2 =
      (SlotRequest.declared requests).foldl (fun s name => (s.declare name).2) s := by
  induction requests generalizing s with
  | nil => rfl
  | cons r rest ih =>
      rw [serve_cons, ih]
      cases r with
      | declare name => rfl
      | resolve name => rfl

theorem names_serve_empty (requests : List SlotRequest) :
    (empty.serve requests).2.names = (SlotRequest.declared requests).eraseDups := by
  rw [serve_eq_foldl, names_foldl_declare]
  simp [empty]

-- Without repetitions, looking up a name is the inverse of reading off a slot.
theorem resolve?_eq_some_iff (hnodup : s.names.Nodup) :
    s.resolve? name = some slot ↔ s.names[slot]? = some name := by
  constructor
  · exact names_of_resolve?
  · intro hslot
    have hmem : name ∈ s.names := List.mem_of_getElem? hslot
    obtain ⟨found, hfound⟩ : ∃ found, s.resolve? name = some found := by
      cases h : s.resolve? name with
      | none => exact absurd hmem (resolve?_eq_none_iff.mp h)
      | some found => exact ⟨found, rfl⟩
    have hsame : s.names[found]? = s.names[slot]? := by rw [names_of_resolve? hfound, hslot]
    rw [hfound, (List.getElem?_inj (lt_size_of_resolve? hfound) hnodup).mp hsame]

theorem declare_of_resolve? (h : s.resolve? name = some slot) : s.declare name = (slot, s) := by
  unfold declare
  rw [h]

theorem declare_of_resolve?_eq_none (h : s.resolve? name = none) :
    s.declare name = (s.size, ⟨s.names ++ [name]⟩) := by
  unfold declare
  rw [h]
  rfl

theorem resolve?_declare_of_ne (h : other ≠ name) :
    (s.declare name).2.resolve? other = s.resolve? other := by
  cases hname : s.resolve? name with
  | some slot => rw [declare_of_resolve? hname]
  | none =>
      rw [declare_of_resolve?_eq_none hname]
      simp [resolve?, List.idxOf?, List.findIdx?_append, h.symm]

-- What is true of a table whenever it was empty once. The list holds the names that were
-- declared since then.
structure Records (s : Slots) (declared : List String) : Prop where
  nodup : s.names.Nodup
  names : s.names = declared.eraseDups
  inverse : ∀ name slot, s.resolve? name = some slot ↔ s.names[slot]? = some name
  -- A declaration answers what every later request for its name is answered.
  keeps : ∀ name later,
    ((s.declare name).2.serve later).2.resolve? name = some (s.declare name).1 ∧
      (((s.declare name).2.serve later).2.declare name).1 = (s.declare name).1
  others : ∀ name other, other ≠ name → (s.declare name).2.resolve? other = s.resolve? other
  size : ∀ name, (s.declare name).2.size = if name ∈ declared then s.size else s.size + 1

theorem records_serve (requests : List SlotRequest) :
    (empty.serve requests).2.Records (SlotRequest.declared requests) := by
  have hnames := names_serve_empty requests
  have hnodup : (empty.serve requests).2.names.Nodup := by
    rw [hnames]
    exact nodup_eraseDups _
  refine ⟨hnodup, hnames, fun _ _ => resolve?_eq_some_iff hnodup, ?_,
    fun _ _ => resolve?_declare_of_ne, ?_⟩
  · intro name later
    have hlater := resolve?_of_extends (serve_extends _ later)
      (resolve?_declare (empty.serve requests).2 name)
    exact ⟨hlater, by rw [declare_of_resolve? hlater]⟩
  · intro name
    have hmem : name ∈ (empty.serve requests).2.names ↔ name ∈ SlotRequest.declared requests := by
      rw [hnames, List.mem_eraseDups]
    rw [size, names_declare]
    by_cases h : name ∈ SlotRequest.declared requests
    · rw [if_pos (hmem.mpr h), if_pos h, size]
    · rw [if_neg (mt hmem.mp h), if_neg h, List.length_append, size]
      rfl

end Slots

-- A table with a map from names to slots beside the list of its names.
structure IndexedSlots where
  index : Std.HashMap String UInt32
  names : List String

namespace IndexedSlots

def empty : IndexedSlots := ⟨∅, []⟩

def resolve? (t : IndexedSlots) (name : String) : Option UInt32 :=
  t.index[name]?

-- A slot has 32 bits, and what does not fit is cut off.
def declare (t : IndexedSlots) (name : String) : UInt32 × IndexedSlots :=
  match t.resolve? name with
  | some slot => (slot, t)
  | none =>
    let slot := t.names.length.toUInt32
    (slot, ⟨t.index.insert name slot, t.names ++ [name]⟩)

def answer (t : IndexedSlots) : SlotRequest → Option UInt32 × IndexedSlots
  | .declare name => (some (t.declare name).1, (t.declare name).2)
  | .resolve name => (t.resolve? name, t)

def serve (t : IndexedSlots) (requests : List SlotRequest) : List (Option UInt32) × IndexedSlots :=
  SlotRequest.serve answer t requests

theorem serve_cons (t : IndexedSlots) (r : SlotRequest) (rest : List SlotRequest) :
    t.serve (r :: rest) =
      ((t.answer r).1 :: ((t.answer r).2.serve rest).1, ((t.answer r).2.serve rest).2) := rfl

-- Both tables have the same names and find the same slots.
structure Mirrors (t : IndexedSlots) (s : Slots) : Prop where
  names : t.names = s.names
  slots : ∀ name, (t.resolve? name).map UInt32.toNat = s.resolve? name

variable {t : IndexedSlots} {s : Slots} {name : String}

theorem mirrors_empty : empty.Mirrors .empty :=
  ⟨rfl, fun name => by simp [resolve?, empty, Slots.resolve?, Slots.empty]⟩

-- A new name gets the same slot in both tables if there is a number left for it.
theorem Mirrors.insert (h : t.Mirrors s) (hnew : s.resolve? name = none)
    (hroom : s.size < UInt32.size) :
    Mirrors ⟨t.index.insert name s.size.toUInt32, t.names ++ [name]⟩ (s.declare name).2 := by
  have hslot : s.size.toUInt32.toNat = s.size := Nat.mod_eq_of_lt hroom
  have hdeclare := Slots.declare_of_resolve?_eq_none hnew
  constructor
  case names => rw [hdeclare, h.names]
  case slots =>
    intro other
    by_cases hother : other = name
    · subst hother
      rw [Slots.resolve?_declare, hdeclare]
      simp [resolve?, hslot]
    · rw [Slots.resolve?_declare_of_ne hother, ← h.slots other]
      simp [resolve?, Std.HashMap.getElem?_insert, Ne.symm hother]

theorem Mirrors.declare (h : t.Mirrors s) (hroom : (s.declare name).2.size ≤ UInt32.size) :
    (t.declare name).1.toNat = (s.declare name).1 ∧
      (t.declare name).2.Mirrors (s.declare name).2 := by
  have hname := h.slots name
  unfold IndexedSlots.declare
  cases hfound : t.resolve? name with
  | some slot =>
      rw [hfound] at hname
      rw [Slots.declare_of_resolve? hname.symm]
      exact ⟨rfl, h⟩
  | none =>
      rw [hfound] at hname
      have hdeclare := Slots.declare_of_resolve?_eq_none hname.symm
      have hlt : s.size < UInt32.size := by
        rw [hdeclare, Slots.size, List.length_append] at hroom
        exact hroom
      have hlength : t.names.length = s.size := congrArg List.length h.names
      rw [hlength]
      refine ⟨?_, h.insert hname.symm hlt⟩
      rw [hdeclare]
      exact Nat.mod_eq_of_lt hlt

theorem Mirrors.answer (h : t.Mirrors s) {r : SlotRequest}
    (hroom : (s.answer r).2.size ≤ UInt32.size) :
    (t.answer r).1.map UInt32.toNat = (s.answer r).1 ∧ (t.answer r).2.Mirrors (s.answer r).2 := by
  cases r with
  | declare name =>
      obtain ⟨hslot, hafter⟩ := h.declare hroom
      exact ⟨congrArg some hslot, hafter⟩
  | resolve name => exact ⟨h.slots name, h⟩

-- Tables only grow, so that room at the end is room at every request.
theorem Mirrors.serve (h : t.Mirrors s) {requests : List SlotRequest}
    (hroom : (s.serve requests).2.size ≤ UInt32.size) :
    (t.serve requests).1.map (·.map UInt32.toNat) = (s.serve requests).1 ∧
      (t.serve requests).2.Mirrors (s.serve requests).2 := by
  induction requests generalizing t s with
  | nil => exact ⟨rfl, h⟩
  | cons r rest ih =>
      rw [Slots.serve_cons] at hroom
      have hgrows := Slots.size_le_of_extends (Slots.serve_extends (s.answer r).2 rest)
      obtain ⟨hfirst, hnext⟩ := h.answer (Nat.le_trans hgrows hroom)
      obtain ⟨hothers, hlast⟩ := ih hnext hroom
      rw [serve_cons, Slots.serve_cons]
      exact ⟨by rw [List.map_cons, hfirst, hothers], hlast⟩

-- The map and the list of a table are inverse to each other.
theorem Mirrors.index_eq_some_iff (h : t.Mirrors s) (hnodup : s.names.Nodup) {slot : UInt32} :
    t.index[name]? = some slot ↔ t.names[slot.toNat]? = some name := by
  rw [h.names, ← Slots.resolve?_eq_some_iff hnodup, ← h.slots name]
  cases hfound : t.index[name]? with
  | none => simp [resolve?, hfound]
  | some found => simp [resolve?, hfound, UInt32.toNat_inj]

end IndexedSlots

-- After any requests, a table that was empty has the declared names in the order of their first
-- declaration, and names and slots are inverse to each other. So are the map and the list
-- of a table with a map, which answers the same, if its slots fit into 32 bits.
theorem slots_answer_requests (requests : List SlotRequest) :
    (Slots.empty.serve requests).2.Records (SlotRequest.declared requests) ∧
    ((SlotRequest.declared requests).eraseDups.length < UInt32.size →
      (IndexedSlots.empty.serve requests).1.map (·.map UInt32.toNat) =
        (Slots.empty.serve requests).1 ∧
      (IndexedSlots.empty.serve requests).2.names = (Slots.empty.serve requests).2.names ∧
      ∀ name (slot : UInt32), (IndexedSlots.empty.serve requests).2.index[name]? = some slot ↔
        (IndexedSlots.empty.serve requests).2.names[slot.toNat]? = some name) := by
  have hrecords := Slots.records_serve requests
  refine ⟨hrecords, ?_⟩
  intro hfew
  have hroom : (Slots.empty.serve requests).2.size ≤ UInt32.size := by
    rw [Slots.size, hrecords.names]
    exact Nat.le_of_lt hfew
  obtain ⟨hanswers, hmirrors⟩ := IndexedSlots.mirrors_empty.serve hroom
  exact ⟨hanswers, hmirrors.names, fun _ _ => hmirrors.index_eq_some_iff hrecords.nodup⟩

-- A name that is declared twice, and one that is not declared at all.
def redeclaring : List SlotRequest :=
  [.declare "b", .declare "a", .declare "b", .resolve "a", .resolve "c"]

theorem slots_answer_requests_redeclaring :
    (Slots.empty.serve redeclaring).2.Records ["b", "a", "b"] ∧
      (SlotRequest.declared redeclaring).eraseDups.length < UInt32.size ∧
      (IndexedSlots.empty.serve redeclaring).1.map (·.map UInt32.toNat) =
        [some 0, some 1, some 0, some 1, none] ∧
      (IndexedSlots.empty.serve redeclaring).2.names = ["b", "a"] := by
  have hfew : (SlotRequest.declared redeclaring).eraseDups.length < UInt32.size := by decide
  obtain ⟨hrecords, hindexed⟩ := slots_answer_requests redeclaring
  obtain ⟨hanswers, hnames, _⟩ := hindexed hfew
  exact ⟨hrecords, hfew, hanswers.trans (by decide), hnames.trans (by decide)⟩

end EchoLang
