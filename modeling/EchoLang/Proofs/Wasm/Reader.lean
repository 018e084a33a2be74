import EchoLang.Wasm.Bytes
import Mathlib.Algebra.Group.Nat.Defs

namespace EchoLang.Wasm

-- What was read, and the bytes behind it.
abbrev Reader (α : Type) := StateT Bytes Option α

section Readers

variable {α : Type}

def next : Reader UInt8 := fun
  | [] => none
  | b :: rest => some (b, rest)

def expect (b : UInt8) : Reader Unit := do
  if (← next) ≠ b then failure

def take (count : Nat) : Reader Bytes := fun bytes =>
  if count ≤ bytes.length then some (bytes.splitAt count) else none

-- A reader that has to take all of its input.
def readAll (r : Reader α) (bytes : Bytes) : Option α :=
  match r bytes with
  | some (a, []) => some a
  | _ => none

-- A number of so many bits. A byte below 128 is the last one.
def readUnsigned (bits : Nat) : Bytes → Option (Nat × Bytes)
  | [] => none
  | b :: rest =>
    if b.toNat < 128 then
      if b.toNat < 2 ^ bits then some (b.toNat, rest) else none
    else if 7 < bits then
      (readUnsigned (bits - 7) rest).map fun (n, rest) => (128 * n + (b.toNat - 128), rest)
    else
      none

-- The same with a sign. The last byte is negative from 64 on.
def readSigned (bits : Nat) : Bytes → Option (Int × Bytes)
  | [] => none
  | b :: rest =>
    if b.toNat < 64 then
      if b.toNat < 2 ^ (bits - 1) then some (b.toNat, rest) else none
    else if b.toNat < 128 then
      if 128 - b.toNat ≤ 2 ^ (bits - 1) then some ((b.toNat : Int) - 128, rest) else none
    else if 7 < bits then
      (readSigned (bits - 7) rest).map fun (n, rest) => (128 * n + ((b.toNat : Int) - 128), rest)
    else
      none

-- Counts, sizes and indices have 32 bits.
def readIndex : Reader Nat := readUnsigned 32

def readFloat : Reader FloatBits := do
  let a ← next
  let b ← next
  let c ← next
  let d ← next
  return ⟨.ofNat (a.toNat + 256 * (b.toNat + 256 * (c.toNat + 256 * d.toNat)))⟩

-- Bytes with their number in front of them.
def readBytes : Reader Bytes := do
  let size ← readIndex
  take size

def readText : Reader String := do
  let bytes ← readBytes
  liftM (String.fromUTF8? ⟨bytes.toArray⟩)

def readMany (r : Reader α) : Nat → Reader (List α)
  | 0 => return []
  | count + 1 => do
    let first ← r
    let others ← readMany r count
    return first :: others

def readVector (r : Reader α) : Reader (List α) := do
  let count ← readIndex
  readMany r count

def readSized (r : Reader α) : Reader α := do
  let content ← readBytes
  liftM (readAll r content)

def readPart (id : UInt8) (r : Reader α) : Reader α := do
  expect id
  readSized r

end Readers

section Reads

variable {α β : Type} {r : Reader α} {f : α → Reader β} {a : α} {b : β} {written later : Bytes}

-- The reader takes what was written and leaves what follows it.
def Reads (r : Reader α) (written : Bytes) (a : α) : Prop :=
  ∀ rest, r (written ++ rest) = some (a, rest)

theorem reads_pure (a : α) : Reads (pure a) [] a := fun _ => rfl

theorem reads_lift {answer : Option α} (h : answer = some a) : Reads (liftM answer) [] a := by
  intro rest
  rw [h]
  rfl

theorem Reads.bind (hr : Reads r written a) (hf : Reads (f a) later b) :
    Reads (r >>= f) (written ++ later) b := by
  intro rest
  rw [List.append_assoc]
  simp only [Bind.bind, StateT.bind, hr (later ++ rest), Option.bind_some]
  exact hf rest

-- The last step of a reader often takes nothing.
theorem Reads.finish (hr : Reads r written a) (hf : Reads (f a) [] b) :
    Reads (r >>= f) written b := by
  have h := hr.bind hf
  rwa [List.append_nil] at h

theorem reads_next (b : UInt8) : Reads next [b] b := fun _ => rfl

theorem reads_expect (b : UInt8) : Reads (expect b) [b] () := by
  refine (reads_next b).finish ?_
  rw [if_neg (not_not_intro rfl)]
  exact reads_pure ()

theorem reads_take (bytes : Bytes) : Reads (take bytes.length) bytes bytes := by
  intro rest
  simp [take]

theorem readAll_of_reads (h : Reads r written a) : readAll r written = some a := by
  have hr := h []
  rw [List.append_nil] at hr
  unfold readAll
  rw [hr]

end Reads

section Numbers

theorem toNat_toUInt8 {n : Nat} (h : n < 256) : n.toUInt8.toNat = n :=
  UInt8.toNat_ofNat_of_lt' h

-- Seven bits less are one byte less.
theorem two_pow_eq {bits : Nat} (h : 7 ≤ bits) : 2 ^ bits = 128 * 2 ^ (bits - 7) := by
  have hsplit : 2 ^ bits = 2 ^ (7 + (bits - 7)) := by
    congr 1
    omega
  rw [hsplit, Nat.pow_add]

theorem lt_of_two_pow_lt {bits k : Nat} (h : 2 ^ k < 2 ^ bits) : k < bits :=
  (Nat.pow_lt_pow_iff_right (by omega)).mp h

theorem readUnsigned_unsigned {n bits : Nat} (h : n < 2 ^ bits) (rest : Bytes) :
    readUnsigned bits (unsigned n ++ rest) = some (n, rest) := by
  induction n using Nat.strongRecOn generalizing bits with
  | ind n ih =>
      rw [unsigned]
      split
      · rename_i hlast
        have hbyte : n.toUInt8.toNat = n := toNat_toUInt8 (by omega)
        simp [readUnsigned, hbyte, hlast, h]
      · rename_i hmore
        have hbyte : (n % 128 + 128).toUInt8.toNat = n % 128 + 128 := toNat_toUInt8 (by omega)
        have hbits : 7 < bits := lt_of_two_pow_lt (by omega)
        have hpow := two_pow_eq (Nat.le_of_lt hbits)
        have hlater : readUnsigned (bits - 7) (unsigned (n / 128) ++ rest) = some (n / 128, rest) :=
          ih (n / 128) (by omega) (by omega)
        have hvalue : 128 * (n / 128) + (n % 128 + 128 - 128) = n := by omega
        simp only [List.cons_append, readUnsigned, hbyte, hlater, hbits, hvalue,
          show ¬ n % 128 + 128 < 128 by omega, if_true, if_false, Option.map_some]

theorem readSigned_signed {n : Int} {bits : Nat} (hbits : 0 < bits)
    (hlow : -((2 ^ (bits - 1) : Nat) : Int) ≤ n) (hhigh : n < (2 ^ (bits - 1) : Nat))
    (rest : Bytes) : readSigned bits (signed n ++ rest) = some (n, rest) := by
  induction hsize : n.natAbs using Nat.strongRecOn generalizing n bits with
  | ind size ih =>
      rw [signed]
      split
      · rename_i hlast
        have hbyte : (n % 128).toNat.toUInt8.toNat = (n % 128).toNat := toNat_toUInt8 (by omega)
        by_cases hsign : (n % 128).toNat < 64
        · have hvalue : ((n % 128).toNat : Int) = n := by omega
          have hfits : (n % 128).toNat < 2 ^ (bits - 1) := by omega
          simp [readSigned, hbyte, hsign, hfits, hvalue]
        · have hvalue : ((n % 128).toNat : Int) - 128 = n := by omega
          have hfits : 128 - (n % 128).toNat ≤ 2 ^ (bits - 1) := by omega
          have hbelow : (n % 128).toNat < 128 := by omega
          simp only [List.cons_append, List.nil_append, readSigned, hbyte, hsign, hfits, hbelow,
            hvalue, if_true, if_false]
      · rename_i hmore
        have hbyte : ((n % 128).toNat + 128).toUInt8.toNat = (n % 128).toNat + 128 :=
          toNat_toUInt8 (by omega)
        have hbits' : 6 < bits - 1 := lt_of_two_pow_lt (by omega)
        have hpow : 2 ^ (bits - 1) = 128 * 2 ^ (bits - 1 - 7) := two_pow_eq (by omega)
        rw [show bits - 1 - 7 = bits - 7 - 1 by omega] at hpow
        have hlater : readSigned (bits - 7) (signed (n / 128) ++ rest) = some (n / 128, rest) :=
          ih (n / 128).natAbs (by omega) (by omega) (by omega) (by omega) rfl
        have hvalue : 128 * (n / 128) + ((((n % 128).toNat + 128 : Nat) : Int) - 128) = n := by
          omega
        simp only [List.cons_append, readSigned, hbyte, hlater, hvalue, show 7 < bits by omega,
          show ¬ (n % 128).toNat + 128 < 128 by omega, show ¬ (n % 128).toNat + 128 < 64 by omega,
          if_true, if_false, Option.map_some]

-- The bytes of a 32-bit word, put together again.
theorem toNat_of_bytes (w : UInt32) :
    w.toUInt8.toNat + 256 * ((w >>> 8).toUInt8.toNat + 256 * ((w >>> 16).toUInt8.toNat +
      256 * (w >>> 24).toUInt8.toNat)) = w.toNat := by
  have hlt := w.toNat_lt
  simp only [UInt32.toNat_toUInt8, UInt32.toNat_shiftRight, UInt32.reduceToNat, Nat.reduceMod,
    Nat.shiftRight_eq_div_pow, Nat.reducePow] at *
  omega

-- Every pattern comes back, that of a NaN too.
theorem reads_float (x : FloatBits) : Reads readFloat (float x) x := by
  have hword : UInt32.ofNat (x.word.toUInt8.toNat + 256 * ((x.word >>> 8).toUInt8.toNat +
      256 * ((x.word >>> 16).toUInt8.toNat + 256 * (x.word >>> 24).toUInt8.toNat))) = x.word := by
    rw [toNat_of_bytes]
    exact UInt32.ofNat_toNat
  refine (reads_next _).bind ((reads_next _).bind ((reads_next _).bind ((reads_next _).finish ?_)))
  rw [hword]
  exact reads_pure x

example : float ⟨0x7FC00001⟩ = [0x01, 0x00, 0xC0, 0x7F] := by decide

example : float ⟨0xFFC00000⟩ = [0x00, 0x00, 0xC0, 0xFF] := by decide

-- The first number that is too large for a count, a size or an index.
def limit : Nat := 4294967296

theorem reads_unsigned {n : Nat} (h : n < limit) : Reads readIndex (unsigned n) n :=
  fun rest => readUnsigned_unsigned h rest

theorem reads_signed (n : Int32) : Reads (readSigned 32) (signed n.toInt) n.toInt := by
  intro rest
  exact readSigned_signed (by omega) n.le_toInt n.toInt_lt rest

end Numbers

section Short

variable {α β : Type} {r : Reader α} {f : α → Reader β} {a : α} {b : β} {written later : Bytes}

-- The same for what is short enough to have its length written in front of it. A
-- part of it is so too, and a vector in it has no more members than bytes.
def ReadsShort (r : Reader α) (written : Bytes) (a : α) : Prop :=
  written.length < limit → Reads r written a

theorem Reads.short (h : Reads r written a) : ReadsShort r written a := fun _ => h

theorem ReadsShort.bind (hr : ReadsShort r written a) (hf : ReadsShort (f a) later b) :
    ReadsShort (r >>= f) (written ++ later) b := by
  intro hlength
  rw [List.length_append] at hlength
  exact (hr (by omega)).bind (hf (by omega))

theorem ReadsShort.finish (hr : ReadsShort r written a) (hf : Reads (f a) [] b) :
    ReadsShort (r >>= f) written b :=
  fun hlength => (hr hlength).finish hf

theorem unsigned_ne_nil (n : Nat) : unsigned n ≠ [] := by
  rw [unsigned]
  split
  · exact List.cons_ne_nil _ _
  · exact List.cons_ne_nil _ _

theorem reads_bytes {bytes : Bytes} (h : bytes.length < limit) :
    Reads readBytes (sized bytes) bytes :=
  (reads_unsigned h).bind (reads_take bytes)

theorem length_lt_of_sized {bytes : Bytes} (h : (sized bytes).length < limit) :
    bytes.length < limit := by
  rw [sized, List.length_append] at h
  omega

theorem readsShort_text (s : String) : ReadsShort readText (text s) s := by
  intro hlength
  have hvalid : String.fromUTF8? ⟨s.toUTF8.data.toList.toArray⟩ = some s :=
    dif_pos s.isValidUTF8
  exact (reads_bytes (length_lt_of_sized hlength)).finish (reads_lift hvalid)

theorem reads_sized (h : ReadsShort r written a) (hlength : written.length < limit) :
    Reads (readSized r) (sized written) a :=
  (reads_bytes hlength).finish (reads_lift (readAll_of_reads (h hlength)))

theorem readsShort_sized (h : ReadsShort r written a) :
    ReadsShort (readSized r) (sized written) a :=
  fun hlength => reads_sized h (length_lt_of_sized hlength)

theorem reads_part (id : UInt8) (h : ReadsShort r written a) (hlength : written.length < limit) :
    Reads (readPart id r) (part id written) a :=
  (reads_expect id).bind (reads_sized h hlength)

theorem readsShort_part (id : UInt8) (h : ReadsShort r written a) :
    ReadsShort (readPart id r) (part id written) a :=
  (reads_expect id).short.bind (readsShort_sized h)

theorem readsShort_many {items : List β} {write : β → Bytes} {value : β → α}
    (h : ∀ b ∈ items, ReadsShort r (write b) (value b)) :
    ReadsShort (readMany r items.length) (items.map write).flatten (items.map value) := by
  induction items with
  | nil => exact (reads_pure _).short
  | cons b items ih =>
      have hothers := ih fun c hc => h c (List.mem_cons_of_mem _ hc)
      exact (h b List.mem_cons_self).bind (hothers.finish (reads_pure _))

theorem length_le_length_flatten {items : List Bytes} (h : ∀ w ∈ items, w ≠ []) :
    items.length ≤ items.flatten.length := by
  induction items with
  | nil => exact Nat.le_refl _
  | cons w items ih =>
      have hw := List.length_pos_iff.mpr (h w List.mem_cons_self)
      have hothers := ih fun v hv => h v (List.mem_cons_of_mem _ hv)
      simp only [List.length_cons, List.flatten_cons, List.length_append]
      omega

theorem length_le_length_vector {items : List Bytes} (h : ∀ w ∈ items, w ≠ []) :
    items.length ≤ (vector items).length := by
  have hflatten := length_le_length_flatten h
  unfold vector
  rw [List.length_append]
  omega

theorem readsShort_vector_map {items : List β} {write : β → Bytes} {value : β → α}
    (h : ∀ b ∈ items, ReadsShort r (write b) (value b)) (hne : ∀ b ∈ items, write b ≠ []) :
    ReadsShort (readVector r) (vector (items.map write)) (items.map value) := by
  intro hlength
  have hcount : items.length ≤ (vector (items.map write)).length := by
    have hitems : ∀ w ∈ items.map write, w ≠ [] := by
      intro w hw
      obtain ⟨b, hb, rfl⟩ := List.mem_map.mp hw
      exact hne b hb
    simpa using length_le_length_vector hitems
  have hmany := readsShort_many h
  have hunsigned := reads_unsigned (Nat.lt_of_le_of_lt hcount hlength)
  unfold vector at hlength ⊢
  rw [List.length_append, List.length_map] at hlength
  rw [List.length_map]
  exact hunsigned.bind (hmany (by omega))

theorem readsShort_vector {items : List α} {write : α → Bytes}
    (h : ∀ a ∈ items, ReadsShort r (write a) a) (hne : ∀ a ∈ items, write a ≠ []) :
    ReadsShort (readVector r) (vector (items.map write)) items := by
  have hmap : ReadsShort (readVector r) (vector (items.map write)) (items.map id) :=
    readsShort_vector_map h hne
  rwa [List.map_id] at hmap

end Short

end EchoLang.Wasm
