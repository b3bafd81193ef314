import Mathlib.Algebra.Group.Nat.Defs

/-!
# Little-endian fields in a record of bytes

A record is a fixed number of bytes. A field of it is an unsigned number at an offset,
stored in a number of bytes with the least significant byte first; an array is a list
of fields of one width, one after the other. Storing a field changes no byte outside
it, and loading it back gives the number up to what its width can hold.
-/

namespace RtXv6.Bytes

variable {size : Nat}

/-- The byte at an index, zero outside the record. -/
def byte (data : Fin size → UInt8) (index : Nat) : UInt8 :=
  if inside : index < size then data ⟨index, inside⟩ else 0

/-- Replace the byte at an index. -/
def setByte (data : Fin size → UInt8) (index : Nat) (value : UInt8) : Fin size → UInt8 :=
  fun position => if position.val = index then value else data position

/-- The number in the `width` bytes from an offset on. -/
def load (data : Fin size → UInt8) (offset : Nat) : Nat → Nat
  | 0 => 0
  | width + 1 => (byte data offset).toNat + 256 * load data (offset + 1) width

/-- Store a number in the `width` bytes from an offset on. -/
def store (data : Fin size → UInt8) (offset : Nat) : Nat → Nat → Fin size → UInt8
  | 0, _ => data
  | width + 1, value =>
    store (setByte data offset (UInt8.ofNat value)) (offset + 1) width (value / 256)

/-- Replace the `count` bytes from an offset on by those of a source. -/
def move (data : Fin size → UInt8) (offset count : Nat) (source : Nat → UInt8) :
    Fin size → UInt8 :=
  fun position =>
    if offset ≤ position.val ∧ position.val < offset + count then source (position.val - offset)
    else data position

/-- The array of `count` fields from an offset on. -/
def loadAll (data : Fin size → UInt8) (offset width : Nat) : Nat → List Nat
  | 0 => []
  | count + 1 => load data offset width :: loadAll data (offset + width) width count

/-- Store an array of fields from an offset on. -/
def storeAll (data : Fin size → UInt8) (offset width : Nat) : List Nat → Fin size → UInt8
  | [] => data
  | value :: rest => storeAll (store data offset width value) (offset + width) width rest

theorem byte_setByte (data : Fin size → UInt8) (index other : Nat) (value : UInt8) :
    byte (setByte data index value) other =
      if other = index ∧ other < size then value else byte data other := by
  by_cases inside : other < size
  · by_cases same : other = index
    · simp [byte, setByte, same, same ▸ inside]
    · simp [byte, setByte, inside, same]
  · simp [byte, inside]

/-- Storing a field leaves the bytes outside it. -/
theorem byte_store_outside (data : Fin size → UInt8) (offset width value index : Nat)
    (outside : index < offset ∨ offset + width ≤ index) :
    byte (store data offset width value) index = byte data index := by
  induction width generalizing data offset value with
  | zero => rfl
  | succ width ih =>
    rw [store, ih _ (offset + 1) (value / 256) (by omega), byte_setByte]
    have different : ¬ (index = offset ∧ index < size) := by omega
    rw [if_neg different]

/-- A field depends on its own bytes. -/
theorem load_congr {left right : Fin size → UInt8} (offset width : Nat)
    (same : ∀ index, offset ≤ index → index < offset + width → byte left index = byte right index) :
    load left offset width = load right offset width := by
  induction width generalizing offset with
  | zero => rfl
  | succ width ih =>
    have rest := ih (offset + 1) (fun index low high => same index (by omega) (by omega))
    rw [load, load, rest, same offset (Nat.le_refl _) (by omega)]

/-- The fields of a record of zeros are zero. -/
theorem load_zero (offset width : Nat) : load (fun _ : Fin size => 0) offset width = 0 := by
  induction width generalizing offset with
  | zero => rfl
  | succ width ih => simp [load, byte, ih]

variable (data : Fin size → UInt8)

/-- Behind the end of the record all fields are zero. -/
theorem load_outside (offset width : Nat) (outside : size ≤ offset) :
    load data offset width = 0 := by
  induction width generalizing offset with
  | zero => rfl
  | succ width ih =>
    have nothing : byte data offset = 0 := dif_neg (by omega)
    rw [load, nothing, ih (offset + 1) (by omega)]
    rfl

/-- A stored field is loaded back up to its width. -/
theorem load_store_self (offset width value : Nat) (inside : offset + width ≤ size) :
    load (store data offset width value) offset width = value % 256 ^ width := by
  induction width generalizing data offset value with
  | zero => rw [load, Nat.pow_zero, Nat.mod_one]
  | succ width ih =>
    have low : byte (store data offset (width + 1) value) offset = UInt8.ofNat value := by
      rw [store, byte_store_outside _ _ _ _ _ (.inl (Nat.lt_succ_self offset)), byte_setByte]
      exact if_pos ⟨rfl, by omega⟩
    have high := ih (setByte data offset (UInt8.ofNat value)) (offset + 1) (value / 256) (by omega)
    have digits : value % 256 ^ (width + 1) = value % 256 + 256 * (value / 256 % 256 ^ width) := by
      rw [Nat.pow_succ', Nat.mod_mul]
    rw [load, low, store, high, digits, UInt8.toNat_ofNat']

/-- Storing a field leaves the fields that do not overlap it. -/
theorem load_store_other (offset width value other otherWidth : Nat)
    (disjoint : other + otherWidth ≤ offset ∨ offset + width ≤ other) :
    load (store data offset width value) other otherWidth = load data other otherWidth := by
  apply load_congr
  intro index low high
  apply byte_store_outside
  omega

theorem byte_move (offset count : Nat) (source : Nat → UInt8) (index : Nat) :
    byte (move data offset count source) index =
      if offset ≤ index ∧ index < offset + count ∧ index < size then source (index - offset)
      else byte data index := by
  by_cases inside : index < size
  · simp [byte, move, inside]
  · simp [byte, inside]

/-- Storing an array leaves the fields that do not overlap it. -/
theorem load_storeAll_other (offset width other otherWidth : Nat) (values : List Nat)
    (disjoint : other + otherWidth ≤ offset ∨ offset + width * values.length ≤ other) :
    load (storeAll data offset width values) other otherWidth = load data other otherWidth := by
  induction values generalizing data offset with
  | nil => rfl
  | cons first rest ih =>
    rw [List.length_cons, Nat.mul_succ] at disjoint
    rw [storeAll, ih _ _ (by omega), load_store_other _ _ _ _ _ _ (by omega)]

variable (offset width : Nat) (values : List Nat) (inside : offset + width * values.length ≤ size)
include inside

/-- Each number of a stored array is loaded back up to its width. -/
theorem load_storeAll (index : Nat) (value : Nat) (at_ : values[index]? = some value) :
    load (storeAll data offset width values) (offset + width * index) width =
      value % 256 ^ width := by
  induction values generalizing data offset index with
  | nil => simp at at_
  | cons first rest ih =>
    rw [List.length_cons, Nat.mul_succ] at inside
    cases index with
    | zero =>
      obtain rfl : first = value := by simpa using at_
      rw [storeAll, Nat.mul_zero, Nat.add_zero,
        load_storeAll_other _ _ _ _ _ _ (.inl (Nat.le_refl _)), load_store_self _ _ _ _ (by omega)]
    | succ index =>
      have later := ih (store data offset width first) (offset + width) (by omega)
        index (by simpa using at_)
      rw [storeAll, Nat.mul_succ, Nat.add_comm (width * index), ← Nat.add_assoc, later]

/-- A stored array of numbers that fit is loaded back. -/
theorem loadAll_storeAll (fit : ∀ value ∈ values, value < 256 ^ width) :
    loadAll (storeAll data offset width values) offset width values.length = values := by
  induction values generalizing data offset with
  | nil => rfl
  | cons first rest ih =>
    rw [List.length_cons, Nat.mul_succ] at inside
    have head : load (storeAll data offset width (first :: rest)) offset width = first := by
      rw [storeAll, load_storeAll_other _ _ _ _ _ _ (.inl (Nat.le_refl _)),
        load_store_self _ _ _ _ (by omega), Nat.mod_eq_of_lt (fit first List.mem_cons_self)]
    have tail := ih (store data offset width first) (offset + width) (by omega)
      (fun value member => fit value (List.mem_cons_of_mem first member))
    rw [List.length_cons, loadAll, head, storeAll, tail]

end RtXv6.Bytes
