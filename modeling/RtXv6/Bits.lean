import RtXv6.Bytes

/-!
# Single bits in a record of bytes

A record of bytes is also a sequence of bits, numbered from the least significant bit
of its first byte. Setting or clearing a bit changes no other bit.
-/

namespace RtXv6.Bytes

variable {size : Nat}

/-- The bit of its byte that an index stands for. -/
def mask (index : Nat) : UInt8 := 1 <<< UInt8.ofNat (index % 8)

/-- Is the bit at an index set? -/
def bit (data : Fin size → UInt8) (index : Nat) : Bool := byte data (index / 8) &&& mask index != 0

/-- Set the bit at an index. -/
def setBit (data : Fin size → UInt8) (index : Nat) : Fin size → UInt8 :=
  setByte data (index / 8) (byte data (index / 8) ||| mask index)

/-- Clear the bit at an index. -/
def clearBit (data : Fin size → UInt8) (index : Nat) : Fin size → UInt8 :=
  setByte data (index / 8) (byte data (index / 8) &&& ~~~ mask index)

theorem toBitVec_mask (index : Nat) : (mask index).toBitVec = BitVec.twoPow 8 (index % 8) := by
  have each : ∀ position < 8,
      (1 <<< UInt8.ofNat position : UInt8).toBitVec = BitVec.twoPow 8 position := by
    decide
  exact each (index % 8) (Nat.mod_lt _ (by decide))

/-- Testing against a mask reads one bit of the byte. -/
theorem and_mask (value : UInt8) (index : Nat) :
    (value &&& mask index != 0) = value.toBitVec.getLsbD (index % 8) := by
  have small : index % 8 < 8 := Nat.mod_lt _ (by decide)
  have test : (value &&& mask index = 0) ↔ value.toBitVec.getLsbD (index % 8) = false := by
    rw [← UInt8.toBitVec_inj, UInt8.toBitVec_and, toBitVec_mask, BitVec.and_twoPow]
    by_cases on : value.toBitVec.getLsbD (index % 8)
    · have nonzero : BitVec.twoPow 8 (index % 8) ≠ 0 := by
        intro zero
        have bitZero := congrArg (fun bits => bits.getLsbD (index % 8)) zero
        simp [small] at bitZero
      simpa [on] using nonzero
    · simp [on]
  by_cases on : value.toBitVec.getLsbD (index % 8)
  · have nonzero : value &&& mask index ≠ 0 := by simp [test, on]
    simp [nonzero, on]
  · have zero : value &&& mask index = 0 := by simp [test, on]
    simp [zero, on]

/-- The byte of another bit is the same or another byte. -/
theorem same_byte_iff {index other : Nat} (together : index / 8 = other / 8) :
    index % 8 = other % 8 ↔ index = other := by
  omega

variable (data : Fin size → UInt8) (other : Nat) {index : Nat} (inside : index < 8 * size)
include inside

/-- A set bit is set and the others are as they were. -/
theorem bit_setBit :
    bit (setBit data index) other = (decide (index = other) || bit data other) := by
  unfold bit setBit
  rw [byte_setByte]
  by_cases together : other / 8 = index / 8
  · rw [if_pos ⟨together, by omega⟩, and_mask, and_mask, UInt8.toBitVec_or, toBitVec_mask,
      BitVec.getLsbD_or, BitVec.getLsbD_twoPow, together, Bool.or_comm]
    have small : index % 8 < 8 := Nat.mod_lt _ (by decide)
    simp only [small, decide_true, Bool.true_and, same_byte_iff together.symm]
  · have different : index ≠ other := fun same => together (by rw [same])
    rw [if_neg (fun both => together both.1)]
    simp [different]

/-- A cleared bit is clear and the others are as they were. -/
theorem bit_clearBit :
    bit (clearBit data index) other = (!decide (index = other) && bit data other) := by
  unfold bit clearBit
  rw [byte_setByte]
  by_cases together : other / 8 = index / 8
  · have small : other % 8 < 8 := Nat.mod_lt _ (by decide)
    have limit : index % 8 < 8 := Nat.mod_lt _ (by decide)
    rw [if_pos ⟨together, by omega⟩, and_mask, and_mask, UInt8.toBitVec_and, UInt8.toBitVec_not,
      toBitVec_mask, BitVec.getLsbD_and, BitVec.getLsbD_not, BitVec.getLsbD_twoPow, together,
      Bool.and_comm]
    simp only [small, limit, decide_true, Bool.true_and, same_byte_iff together.symm]
  · have different : index ≠ other := fun same => together (by rw [same])
    rw [if_neg (fun both => together both.1)]
    simp [different]

end RtXv6.Bytes
