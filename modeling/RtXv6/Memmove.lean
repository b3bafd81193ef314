import Mathlib.Logic.Function.Basic

/-!
# The two `memmove`s

The kernel's `memmove` copies from the last byte down when the destination starts inside the
source, and from the first byte up otherwise. It is right for every overlap. That of the user
library always copies upwards: if the destination starts inside the source, it reads bytes that
it has already written, and what it leaves repeats the bytes in front of the destination.

An address is a number below `SPACE`, and pointers wrap there.
-/

namespace RtXv6.Memmove

open Function (update update_self update_of_ne)

/-- The number of addresses. -/
abbrev SPACE : Nat := 4294967296

/-- The bytes at the addresses. -/
abbrev Memory := Nat → UInt8

/-- The memory after `count` iterations of `*d++ = *s++`. -/
def ascending (memory : Memory) (d s : Nat) : Nat → Memory
  | 0 => memory
  | count + 1 =>
    let memory := ascending memory d s count
    update memory ((d + count) % SPACE) (memory ((s + count) % SPACE))

/-- The memory after `count` iterations of `*--d = *--s`. -/
def descending (memory : Memory) (d s : Nat) : Nat → Memory
  | 0 => memory
  | count + 1 =>
    let memory := descending memory d s count
    update memory ((d + SPACE - (count + 1)) % SPACE) (memory ((s + SPACE - (count + 1)) % SPACE))

/-- `memmove` of the kernel: the pointer that it returns, and the memory. -/
def memmove (memory : Memory) (dst src n : Nat) : Nat × Memory :=
  (dst,
    if src < dst ∧ (src + n) % SPACE > dst then
      descending memory ((dst + n) % SPACE) ((src + n) % SPACE) n
    else ascending memory dst src n)

/-- `memmove` of the user library, whose count is an `int`. -/
def ulibMemmove (memory : Memory) (vdst vsrc : Nat) (n : Int) : Nat × Memory :=
  (vdst, ascending memory vdst vsrc n.toNat)

/-- The `n` bytes at `dst` are those that were at `src`, and all others are as before. -/
structure Copied (before after : Memory) (dst src n : Nat) : Prop where
  inside : ∀ i < n, after (dst + i) = before (src + i)
  outside : ∀ a, a < dst ∨ dst + n ≤ a → after a = before a

theorem Copied.unique {before one other : Memory} {dst src n : Nat}
    (first : Copied before one dst src n) (second : Copied before other dst src n) :
    one = other := by
  funext a
  by_cases far : a < dst ∨ dst + n ≤ a
  · rw [first.outside a far, second.outside a far]
  · obtain ⟨i, rfl⟩ : ∃ i, a = dst + i := ⟨a - dst, by omega⟩
    rw [first.inside i (by omega), second.inside i (by omega)]

section

variable {d s n count : Nat} (memory : Memory) (destination : d + n ≤ SPACE)
  (source : s + n ≤ SPACE) (within : count ≤ n)
include destination source within

/-- Upwards, the copy is right if the destination starts at or below the source or behind it.
If it starts above the source, each byte of the source is final when it is read. -/
theorem ascending_spec :
    (∀ a, a < d ∨ d + count ≤ a → ascending memory d s count a = memory a) ∧
    (d ≤ s ∨ s + n ≤ d → ∀ i < count, ascending memory d s count (d + i) = memory (s + i)) ∧
    (s < d → ∀ i < count,
      ascending memory d s count (d + i) = ascending memory d s count (s + i)) := by
  induction count with
  | zero => simp [ascending]
  | succ count ih =>
    obtain ⟨outside, copied, chases⟩ := ih (by omega)
    have writes : (d + count) % SPACE = d + count := Nat.mod_eq_of_lt (by omega)
    have reads : (s + count) % SPACE = s + count := Nat.mod_eq_of_lt (by omega)
    simp only [ascending, writes, reads]
    refine ⟨fun a far => ?_, fun apart i below => ?_, fun lower i below => ?_⟩
    · rw [update_of_ne (by omega)]
      exact outside a (by omega)
    · by_cases last : i = count
      · rw [last, update_self]
        exact outside _ (by omega)
      · rw [update_of_ne (by omega)]
        exact copied apart i (by omega)
    · rw [update_of_ne (show s + i ≠ d + count by omega)]
      by_cases last : i = count
      · rw [last, update_self]
      · rw [update_of_ne (by omega)]
        exact chases lower i (by omega)

/-- Downwards, the last `count` bytes are copied, and those still to be read are below them. -/
theorem descending_spec (lower : s < d) (a : Nat) :
    descending memory ((d + n) % SPACE) ((s + n) % SPACE) count a =
      if d + n ≤ a + count ∧ a < d + n then memory (s + (a - d)) else memory a := by
  induction count generalizing a with
  | zero => exact (if_neg (by omega)).symm
  | succ count ih =>
    have down : ∀ p, count < p → p ≤ SPACE →
        (p % SPACE + SPACE - (count + 1)) % SPACE = p - (count + 1) := by
      unfold SPACE
      omega
    simp only [descending, down _ (show count < d + n by omega) destination,
      down _ (show count < s + n by omega) source]
    by_cases here : a = d + n - (count + 1)
    · rw [here, update_self, ih (by omega), if_neg (by omega), if_pos (by omega)]
      exact congrArg memory (by omega)
    · rw [update_of_ne here, ih (by omega)]
      exact if_congr (by omega) rfl rfl

end

section

variable {dst src n : Nat} (destination : dst + n ≤ SPACE) (source : src + n ≤ SPACE)
  (memory : Memory)
include destination source

/-- The kernel copies downwards exactly if the destination starts inside the source. -/
theorem memmove_copied : Copied memory (memmove memory dst src n).2 dst src n := by
  have wraps : src < dst → (src + n) % SPACE = src + n := fun lower =>
    Nat.mod_eq_of_lt (by omega)
  simp only [memmove]
  split
  · next overlaps =>
    have copied := descending_spec memory destination source (Nat.le_refl n) overlaps.1
    refine ⟨fun i below => ?_, fun a far => ?_⟩
    · rw [copied, if_pos (by omega), Nat.add_sub_cancel_left]
    · rw [copied, if_neg (by omega)]
  · obtain ⟨outside, copied, _⟩ := ascending_spec memory destination source (Nat.le_refl n)
    exact ⟨copied (by omega), outside⟩

/-- The kernel's `memmove` is right for all overlaps. -/
theorem memmove_correct : (memmove memory dst src n).1 = dst ∧
    Copied memory (memmove memory dst src n).2 dst src n :=
  ⟨rfl, memmove_copied destination source memory⟩

/-- The user's `memmove` does what the kernel's does exactly if the bytes before a destination
that starts inside the source are repeated to the end of the source anyway. -/
theorem memmoves_agree_iff :
    (ulibMemmove memory dst src n).2 = (memmove memory dst src n).2 ↔
      (src < dst → ∀ i, dst + i < src + n → memory (src + i) = memory (dst + i)) := by
  have kernel := memmove_copied destination source memory
  obtain ⟨outside, copied, chases⟩ := ascending_spec memory destination source (Nat.le_refl n)
  constructor
  · intro same lower i below
    obtain ⟨j, reached⟩ : ∃ j, dst + i = src + j := ⟨dst + i - src, by omega⟩
    have one := kernel.inside i (by omega)
    have two := kernel.inside j (by omega)
    rw [← same] at one two
    rw [reached, ← two, ← one, reached]
    exact (chases lower j (by omega)).symm
  · intro repeats
    refine Copied.unique ⟨fun i below => ?_, outside⟩ kernel
    by_cases apart : dst ≤ src
    · exact copied (.inl apart) i below
    -- A byte of the source that has been overwritten is one that was copied before.
    · induction i using Nat.strongRecOn with
      | ind i ih =>
        have read := chases (by omega) i below
        by_cases overwritten : src + i < dst
        · exact read.trans (outside _ (.inl overwritten))
        obtain ⟨j, reached⟩ : ∃ j, src + i = dst + j := ⟨src + i - dst, by omega⟩
        rw [reached] at read ⊢
        exact read.trans ((ih j (by omega) (by omega)).trans (repeats (by omega) j (by omega)))

end

/-- Two bytes one address up, all memory zero. -/
theorem memmoves_agree_zero :
    (ulibMemmove (fun _ => 0) 1 0 2).2 = (memmove (fun _ => 0) 1 0 2).2 :=
  (memmoves_agree_iff (by decide) (by decide) _).mpr fun _ _ _ => rfl

/-- The same where each byte is its address: the user's `memmove` loses the second byte. -/
theorem memmoves_differ :
    (ulibMemmove UInt8.ofNat 1 0 2).2 2 = 0 ∧ (memmove UInt8.ofNat 1 0 2).2 2 = 1 := by
  decide

/-- Two bytes one address up. -/
theorem memmove_correct_up : (memmove UInt8.ofNat 1 0 2).2 2 = 1 :=
  (memmove_correct (by decide) (by decide) UInt8.ofNat).2.inside 1 (by decide)

end RtXv6.Memmove
