import Mathlib.Data.Fintype.Basic
import Mathlib.Data.Nat.ModEq

/-!
# Circular buffers with running counters

Cells are used in turn, and a position is taken modulo the number of cells. The contents
are the items from a starting position on. An item that is stored behind the last one
joins the contents, and the first item leaves when the starting position moves on. The
positions matter only modulo the number of cells, so counters that wrap around at a
multiple of it serve as well as counters that never do. The contents between two counters
of a machine word are treated last: such counters are subtracted and never compared.
-/

namespace RtXv6.CircularBuffer

universe u
variable {item : Type u} {capacity : Nat} [NeZero capacity]

/-- The items in a number of cells from a position on. -/
def contents (cell : Fin capacity → item) (start count : Nat) : List item :=
  (List.range count).map fun k => cell (Fin.ofNat capacity (start + k))

@[simp] theorem contents_length (cell : Fin capacity → item) (start count : Nat) :
    (contents cell start count).length = count := by
  simp [contents]

/-- Positions with the same remainder are the same. -/
theorem contents_congr (cell : Fin capacity → item) {start other : Nat} (count : Nat)
    (same : start % capacity = other % capacity) :
    contents cell start count = contents cell other count := by
  apply List.map_congr_left
  intro k _
  have equal : start + k ≡ other + k [MOD capacity] := Nat.ModEq.add_right k same
  exact congrArg cell (Fin.ext equal)

/-- The first item leaves. -/
theorem contents_pop (cell : Fin capacity → item) (start count : Nat) :
    contents cell start (count + 1) =
      cell (Fin.ofNat capacity start) :: contents cell (start + 1) count := by
  unfold contents
  rw [List.range_succ_eq_map, List.map_cons, List.map_map]
  congr 1
  apply List.map_congr_left
  intro k _
  have position : start + (k + 1) = start + 1 + k := by omega
  simp only [Function.comp_apply, Nat.succ_eq_add_one, position]

/-- Two positions less than a round apart are different cells. -/
theorem cell_ne {start k count : Nat} (before : k < count) (room : count < capacity) :
    Fin.ofNat capacity (start + k) ≠ Fin.ofNat capacity (start + count) := by
  intro same
  have equal : start + k ≡ start + count [MOD capacity] := congrArg Fin.val same
  have position : k ≡ count [MOD capacity] := Nat.ModEq.add_left_cancel' start equal
  have numbers := position.eq_of_lt_of_lt (Nat.lt_trans before room) room
  omega

/-- An item joins behind the last one if there is room. -/
theorem contents_push (cell : Fin capacity → item) (start : Nat) {count : Nat} (last : item)
    (room : count < capacity) :
    contents (Function.update cell (Fin.ofNat capacity (start + count)) last) start (count + 1) =
      contents cell start count ++ [last] := by
  unfold contents
  rw [List.range_succ, List.map_append, List.map_singleton, Function.update_self]
  congr 1
  apply List.map_congr_left
  intro k member
  exact Function.update_of_ne (cell_ne (List.mem_range.mp member) room) _ _

/-- The last item. -/
theorem contents_back (cell : Fin capacity → item) (start count : Nat) :
    contents cell start (count + 1) =
      contents cell start count ++ [cell (Fin.ofNat capacity (start + count))] := by
  simp [contents, List.range_succ]

/-- Items that follow each other. -/
theorem contents_append (cell : Fin capacity → item) (start count more : Nat) :
    contents cell start (count + more) =
      contents cell start count ++ contents cell (start + count) more := by
  simp [contents, List.range_add, Nat.add_assoc]

section

variable {a b c : UInt32}

theorem distance_eq_iff : (b - a).toNat = c.toNat ↔ b = a + c := by
  rw [UInt32.toNat_inj]
  grind

theorem distance_succ (different : a ≠ b) : (b - a).toNat = (b - (a + 1)).toNat + 1 := by
  have low := a.toNat_lt
  have high := b.toNat_lt
  have one : (1 : UInt32).toNat = 1 := rfl
  rw [ne_eq, ← UInt32.toNat_inj] at different
  rw [UInt32.toNat_sub, UInt32.toNat_sub, UInt32.toNat_add, one]
  omega

theorem distance_add (small : (b - a).toNat + (c - b).toNat < 2 ^ 32) :
    (c - a).toNat = (b - a).toNat + (c - b).toNat := by
  have order : c - a = (b - a) + (c - b) := by grind
  rw [order, UInt32.toNat_add, Nat.mod_eq_of_lt small]

end

/-- The items between two counters of a machine word. -/
def held (cell : Fin capacity → item) (read write : UInt32) : List item :=
  contents cell read.toNat (write - read).toNat

@[simp] theorem held_length (cell : Fin capacity → item) (read write : UInt32) :
    (held cell read write).length = (write - read).toNat :=
  contents_length ..

@[simp] theorem held_self (cell : Fin capacity → item) (counter : UInt32) :
    held cell counter counter = [] := by
  simp [held, contents]

section

variable (divides : capacity ∣ 2 ^ 32) (cell : Fin capacity → item) {read write : UInt32}
  {a b c : UInt32}
include divides

/-- A counter that wraps around names the cell that one without a bound would. -/
theorem cell_add (a b : UInt32) :
    Fin.ofNat capacity (a + b).toNat = Fin.ofNat capacity (a.toNat + b.toNat) := by
  apply Fin.ext
  change (a + b).toNat % capacity = (a.toNat + b.toNat) % capacity
  rw [UInt32.toNat_add, Nat.mod_mod_of_dvd _ divides]

/-- The cell that a counter names, seen from another counter. -/
theorem cell_distance (a b : UInt32) :
    Fin.ofNat capacity b.toNat = Fin.ofNat capacity (a.toNat + (b - a).toNat) := by
  have order : a + (b - a) = b := by grind
  rw [← cell_add divides, order]

/-- The items up to a counter between the two, and those from there on. -/
theorem held_append (small : (b - a).toNat + (c - b).toNat < 2 ^ 32) :
    held cell a c = held cell a b ++ held cell b c := by
  have position := congrArg Fin.val (cell_distance divides a b)
  unfold held
  rw [distance_add small, contents_append, contents_congr cell _ position]

/-- The first item leaves when the counter of the reads moves on. -/
theorem held_pop (some : read ≠ write) :
    held cell read write =
      cell (Fin.ofNat capacity read.toNat) :: held cell (read + 1) write := by
  have position := congrArg Fin.val (cell_add divides read 1)
  unfold held
  rw [distance_succ some, contents_pop, contents_congr cell _ position]
  rfl

/-- The last item leaves when the counter of the writes moves back. -/
theorem held_back (some : read ≠ write) :
    held cell read write =
      held cell read (write - 1) ++ [cell (Fin.ofNat capacity (write - 1).toNat)] := by
  have order : write - 1 - read = write - (read + 1) := by grind
  unfold held
  rw [distance_succ some, ← order, contents_back, cell_distance divides read]

variable (last : item) (small : capacity < 2 ^ 32)
include small

/-- An item joins when there is room and the counter of the writes moves on. -/
theorem held_push (room : (write - read).toNat < capacity) :
    held (Function.update cell (Fin.ofNat capacity write.toNat) last) read (write + 1) =
      held cell read write ++ [last] := by
  have longer : (write + 1 - read).toNat = (write - read).toNat + 1 := by
    have order : write + 1 - read = write - read + 1 := by grind
    have one : (1 : UInt32).toNat = 1 := rfl
    rw [order, UInt32.toNat_add, one, Nat.mod_eq_of_lt (Nat.lt_of_le_of_lt room small)]
  unfold held
  rw [longer, cell_distance divides read]
  exact contents_push cell read.toNat last room

/-- An item that joins leaves the earlier ones as they are. -/
theorem held_update (room : (b - a).toNat + (c - b).toNat < capacity) :
    held (Function.update cell (Fin.ofNat capacity c.toNat) last) a b = held cell a b := by
  have count := distance_add (Nat.lt_trans room small)
  apply List.map_congr_left
  intro k member
  have before : k < (c - a).toNat := by
    rw [count]
    exact Nat.lt_add_right _ (List.mem_range.mp member)
  rw [cell_distance divides a]
  exact Function.update_of_ne (cell_ne before (count ▸ room)) _ _

end

end RtXv6.CircularBuffer
