import Mathlib.Algebra.BigOperators.Ring.Finset
import Mathlib.Algebra.Ring.Int.Defs
import Mathlib.Data.Fintype.Basic

/-!
# Counting who holds what

Finitely many places hold items, or nothing. The tally of an item is the number of the
places that hold it. When one place takes another item, the tallies of its old and its new
item change by one, and the others stay.
-/

namespace RtXv6.Tally

universe u v
variable {place : Type u} {item : Type v} [DecidableEq item]

/-- One for the item that is held, zero for every other. -/
def mark (held : Option item) (b : item) : Int := if held = some b then 1 else 0

@[simp] theorem mark_none : mark (none : Option item) = 0 := rfl

@[simp] theorem mark_self (b : item) : mark (some b) b = 1 := if_pos rfl

variable {b : item}

theorem mark_other {held : Option item} (different : held ≠ some b) :
    mark held b = 0 := if_neg different

variable {c : item}

theorem mark_off (different : c ≠ b) : mark (some b) c = 0 :=
  mark_other fun equal => different (Option.some.inj equal).symm

/-- One more reference to another item. -/
theorem mark_except (refs : item → Int) (different : c ≠ b) :
    (refs + mark (some b)) c = refs c := by
  rw [Pi.add_apply, mark_off different, Int.add_zero]

/-- One reference less to another item. -/
theorem mark_less (refs : item → Int) (different : c ≠ b) : (refs - mark (some b)) c = refs c := by
  rw [Pi.sub_apply, mark_off different, Int.sub_zero]

theorem mark_nonneg (held : Option item) (b : item) : 0 ≤ mark held b := by
  unfold mark
  split <;> decide

variable [Fintype place]

/-- The number of the places that hold an item. -/
def tally (holds : place → Option item) (b : item) : Int :=
  ((Finset.univ.filter fun a => holds a = some b).card : Int)

theorem tally_eq_sum (holds : place → Option item) (b : item) :
    tally holds b = ∑ a, mark (holds a) b := by
  unfold tally mark
  exact Finset.natCast_card_filter _ _

theorem tally_nonneg (holds : place → Option item) (b : item) : 0 ≤ tally holds b :=
  Int.natCast_nonneg _

variable {holds : place → Option item}

/-- An item that is held somewhere has a tally. -/
theorem tally_pos_iff : 0 < tally holds b ↔ ∃ a, holds a = some b := by
  unfold tally
  rw [Int.natCast_pos, Finset.card_pos]
  constructor
  · rintro ⟨a, member⟩
    exact ⟨a, (Finset.mem_filter.mp member).2⟩
  · rintro ⟨a, held⟩
    exact ⟨a, Finset.mem_filter.mpr ⟨Finset.mem_univ a, held⟩⟩

/-- Where nothing is held, every tally is zero. -/
theorem tally_none (empty : ∀ a, holds a = none) (b : item) : tally holds b = 0 := by
  have none : ¬ 0 < tally holds b := by
    rw [tally_pos_iff]
    rintro ⟨a, held⟩
    rw [empty a] at held
    cases held
  have bound := tally_nonneg holds b
  omega

variable [DecidableEq place]

/-- A place takes another item. -/
theorem tally_update (holds : place → Option item) (a : place) (new : Option item) (b : item) :
    tally (Function.update holds a new) b = tally holds b - mark (holds a) b + mark new b := by
  have rest : ∑ c ∈ Finset.univ.erase a, mark (Function.update holds a new c) b =
      ∑ c ∈ Finset.univ.erase a, mark (holds c) b := by
    apply Finset.sum_congr rfl
    intro c member
    rw [Function.update_of_ne (Finset.ne_of_mem_erase member)]
  rw [tally_eq_sum, tally_eq_sum, ← Finset.add_sum_erase _ _ (Finset.mem_univ a), rest,
    ← Finset.add_sum_erase (f := fun c => mark (holds c) b) _ (Finset.mem_univ a),
    Function.update_self]
  omega

end RtXv6.Tally
