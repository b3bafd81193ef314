import Mathlib.Data.Fintype.Card
import Mathlib.Logic.Equiv.Basic

/-!
# Array prefixes that hold a set exactly once

An unbounded array of optional values is read through a count: the slots below
it are filled, hold no value twice, and hold exactly the members of a given set.
Appending a fresh value, permuting the counted slots and overwriting the first
slot with the last one are the only updates considered. Each has one law stating
the set it leaves; none mentions what the values are or why they are ordered.

Over a finite type of values the count cannot pass the number of values. That
bound is derived from distinctness alone, so an array of that many cells is
never written past its end.
-/

namespace RtXv6.Segments

open Function (update update_self update_of_ne)

universe u
variable {α : Type u}

/-- The slots below `count` are filled with distinct values, and these are
exactly the members of `members`. Slots from `count` on are unrestricted. -/
structure Holds (slots : Nat → Option α) (count : Nat) (members : Set α) : Prop where
  filled : ∀ index, index < count → ∃ value ∈ members, slots index = some value
  complete : ∀ value ∈ members, ∃ index, index < count ∧ slots index = some value
  distinct : ∀ left right value, left < count → right < count →
    slots left = some value → slots right = some value → left = right

/-- One filled slot holds a singleton. -/
theorem Holds.singleton (slots : Nat → Option α) (value : α) (first : slots 0 = some value) :
    Holds slots 1 {value} := by
  refine ⟨?_, ?_, ?_⟩
  · intro index below
    have zero : index = 0 := by omega
    exact ⟨value, rfl, zero ▸ first⟩
  · rintro other rfl
    exact ⟨0, by omega, first⟩
  · intro left right other belowLeft belowRight _ _
    omega

variable {slots : Nat → Option α} {count : Nat} {members : Set α}

/-- Only the set of members matters, not the predicate that spells it. -/
theorem Holds.congr {others : Set α} (held : Holds slots count members)
    (same : ∀ value, value ∈ members ↔ value ∈ others) : Holds slots count others := by
  have equal : members = others := Set.ext same
  exact equal ▸ held

/-- Writing a fresh value just past the counted slots adds exactly that value. -/
theorem Holds.push (held : Holds slots count members) (value : α) (fresh : value ∉ members) :
    Holds (update slots count (some value)) (count + 1) (insert value members) := by
  have older : ∀ index, index < count →
      update slots count (some value) index = slots index := by
    intro index below
    exact update_of_ne (by omega) _ _
  have absent : ∀ index, index < count → slots index ≠ some value := by
    intro index below stored
    obtain ⟨other, member, found⟩ := held.filled index below
    have same : other = value := Option.some.inj (found.symm.trans stored)
    exact fresh (same ▸ member)
  refine ⟨?_, ?_, ?_⟩
  · intro index below
    by_cases atEnd : index = count
    · subst atEnd
      exact ⟨value, Set.mem_insert _ _, update_self _ _ _⟩
    have inside : index < count := by omega
    obtain ⟨other, member, found⟩ := held.filled index inside
    exact ⟨other, Set.mem_insert_of_mem _ member, (older index inside).trans found⟩
  · intro other member
    rcases member with rfl | member
    · exact ⟨count, by omega, update_self _ _ _⟩
    · obtain ⟨index, inside, found⟩ := held.complete other member
      exact ⟨index, by omega, (older index inside).trans found⟩
  · intro left right other belowLeft belowRight foundLeft foundRight
    by_cases leftEnd : left = count <;> by_cases rightEnd : right = count
    · omega
    · have inside : right < count := by omega
      rw [leftEnd, update_self] at foundLeft
      rw [older right inside] at foundRight
      exact False.elim (absent right inside (foundRight.trans foundLeft.symm))
    · have inside : left < count := by omega
      rw [rightEnd, update_self] at foundRight
      rw [older left inside] at foundLeft
      exact False.elim (absent left inside (foundLeft.trans foundRight.symm))
    · have insideLeft : left < count := by omega
      have insideRight : right < count := by omega
      rw [older left insideLeft] at foundLeft
      rw [older right insideRight] at foundRight
      exact held.distinct left right other insideLeft insideRight foundLeft foundRight

/-- A permutation of the indices that leaves those from `count` on in place sends
counted indices to counted indices. -/
theorem permuted_below (order : Equiv.Perm Nat)
    (outside : ∀ index, count ≤ index → order index = index) {index : Nat} (below : index < count) :
    order index < count := by
  by_contra above
  have moved : order (order index) = order index := outside _ (by omega)
  have same : order index = index := order.injective moved
  omega

/-- Permuting the counted slots keeps the members and their distinctness. -/
theorem Holds.permute (held : Holds slots count members) (order : Equiv.Perm Nat)
    (outside : ∀ index, count ≤ index → order index = index) :
    Holds (slots ∘ order) count members := by
  have inverse : ∀ index, count ≤ index → order.symm index = index := by
    intro index above
    rw [Equiv.symm_apply_eq]
    exact (outside index above).symm
  refine ⟨?_, ?_, ?_⟩
  · intro index below
    exact held.filled (order index) (permuted_below order outside below)
  · intro value member
    obtain ⟨index, below, found⟩ := held.complete value member
    refine ⟨order.symm index, permuted_below order.symm inverse below, ?_⟩
    simpa only [Function.comp_apply, Equiv.apply_symm_apply] using found
  · intro left right value belowLeft belowRight foundLeft foundRight
    apply order.injective
    exact held.distinct _ _ value (permuted_below order outside belowLeft)
      (permuted_below order outside belowRight) foundLeft foundRight

/-- Overwriting the first counted slot with the last one, and no longer counting
the last, removes exactly the value that stood first. -/
theorem Holds.dropFirst (held : Holds slots (count + 1) members) (value : α)
    (first : slots 0 = some value) :
    Holds (update slots 0 (slots count)) count (members \ {value}) := by
  have onlyFirst : ∀ index, index < count + 1 → slots index = some value → index = 0 := by
    intro index below found
    exact held.distinct index 0 value below (by omega) found first
  have source : ∀ index, index < count → ∃ origin, origin < count + 1 ∧ origin ≠ 0 ∧
      update slots 0 (slots count) index = slots origin ∧
      (origin = index ∨ (index = 0 ∧ origin = count)) := by
    intro index below
    by_cases zero : index = 0
    · subst zero
      exact ⟨count, by omega, by omega, update_self _ _ _, .inr ⟨rfl, rfl⟩⟩
    · exact ⟨index, by omega, zero, update_of_ne zero _ _, .inl rfl⟩
  refine ⟨?_, ?_, ?_⟩
  · intro index below
    obtain ⟨origin, inside, nonzero, moved, _⟩ := source index below
    obtain ⟨other, member, found⟩ := held.filled origin inside
    refine ⟨other, ⟨member, ?_⟩, moved.trans found⟩
    rintro rfl
    exact nonzero (onlyFirst origin inside found)
  · rintro other ⟨member, different⟩
    obtain ⟨index, inside, found⟩ := held.complete other member
    have nonzero : index ≠ 0 := by
      rintro rfl
      exact different (Option.some.inj (found.symm.trans first))
    by_cases last : index = count
    · exact ⟨0, by omega, by rw [update_self, ← last, found]⟩
    · exact ⟨index, by omega, by rw [update_of_ne nonzero, found]⟩
  · intro left right other belowLeft belowRight foundLeft foundRight
    obtain ⟨leftOrigin, leftInside, _, leftMoved, leftCase⟩ := source left belowLeft
    obtain ⟨rightOrigin, rightInside, _, rightMoved, rightCase⟩ := source right belowRight
    have same : leftOrigin = rightOrigin :=
      held.distinct _ _ other leftInside rightInside (leftMoved.symm.trans foundLeft)
        (rightMoved.symm.trans foundRight)
    omega

/-- Distinct values of a finite type fill at most as many slots as there are
values. -/
theorem Holds.count_le [Fintype α] (held : Holds slots count members) : count ≤ Fintype.card α := by
  choose value _ stored using held.filled
  have injective : Function.Injective (fun index : Fin count => value index index.isLt) := by
    intro left right same
    apply Fin.ext
    refine held.distinct left right (value left left.isLt) left.isLt right.isLt
      (stored left left.isLt) ?_
    rw [stored right right.isLt]
    exact congrArg some same.symm
  simpa only [Fintype.card_fin] using Fintype.card_le_of_injective _ injective

/-- A value still missing from the set leaves room for it: strictly fewer slots
are counted than there are values. -/
theorem Holds.count_lt [Fintype α] (held : Holds slots count members) (value : α)
    (fresh : value ∉ members) : count < Fintype.card α := by
  have more : count + 1 ≤ Fintype.card α := (held.push value fresh).count_le
  omega

end RtXv6.Segments
