import Mathlib.Logic.Function.Basic

/-!
# Pointers that own what they lead to

Places hold pointers to items, or a null pointer. Every item that a place leads to is
taken, no two places lead to the same item, and some place leads to every item that is
taken. The laws are those of an allocator's clients: a place may be given an item that
was not taken, and it may give up its item, which then is not taken any longer.
-/

namespace RtXv6.Ownership

open Function (update update_self update_of_ne)

universe u v
variable {place : Type u} {item : Type v}

/-- The taken items are those that the places lead to, each from one place. -/
structure Owns (null : item) (taken : item → Prop) (pointer : place → item) : Prop where
  proper : ¬ taken null
  held : ∀ a, pointer a ≠ null → taken (pointer a)
  unique : ∀ a b, pointer a ≠ null → pointer a = pointer b → a = b
  covered : ∀ b, taken b → ∃ a, pointer a = b

variable {null : item} {taken now : item → Prop} {pointer : place → item}

/-- Only what is taken and where the places lead to matters. -/
theorem Owns.congr (owns : Owns null taken pointer) {other : place → item}
    (items : ∀ b, now b ↔ taken b) (places : ∀ a, other a = pointer a) : Owns null now other := by
  obtain rfl : now = taken := funext fun b => propext (items b)
  obtain rfl : other = pointer := funext places
  exact owns

/-- No place leads to an item that is not taken. -/
theorem Owns.unowned (owns : Owns null taken pointer) {b : item} (set : b ≠ null)
    (free : ¬ taken b) (a : place) : pointer a ≠ b := by
  rintro rfl
  exact free (owns.held a set)

variable [DecidableEq place]

/-- A place without an item may be given one that was not taken. -/
theorem Owns.assign (owns : Owns null taken pointer) {a : place} {b : item}
    (empty : pointer a = null) (set : b ≠ null) (free : ¬ taken b)
    (items : ∀ c, now c ↔ taken c ∨ c = b) : Owns null now (update pointer a b) := by
  have unowned := owns.unowned set free
  refine ⟨?_, ?_, ?_, ?_⟩
  · rw [items]
    rintro (taken | same)
    · exact owns.proper taken
    · exact set same.symm
  · intro c pointing
    rw [items]
    by_cases same : c = a
    · rw [same, update_self]
      exact .inr rfl
    · rw [update_of_ne same] at pointing ⊢
      exact .inl (owns.held c pointing)
  · intro c d pointing equal
    by_cases first : c = a
    · by_cases second : d = a
      · rw [first, second]
      · rw [first, update_self, update_of_ne second] at equal
        exact absurd equal.symm (unowned d)
    rw [update_of_ne first] at pointing equal
    by_cases second : d = a
    · rw [second, update_self] at equal
      exact absurd equal (unowned c)
    · rw [update_of_ne second] at equal
      exact owns.unique c d pointing equal
  · intro c taken
    rcases (items c).mp taken with before | same
    · obtain ⟨d, leads⟩ := owns.covered c before
      have different : d ≠ a := by
        rintro rfl
        rw [empty] at leads
        exact owns.proper (leads ▸ before)
      exact ⟨d, by rw [update_of_ne different, leads]⟩
    · exact ⟨a, by rw [update_self, same]⟩

/-- A place may give up its item. -/
theorem Owns.release (owns : Owns null taken pointer) {a : place}
    (items : ∀ c, now c ↔ taken c ∧ c ≠ pointer a) : Owns null now (update pointer a null) := by
  refine ⟨?_, ?_, ?_, ?_⟩
  · rw [items]
    rintro ⟨taken, _⟩
    exact owns.proper taken
  · intro c pointing
    by_cases same : c = a
    · rw [same, update_self] at pointing
      exact absurd rfl pointing
    · rw [update_of_ne same] at pointing ⊢
      exact (items _).mpr ⟨owns.held c pointing, fun equal => same (owns.unique c a pointing equal)⟩
  · intro c d pointing equal
    by_cases first : c = a
    · rw [first, update_self] at pointing
      exact absurd rfl pointing
    by_cases second : d = a
    · rw [equal, second, update_self] at pointing
      exact absurd rfl pointing
    rw [update_of_ne first] at pointing
    rw [update_of_ne first, update_of_ne second] at equal
    exact owns.unique c d pointing equal
  · intro c taken
    obtain ⟨before, different⟩ := (items c).mp taken
    obtain ⟨d, leads⟩ := owns.covered c before
    have other : d ≠ a := by
      rintro rfl
      exact different leads.symm
    exact ⟨d, by rw [update_of_ne other, leads]⟩

end RtXv6.Ownership
