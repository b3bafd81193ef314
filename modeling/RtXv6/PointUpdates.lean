import Mathlib.Logic.Function.Basic

/-!
# Functions changed at one point

A function on places is changed at one of them. An observation that does not tell the new
value from the old one is as before everywhere, and what an observation of the new value
excludes is seen at another place and was there before.

A table of entries with distinct keys is a finite map: filling a free place extends it, and
clearing a place takes a key out.
-/

namespace RtXv6.PointUpdates

open Function (update update_self update_of_ne)

universe u v w
variable {place : Type u} {α : Type v} {β : Type w} [DecidableEq place] {g : place → α}
  {changed other : place} {value : α}

/-- An observation that is the same of the new value is the same everywhere. -/
theorem update_same (observe : α → β) (same : observe value = observe (g changed))
    (other : place) : observe (update g changed value other) = observe (g other) := by
  by_cases here : other = changed
  · rw [here, update_self, same]
  · rw [update_of_ne here]

/-- What is observed after the change is observed of the new value, or was elsewhere before. -/
theorem update_cases (observe : α → β) {seen : β}
    (now : observe (update g changed value other) = seen) :
    (other = changed ∧ observe value = seen) ∨ (other ≠ changed ∧ observe (g other) = seen) := by
  by_cases here : other = changed
  · rw [here, update_self] at now
    exact .inl ⟨here, now⟩
  · rw [update_of_ne here] at now
    exact .inr ⟨here, now⟩

/-- What is not observed of the new value was elsewhere before. -/
theorem of_update (observe : α → β) {seen : β} (different : observe value ≠ seen)
    (now : observe (update g changed value other) = seen) :
    other ≠ changed ∧ observe (g other) = seen :=
  (update_cases observe now).resolve_left fun here => different here.2

section Tables

variable {κ : Type v} {υ : Type w} {table : place → Option (κ × υ)} {entry : Option (κ × υ)}
  {key : κ} {v : υ}

/-- The table has a value for a key. -/
def Binds (table : place → Option (κ × υ)) (key : κ) (v : υ) : Prop :=
  ∃ position, table position = some (key, v)

/-- No key has two entries. -/
def Distinct (table : place → Option (κ × υ)) : Prop :=
  ∀ first second key v w, table first = some (key, v) → table second = some (key, w) →
    first = second

/-- Keys stay distinct if a new entry has a new key. -/
theorem Distinct.update (distinct : Distinct table)
    (fresh : ∀ key v w, entry = some (key, v) → ¬ Binds table key w) (changed : place) :
    Distinct (Function.update table changed entry) := by
  intro first second key v w one two
  rcases update_cases id one with ⟨here, seen⟩ | ⟨_, seen⟩
  · rcases update_cases id two with ⟨also, _⟩ | ⟨_, also⟩
    · rw [here, also]
    · exact absurd ⟨second, also⟩ (fresh key v w seen)
  · rcases update_cases id two with ⟨_, also⟩ | ⟨_, also⟩
    · exact absurd ⟨first, seen⟩ (fresh key w v also)
    · exact distinct first second key v w seen also

end Tables

end RtXv6.PointUpdates
