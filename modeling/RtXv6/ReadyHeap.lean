import RtXv6.HeapOrder
import RtXv6.Process

/-!
# The heap routines of the ready queue

`heap.c` has one pair of routines for each real-time configuration. They differ
in the key, the largest priority or the smallest remaining deadline, and in
nothing else, so each routine is one definition over a discipline that answers
the two comparisons. A comparison may read the clock: the deadline is measured
against the time-stamp counter, once for the test and once for the subtraction,
and the readings consumed so far are threaded through.

The macros do not describe one tree. `left` and `right` put the children of `k`
at `2k + 1` and `2k + 2`, while `parent` sends `k` to `k / 2`. Both routines only
exchange cells, so the contents are permuted whatever the comparisons answer.
Sifting down restores the order of the tree that `left` and `right` describe.
-/

namespace RtXv6.ReadyHeap

open HeapOrder

universe u v w

/-- `LEFT(x)`. -/
def left (x : Nat) : Nat := 2 * x + 1

/-- `RIGHT(x)`. -/
def right (x : Nat) : Nat := 2 * x + 2

/-- `PARENT(x)`. -/
def parent (x : Nat) : Nat := x / 2

/-- The comparisons of a configuration. `above` is the test of `heapify`, `below`
the test of `increasekey`; their first argument is evaluated first, and the state
counts what the evaluation consumed. -/
structure Discipline (α : Type u) (σ : Type v) where
  above : α → α → σ → Bool × σ
  below : α → α → σ → Bool × σ

variable {α : Type u} {σ : Type v}

/-- The two child tests of `heapify`: the index that should stand at `i`. -/
def select (order : Discipline α σ) (A : Nat → α) (itr_q i : Nat) (s : σ) : Nat × σ :=
  let first :=
    if left i < itr_q then
      let test := order.above (A (left i)) (A i) s
      (if test.1 then left i else i, test.2)
    else (i, s)
  if right i < itr_q then
    let test := order.above (A (right i)) (A first.1) first.2
    (if test.1 then right i else first.1, test.2)
  else first

/-- The recursion of `heapify`, at most `fuel` calls deep. -/
def siftDown (order : Discipline α σ) : Nat → (Nat → α) → Nat → Nat → σ → (Nat → α) × σ
  | 0, A, _, _, s => (A, s)
  | fuel + 1, A, itr_q, i, s =>
    let chosen := select order A itr_q i s
    if chosen.1 ≠ i then siftDown order fuel (exchange A i chosen.1) itr_q chosen.1 chosen.2
    else (A, chosen.2)

/-- `heapify(A, itr_q, i)`. The index grows and stays below `itr_q` in every
recursive call, so `itr_q` calls are enough. -/
def heapify (order : Discipline α σ) (A : Nat → α) (itr_q i : Nat) (s : σ) : (Nat → α) × σ :=
  siftDown order itr_q A itr_q i s

/-- The loop of `increasekey`, at most `fuel` iterations long. -/
def siftUp (order : Discipline α σ) : Nat → (Nat → α) → Nat → σ → (Nat → α) × σ
  | 0, A, _, s => (A, s)
  | fuel + 1, A, i, s =>
    if 0 < i then
      let test := order.below (A (parent i)) (A i) s
      if test.1 then siftUp order fuel (exchange A i (parent i)) (parent i) test.2
      else (A, test.2)
    else (A, s)

/-- `increasekey(A, i)`. The index at least halves in every iteration. -/
def increasekey (order : Discipline α σ) (A : Nat → α) (i : Nat) (s : σ) : (Nat → α) × σ :=
  siftUp order i A i s

section

variable (order : Discipline α σ)

/-- The selected index is the node or one of its children below the bound. -/
theorem select_cases (A : Nat → α) (itr_q i : Nat) (s : σ) :
    (select order A itr_q i s).1 = i ∨
      ((select order A itr_q i s).1 = left i ∧ left i < itr_q) ∨
      ((select order A itr_q i s).1 = right i ∧ right i < itr_q) := by
  unfold select
  by_cases rightInside : right i < itr_q <;> by_cases leftInside : left i < itr_q <;>
    simp only [rightInside, leftInside, if_true, if_false]
  · by_cases leftWins : (order.above (A (left i)) (A i) s).1 = true
    · simp only [leftWins, if_true]
      split
      · exact .inr (.inr ⟨rfl, trivial⟩)
      · exact .inr (.inl ⟨rfl, trivial⟩)
    · simp only [leftWins, Bool.false_eq_true, if_false]
      split
      · exact .inr (.inr ⟨rfl, trivial⟩)
      · exact .inl rfl
  · split
    · exact .inr (.inr ⟨rfl, trivial⟩)
    · exact .inl rfl
  · split
    · exact .inr (.inl ⟨rfl, trivial⟩)
    · exact .inl rfl
  · exact .inl trivial

/-- Extra fuel changes nothing once the remaining indices fit. -/
theorem siftDown_fuel (fuel more : Nat) (A : Nat → α) (itr_q i : Nat) (s : σ)
    (enough : itr_q ≤ fuel + i) :
    siftDown order (fuel + more) A itr_q i s = siftDown order fuel A itr_q i s := by
  induction fuel generalizing A i s with
  | zero =>
    cases more with
    | zero => rfl
    | succ more =>
      have noLeft : ¬ left i < itr_q := by simp only [left]; omega
      have noRight : ¬ right i < itr_q := by simp only [right]; omega
      simp [siftDown, select, noLeft, noRight]
  | succ fuel ih =>
    have rearranged : fuel + 1 + more = fuel + more + 1 := by omega
    rw [rearranged]
    simp only [siftDown]
    split
    · next moved =>
      apply ih
      rcases select_cases order A itr_q i s with same | ⟨same, _⟩ | ⟨same, _⟩
      · exact False.elim (moved same)
      · rw [same, left]; omega
      · rw [same, right]; omega
    · rfl

/-- `heapify` is the recursion the source writes: select, and either exchange and
recurse at the selected index or stop. -/
theorem heapify_eq (A : Nat → α) (itr_q i : Nat) (s : σ) :
    heapify order A itr_q i s =
      if (select order A itr_q i s).1 ≠ i then
        heapify order (exchange A i (select order A itr_q i s).1) itr_q
          (select order A itr_q i s).1 (select order A itr_q i s).2
      else (A, (select order A itr_q i s).2) := by
  have unfolded : heapify order A itr_q i s = siftDown order (itr_q + 1) A itr_q i s :=
    (siftDown_fuel order itr_q 1 A itr_q i s (by omega)).symm
  rw [unfolded, siftDown]
  rfl

theorem increasekey_eq (A : Nat → α) (i : Nat) (s : σ) :
    increasekey order A i s =
      if 0 < i then
        if (order.below (A (parent i)) (A i) s).1 then
          increasekey order (exchange A i (parent i)) (parent i)
            (order.below (A (parent i)) (A i) s).2
        else (A, (order.below (A (parent i)) (A i) s).2)
      else (A, s) := by
  have enough : ∀ fuel more A i s, i ≤ fuel →
      siftUp order (fuel + more) A i s = siftUp order fuel A i s := by
    intro fuel
    induction fuel with
    | zero =>
      intro more A i s bounded
      have zero : i = 0 := by omega
      cases more <;> simp [siftUp, zero]
    | succ fuel ih =>
      intro more A i s bounded
      have rearranged : fuel + 1 + more = fuel + more + 1 := by omega
      rw [rearranged]
      simp only [siftUp]
      by_cases positive : 0 < i
      · simp only [positive, if_true]
        split
        · apply ih
          simp only [parent]
          omega
        · rfl
      · simp only [positive, if_false]
  cases i with
  | zero => simp [increasekey, siftUp]
  | succ i =>
    simp only [increasekey, siftUp, Nat.succ_pos, if_true]
    split
    · have spare : parent (i + 1) + (i - parent (i + 1)) = i := by
        simp only [parent]
        omega
      have same := enough (parent (i + 1)) (i - parent (i + 1))
        (exchange A (i + 1) (parent (i + 1))) (parent (i + 1))
        (order.below (A (parent (i + 1))) (A (i + 1)) s).2 (Nat.le_refl _)
      rwa [spare] at same
    · rfl

end

/-- The calls of `heapify` as the source nests them: a call that selects its own
index returns, one that selects a child returns what the call at the child
returns. A derivation is a recursion that ends. -/
inductive Returns (order : Discipline α σ) (itr_q : Nat) :
    (Nat → α) → Nat → σ → (Nat → α) × σ → Prop
  | done {A : Nat → α} {i : Nat} {s : σ} (same : (select order A itr_q i s).1 = i) :
      Returns order itr_q A i s (A, (select order A itr_q i s).2)
  | call {A : Nat → α} {i : Nat} {s : σ} {result : (Nat → α) × σ}
      (moved : (select order A itr_q i s).1 ≠ i)
      (nested : Returns order itr_q (exchange A i (select order A itr_q i s).1)
        (select order A itr_q i s).1 (select order A itr_q i s).2 result) :
      Returns order itr_q A i s result

/-- Every call of `heapify` returns: the index grows and stays below the bound. -/
theorem heapify_returns (order : Discipline α σ) (A : Nat → α) (itr_q i : Nat) (s : σ) :
    Returns order itr_q A i s (heapify order A itr_q i s) := by
  generalize distance : itr_q - i = depth
  induction depth using Nat.strongRecOn generalizing A i s with
  | ind depth smaller =>
    rw [heapify_eq]
    split
    · next moved =>
      refine .call moved (smaller _ ?_ _ _ _ rfl)
      rcases select_cases order A itr_q i s with same | ⟨same, bounded⟩ | ⟨same, bounded⟩
      · exact False.elim (moved same)
      · simp only [same, left] at bounded ⊢
        omega
      · simp only [same, right] at bounded ⊢
        omega
    · next same => exact .done (not_not.mp same)

section

variable {s : σ} {order : Discipline α σ} (good : σ → Prop)

section

variable (keeps : ∀ x y s, good s → good (order.above x y s).2) (A : Nat → α) (itr_q i : Nat)
  (holds : good s)
include keeps holds

/-- What every comparison keeps of the state, the child tests keep. -/
theorem select_state : good (select order A itr_q i s).2 := by
  unfold select
  by_cases leftInside : left i < itr_q <;> by_cases rightInside : right i < itr_q <;>
    simp only [leftInside, rightInside, if_true, if_false]
  · exact keeps _ _ _ (keeps _ _ _ holds)
  · exact keeps _ _ _ holds
  · exact keeps _ _ _ holds
  · exact holds

/-- What every comparison keeps of the state, sifting down keeps. -/
theorem heapify_state : good (heapify order A itr_q i s).2 := by
  have sifts : ∀ fuel A i s, good s → good (siftDown order fuel A itr_q i s).2 := by
    intro fuel
    induction fuel with
    | zero => exact fun A i s holds => holds
    | succ fuel ih =>
      intro A i s holds
      have chosen := select_state good keeps A itr_q i holds
      simp only [siftDown]
      split
      · exact ih _ _ _ chosen
      · exact chosen
  exact sifts itr_q A i s holds

end

/-- What every comparison keeps of the state, sifting up keeps. -/
theorem increasekey_state (keeps : ∀ x y s, good s → good (order.below x y s).2) (A : Nat → α)
    (i : Nat) (holds : good s) : good (increasekey order A i s).2 := by
  have sifts : ∀ fuel A i s, good s → good (siftUp order fuel A i s).2 := by
    intro fuel
    induction fuel with
    | zero => exact fun A i s holds => holds
    | succ fuel ih =>
      intro A i s holds
      have tested := keeps (A (parent i)) (A i) s holds
      simp only [siftUp]
      split
      · split
        · exact ih _ _ _ tested
        · exact tested
      · exact holds
  exact sifts i A i s holds

end

section

variable (order : Discipline α σ) (A : Nat → α)

/-- Sifting down permutes the cells of its subtree below the bound. -/
theorem heapify_rearranged (itr_q i : Nat) (s : σ) (inside : i < itr_q) :
    Rearranged (fun index => Under i index ∧ index < itr_q) A (heapify order A itr_q i s).1 := by
  generalize distance : itr_q - i = depth
  induction depth using Nat.strongRecOn generalizing A i s with
  | ind depth smaller =>
    rw [heapify_eq]
    split
    · next moved =>
      have child : Under i (select order A itr_q i s).1 ∧
          i < (select order A itr_q i s).1 ∧ (select order A itr_q i s).1 < itr_q := by
        rcases select_cases order A itr_q i s with same | ⟨same, bounded⟩ | ⟨same, bounded⟩
        · exact False.elim (moved same)
        · rw [same]
          exact ⟨Under.self.left, by simp only [left]; omega, bounded⟩
        · rw [same]
          exact ⟨Under.self.right, by simp only [right]; omega, bounded⟩
      obtain ⟨under, deeper, bounded⟩ := child
      have exchanged := exchange_rearranged (fun index => Under i index ∧ index < itr_q) A i
        (select order A itr_q i s).1 ⟨.self, inside⟩ ⟨under, bounded⟩
      have rest := smaller _ (by omega) (exchange A i (select order A itr_q i s).1)
        (select order A itr_q i s).1 (select order A itr_q i s).2 bounded rfl
      exact exchanged.trans (rest.widen (fun index member => ⟨under.trans member.1, member.2⟩))
    · exact .refl _ A

theorem heapify_outside (itr_q i : Nat) (s : σ) (outside : itr_q ≤ i) :
    (heapify order A itr_q i s).1 = A := by
  have noLeft : ¬ left i < itr_q := by simp only [left]; omega
  have noRight : ¬ right i < itr_q := by simp only [right]; omega
  rw [heapify_eq]
  simp [select, noLeft, noRight]

theorem increasekey_rearranged (i : Nat) (s : σ) :
    Rearranged (fun index => index ≤ i) A (increasekey order A i s).1 := by
  induction i using Nat.strongRecOn generalizing A s with
  | ind i smaller =>
    rw [increasekey_eq]
    split
    · next positive =>
      split
      · have lower : parent i < i := by simp only [parent]; omega
        have exchanged := exchange_rearranged (fun index => index ≤ i) A i (parent i)
          (Nat.le_refl i) (Nat.le_of_lt lower)
        have rest := smaller (parent i) lower (exchange A i (parent i))
          (order.below (A (parent i)) (A i) s).2
        exact exchanged.trans (rest.widen (fun index member => Nat.le_trans member (Nat.le_of_lt lower)))
      · exact .refl _ A
    · exact .refl _ A

end

/-- The comparisons answer by one key, whatever state they are asked in: `above`
is a strictly larger key, `below` a strictly smaller one. A clock that stands
still makes the deadline such a key. -/
structure Agrees {κ : Type w} [LinearOrder κ] (order : Discipline α σ) (key : α → κ) : Prop where
  above : ∀ x y s, (order.above x y s).1 = decide (key y < key x)
  below : ∀ x y s, (order.below x y s).1 = decide (key x < key y)

section Order

variable {κ : Type w} [LinearOrder κ] {order : Discipline α σ} {key : α → κ}

theorem select_self (agrees : Agrees order key) (A : Nat → α) (itr_q i : Nat) (s : σ)
    (same : (select order A itr_q i s).1 = i) : Dominates key A itr_q i := by
  have leftFar : left i ≠ i := by simp only [left]; omega
  have rightFar : right i ≠ i := by simp only [right]; omega
  unfold select at same
  simp only [agrees.above] at same
  constructor
  · intro inside
    have leftInside : left i < itr_q := inside
    by_contra larger
    have strict : key (A i) < key (A (left i)) := lt_of_not_ge larger
    simp only [leftInside, if_true, strict, decide_true] at same
    split at same
    · split at same
      · exact rightFar same
      · exact leftFar same
    · exact leftFar same
  · intro inside
    have rightInside : right i < itr_q := inside
    by_contra larger
    have strict : key (A i) < key (A (right i)) := lt_of_not_ge larger
    simp only [rightInside, if_true] at same
    by_cases leftInside : left i < itr_q
    · by_cases leftLarger : key (A i) < key (A (left i))
      · simp only [leftInside, leftLarger, decide_true, if_true] at same
        split at same
        · exact rightFar same
        · exact leftFar same
      · simp only [leftInside, leftLarger, decide_false, if_true, Bool.false_eq_true, if_false,
          strict, decide_true] at same
        exact rightFar same
    · simp only [leftInside, if_false, strict, decide_true, if_true] at same
      exact rightFar same

/-- Selecting a child means that it beats the node and is not beaten by its
sibling. -/
theorem select_child (agrees : Agrees order key) (A : Nat → α) (itr_q i : Nat) (s : σ)
    (moved : (select order A itr_q i s).1 ≠ i) :
    ∃ sibling, (((select order A itr_q i s).1 = 2 * i + 1 ∧ sibling = 2 * i + 2) ∨
        ((select order A itr_q i s).1 = 2 * i + 2 ∧ sibling = 2 * i + 1)) ∧
      (select order A itr_q i s).1 < itr_q ∧
      key (A i) < key (A (select order A itr_q i s).1) ∧
      (sibling < itr_q → key (A sibling) ≤ key (A (select order A itr_q i s).1)) := by
  revert moved
  unfold select
  simp only [agrees.above]
  by_cases leftInside : left i < itr_q
  · by_cases leftLarger : key (A i) < key (A (left i))
    · by_cases rightInside : right i < itr_q
      · by_cases rightLarger : key (A (left i)) < key (A (right i))
        · simp only [leftInside, leftLarger, rightInside, rightLarger, decide_true, if_true]
          intro _
          exact ⟨2 * i + 1, .inr ⟨rfl, rfl⟩, trivial, lt_trans leftLarger rightLarger,
            fun _ => le_of_lt rightLarger⟩
        · simp only [leftInside, leftLarger, rightInside, rightLarger, decide_true, decide_false,
            if_true, Bool.false_eq_true, if_false]
          intro _
          exact ⟨2 * i + 2, .inl ⟨rfl, rfl⟩, trivial, trivial, fun _ => le_of_not_gt rightLarger⟩
      · simp only [leftInside, leftLarger, rightInside, decide_true, if_true, if_false]
        intro _
        exact ⟨2 * i + 2, .inl ⟨rfl, rfl⟩, trivial, trivial,
          fun bounded => False.elim (rightInside bounded)⟩
    · by_cases rightInside : right i < itr_q
      · by_cases rightLarger : key (A i) < key (A (right i))
        · simp only [leftInside, leftLarger, rightInside, rightLarger, decide_true, decide_false,
            if_true, Bool.false_eq_true, if_false]
          intro _
          exact ⟨2 * i + 1, .inr ⟨rfl, rfl⟩, trivial, trivial,
            fun _ => le_of_lt (lt_of_le_of_lt (le_of_not_gt leftLarger) rightLarger)⟩
        · simp [leftInside, leftLarger, rightInside, rightLarger]
      · simp [leftInside, leftLarger, rightInside]
  · have rightOutside : ¬ right i < itr_q := by
      simp only [left, right] at leftInside ⊢
      omega
    simp [leftInside, rightOutside]

/-- `heapify` orders a subtree whose two child subtrees are ordered.

Induct on the distance to the bound. If the node is selected it already dominates
its children. Otherwise the exchange leaves the chosen child's strict subtree in
order, the recursive call orders it, and the exchange step lifts that to the
node. -/
theorem heapify_ordered (agrees : Agrees order key) (A : Nat → α) (itr_q i : Nat) (s : σ)
    (below : OrderedBelow key A itr_q i) : Ordered key (heapify order A itr_q i s).1 itr_q i := by
  generalize distance : itr_q - i = depth
  induction depth using Nat.strongRecOn generalizing A i s with
  | ind depth smaller =>
    rw [heapify_eq]
    split
    · next moved =>
      obtain ⟨sibling, children, bounded, beatsRoot, beatsSibling⟩ :=
        select_child agrees A itr_q i s moved
      have isChild : (select order A itr_q i s).1 = 2 * i + 1 ∨
          (select order A itr_q i s).1 = 2 * i + 2 := by omega
      have childOrdered := smaller _ (by omega) (exchange A i (select order A itr_q i s).1)
        (select order A itr_q i s).1 (select order A itr_q i s).2
        (exchange_orderedBelow below isChild) rfl
      exact ordered_after_exchange below children bounded beatsRoot beatsSibling
        (heapify_rearranged order _ itr_q _ _ bounded) childOrdered
    · next same =>
      intro node under
      by_cases top : node = i
      · subst top
        exact select_self agrees A itr_q node s (not_not.mp same)
      · exact below node under top

end Order

/-- The priority a queue cell is compared by. A null cell is never compared. -/
def priority (table : Table) : Option Slot → UInt32
  | none => 0
  | some slot => (table slot).P

/-- `deadline(p)` at the given readings of `tick()`: the remaining time as a
signed word, or zero once the deadline has passed. The clock is read for the test
and, when the deadline lies ahead, again for the subtraction. -/
def deadline (tick : Nat → UInt64) (p : Proc) (reads : Nat) : Int × Nat :=
  let due := p.arrtime + p.D.toUInt64
  if tick reads ≤ due then ((due - tick (reads + 1)).toUInt32.toInt32.toInt, reads + 2)
  else (0, reads + 1)

/-- The deadline a queue cell is compared by. A null cell is never compared. -/
def cellDeadline (tick : Nat → UInt64) (table : Table) : Option Slot → Nat → Int × Nat
  | none, reads => (0, reads)
  | some slot, reads => deadline tick (table slot) reads

/-- The comparisons of the two builds: larger priority first, or smaller deadline
first. -/
def discipline (config : Config) (tick : Nat → UInt64) (table : Table) :
    Discipline (Option Slot) Nat :=
  match config with
  | .pt =>
    { above := fun x y reads => (decide (priority table x > priority table y), reads)
      below := fun x y reads => (decide (priority table x < priority table y), reads) }
  | .edf =>
    { above := fun x y reads =>
        let first := cellDeadline tick table x reads
        let second := cellDeadline tick table y first.2
        (decide (first.1 < second.1), second.2)
      below := fun x y reads =>
        let first := cellDeadline tick table x reads
        let second := cellDeadline tick table y first.2
        (decide (first.1 > second.1), second.2) }

theorem cellDeadline_forward (tick : Nat → UInt64) (table : Table) (cell : Option Slot)
    (reads : Nat) : reads ≤ (cellDeadline tick table cell reads).2 := by
  cases cell with
  | none => exact Nat.le_refl _
  | some slot =>
    simp only [cellDeadline, deadline]
    split
    · exact Nat.le_add_right _ _
    · exact Nat.le_add_right _ _

theorem discipline_forward (config : Config) (tick : Nat → UInt64) (table : Table)
    (x y : Option Slot) (reads : Nat) :
    reads ≤ ((discipline config tick table).above x y reads).2 ∧
      reads ≤ ((discipline config tick table).below x y reads).2 := by
  cases config with
  | pt => exact ⟨Nat.le_refl _, Nat.le_refl _⟩
  | edf =>
    have both := (cellDeadline_forward tick table x reads).trans (cellDeadline_forward tick table y _)
    exact ⟨both, both⟩

/-- The earliest-deadline build needs a clock that stands still to have a key at
all; the threshold build never reads it. -/
def Still (config : Config) (tick : Nat → UInt64) : Prop :=
  config = .edf → ∀ reading, tick reading = tick 0

/-- The key of a queue cell under a still clock, as a number that grows with
precedence. -/
def urgency (config : Config) (tick : Nat → UInt64) (table : Table) (cell : Option Slot) : Int :=
  match config with
  | .pt => (priority table cell).toNat
  | .edf => -(cellDeadline tick table cell 0).1

/-- A still clock gives the same deadline at every reading. -/
theorem cellDeadline_still (tick : Nat → UInt64) (table : Table) (cell : Option Slot)
    (reads : Nat) (still : ∀ reading, tick reading = tick 0) :
    (cellDeadline tick table cell reads).1 = (cellDeadline tick table cell 0).1 := by
  cases cell with
  | none => rfl
  | some slot =>
    simp only [cellDeadline, deadline, still reads, still (reads + 1), still (0 + 1)]
    split <;> rfl

/-- Under a still clock both builds compare by their urgency. -/
theorem discipline_agrees (config : Config) (tick : Nat → UInt64) (table : Table)
    (still : Still config tick) :
    Agrees (discipline config tick table) (urgency config tick table) := by
  cases config with
  | pt =>
    constructor
    · intro x y reads
      simp only [discipline, urgency, GT.gt, UInt32.lt_iff_toNat_lt, Int.ofNat_lt]
    · intro x y reads
      simp only [discipline, urgency, UInt32.lt_iff_toNat_lt, Int.ofNat_lt]
  | edf =>
    have same := fun cell reads => cellDeadline_still tick table cell reads (still rfl)
    constructor
    · intro x y reads
      simp only [discipline, urgency, Int.neg_lt_neg_iff, same x reads,
        same y (cellDeadline tick table x reads).2]
    · intro x y reads
      simp only [discipline, urgency, GT.gt, Int.neg_lt_neg_iff, same x reads,
        same y (cellDeadline tick table x reads).2]

/-- `heapify` of either build on any array of processes: the calls return, the
subtree of `i` is ordered once its two child subtrees are, and the cells are
permuted inside that subtree below the bound and nowhere else. -/
theorem heapify_restores (config : Config) (tick : Nat → UInt64) (table : Table)
    (A : Nat → Option Slot) (itr_q i reads : Nat) (inside : i < itr_q)
    (still : Still config tick) (below : OrderedBelow (urgency config tick table) A itr_q i) :
    ∃ after, heapify (discipline config tick table) A itr_q i reads = after ∧
      Returns (discipline config tick table) itr_q A i reads after ∧
      Ordered (urgency config tick table) after.1 itr_q i ∧
      (∃ order : Equiv.Perm Nat, after.1 = A ∘ order) ∧
      ∀ index, ¬ (Under i index ∧ index < itr_q) → after.1 index = A index := by
  have moved := heapify_rearranged (discipline config tick table) A itr_q i reads inside
  obtain ⟨order, same, _⟩ := id moved
  exact ⟨_, rfl, heapify_returns _ A itr_q i reads,
    heapify_ordered (discipline_agrees config tick table still) A itr_q i reads below,
    ⟨order, same⟩, fun index outside => moved.outside outside⟩

/-- Three cells whose first has the least priority. -/
theorem heapify_restores_three : ∃ table after,
    heapify (discipline .pt (fun _ => 0) table) (fun k => some (Fin.ofNat 64 k)) 3 0 0 = after ∧
      after.1 0 = some 2 ∧ Ordered (urgency .pt (fun _ => 0) table) after.1 3 0 := by
  refine ⟨fun slot => { Proc.zero with P := slot.val.toUInt32 }, ?_⟩
  obtain ⟨after, same, _, ordered, _⟩ := heapify_restores .pt (fun _ => 0)
    (fun slot => { Proc.zero with P := slot.val.toUInt32 }) (fun k => some (Fin.ofNat 64 k)) 3 0 0
    (by decide) (fun other => by cases other) fun node under strict => by
      have deeper := under.le
      exact ⟨fun short => by omega, fun short => by omega⟩
  exact ⟨after, same, same ▸ by decide, ordered⟩

end RtXv6.ReadyHeap
