import RtXv6.ReadyQueue

/-!
# Which process a dispatch takes

A run of the ready queue is any sequence of insertions and dispatches from the
empty queue. A dispatch takes cell zero, so it serves a most urgent process
exactly when cell zero carries a largest key.

`heapify` orders the tree in which the parent of `c` is `(c - 1) / 2`.
`increasekey` climbs from `c` to `c / 2`, which is the neighbour of that parent
whenever `c` is even. A climb keeps the tree ordered when on its path each even
cell and its two candidate parents are in the order the climb takes for granted.
Short queues need no such luck: with at most four entries before an insertion only
the fifth cell can end up above its parent, and it is the next cell to move.

Six entries are enough for the two shapes to disagree about the first cell.
-/

namespace RtXv6.DispatchOrder

open Function (update update_self update_of_ne)
open ReadyHeap HeapOrder ReadyQueue

universe u v w

section Climb

variable {α : Type u} {σ : Type v} {κ : Type w} [LinearOrder κ]
variable {order : Discipline α σ} {key : α → κ}

/-- The whole tree is ordered when no cell's key exceeds its parent's. -/
theorem ordered_iff (cells : Nat → α) (bound : Nat) :
    Ordered key cells bound 0 ↔
      ∀ c, 0 < c → c < bound → key (cells c) ≤ key (cells ((c - 1) / 2)) := by
  constructor
  · intro ordered c positive inside
    obtain ⟨left, right⟩ := ordered ((c - 1) / 2) (under_zero _)
    by_cases odd : c % 2 = 1
    · have spelled : 2 * ((c - 1) / 2) + 1 = c := by omega
      rw [spelled] at left
      exact left inside
    · have spelled : 2 * ((c - 1) / 2) + 2 = c := by omega
      rw [spelled] at right
      exact right inside
  · intro edges node _
    have leftParent : (2 * node + 1 - 1) / 2 = node := by omega
    have rightParent : (2 * node + 2 - 1) / 2 = node := by omega
    constructor
    · intro inside
      have edge := edges (2 * node + 1) (by omega) inside
      rwa [leftParent] at edge
    · intro inside
      have edge := edges (2 * node + 2) (by omega) inside
      rwa [rightParent] at edge

/-- The cells `increasekey` may visit when it starts at `start`. -/
inductive OnPath (start : Nat) : Nat → Prop
  | self : OnPath start start
  | up {cell : Nat} (below : OnPath start cell) : OnPath start (parent cell)

variable {start cell : Nat}

theorem OnPath.le (onPath : OnPath start cell) : cell ≤ start := by
  induction onPath with
  | self => exact Nat.le_refl start
  | up _ bound =>
    simp only [parent]
    omega

theorem OnPath.half (onPath : OnPath start cell) : cell = start ∨ cell ≤ start / 2 := by
  induction onPath with
  | self => exact .inl rfl
  | up _ reached =>
    simp only [parent]
    omega

/-- On the path from `start`, each even cell is in the order that climbing by
`parent` takes for granted: its `parent` is not above the tree's own parent, which
is the cell before it, and the cell itself is not above its `parent`. -/
def PathInOrder (key : α → κ) (cells : Nat → α) (start : Nat) : Prop :=
  ∀ cell, OnPath start cell → 0 < cell → cell % 2 = 0 →
    key (cells (cell / 2)) ≤ key (cells (cell / 2 - 1)) ∧
      (cell < start → key (cells cell) ≤ key (cells (cell / 2)))

/-- The state of a climb at `cell`: cells before it are still the original ones,
only the edge into it may be out of order, and what came down below it is not
above what stood there. -/
structure Climbing (key : α → κ) (cells current : Nat → α) (start cell : Nat) : Prop where
  onPath : OnPath start cell
  untouched : ∀ c, c < cell → current c = cells c
  edges : ∀ c, 0 < c → c ≤ start → c ≠ cell → key (current c) ≤ key (current ((c - 1) / 2))
  came : cell < start → ∀ c, 0 < c → c ≤ start → (c - 1) / 2 = cell →
    key (current c) ≤ key (cells cell)

variable {cells : Nat → α}

/-- One iteration of the climb keeps its state. The process that moves down to the
old cell is bounded by the path's order when the cell is even, and by the climbing
process or the tree's order when it is odd. -/
theorem Climbing.move {current : Nat → α} (climbing : Climbing key cells current start cell)
    (ordered : Ordered key cells start 0) (path : PathInOrder key cells start) (positive : 0 < cell)
    (larger : key (current (parent cell)) < key (current cell)) :
    Climbing key cells (exchange current cell (parent cell)) start (parent cell) := by
  have bounded := climbing.onPath.le
  have lower : parent cell < cell := by simp only [parent]; omega
  have oldParent : current (parent cell) = cells (parent cell) := climbing.untouched _ lower
  have moved : exchange current cell (parent cell) cell = cells (parent cell) := by
    simp only [exchange, if_true, oldParent]
  have raised : exchange current cell (parent cell) (parent cell) = current cell := by
    have different : parent cell ≠ cell := by omega
    simp only [exchange, different, if_false, if_true]
  have other : ∀ c, c ≠ cell → c ≠ parent cell →
      exchange current cell (parent cell) c = current c := by
    intro c notCell notParent
    simp only [exchange, notCell, notParent, if_false]
  refine ⟨climbing.onPath.up, ?_, ?_, ?_⟩
  · intro c below
    rw [other c (by omega) (by omega)]
    exact climbing.untouched c (by omega)
  · intro c cPositive cBounded notParent
    by_cases isCell : c = cell
    · subst isCell
      rw [moved]
      by_cases odd : c % 2 = 1
      · have treeParent : (c - 1) / 2 = parent c := by simp only [parent]; omega
        rw [treeParent, raised, ← oldParent]
        exact le_of_lt larger
      have treeParent : (c - 1) / 2 = c / 2 - 1 := by omega
      have kept : exchange current c (parent c) (c / 2 - 1) = cells (c / 2 - 1) := by
        rw [other _ (by omega) (by simp only [parent]; omega)]
        exact climbing.untouched _ (by omega)
      rw [treeParent, kept]
      exact (path c climbing.onPath positive (by omega)).1
    rw [other c isCell notParent]
    by_cases belowCell : (c - 1) / 2 = cell
    · rw [belowCell, moved]
      have strict : cell < start := by omega
      have came := climbing.came strict c cPositive cBounded belowCell
      refine le_trans came ?_
      by_cases odd : cell % 2 = 1
      · have treeParent : (cell - 1) / 2 = parent cell := by simp only [parent]; omega
        have edge := (ordered_iff cells start).mp ordered cell positive strict
        rwa [treeParent] at edge
      · exact (path cell climbing.onPath positive (by omega)).2 strict
    · by_cases belowParent : (c - 1) / 2 = parent cell
      · rw [belowParent, raised]
        have edge := climbing.edges c cPositive cBounded isCell
        rw [belowParent] at edge
        exact le_trans edge (le_of_lt larger)
      · rw [other _ belowCell belowParent]
        exact climbing.edges c cPositive cBounded isCell
  · intro _ c cPositive cBounded belowParent
    by_cases isCell : c = cell
    · rw [isCell, moved]
    rw [other c isCell (by simp only [parent] at belowParent ⊢; omega), ← oldParent,
      ← belowParent]
    exact climbing.edges c cPositive cBounded isCell

theorem Climbing.stop {current : Nat → α} (climbing : Climbing key cells current start cell)
    (path : PathInOrder key cells start)
    (settled : 0 < cell → key (current cell) ≤ key (current (parent cell))) :
    Ordered key current (start + 1) 0 := by
  rw [ordered_iff]
  intro c positive inside
  by_cases isCell : c = cell
  · subst isCell
    have upper := settled positive
    by_cases odd : c % 2 = 1
    · have treeParent : (c - 1) / 2 = parent c := by simp only [parent]; omega
      rw [treeParent]
      exact upper
    have treeParent : (c - 1) / 2 = c / 2 - 1 := by omega
    have lower : parent c < c := by simp only [parent]; omega
    have before : c / 2 - 1 < c := by omega
    rw [climbing.untouched _ lower] at upper
    rw [treeParent, climbing.untouched _ before]
    exact le_trans upper (path c climbing.onPath positive (by omega)).1
  · exact climbing.edges c positive (by omega) isCell

/-- `increasekey` keeps the tree ordered along a path in order.

Induct on the cell the climb has reached. Each iteration keeps the climb's state,
and where the loop stops the last open edge is closed by its own test, together
with the path's order at an even cell. -/
theorem increasekey_ordered (agrees : Agrees order key) (cells : Nat → α) (start : Nat) (s : σ)
    (ordered : Ordered key cells start 0) (path : PathInOrder key cells start) :
    Ordered key (increasekey order cells start s).1 (start + 1) 0 := by
  have climb : ∀ cell current s, Climbing key cells current start cell →
      Ordered key (increasekey order current cell s).1 (start + 1) 0 := by
    intro cell
    induction cell using Nat.strongRecOn with
    | ind cell smaller =>
      intro current s climbing
      rw [increasekey_eq]
      by_cases positive : 0 < cell
      · simp only [positive, if_true, agrees.below, decide_eq_true_eq]
        by_cases larger : key (current (parent cell)) < key (current cell)
        · simp only [larger, if_true]
          exact smaller _ (by simp only [parent]; omega) _ _
            (climbing.move ordered path positive larger)
        · simp only [larger, if_false]
          exact climbing.stop path (fun _ => le_of_not_gt larger)
      · simp only [positive, if_false]
        exact climbing.stop path (fun contrary => False.elim (positive contrary))
  apply climb start cells s
  refine ⟨.self, fun _ _ => rfl, ?_, ?_⟩
  · intro c positive bounded different
    exact (ordered_iff cells start).mp ordered c positive (by omega)
  · intro impossible
    omega

/-- The order a queue of at most five entries keeps: the first four cells form an
ordered tree, and the fifth is not above the first. -/
structure Short (key : α → κ) (cells : Nat → α) (bound : Nat) : Prop where
  first : 1 < bound → key (cells 1) ≤ key (cells 0)
  second : 2 < bound → key (cells 2) ≤ key (cells 0)
  third : 3 < bound → key (cells 3) ≤ key (cells 1)
  fourth : 4 < bound → key (cells 4) ≤ key (cells 0)

variable {bound : Nat}

theorem Short.of_ordered (ordered : Ordered key cells bound 0) : Short key cells bound := by
  have edges := (ordered_iff cells bound).mp ordered
  refine ⟨fun inside => edges 1 (by omega) inside, fun inside => edges 2 (by omega) inside,
    fun inside => edges 3 (by omega) inside, fun inside => ?_⟩
  exact ordered.root_largest (under_zero 4) inside

theorem Short.ordered (short : Short key cells bound) (few : bound ≤ 4) :
    Ordered key cells bound 0 := by
  rw [ordered_iff]
  intro c positive inside
  have cases : c = 1 ∨ c = 2 ∨ c = 3 := by omega
  rcases cases with rfl | rfl | rfl
  · exact short.first inside
  · exact short.second inside
  · exact short.third inside

/-- A climb from the fifth cell passes the second and first cells in the wrong
order only if the second is above the first. Then it either stays, below the
second and hence below the root, or passes both. -/
theorem increasekey_fifth (agrees : Agrees order key) (cells : Nat → α) (s : σ)
    (short : Short key cells 4) (crossed : key (cells 1) < key (cells 2)) :
    Short key (increasekey order cells 4 s).1 5 := by
  have first : key (cells 1) ≤ key (cells 0) := short.first (by omega)
  have second : key (cells 2) ≤ key (cells 0) := short.second (by omega)
  have third : key (cells 3) ≤ key (cells 1) := short.third (by omega)
  have halves : parent 4 = 2 ∧ parent 2 = 1 ∧ parent 1 = 0 := by decide
  obtain ⟨fromFour, fromTwo, fromOne⟩ := halves
  by_cases passesSecond : key (cells 2) < key (cells 4)
  · have passesFirst : key (cells 1) < key (cells 4) := lt_trans crossed passesSecond
    rw [increasekey_eq, fromFour, if_pos (by omega), if_pos (by simp [agrees.below, passesSecond]),
      increasekey_eq, fromTwo, if_pos (by omega),
      if_pos (by simp [agrees.below, exchange, passesFirst]),
      increasekey_eq, fromOne, if_pos (by omega)]
    by_cases passesRoot : key (cells 0) < key (cells 4)
    · rw [if_pos (by simp [agrees.below, exchange, passesRoot]), increasekey_eq, if_neg (by omega)]
      refine ⟨fun _ => ?_, fun _ => ?_, fun _ => ?_, fun _ => ?_⟩ <;> simp only [exchange]
      · exact le_of_lt passesRoot
      · exact le_of_lt passesFirst
      · exact le_trans third first
      · exact le_of_lt passesSecond
    · rw [if_neg (by simp [agrees.below, exchange, passesRoot])]
      refine ⟨fun _ => ?_, fun _ => ?_, fun _ => ?_, fun _ => ?_⟩ <;> simp only [exchange]
      · exact le_of_not_gt passesRoot
      · exact first
      · exact le_trans third (le_of_lt passesFirst)
      · exact second
  · rw [increasekey_eq, fromFour, if_pos (by omega), if_neg (by simp [agrees.below, passesSecond])]
    exact ⟨fun _ => first, fun _ => second, fun _ => third,
      fun _ => le_trans (le_of_not_gt passesSecond) second⟩

/-- A climb in a queue of at most four entries keeps the short order, whatever the
keys. Only the path from the fifth cell can meet cells out of order. -/
theorem increasekey_short (agrees : Agrees order key) (cells : Nat → α) (start : Nat) (s : σ)
    (few : start ≤ 4) (short : Short key cells start) :
    Short key (increasekey order cells start s).1 (start + 1) := by
  by_cases crossed : start = 4 ∧ key (cells 1) < key (cells 2)
  · obtain ⟨rfl, crossed⟩ := crossed
    exact increasekey_fifth agrees cells s short crossed
  apply Short.of_ordered
  apply increasekey_ordered agrees cells start s (short.ordered few)
  intro cell onPath positive even
  have near := onPath.half
  have cases : cell = 2 ∨ (cell = 4 ∧ start = 4) := by omega
  rcases cases with rfl | ⟨rfl, rfl⟩
  · refine ⟨short.first (by omega), ?_⟩
    intro deeper
    have four : start = 4 := by omega
    exact le_of_not_gt (fun above => crossed ⟨four, above⟩)
  · refine ⟨le_of_not_gt (fun above => crossed ⟨rfl, above⟩), ?_⟩
    intro impossible
    omega

theorem Short.root_largest (short : Short key cells bound) (few : bound ≤ 5) (c : Nat)
    (inside : c < bound) : key (cells c) ≤ key (cells 0) := by
  have cases : c = 0 ∨ c = 1 ∨ c = 2 ∨ c = 3 ∨ c = 4 := by omega
  rcases cases with rfl | rfl | rfl | rfl | rfl
  · exact le_refl _
  · exact short.first inside
  · exact short.second inside
  · exact le_trans (short.third inside) (short.first (by omega))
  · exact short.fourth inside

/-- Below the last cell the short order is the tree's order, so a removal may sift
down from the first cell. -/
theorem Short.orderedBelow (short : Short key cells (bound + 1)) (few : bound ≤ 4) (value : α) :
    OrderedBelow key (update cells 0 value) bound 0 := by
  intro node _ strict
  have kept : ∀ c, c ≠ 0 → update cells 0 value c = cells c := by
    intro c positive
    exact update_of_ne positive _ _
  constructor
  · intro inside
    have isOne : node = 1 := by omega
    subst isOne
    rw [kept _ (by omega), kept 1 (by omega)]
    exact short.third (by omega)
  · intro inside
    omega

/-- The tree's order off the first cell survives any new value there. -/
theorem orderedBelow_update (ordered : Ordered key cells (bound + 1) 0) (value : α) :
    OrderedBelow key (update cells 0 value) bound 0 := by
  intro node under strict
  have kept : ∀ c, c ≠ 0 → update cells 0 value c = cells c := by
    intro c positive
    exact update_of_ne positive _ _
  obtain ⟨left, right⟩ := ordered node under
  refine ⟨fun inside => ?_, fun inside => ?_⟩
  · rw [kept _ (by omega), kept _ strict]
    exact left (by omega)
  · rw [kept _ (by omega), kept _ strict]
    exact right (by omega)

end Climb

/-- One of the two ways a run changes the queue. -/
inductive QueueOp where
  | insert (slot : Slot)
  | dispatch
  deriving DecidableEq, Repr

section Runs

variable (config : Config) (tick : Nat → UInt64) (table : Table)

/-- The states of all runs from the empty queue whose insertions were each admitted
in the state before them. Cells past the entries start with anything. -/
inductive Runs (allowed : ReadyQueue → Prop) : ReadyQueue × Nat → Prop
  | start (cells : Nat → Option Slot) : Runs allowed (emptied cells, 0)
  | insert {state next : ReadyQueue × Nat} (before : Runs allowed state) (slot : Slot)
      (admitted : allowed state.1)
      (stored : insert config tick table slot state.1 state.2 = some next) : Runs allowed next
  | dispatch {state : ReadyQueue × Nat} (before : Runs allowed state)
      (nonempty : state.1.itr_q ≠ -1) :
      Runs allowed (remove config tick table state.1 state.2)

/-- Execute one operation; an insertion into a queue at its capacity and a dispatch
from an empty queue are refused. -/
def execute (capacity : Nat) (state : ReadyQueue × Nat) : QueueOp → Option (ReadyQueue × Nat)
  | .insert slot =>
    if state.1.count < capacity then insert config tick table slot state.1 state.2 else none
  | .dispatch =>
    if state.1.itr_q ≠ -1 then some (remove config tick table state.1 state.2) else none

/-- Execute a list of operations in order. -/
def executeAll (capacity : Nat) (ops : List QueueOp) (state : ReadyQueue × Nat) :
    Option (ReadyQueue × Nat) :=
  ops.foldlM (execute config tick table capacity) state

theorem executeAll_runs (capacity : Nat) (ops : List QueueOp) (state result : ReadyQueue × Nat)
    (before : Runs config tick table (fun ready => ready.count < capacity) state)
    (executed : executeAll config tick table capacity ops state = some result) :
    Runs config tick table (fun ready => ready.count < capacity) result := by
  induction ops generalizing state with
  | nil =>
    have same : state = result := Option.some.inj executed
    exact same ▸ before
  | cons op rest ih =>
    simp only [executeAll, List.foldlM_cons, Option.bind_eq_bind, Option.bind_eq_some_iff]
      at executed
    obtain ⟨middle, first, following⟩ := executed
    refine ih middle ?_ following
    cases op with
    | insert slot =>
      by_cases room : state.1.count < capacity
      · simp only [execute, room, if_true] at first
        exact before.insert slot room first
      · simp [execute, room] at first
    | dispatch =>
      by_cases nonempty : state.1.itr_q ≠ -1
      · simp only [execute, nonempty, ne_eq, not_false_eq_true, if_true] at first
        exact Option.some.inj first ▸ before.dispatch nonempty
      · simp [execute, nonempty] at first

/-- `first` may be served before `slot`: no smaller priority, or no later
deadline. -/
def Precedes (first slot : Slot) : Prop :=
  match config with
  | .pt => (table slot).P ≤ (table first).P
  | .edf => (deadline tick (table first) 0).1 ≤ (deadline tick (table slot) 0).1

instance (first slot : Slot) : Decidable (Precedes config tick table first slot) :=
  match config with
  | .pt => inferInstanceAs (Decidable ((table slot).P ≤ (table first).P))
  | .edf => inferInstanceAs
      (Decidable ((deadline tick (table first) 0).1 ≤ (deadline tick (table slot) 0).1))

/-- Cell zero holds a process that may be served before every queued one. -/
def ServesFirst (ready : ReadyQueue) : Prop :=
  ∃ first, ready.queue 0 = some first ∧ ∀ slot, ready.Queued slot → Precedes config tick table first slot

theorem precedes_iff (first slot : Slot) :
    Precedes config tick table first slot ↔
      urgency config tick table (some slot) ≤ urgency config tick table (some first) := by
  cases config with
  | pt =>
    simp only [Precedes, urgency, priority, UInt32.le_iff_toNat_le, Int.ofNat_le]
  | edf =>
    simp only [Precedes, urgency, cellDeadline, Int.neg_le_neg_iff]

/-- What an insertion must find for its climb to keep the tree: at most four
entries, or a queue that is ordered as a tree and ordered along the path that
`parent` takes from the new entry's cell. -/
def KeepsOrder (ready : ReadyQueue) : Prop :=
  ready.count ≤ 4 ∨
    (Ordered (urgency config tick table) ready.queue ready.count 0 ∧
      PathInOrder (urgency config tick table) ready.queue ready.count)

/-- The invariant of runs that keep the order: entries are not null, and they form
an ordered tree or a short queue. -/
structure Sorted (ready : ReadyQueue) : Prop where
  filled : ∀ index, index < ready.count → ∃ slot, ready.queue index = some slot
  order : (ready.count ≤ 5 ∧ Short (urgency config tick table) ready.queue ready.count) ∨
    Ordered (urgency config tick table) ready.queue ready.count 0

variable {config tick table}

variable {ready : ReadyQueue}

theorem Sorted.servesFirst (sorted : Sorted config tick table ready) (nonempty : ready.itr_q ≠ -1) :
    ServesFirst config tick table ready := by
  have positive := (nonempty_iff ready).mp nonempty
  obtain ⟨first, stored⟩ := sorted.filled 0 positive
  refine ⟨first, stored, ?_⟩
  rintro slot ⟨index, inside, found⟩
  rw [precedes_iff, ← stored, ← found]
  rcases sorted.order with ⟨few, short⟩ | ordered
  · exact short.root_largest few index inside
  · exact ordered.root_largest (under_zero index) inside

theorem sorted_emptied (cells : Nat → Option Slot) : Sorted config tick table (emptied cells) := by
  have none : (emptied cells).count = 0 := by simp [emptied, ReadyQueue.count]
  refine ⟨?_, .inl ⟨by omega, ?_⟩⟩
  · intro index inside
    omega
  · refine ⟨?_, ?_, ?_, ?_⟩ <;> (intro inside; omega)

theorem Sorted.insert {reads : Nat} {slot : Slot} {next : ReadyQueue × Nat}
    (still : Still config tick) (sorted : Sorted config tick table ready)
    (keeps : KeepsOrder config tick table ready)
    (stored : ReadyQueue.insert config tick table slot ready reads = some next) :
    Sorted config tick table next.1 := by
  have agrees := discipline_agrees config tick table still
  have room : ready.count < NPROC := by
    by_contra full
    rw [(insert_none_iff config tick table slot ready reads).mpr (by omega)] at stored
    exact absurd stored (by simp)
  obtain ⟨result, inserted, counted, cells⟩ :=
    insert_some config tick table slot ready reads room
  have same : result = next := Option.some.inj (inserted.symm.trans stored)
  subst same
  have kept : ∀ index, index < ready.count →
      update ready.queue ready.count (some slot) index = ready.queue index := by
    intro index inside
    exact update_of_ne (by omega) _ _
  refine ⟨?_, ?_⟩
  · intro index inside
    rw [cells]
    obtain ⟨origin, bounded, found⟩ :=
      (increasekey_rearranged (discipline config tick table) _ ready.count reads).inside
        (show index ≤ ready.count by omega)
    rw [found]
    by_cases last : origin = ready.count
    · exact ⟨slot, by rw [last, update_self]⟩
    · rw [kept origin (by omega)]
      exact sorted.filled origin (by omega)
  · rw [counted, cells]
    rcases keeps with few | ⟨ordered, path⟩
    · have short : Short (urgency config tick table) ready.queue ready.count := by
        rcases sorted.order with ⟨_, short⟩ | ordered
        · exact short
        · exact .of_ordered ordered
      refine .inl ⟨by omega, ?_⟩
      apply increasekey_short agrees _ _ _ few
      refine ⟨fun inside => ?_, fun inside => ?_, fun inside => ?_, fun inside => ?_⟩
      · rw [kept 1 inside, kept 0 (by omega)]
        exact short.first inside
      · rw [kept 2 inside, kept 0 (by omega)]
        exact short.second inside
      · rw [kept 3 inside, kept 1 (by omega)]
        exact short.third inside
      · rw [kept 4 inside, kept 0 (by omega)]
        exact short.fourth inside
    · refine .inr ?_
      apply increasekey_ordered agrees
      · rw [ordered_iff] at ordered ⊢
        intro c positive inside
        rw [kept c inside, kept _ (by omega)]
        exact ordered c positive inside
      intro cell onPath positive even
      have bounded := onPath.le
      obtain ⟨upper, lower⟩ := path cell onPath positive even
      rw [kept _ (by omega), kept _ (by omega)]
      refine ⟨upper, ?_⟩
      intro deeper
      rw [kept cell deeper]
      exact lower deeper

theorem Sorted.remove {reads : Nat} (still : Still config tick)
    (sorted : Sorted config tick table ready) (nonempty : ready.itr_q ≠ -1) :
    Sorted config tick table (remove config tick table ready reads).1 := by
  have agrees := discipline_agrees config tick table still
  have positive := (nonempty_iff ready).mp nonempty
  have last := itr_q_of_count ready positive
  have counted : (ReadyQueue.remove config tick table ready reads).1.count = ready.itr_q.toNat := by
    have decremented := count_decrement
      (ReadyQueue.remove config tick table ready reads).1.queue ready positive
    have same : (ReadyQueue.mk (ReadyQueue.remove config tick table ready reads).1.queue
        (ready.itr_q - 1)).count = (ReadyQueue.remove config tick table ready reads).1.count := rfl
    omega
  refine ⟨?_, .inr ?_⟩
  · intro index inside
    rw [counted] at inside
    obtain ⟨origin, ⟨_, bounded⟩, found⟩ := (heapify_rearranged (discipline config tick table)
      (update ready.queue 0 (ready.queue ready.itr_q.toNat)) ready.itr_q.toNat 0 reads
      (by omega)).inside (show HeapOrder.Under 0 index ∧ index < ready.itr_q.toNat from
        ⟨under_zero index, inside⟩)
    have cell : (ReadyQueue.remove config tick table ready reads).1.queue index =
        update ready.queue 0 (ready.queue ready.itr_q.toNat) origin := found
    rw [cell]
    by_cases zero : origin = 0
    · rw [zero, update_self]
      exact sorted.filled _ (by omega)
    · rw [update_of_ne zero]
      exact sorted.filled _ (by omega)
  · rw [counted]
    apply heapify_ordered agrees
    rcases sorted.order with ⟨few, short⟩ | ordered
    · rw [← last] at short
      exact short.orderedBelow (by omega) _
    · rw [← last] at ordered
      exact orderedBelow_update ordered _

theorem Runs.sorted {state : ReadyQueue × Nat} (still : Still config tick)
    (runs : Runs config tick table (KeepsOrder config tick table) state) :
    Sorted config tick table state.1 := by
  induction runs with
  | start cells => exact sorted_emptied cells
  | insert _ slot admitted stored ih =>
    exact ih.insert still admitted stored
  | dispatch _ nonempty ih => exact ih.remove still nonempty

theorem Runs.weaken {allowed weaker : ReadyQueue → Prop} {state : ReadyQueue × Nat}
    (runs : Runs config tick table allowed state) (implied : ∀ ready, allowed ready → weaker ready) :
    Runs config tick table weaker state := by
  induction runs with
  | start cells => exact .start cells
  | insert _ slot admitted stored ih =>
    exact ih.insert slot (implied _ admitted) stored
  | dispatch _ nonempty ih => exact ih.dispatch nonempty

end Runs

/-- Every dispatch of every run within a capacity takes a most urgent process. -/
def DispatchesMostUrgent (config : Config) (capacity : Nat) : Prop :=
  ∀ tick table, Still config tick → ∀ state,
    Runs config tick table (fun ready => ready.count < capacity) state →
      state.1.itr_q ≠ -1 → ServesFirst config tick table state.1

/-- Eight processes with the priorities 10, 9, 8, 1, 1, 5, 0 and 0, released at
time zero with deadlines that decrease as the priorities increase. -/
def crossedTable : Table := fun slot =>
  let level : UInt32 := [10, 9, 8, 1, 1, 5, 0, 0].getD slot.val 0
  { Proc.zero with P := level, O := level, D := 100 - level }

/-- Never more than six entries. The sixth process is inserted under the third cell
by `parent` but stands under the second cell for `heapify`. -/
def crossedOps : List QueueOp :=
  [.insert 0, .insert 1, .insert 2, .insert 3, .dispatch, .insert 4, .insert 5, .insert 6,
    .dispatch, .insert 7, .dispatch]

/-- In both builds that run ends with the fourth process in cell zero and the more
urgent sixth one behind it. -/
theorem crossed_cells (config : Config) :
    (executeAll config (fun _ => 0) crossedTable 6 crossedOps (emptied (fun _ => none), 0)).map
      (fun state => (state.1.queue 0, state.1.queue 1, state.1.count)) =
        some (some 3, some 5, 5) := by
  cases config <;> decide +kernel

/-- A capacity of six or more admits a dispatch of a less urgent process. -/
theorem capacity_six_fails (config : Config) (capacity : Nat) (large : 6 ≤ capacity) :
    ¬ DispatchesMostUrgent config capacity := by
  intro claimed
  obtain ⟨state, executed, cells⟩ := Option.map_eq_some_iff.mp (crossed_cells config)
  simp only [Prod.mk.injEq] at cells
  obtain ⟨first, second, counted⟩ := cells
  have runs : Runs config (fun _ => 0) crossedTable (fun ready => ready.count < capacity) state := by
    apply (executeAll_runs config _ crossedTable 6 crossedOps _ state (.start _) executed).weaken
    intro ready few
    omega
  have nonempty : state.1.itr_q ≠ -1 := (nonempty_iff state.1).mpr (by omega)
  obtain ⟨served, stored, precedes⟩ :=
    claimed (fun _ => 0) crossedTable (fun _ _ => rfl) state runs nonempty
  have isThird : served = 3 := Option.some.inj (stored.symm.trans first)
  have late := precedes 5 ⟨1, by omega, second⟩
  subst isThird
  cases config with
  | pt | edf => exact absurd late (by decide +kernel)

/-- A run whose insertions keep the order dispatches most urgent processes only; in
particular every run with at most five entries does, and five is the largest such
capacity in either build. -/
theorem dispatch_order_exact (config : Config) :
    (∀ tick table, Still config tick → ∀ state,
      Runs config tick table (KeepsOrder config tick table) state →
        state.1.itr_q ≠ -1 → ServesFirst config tick table state.1) ∧
      ∀ capacity, DispatchesMostUrgent config capacity ↔ capacity ≤ 5 := by
  refine ⟨fun tick table still state runs => (runs.sorted still).servesFirst, ?_⟩
  intro capacity
  constructor
  · intro claimed
    by_contra large
    exact capacity_six_fails config capacity (by omega) claimed
  · intro few tick table still state runs
    have keeps : Runs config tick table (KeepsOrder config tick table) state :=
      runs.weaken (fun ready within => .inl (by omega))
    exact (keeps.sorted still).servesFirst

/-- A first insertion into the empty queue keeps the order, and its process is
served. -/
theorem dispatch_order_exact_single :
    ServesFirst .pt (fun _ => 0) crossedTable
      (ReadyQueue.mk (update (fun _ => none) 0 (some 5)) 0) := by
  refine (dispatch_order_exact .pt).1 (fun _ => 0) crossedTable (fun _ _ => rfl)
    (ReadyQueue.mk (update (fun _ => none) 0 (some 5)) 0, 0) ?_ (by decide)
  refine .insert (.start (fun _ => none)) 5 (.inl ?_) rfl
  simp [emptied, ReadyQueue.count]

/-- In a run of the threshold build within the size of the process table, the process
to be dispatched next has priority one while one with priority five is queued. -/
theorem full_table_misdispatch :
    ∃ state, Runs .pt (fun _ => 0) crossedTable (fun ready => ready.count < NPROC) state ∧
      state.1.itr_q ≠ -1 ∧ state.1.queue 0 = some 3 ∧ state.1.Queued 5 ∧
      (crossedTable 3).P = 1 ∧ (crossedTable 5).P = 5 := by
  obtain ⟨state, executed, cells⟩ := Option.map_eq_some_iff.mp (crossed_cells .pt)
  simp only [Prod.mk.injEq] at cells
  obtain ⟨first, second, counted⟩ := cells
  have runs := executeAll_runs .pt (fun _ => 0) crossedTable 6 crossedOps _ state (.start _) executed
  refine ⟨state, ?_, (nonempty_iff state.1).mpr (by omega), first, ⟨1, by omega, second⟩, ?_, ?_⟩
  · apply runs.weaken
    intro ready few
    exact Nat.lt_trans few (by decide)
  · decide +kernel
  · decide +kernel

end RtXv6.DispatchOrder
