import RtXv6.ReadyHeap
import RtXv6.Segments

/-!
# The ready queue and its dispatch order

`ptable.queue` with its unsigned iterator is an array read up to and including
`itr_q`; the iterator of an empty queue is the all-ones word. Seven places of
`proc.c` write the same insertion sequence, and the scheduler alone removes.

Whatever the comparisons answer, an insertion adds its process and a removal
takes out exactly the process in cell zero. Which process stands there is another
matter. `heapify` keeps the tree of `left` and `right`, `increasekey` climbs by
`parent`, and the two agree only while the queue is short: up to five entries the
first cell carries a most urgent process, and with six entries a run exists that
dispatches a less urgent one.
-/

namespace RtXv6

open Function (update)
open ReadyHeap HeapOrder Segments

/-- The queue cells and the iterator, which is the index of the last entry. -/
structure ReadyQueue where
  queue : Nat → Option Slot
  itr_q : UInt32

namespace ReadyQueue

/-- The number of entries. The iterator of the empty queue wraps to zero. -/
def count (ready : ReadyQueue) : Nat := (ready.itr_q + 1).toNat

/-- A queue without entries. Cells keep whatever they held. -/
def emptied (cells : Nat → Option Slot) : ReadyQueue := ⟨cells, -1⟩

/-- A process stands in one of the counted cells. -/
def Queued (ready : ReadyQueue) (slot : Slot) : Prop :=
  ∃ index, index < ready.count ∧ ready.queue index = some slot

/-- `itr_q++; queue[itr_q] = p; increasekey(queue, itr_q)`. A store past the last
cell of the array is refused and reported as the absent result. -/
def insert (config : Config) (tick : Nat → UInt64) (table : Table) (slot : Slot)
    (ready : ReadyQueue) (reads : Nat) : Option (ReadyQueue × Nat) :=
  let itr_q := ready.itr_q + 1
  if itr_q.toNat < NPROC then
    let sorted := increasekey (discipline config tick table)
      (update ready.queue itr_q.toNat (some slot)) itr_q.toNat reads
    some (⟨sorted.1, itr_q⟩, sorted.2)
  else none

/-- `queue[0] = queue[itr_q]; heapify(queue, itr_q, 0); itr_q--`. -/
def remove (config : Config) (tick : Nat → UInt64) (table : Table)
    (ready : ReadyQueue) (reads : Nat) : ReadyQueue × Nat :=
  let sorted := heapify (discipline config tick table)
    (update ready.queue 0 (ready.queue ready.itr_q.toNat)) ready.itr_q.toNat 0 reads
  (⟨sorted.1, ready.itr_q - 1⟩, sorted.2)

theorem nonempty_iff (ready : ReadyQueue) : ready.itr_q ≠ -1 ↔ 0 < ready.count := by
  constructor
  · intro different
    apply Nat.pos_of_ne_zero
    intro zero
    apply different
    apply UInt32.toNat_inj.mp
    have wrapped : (-1 : UInt32).toNat = 4294967295 := by decide
    have bound : ready.itr_q.toNat < 4294967296 := ready.itr_q.toNat_lt
    simp only [count, UInt32.toNat_add, UInt32.toNat_one] at zero
    omega
  · rintro positive same
    simp [count, same] at positive

/-- With entries, the iterator is one less than their number. -/
theorem itr_q_of_count (ready : ReadyQueue) (positive : 0 < ready.count) :
    ready.itr_q.toNat + 1 = ready.count := by
  have bound : ready.itr_q.toNat < 4294967296 := ready.itr_q.toNat_lt
  simp only [count, UInt32.toNat_add, UInt32.toNat_one] at positive ⊢
  omega

/-- Decrementing the iterator removes one entry from the count. -/
theorem count_decrement (cells : Nat → Option Slot) (ready : ReadyQueue)
    (positive : 0 < ready.count) : (ReadyQueue.mk cells (ready.itr_q - 1)).count + 1 = ready.count := by
  have last := itr_q_of_count ready positive
  simp only [count, UInt32.sub_add_cancel] at last ⊢
  exact last

/-- Incrementing the iterator counts one more entry, as long as the array could
hold it. -/
theorem count_increment (cells : Nat → Option Slot) (ready : ReadyQueue)
    (room : ready.count < NPROC) :
    (ReadyQueue.mk cells (ready.itr_q + 1)).count = ready.count + 1 := by
  simp only [NPROC] at room
  simp only [count] at room ⊢
  rw [UInt32.toNat_add, UInt32.toNat_one]
  omega

variable (config : Config) (tick : Nat → UInt64) (table : Table)

section

variable (slot : Slot) (ready : ReadyQueue) (reads : Nat)

/-- An insertion into a queue with room succeeds, counts one more entry, and
rearranges the cells of the old entries and the new one. -/
theorem insert_some (room : ready.count < NPROC) :
    ∃ result, insert config tick table slot ready reads = some result ∧
      result.1.count = ready.count + 1 ∧
      result.1.queue = (increasekey (discipline config tick table)
        (update ready.queue ready.count (some slot)) ready.count reads).1 := by
  refine ⟨_, if_pos room, ?_, rfl⟩
  exact count_increment _ ready room

theorem insert_none_iff :
    insert config tick table slot ready reads = none ↔ NPROC ≤ ready.count := by
  by_cases room : ready.count < NPROC
  · obtain ⟨result, inserted, _⟩ := insert_some config tick table slot ready reads room
    simp only [inserted, reduceCtorEq, false_iff]
    omega
  · have full : ¬ (ready.itr_q + 1).toNat < NPROC := room
    simp only [insert, full, if_false, true_iff]
    omega

theorem insert_forward {result : ReadyQueue × Nat}
    (inserted : insert config tick table slot ready reads = some result) : reads ≤ result.2 := by
  simp only [insert] at inserted
  split at inserted
  · obtain rfl := Option.some.inj inserted
    exact increasekey_state (fun later => reads ≤ later)
      (fun x y s sofar => sofar.trans (discipline_forward config tick table x y s).2) _ _
      (Nat.le_refl reads)
  · cases inserted

end

theorem remove_forward (ready : ReadyQueue) (reads : Nat) :
    reads ≤ (remove config tick table ready reads).2 :=
  heapify_state (fun later => reads ≤ later)
    (fun x y s sofar => sofar.trans (discipline_forward config tick table x y s).1) _ _ _
    (Nat.le_refl reads)

/-- An insertion of a process that is not queued adds exactly that process. The
climb permutes the counted cells, so no comparison can lose or repeat an entry. -/
theorem insert_holds (slot : Slot) (ready : ReadyQueue) (reads : Nat) (members : Set Slot)
    (held : Holds ready.queue ready.count members) (fresh : slot ∉ members) :
    ∃ result, insert config tick table slot ready reads = some result ∧
      result.1.count = ready.count + 1 ∧
      Holds result.1.queue result.1.count (Insert.insert slot members) := by
  have room : ready.count < NPROC := by
    simpa only [Fintype.card_fin] using held.count_lt slot fresh
  obtain ⟨result, inserted, counted, cells⟩ :=
    insert_some config tick table slot ready reads room
  refine ⟨result, inserted, counted, ?_⟩
  obtain ⟨order, same, fixed⟩ := increasekey_rearranged (discipline config tick table)
    (update ready.queue ready.count (some slot)) ready.count reads
  rw [cells, same, counted]
  exact (held.push slot fresh).permute order (fun index above => fixed index (by omega))

theorem remove_holds (ready : ReadyQueue) (reads : Nat) (members : Set Slot)
    (held : Holds ready.queue ready.count members) (positive : 0 < ready.count) (slot : Slot)
    (first : ready.queue 0 = some slot) :
    (remove config tick table ready reads).1.count + 1 = ready.count ∧
      Holds (remove config tick table ready reads).1.queue
        (remove config tick table ready reads).1.count (members \ {slot}) := by
  have last := itr_q_of_count ready positive
  have counted : (remove config tick table ready reads).1.count + 1 = ready.count :=
    count_decrement _ ready positive
  refine ⟨counted, ?_⟩
  have remaining : (remove config tick table ready reads).1.count = ready.itr_q.toNat := by omega
  have dropped : Holds (update ready.queue 0 (ready.queue ready.itr_q.toNat))
      ready.itr_q.toNat (members \ {slot}) := by
    have whole : Holds ready.queue (ready.itr_q.toNat + 1) members := by
      rw [last]
      exact held
    exact whole.dropFirst slot first
  rw [remaining]
  by_cases one : ready.itr_q.toNat = 0
  · have unchanged : (remove config tick table ready reads).1.queue =
        update ready.queue 0 (ready.queue ready.itr_q.toNat) := by
      simp only [remove, heapify_outside _ _ _ 0 reads (Nat.le_of_eq one)]
    rw [unchanged]
    exact dropped
  obtain ⟨order, same, fixed⟩ := heapify_rearranged (discipline config tick table)
    (update ready.queue 0 (ready.queue ready.itr_q.toNat)) ready.itr_q.toNat 0 reads
    (Nat.pos_of_ne_zero one)
  have cells : (remove config tick table ready reads).1.queue =
      update ready.queue 0 (ready.queue ready.itr_q.toNat) ∘ order := same
  rw [cells]
  exact dropped.permute order (fun index above => fixed index (fun member => by omega))

end ReadyQueue

end RtXv6
