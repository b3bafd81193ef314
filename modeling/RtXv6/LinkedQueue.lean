import Mathlib.Logic.Function.Basic

/-!
# Linked queues

A queue is a head pointer and nodes whose `next` pointers run from the first node to the last
one, which points nowhere. A node joins at the end: the address of the last pointer is found
by going from the head pointer along the nodes, and the node is stored there. The address of a
pointer is that of the head, or of the pointer in a node.
-/

namespace RtXv6.LinkedQueue

universe u
variable {ι : Type u}

/-- The pointers run through the nodes of a list. -/
def Holds (next : ι → Option ι) : Option ι → List ι → Prop
  | head, [] => head = none
  | head, node :: rest => head = some node ∧ Holds next (next node) rest

/-- What is stored at the address of a pointer. -/
def deref (next : ι → Option ι) (head : Option ι) : Option ι → Option ι
  | none => head
  | some node => next node

/-- The address of the first empty pointer, from an address on. -/
def findEnd (next : ι → Option ι) (head : Option ι) : Nat → Option ι → Option (Option ι)
  | 0, _ => none
  | fuel + 1, place =>
    match deref next head place with
    | none => some place
    | some node => findEnd next head fuel (some node)

/-- The queue after a store at the address of a pointer. -/
def storeAt [DecidableEq ι] (next : ι → Option ι) (head : Option ι) (value : ι) :
    Option ι → Option ι × (ι → Option ι)
  | none => (some value, next)
  | some node => (head, Function.update next node (some value))

variable {next : ι → Option ι} {head : Option ι}

/-- A queue depends only on the pointers of its nodes. -/
theorem Holds.congr {other : ι → Option ι} {queue : List ι} (holds : Holds next head queue)
    (same : ∀ node ∈ queue, other node = next node) : Holds other head queue := by
  induction queue generalizing head with
  | nil => exact holds
  | cons node rest ih =>
    obtain ⟨first, tail⟩ := holds
    refine ⟨first, ?_⟩
    rw [same node List.mem_cons_self]
    exact ih tail fun later member =>
      same later (List.mem_cons_of_mem node member)

/-- A queue that ends with a new node, stored in the pointer of what was the last one. -/
theorem Holds.extend [DecidableEq ι] {before : List ι} {last value : ι}
    (holds : Holds next head (before ++ [last])) (distinct : last ∉ before)
    (fresh : value ∉ before ++ [last]) (ends : next value = none) :
    Holds (Function.update next last (some value)) head (before ++ [last] ++ [value]) := by
  induction before generalizing head with
  | nil =>
    have different : value ≠ last := fun same => fresh (by simp [same])
    refine ⟨holds.1, Function.update_self .., ?_⟩
    rw [Function.update_of_ne different]
    exact ends
  | cons node rest ih =>
    obtain ⟨first, tail⟩ := holds
    have different : node ≠ last := fun same => distinct (by simp [same])
    refine ⟨first, ?_⟩
    rw [Function.update_of_ne different]
    exact ih tail (fun member => distinct (List.mem_cons_of_mem node member))
      fun member => fresh (List.mem_cons_of_mem node member)

/-- The search for the end, from an address in front of some of the nodes. -/
theorem findEnd_eq (queue : List ι) :
    ∀ {place : Option ι} {fuel : Nat}, Holds next (deref next head place) queue →
    queue.length < fuel → findEnd next head fuel place = some (queue.getLast?.or place) := by
  induction queue with
  | nil =>
    intro place fuel holds enough
    obtain ⟨fuel, rfl⟩ := Nat.exists_eq_succ_of_ne_zero (Nat.ne_zero_of_lt enough)
    have empty : deref next head place = none := holds
    simp [findEnd, empty]
  | cons node rest ih =>
    intro place fuel holds enough
    obtain ⟨fuel, rfl⟩ := Nat.exists_eq_succ_of_ne_zero (Nat.ne_zero_of_lt enough)
    have further : findEnd next head (fuel + 1) place = findEnd next head fuel (some node) := by
      simp [findEnd, holds.1]
    have later : Holds next (deref next head (some node)) rest := holds.2
    rw [Nat.succ_eq_add_one, further, ih later (Nat.lt_of_succ_lt_succ enough)]
    cases rest with
    | nil => rfl
    | cons second rest =>
      rw [List.getLast?_cons_cons, List.getLast?_eq_some_getLast (List.cons_ne_nil second rest)]
      rfl

/-- A node joins a queue. -/
theorem Holds.append [DecidableEq ι] {queue : List ι} {value : ι} (holds : Holds next head queue)
    (distinct : queue.Nodup) (fresh : value ∉ queue) (ends : next value = none) {fuel : Nat}
    (enough : queue.length < fuel) :
    ∃ place, findEnd next head fuel none = some place ∧
      Holds (storeAt next head value place).2 (storeAt next head value place).1
        (queue ++ [value]) := by
  have start : Holds next (deref next head none) queue := holds
  have found := findEnd_eq queue start enough
  rcases List.eq_nil_or_concat queue with rfl | ⟨before, last, rfl⟩
  · exact ⟨none, found, rfl, ends⟩
  rw [List.concat_eq_append] at *
  refine ⟨some last, by simpa using found, ?_⟩
  have alone : last ∉ before := by
    intro member
    exact (List.nodup_append.mp distinct).2.2 last member last (List.mem_singleton_self last) rfl
  exact holds.extend alone fresh ends

end RtXv6.LinkedQueue
