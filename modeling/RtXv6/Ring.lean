import Mathlib.Data.List.Nodup
import Mathlib.Logic.Function.Basic

/-!
# Circular doubly linked lists

A ring is a head node and further nodes whose `next` and `prev` pointers run through
all of them and back. The pointers are two functions on nodes; the ring's content is
the list of the nodes after the head, in the order of `next`.

Taking a node out and putting one in after the head are given as the sequences of
pointer stores that do it, each reading what the stores before it left. Walking along
a pointer from the head until the head is met again finds the first node of the list,
or of its reverse, that satisfies a test; the walk needs one more step than there are
nodes.
-/

namespace RtXv6.Ring

open Function (update update_self update_of_ne)
open List (mem_append mem_cons mem_cons_of_mem mem_cons_self mem_singleton nodup_cons)

universe u
variable {ι : Type u}

/-- The pointers of every node. -/
structure Links (ι : Type u) where
  next : ι → ι
  prev : ι → ι

/-- The nodes of `path`, between `first` and `last`, point to their neighbours in both
directions. -/
def Chain (links : Links ι) (first : ι) : List ι → ι → Prop
  | [], last => links.next first = last ∧ links.prev last = first
  | node :: rest, last =>
    (links.next first = node ∧ links.prev node = first) ∧ Chain links node rest last

/-- The pointers run from the head through `order` back to the head, and no node is met
twice. -/
structure Holds (links : Links ι) (head : ι) (order : List ι) : Prop where
  distinct : (head :: order).Nodup
  chain : Chain links head order head

/-- A chain through a middle node is a chain up to it and one from it. -/
theorem chain_append (links : Links ι) (first node last : ι) (before after : List ι) :
    Chain links first (before ++ node :: after) last ↔
      Chain links first before node ∧ Chain links node after last := by
  induction before generalizing first with
  | nil => exact Iff.rfl
  | cons other rest ih =>
    simp only [List.cons_append, Chain, ih, and_assoc]

variable {path : List ι} {others : Links ι}

/-- A chain depends on the forward pointers of all its nodes but the last and on the
backward pointers of all but the first. -/
theorem Chain.congr {links : Links ι} {first last : ι} (chain : Chain links first path last)
    (next : ∀ node ∈ first :: path, others.next node = links.next node)
    (prev : ∀ node ∈ path ++ [last], others.prev node = links.prev node) :
    Chain others first path last := by
  induction path generalizing first with
  | nil =>
    have forward := next first mem_cons_self
    have backward := prev last (by simp)
    exact ⟨forward.trans chain.1, backward.trans chain.2⟩
  | cons node rest ih =>
    have forward := next first mem_cons_self
    have backward := prev node (by simp)
    refine ⟨⟨forward.trans chain.1.1, backward.trans chain.1.2⟩, ?_⟩
    apply ih chain.2
    · intro other member
      exact next other (mem_cons_of_mem first member)
    · intro other member
      exact prev other (by simpa using Or.inr (by simpa using member))

/-- The node before the last one. -/
theorem Chain.last {links : Links ι} {first last : ι} (chain : Chain links first path last) :
    links.prev last ∈ first :: path := by
  induction path generalizing first with
  | nil =>
    rw [chain.2]
    exact mem_cons_self
  | cons node rest ih =>
    exact mem_cons_of_mem first (ih chain.2)

variable {last : ι}

/-- The node after the first one. -/
theorem Chain.first {links : Links ι} {first : ι} (chain : Chain links first path last) :
    links.next first ∈ path ++ [last] := by
  cases path with
  | nil =>
    rw [chain.1]
    exact mem_cons_self
  | cons node rest =>
    rw [chain.1.1]
    exact mem_cons_self

/-- Exchange the two directions. -/
def Links.reverse (links : Links ι) : Links ι := ⟨links.prev, links.next⟩

variable {first : ι}

/-- A chain read backwards. -/
theorem Chain.reverse {links : Links ι} (chain : Chain links first path last) :
    Chain links.reverse last path.reverse first := by
  induction path generalizing first with
  | nil => exact ⟨chain.2, chain.1⟩
  | cons node rest ih =>
    rw [List.reverse_cons, chain_append]
    exact ⟨ih chain.2, chain.1.2, chain.1.1⟩

/-- A ring read backwards. -/
theorem Holds.reverse {links : Links ι} {head : ι} {order : List ι}
    (ring : Holds links head order) : Holds links.reverse head order.reverse where
  distinct := by
    have distinct := ring.distinct
    simp only [nodup_cons, List.mem_reverse, List.nodup_reverse] at distinct ⊢
    exact distinct
  chain := ring.chain.reverse

/-- The empty ring: a head that points to itself. -/
theorem Holds.empty (links : Links ι) (head : ι) (next : links.next head = head)
    (prev : links.prev head = head) : Holds links head [] :=
  ⟨by simp, next, prev⟩

variable [DecidableEq ι]

/-- Take a node out: its neighbours are made to point to each other. -/
def Links.unlink (links : Links ι) (node : ι) : Links ι :=
  let links := { links with prev := update links.prev (links.next node) (links.prev node) }
  { links with next := update links.next (links.prev node) (links.next node) }

/-- Put a node in after the head. -/
def Links.linkFront (links : Links ι) (head node : ι) : Links ι :=
  let links := { links with next := update links.next node (links.next head) }
  let links := { links with prev := update links.prev node head }
  let links := { links with prev := update links.prev (links.next head) node }
  { links with next := update links.next head node }

variable {before after : List ι} {node : ι}

/-- Joining the neighbours of a node leaves a chain without it. -/
theorem Chain.bypass {links : Links ι} (left : Chain links first before node)
    (right : Chain links node after last) (distinct : (first :: before ++ node :: after).Nodup)
    (apart : last ∉ before ++ node :: after)
    (next : others.next = update links.next (links.prev node) (links.next node))
    (prev : others.prev = update links.prev (links.next node) (links.prev node)) :
    Chain others first (before ++ after) last := by
  induction before generalizing first with
  | nil =>
    obtain ⟨toNode, fromNode⟩ := left
    rw [fromNode] at next prev
    simp only [List.cons_append, List.nil_append, nodup_cons, mem_cons, not_or] at distinct apart
    cases after with
    | nil =>
      rw [right.1] at next prev
      exact ⟨by rw [next, update_self], by rw [prev, update_self]⟩
    | cons other rest =>
      obtain ⟨⟨toOther, fromOther⟩, chain⟩ := right
      rw [toOther] at next prev
      refine ⟨⟨by rw [next, update_self], by rw [prev, update_self]⟩, ?_⟩
      apply chain.congr
      · intro each member
        have different : each ≠ first := by
          rintro rfl
          exact distinct.1.2 member
        rw [next, update_of_ne different]
      intro each member
      have different : each ≠ other := by
        rintro rfl
        simp only [mem_append, mem_singleton] at member
        rcases member with inside | rfl
        · exact (nodup_cons.mp distinct.2.2).1 inside
        · exact apart.2 mem_cons_self
      rw [prev, update_of_ne different]
  | cons other rest ih =>
    obtain ⟨⟨toOther, fromOther⟩, chain⟩ := left
    have unmet := nodup_cons.mp distinct
    have firstKept : first ≠ links.prev node := by
      intro same
      apply unmet.1
      have member := chain.last
      rw [← same] at member
      exact List.mem_append_left _ member
    have otherKept : other ≠ links.next node := by
      intro same
      have member := right.first
      rw [← same, mem_append, mem_singleton] at member
      rcases member with inside | rfl
      · exact (nodup_cons.mp unmet.2).1 (List.mem_append_right _ (mem_cons_of_mem _ inside))
      · exact apart mem_cons_self
    refine ⟨⟨?_, ?_⟩, ?_⟩
    · rw [next, update_of_ne firstKept, toOther]
    · rw [prev, update_of_ne otherKept, fromOther]
    · exact ih chain unmet.2 (fun member => apart (mem_cons_of_mem _ member))

/-- Taking a node out removes it from the list. -/
theorem Holds.unlink {links : Links ι} {head : ι}
    (ring : Holds links head (before ++ node :: after)) :
    Holds (links.unlink node) head (before ++ after) := by
  obtain ⟨left, right⟩ := (chain_append links head node head before after).mp ring.chain
  have unmet := nodup_cons.mp ring.distinct
  have apart : node ≠ links.next node := by
    intro same
    have member := right.first
    rw [← same, mem_append, mem_singleton] at member
    rcases member with inside | rfl
    · have later := (List.nodup_append.mp unmet.2).2.1
      exact (nodup_cons.mp later).1 inside
    · exact unmet.1 (List.mem_append_right _ mem_cons_self)
  refine ⟨?_, left.bypass right ring.distinct unmet.1 ?_ rfl⟩
  · have sublist : (head :: (before ++ after)).Sublist (head :: (before ++ node :: after)) :=
      List.Sublist.cons_cons head ((List.Sublist.refl before).append (List.sublist_cons_self node after))
    exact ring.distinct.sublist sublist
  · simp only [Links.unlink, update_of_ne apart]

/-- Putting a new node in adds it in front. -/
theorem Holds.linkFront {links : Links ι} {head : ι} {order : List ι}
    (ring : Holds links head order) (fresh : node ∉ head :: order) :
    Holds (links.linkFront head node) head (node :: order) := by
  have unmet := nodup_cons.mp ring.distinct
  have notHead : node ≠ head := fun same => fresh (same ▸ mem_cons_self)
  have apart : node ≠ links.next head := by
    intro same
    have member := ring.chain.first
    rw [← same, mem_append, mem_singleton] at member
    rcases member with inside | rfl
    · exact fresh (mem_cons_of_mem _ inside)
    · exact notHead rfl
  have next : (links.linkFront head node).next =
      update (update links.next node (links.next head)) head node := rfl
  have prev : (links.linkFront head node).prev =
      update (update links.prev node head) (links.next head) node := by
    simp only [Links.linkFront, update_of_ne notHead.symm]
  refine ⟨?_, ⟨?_, ?_⟩, ?_⟩
  · simp only [mem_cons, not_or] at fresh
    simp only [nodup_cons, mem_cons, not_or]
    exact ⟨⟨notHead.symm, unmet.1⟩, fresh.2, unmet.2⟩
  · rw [next, update_self]
  · rw [prev, update_of_ne apart, update_self]
  · cases order with
    | nil =>
      have toHead : links.next head = head := ring.chain.1
      refine ⟨?_, ?_⟩
      · rw [next, update_of_ne notHead, update_self, toHead]
      · rw [prev, toHead, update_self]
    | cons first rest =>
      obtain ⟨⟨toFirst, fromFirst⟩, chain⟩ := ring.chain
      refine ⟨⟨?_, ?_⟩, ?_⟩
      · rw [next, update_of_ne notHead, update_self, toFirst]
      · rw [prev, toFirst, update_self]
      · apply chain.congr
        · intro each member
          have notNode : each ≠ node := by
            rintro rfl
            exact fresh (mem_cons_of_mem _ member)
          have notTop : each ≠ head := by
            rintro rfl
            exact unmet.1 member
          rw [next, update_of_ne notTop, update_of_ne notNode]
        · intro each member
          simp only [mem_append, mem_singleton] at member
          have notNode : each ≠ node := by
            rintro rfl
            rcases member with inside | rfl
            · exact fresh (mem_cons_of_mem _ (mem_cons_of_mem _ inside))
            · exact notHead rfl
          have notFirst : each ≠ first := by
            rintro rfl
            rcases member with inside | rfl
            · exact (nodup_cons.mp unmet.2).1 inside
            · exact unmet.1 mem_cons_self
          rw [prev, toFirst, update_of_ne notFirst, update_of_ne notNode]

/-- Moving a node of the ring to the front. -/
theorem Holds.toFront {links : Links ι} {head : ι}
    (ring : Holds links head (before ++ node :: after)) :
    Holds ((links.unlink node).linkFront head node) head (node :: (before ++ after)) := by
  have unmet := nodup_cons.mp ring.distinct
  have moved : (node :: (before ++ after)).Nodup := List.nodup_middle.mp unmet.2
  apply ring.unlink.linkFront
  simp only [mem_cons, not_or]
  refine ⟨?_, (nodup_cons.mp moved).1⟩
  rintro rfl
  exact unmet.1 (List.mem_append_right _ mem_cons_self)

/-- Follow a pointer from `node` to the first node that passes the test, or to the head.
The outer result is absent when the steps run out before either. -/
def walk (step : ι → ι) (head : ι) (test : ι → Bool) : Nat → ι → Option (Option ι)
  | 0, _ => none
  | fuel + 1, node =>
    if node = head then some none
    else if test node then some (some node)
    else walk step head test fuel (step node)

/-- A walk along a chain that ends at the head. -/
theorem Chain.walk {links : Links ι} {head : ι} (test : ι → Bool)
    (chain : Chain links first path head) (absent : head ∉ path) (fuel : Nat)
    (enough : path.length < fuel) :
    Ring.walk links.next head test fuel (links.next first) = some (path.find? test) := by
  induction path generalizing first fuel with
  | nil =>
    obtain ⟨fuel, rfl⟩ := Nat.exists_eq_succ_of_ne_zero (Nat.ne_of_gt enough)
    rw [chain.1, Ring.walk, if_pos rfl]
    rfl
  | cons node rest ih =>
    obtain ⟨fuel, rfl⟩ := Nat.exists_eq_succ_of_ne_zero (Nat.ne_of_gt (Nat.zero_lt_of_lt enough))
    have notHead : node ≠ head := fun same => absent (same ▸ mem_cons_self)
    rw [chain.1.1, Ring.walk, if_neg notHead, List.find?_cons]
    by_cases passes : test node = true
    · rw [if_pos passes, passes]
    rw [if_neg passes, Bool.eq_false_iff.mpr passes]
    exact ih chain.2 (fun member => absent (mem_cons_of_mem _ member)) fuel
      (Nat.lt_of_succ_lt_succ enough)

variable {links : Links ι} {head : ι} {order : List ι} (ring : Holds links head order)
  (test : ι → Bool) (fuel : Nat) (enough : order.length < fuel)
include ring enough

/-- Walking forward from the head. -/
theorem Holds.walk_next :
    Ring.walk links.next head test fuel (links.next head) = some (order.find? test) :=
  ring.chain.walk test (nodup_cons.mp ring.distinct).1 fuel enough

/-- Walking backward from the head. -/
theorem Holds.walk_prev :
    Ring.walk links.prev head test fuel (links.prev head) = some (order.reverse.find? test) :=
  ring.reverse.walk_next test fuel (by rwa [List.length_reverse])

end RtXv6.Ring
