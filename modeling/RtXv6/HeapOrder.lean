import Mathlib.Order.Lattice
import Mathlib.Logic.Equiv.Basic

/-!
# Heap order on an implicit binary tree

An array is read as a binary tree whose node `k` has the children `2k + 1` and
`2k + 2`. A node dominates its children when no child below the bound has a
larger key, and a subtree is ordered when all of its nodes dominate theirs. The
root of an ordered subtree then carries a largest key of it.

Rearrangements are described by a permutation of the indices that fixes every
index outside a region. One exchange with a larger child, followed by any
rearrangement inside that child's subtree which leaves it ordered, orders the
parent's subtree. That is the induction step of a sift-down, stated without
naming an algorithm.
-/

namespace RtXv6.HeapOrder

universe u v
variable {α : Type u} {κ : Type v}

/-- The nodes of the subtree below and including `root`. -/
inductive Under (root : Nat) : Nat → Prop
  | self : Under root root
  | left {node : Nat} (above : Under root node) : Under root (2 * node + 1)
  | right {node : Nat} (above : Under root node) : Under root (2 * node + 2)

variable {root node : Nat}

/-- A node of a subtree is its root or has its own parent in the subtree. -/
theorem Under.parent (under : Under root node) :
    node = root ∨ (0 < node ∧ Under root ((node - 1) / 2)) := by
  cases under with
  | self => exact .inl rfl
  | @left parent above =>
    refine .inr ⟨by omega, ?_⟩
    have half : (2 * parent + 1 - 1) / 2 = parent := by omega
    exact half.symm ▸ above
  | @right parent above =>
    refine .inr ⟨by omega, ?_⟩
    have half : (2 * parent + 2 - 1) / 2 = parent := by omega
    exact half.symm ▸ above

/-- Indices grow downwards. -/
theorem Under.le (under : Under root node) : root ≤ node := by
  induction under with
  | self => exact Nat.le_refl root
  | left | right => omega

/-- Subtrees nest. -/
theorem Under.trans {middle : Nat} (upper : Under root middle) (lower : Under middle node) :
    Under root node := by
  induction lower with
  | self => exact upper
  | left _ reached => exact .left reached
  | right _ reached => exact .right reached

/-- Every index lies under the whole tree's root. -/
theorem under_zero (node : Nat) : Under 0 node := by
  induction node using Nat.strongRecOn with
  | ind node smaller =>
    by_cases zero : node = 0
    · exact zero ▸ .self
    have reached : Under 0 ((node - 1) / 2) := smaller _ (by omega)
    by_cases odd : node % 2 = 1
    · have spelled : 2 * ((node - 1) / 2) + 1 = node := by omega
      exact spelled ▸ reached.left
    · have spelled : 2 * ((node - 1) / 2) + 2 = node := by omega
      exact spelled ▸ reached.right

/-- A node strictly below the root belongs to one of the two child subtrees. -/
theorem Under.child (under : Under root node) (strict : node ≠ root) :
    Under (2 * root + 1) node ∨ Under (2 * root + 2) node := by
  induction under with
  | self => exact False.elim (strict rfl)
  | @left parent above reached =>
    by_cases top : parent = root
    · exact .inl (top ▸ .self)
    · exact (reached top).imp Under.left Under.left
  | @right parent above reached =>
    by_cases top : parent = root
    · exact .inr (top ▸ .self)
    · exact (reached top).imp Under.right Under.right

/-- Two subtrees that share a node are nested. -/
theorem Under.nested {first second : Nat} (left : Under first node) (right : Under second node) :
    Under first second ∨ Under second first := by
  induction node using Nat.strongRecOn with
  | ind node smaller =>
    rcases left.parent with rfl | ⟨positive, leftUp⟩
    · exact .inr right
    rcases right.parent with rfl | ⟨_, rightUp⟩
    · exact .inl left
    · exact smaller _ (by omega) leftUp rightUp

/-- Sibling subtrees are disjoint. -/
theorem siblings_disjoint (left : Under (2 * root + 1) node) (right : Under (2 * root + 2) node) :
    False := by
  rcases left.nested right with inside | inside
  · rcases inside.parent with same | ⟨_, up⟩
    · omega
    · have bound := up.le
      omega
  · have bound := inside.le
    omega

/-- Exchange two cells of an array. -/
def exchange (cells : Nat → α) (left right : Nat) : Nat → α := fun index =>
  if index = left then cells right else if index = right then cells left else cells index

/-- An exchange is composition with the transposition of its two indices. -/
theorem exchange_eq (cells : Nat → α) (left right : Nat) :
    exchange cells left right = cells ∘ Equiv.swap left right := by
  funext index
  simp only [exchange, Function.comp_apply, Equiv.swap_apply_def]
  split
  · rfl
  · split <;> rfl

/-- `after` rearranges `before` inside a region and nowhere else. -/
def Rearranged (region : Nat → Prop) (before after : Nat → α) : Prop :=
  ∃ order : Equiv.Perm Nat, after = before ∘ order ∧
    ∀ index, ¬ region index → order index = index

/-- Doing nothing rearranges any region. -/
theorem Rearranged.refl (region : Nat → Prop) (cells : Nat → α) :
    Rearranged region cells cells := by
  exact ⟨Equiv.refl Nat, rfl, fun _ _ => rfl⟩

variable {region : Nat → Prop} {before after : Nat → α}

/-- Rearrangements of one region compose. -/
theorem Rearranged.trans {middle : Nat → α} (first : Rearranged region before middle)
    (second : Rearranged region middle after) : Rearranged region before after := by
  obtain ⟨left, rfl, leftFixed⟩ := first
  obtain ⟨right, rfl, rightFixed⟩ := second
  refine ⟨right.trans left, rfl, ?_⟩
  intro index outside
  simp only [Equiv.trans_apply, rightFixed index outside, leftFixed index outside]

/-- A rearrangement of a region is one of any larger region. -/
theorem Rearranged.widen {wider : Nat → Prop} (moved : Rearranged region before after)
    (inside : ∀ index, region index → wider index) : Rearranged wider before after := by
  obtain ⟨order, same, fixed⟩ := moved
  exact ⟨order, same, fun index outside => fixed index (fun member => outside (inside index member))⟩

/-- Exchanging two cells of a region rearranges it. -/
theorem exchange_rearranged (region : Nat → Prop) (cells : Nat → α) (left right : Nat)
    (leftInside : region left) (rightInside : region right) :
    Rearranged region cells (exchange cells left right) := by
  refine ⟨Equiv.swap left right, exchange_eq cells left right, ?_⟩
  intro index outside
  apply Equiv.swap_apply_of_ne_of_ne
  · rintro rfl
    exact outside leftInside
  · rintro rfl
    exact outside rightInside

/-- Cells outside the region keep their contents. -/
theorem Rearranged.outside (moved : Rearranged region before after) {index : Nat}
    (out : ¬ region index) : after index = before index := by
  obtain ⟨order, rfl, fixed⟩ := moved
  simp only [Function.comp_apply, fixed index out]

/-- Contents of a cell inside the region come from inside the region. -/
theorem Rearranged.inside (moved : Rearranged region before after) {index : Nat}
    (member : region index) : ∃ origin, region origin ∧ after index = before origin := by
  obtain ⟨order, rfl, fixed⟩ := moved
  refine ⟨order index, ?_, rfl⟩
  by_contra out
  have stays : order (order index) = order index := fixed _ out
  have same : order index = index := order.injective stays
  exact out (same.symm ▸ member)

variable [LinearOrder κ] (key : α → κ)

/-- No child below the bound has a larger key than its parent. -/
def Dominates (cells : Nat → α) (bound node : Nat) : Prop :=
  (2 * node + 1 < bound → key (cells (2 * node + 1)) ≤ key (cells node)) ∧
    (2 * node + 2 < bound → key (cells (2 * node + 2)) ≤ key (cells node))

/-- Every node of the subtree dominates its children. -/
def Ordered (cells : Nat → α) (bound root : Nat) : Prop :=
  ∀ node, Under root node → Dominates key cells bound node

/-- Every node strictly below the root dominates its children. This is what a
sift-down starts from. -/
def OrderedBelow (cells : Nat → α) (bound root : Nat) : Prop :=
  ∀ node, Under root node → node ≠ root → Dominates key cells bound node

variable {key}

variable {cells : Nat → α} {bound : Nat}

/-- The root of an ordered subtree carries a largest key of it. -/
theorem Ordered.root_largest (ordered : Ordered key cells bound root) (under : Under root node)
    (inside : node < bound) : key (cells node) ≤ key (cells root) := by
  induction under with
  | self => exact le_refl _
  | @left parent above reached =>
    exact le_trans ((ordered parent above).1 inside) (reached (by omega))
  | @right parent above reached =>
    exact le_trans ((ordered parent above).2 inside) (reached (by omega))

/-- Domination at a node depends only on the node and its two children. -/
theorem Dominates.congr (holds : Dominates key before bound node)
    (same : after node = before node) (left : after (2 * node + 1) = before (2 * node + 1))
    (right : after (2 * node + 2) = before (2 * node + 2)) : Dominates key after bound node := by
  simpa only [Dominates, same, left, right] using holds

/-- The child subtrees of a sift-down's start are ordered. -/
theorem OrderedBelow.child {child : Nat} (below : OrderedBelow key cells bound root)
    (isChild : child = 2 * root + 1 ∨ child = 2 * root + 2) : Ordered key cells bound child := by
  intro node under
  have reached : Under root node := by
    rcases isChild with rfl | rfl
    · exact (Under.self.left).trans under
    · exact (Under.self.right).trans under
  refine below node reached ?_
  have bounded := under.le
  omega

/-- After exchanging a root with one of its children, the nodes strictly below
that child are untouched, so a sift-down may start there. -/
theorem exchange_orderedBelow {child : Nat} (below : OrderedBelow key cells bound root)
    (isChild : child = 2 * root + 1 ∨ child = 2 * root + 2) :
    OrderedBelow key (exchange cells root child) bound child := by
  intro node under strict
  have lower := under.le
  have untouched : ∀ index, child < index → exchange cells root child index = cells index := by
    intro index deeper
    have notRoot : index ≠ root := by omega
    have notChild : index ≠ child := by omega
    simp only [exchange, notRoot, notChild, if_false]
  refine (below.child isChild node under).congr ?_ ?_ ?_
  · exact untouched node (by omega)
  · exact untouched _ (by omega)
  · exact untouched _ (by omega)

/-- The induction step of a sift-down. The chosen child beats the root and its
sibling; after the exchange only the child's subtree is rearranged, into an
ordered one. Then the root's subtree is ordered.

Every key of the rearranged subtree is at most the child's old key, which is now
the root's: an old node of the subtree was dominated by the child, and the key
that came down from the root was smaller. The sibling's subtree is untouched and
its root was not above the child. -/
theorem ordered_after_exchange {child sibling : Nat} (below : OrderedBelow key cells bound root)
    (children : (child = 2 * root + 1 ∧ sibling = 2 * root + 2) ∨
      (child = 2 * root + 2 ∧ sibling = 2 * root + 1)) (inside : child < bound)
    (beatsRoot : key (cells root) < key (cells child))
    (beatsSibling : sibling < bound → key (cells sibling) ≤ key (cells child))
    (moved : Rearranged (fun index => Under child index ∧ index < bound)
      (exchange cells root child) after) (ordered : Ordered key after bound child) :
    Ordered key after bound root := by
  have isChild : child = 2 * root + 1 ∨ child = 2 * root + 2 := by omega
  have isSibling : sibling = 2 * root + 1 ∨ sibling = 2 * root + 2 := by omega
  have childOrdered : Ordered key cells bound child := below.child isChild
  have rootValue : after root = cells child := by
    rw [moved.outside]
    · simp [exchange]
    · rintro ⟨under, _⟩
      have bounded := under.le
      omega
  have siblingFixed : ∀ index, Under sibling index → after index = cells index := by
    intro index under
    have notUnder : ¬ Under child index := by
      intro other
      rcases children with ⟨rfl, rfl⟩ | ⟨rfl, rfl⟩
      · exact siblings_disjoint other under
      · exact siblings_disjoint under other
    have lower := under.le
    have notRoot : index ≠ root := by omega
    have notChild : index ≠ child := by
      rintro rfl
      exact notUnder .self
    rw [moved.outside (fun member => notUnder member.1)]
    simp only [exchange, notRoot, notChild, if_false]
  have childBound : ∀ index, Under child index → index < bound →
      key (after index) ≤ key (cells child) := by
    intro index under bounded
    obtain ⟨origin, ⟨originUnder, originBounded⟩, same⟩ := moved.inside ⟨under, bounded⟩
    rw [same]
    have lower := originUnder.le
    have notRoot : origin ≠ root := by omega
    by_cases top : origin = child
    · simp only [exchange, top, if_true]
      split
      · exact le_refl _
      · exact le_of_lt beatsRoot
    · simp only [exchange, notRoot, top, if_false]
      exact childOrdered.root_largest originUnder originBounded
  have bounds : ∀ index, (index = 2 * root + 1 ∨ index = 2 * root + 2) → index < bound →
      key (after index) ≤ key (after root) := by
    intro index either bounded
    rw [rootValue]
    have which : index = child ∨ index = sibling := by omega
    rcases which with rfl | rfl
    · exact childBound index .self bounded
    · rw [siblingFixed index .self]
      exact beatsSibling bounded
  intro node under
  by_cases top : node = root
  · subst top
    exact ⟨bounds _ (.inl rfl), bounds _ (.inr rfl)⟩
  have side : Under child node ∨ Under sibling node := by
    rcases children with ⟨rfl, rfl⟩ | ⟨rfl, rfl⟩
    · exact under.child top
    · exact (under.child top).symm
  rcases side with side | side
  · exact ordered node side
  · have old : Dominates key cells bound node := below.child isSibling node side
    exact old.congr (siblingFixed _ side) (siblingFixed _ side.left) (siblingFixed _ side.right)

end RtXv6.HeapOrder
