import RtXv6.Umalloc

/-!
# The blocks of the user heap

The headers in memory describe a list of free blocks, in the order of their addresses, and the
live blocks. `base` is the first free block, of size zero. Free blocks are never adjacent, all
blocks are disjoint, and together they are the memory that `sbrk` has given. The stores of
`free` and `malloc` are to the headers of the blocks at hand, so everything else stays.
-/

namespace RtXv6.Umalloc

open Bytes
open List (append_assoc cons_append headD_cons headD_nil map_append map_cons map_nil mem_append
  mem_append_left mem_append_right mem_cons mem_cons_of_mem mem_cons_self mem_map pairwise_append
  pairwise_cons sum_cons)

/-- A header, and the units from it on. -/
structure Block where
  addr : Nat
  units : Nat
  deriving DecidableEq, Repr

namespace Block

/-- The address behind the block. -/
def stop (b : Block) : Nat := b.addr + 8 * b.units

/-- The blocks have no byte in common. -/
def Apart (a b : Block) : Prop := a.stop ≤ b.addr ∨ b.stop ≤ a.addr

end Block

/-- Two headers at these addresses do not overlap. -/
def Clear (a b : Nat) : Prop := a + 8 ≤ b ∨ b + 8 ≤ a

section

variable {memory : Memory} {a b value : Nat}

theorem ptr_setPtr_self (inside : a + 8 ≤ SPACE) (small : value < SPACE) :
    ptr (setPtr memory a value) a = value := by
  rw [ptr, setPtr, load_store_self _ _ _ _ (by omega)]
  exact Nat.mod_eq_of_lt small

theorem ptr_setPtr_other (clear : Clear a b) : ptr (setPtr memory a value) b = ptr memory b :=
  load_store_other _ _ _ _ _ _ (by unfold Clear at clear; omega)

theorem size_setPtr (clear : a = b ∨ Clear a b) : size (setPtr memory a value) b = size memory b :=
  load_store_other _ _ _ _ _ _ (by unfold Clear at clear; omega)

theorem ptr_setSize (clear : a = b ∨ Clear a b) : ptr (setSize memory a value) b = ptr memory b :=
  load_store_other _ _ _ _ _ _ (by unfold Clear at clear; omega)

theorem size_setSize_self (inside : a + 8 ≤ SPACE) (small : value < SPACE) :
    size (setSize memory a value) a = value := by
  rw [size, setSize, load_store_self _ _ _ _ (by omega)]
  exact Nat.mod_eq_of_lt small

theorem size_setSize_other (clear : Clear a b) : size (setSize memory a value) b = size memory b :=
  load_store_other _ _ _ _ _ _ (by unfold Clear at clear; omega)

end

/-- The memories agree outside a header. -/
def Frame (header : Nat) (before after : Memory) : Prop :=
  ∀ a, a < header ∨ header + 8 ≤ a → byte after a = byte before a

section

variable {memory next : Memory} {header : Nat}

theorem frame_setPtr (value : Nat) : Frame header memory (setPtr memory header value) :=
  fun a outside => byte_store_outside _ _ _ _ _ (by omega)

theorem frame_setSize (value : Nat) : Frame header memory (setSize memory header value) :=
  fun a outside => byte_store_outside _ _ _ _ _ (by omega)

theorem Frame.trans {last : Memory} (first : Frame header memory next)
    (second : Frame header next last) : Frame header memory last :=
  fun a outside => (second a outside).trans (first a outside)

theorem Frame.ptr (frame : Frame header memory next) {p : Nat} (clear : Clear header p) :
    ptr next p = ptr memory p := by
  refine load_congr _ _ fun index low high => frame index ?_
  unfold Clear at clear
  omega

theorem Frame.size (frame : Frame header memory next) {p : Nat} (clear : Clear header p) :
    size next p = size memory p := by
  refine load_congr _ _ fun index low high => frame index ?_
  unfold Clear at clear
  omega

end

/-- The first part of `free` does to the block and the next one what the second part does to the
previous one and the block. -/
theorem joinNext_eq {memory : Memory} {p bp q : Nat} (next : ptr memory p = q)
    (clear : Clear bp p) : joinNext memory p bp = joinPrevious memory bp q := by
  unfold joinNext joinPrevious
  rw [next]
  split
  · simp only [ptr_setSize (.inr clear), next]
  · rfl

/-- What the second part of `free` stores, for a previous block that is or is not adjacent. -/
theorem joinPrevious_spec {memory : Memory} {p bp : Nat} (clear : Clear p bp)
    (inside : p + 8 ≤ SPACE) (small : size memory p + size memory bp < SPACE)
    (bounded : ptr memory bp < SPACE) (reached : bp < SPACE) :
    Frame p memory (joinPrevious memory p bp) ∧
    (add p (size memory p) = bp →
      size (joinPrevious memory p bp) p = size memory p + size memory bp ∧
      ptr (joinPrevious memory p bp) p = ptr memory bp) ∧
    (add p (size memory p) ≠ bp → size (joinPrevious memory p bp) p = size memory p ∧
      ptr (joinPrevious memory p bp) p = bp) := by
  by_cases adjacent : add p (size memory p) = bp
  · have joined : joinPrevious memory p bp =
        setPtr (setSize memory p (size memory p + size memory bp)) p (ptr memory bp) := by
      simp only [joinPrevious, adjacent, ↓reduceIte, Nat.mod_eq_of_lt small]
      rw [ptr_setSize (.inr clear)]
    rw [joined]
    refine ⟨(frame_setSize _).trans (frame_setPtr _), fun _ => ⟨?_, ?_⟩, fun other => ?_⟩
    · rw [size_setPtr (.inl rfl), size_setSize_self inside small]
    · rw [ptr_setPtr_self inside bounded]
    · exact absurd adjacent other
  · have joined : joinPrevious memory p bp = setPtr memory p bp := by
      simp only [joinPrevious, adjacent, ↓reduceIte]
    rw [joined]
    refine ⟨frame_setPtr _, fun same => absurd same adjacent, fun _ => ⟨?_, ?_⟩⟩
    · rw [size_setPtr (.inl rfl)]
    · rw [ptr_setPtr_self inside reached]

/-- The list of free blocks and the live blocks that a heap consists of. -/
structure Inv (base : Nat) (heap : Heap) (nodes live : List Block) : Prop where
  first : nodes.head? = some ⟨base, 0⟩
  ring : Circle.Path (ptr heap.memory) (nodes.map Block.addr) base
  freep : heap.freep ∈ nodes.map Block.addr
  sizes : ∀ b ∈ nodes ++ live, size heap.memory b.addr = b.units
  sorted : nodes.Pairwise fun a b => a.stop < b.addr
  proper : ∀ b ∈ nodes ++ live, b ≠ ⟨base, 0⟩ →
    0 < b.units ∧ base + 8 ≤ b.addr ∧ b.stop ≤ heap.brk
  used : ∀ b ∈ live, b ≠ ⟨base, 0⟩
  apart : ∀ a ∈ nodes, ∀ b ∈ live, a.Apart b
  liveApart : live.Pairwise Block.Apart
  nonnull : 0 < base
  above : base + 8 ≤ heap.brk
  inside : heap.brk < SPACE
  units : 8 * ((nodes.map Block.units).sum + (live.map Block.units).sum) = heap.granted

namespace Inv

variable {base : Nat} {heap : Heap} {nodes live : List Block}

variable (inv : Inv base heap nodes live)
include inv

theorem bounds {b : Block} (member : b ∈ nodes ++ live) :
    base ≤ b.addr ∧ b.addr + 8 ≤ heap.brk ∧ b.stop ≤ heap.brk := by
  by_cases isBase : b = ⟨base, 0⟩
  · subst isBase
    have above := inv.above
    simp only [Block.stop]
    omega
  · obtain ⟨positive, above, below⟩ := inv.proper b member isBase
    simp only [Block.stop] at below ⊢
    omega

theorem clear_of_le {a b : Block} (aIn : a ∈ nodes ++ live) (bIn : b ∈ nodes ++ live)
    (different : b ≠ ⟨base, 0⟩) (before : a.stop ≤ b.addr) : a.addr + 8 ≤ b.addr := by
  by_cases isBase : a = ⟨base, 0⟩
  · subst isBase
    exact (inv.proper b bIn different).2.1
  have positive := (inv.proper a aIn isBase).1
  simp only [Block.stop] at before
  omega

theorem clear_live {a b : Block} (aIn : a ∈ nodes) (bIn : b ∈ live) : Clear b.addr a.addr := by
  have aMember := mem_append_left live aIn
  have bMember := mem_append_right nodes bIn
  have proper := inv.proper b bMember (inv.used b bIn)
  rcases inv.apart a aIn b bIn with before | after
  · exact .inr (inv.clear_of_le aMember bMember (inv.used b bIn) before)
  refine .inl ?_
  simp only [Block.stop] at after
  omega

variable {before after : List Block} {p : Block} (nodesEq : nodes = before ++ p :: after)
include nodesEq

theorem split :
    (∀ a ∈ before, a.stop < p.addr ∧ a.addr + 8 ≤ p.addr) ∧
    (∀ b ∈ after, p.stop < b.addr ∧ p.addr + 8 ≤ b.addr) := by
  have sorted := inv.sorted
  rw [nodesEq, pairwise_append, pairwise_cons] at sorted
  obtain ⟨_, ⟨later, _⟩, earlier⟩ := sorted
  have member : ∀ b ∈ before ++ p :: after, b ∈ nodes ++ live := by
    intro b inside
    rw [nodesEq]
    exact mem_append_left live inside
  -- A block with a free block below it is not `base`.
  have notBase : ∀ {a b : Block}, a ∈ nodes ++ live → a.stop < b.addr → b ≠ ⟨base, 0⟩ := by
    intro a b inside below isBase
    subst isBase
    have low := (inv.bounds inside).1
    simp only [Block.stop] at below
    omega
  constructor
  · intro a aIn
    have below := earlier a aIn p mem_cons_self
    have aMember := member a (by simp [aIn])
    exact ⟨below, inv.clear_of_le aMember (member p (by simp)) (notBase aMember below)
      (Nat.le_of_lt below)⟩
  · intro b bIn
    have below := later b bIn
    have pMember := member p (by simp)
    exact ⟨below, inv.clear_of_le pMember (member b (by simp [bIn])) (notBase pMember below)
      (Nat.le_of_lt below)⟩

theorem next : ptr heap.memory p.addr = (after.map Block.addr).headD base := by
  have ring := inv.ring
  rw [nodesEq, map_append, map_cons] at ring
  exact (Circle.path_append.mp ring).2.1

end Inv

theorem exists_last {α : Type} {p : α → Prop} {items : List α} (some_ : ∃ item ∈ items, p item) :
    ∃ before item after, items = before ++ item :: after ∧ p item ∧ ∀ later ∈ after, ¬ p later := by
  induction items with
  | nil =>
    obtain ⟨item, member, _⟩ := some_
    cases member
  | cons first rest ih =>
    by_cases more : ∃ item ∈ rest, p item
    · obtain ⟨before, item, after, rfl, holds, none⟩ := ih more
      exact ⟨first :: before, item, after, rfl, holds, none⟩
    obtain ⟨item, member, holds⟩ := some_
    rcases mem_cons.mp member with rfl | later
    · exact ⟨[], item, rest, rfl, holds, fun later member found => more ⟨later, member, found⟩⟩
    · exact absurd ⟨item, later, holds⟩ more

/-- Where a live block belongs among the free ones. -/
structure Placed (nodes : List Block) (b : Block) (before : List Block) (p : Block)
    (after : List Block) : Prop where
  nodes : nodes = before ++ p :: after
  below : p.stop ≤ b.addr
  above : ∀ y ∈ after, b.stop ≤ y.addr

namespace Inv

variable {base fuel : Nat} {heap : Heap} {nodes live before after : List Block} {b p : Block}

theorem placed (inv : Inv base heap nodes (b :: live)) :
    ∃ before p after, Placed nodes b before p after := by
  have bIn : b ∈ nodes ++ b :: live := by simp
  have low := (inv.bounds bIn).1
  have some_ : ∃ n ∈ nodes, n.stop ≤ b.addr := by
    refine ⟨⟨base, 0⟩, List.mem_of_mem_head? inv.first, ?_⟩
    simp only [Block.stop]
    omega
  obtain ⟨before, p, after, nodesEq, below, above⟩ := exists_last some_
  refine ⟨before, p, after, nodesEq, below, fun y yIn => ?_⟩
  have member : y ∈ nodes := by simp [nodesEq, yIn]
  rcases inv.apart y member b mem_cons_self with under | beyond
  · exact absurd under (above y yIn)
  · exact beyond

theorem finds (inv : Inv base heap nodes (b :: live)) (placed : Placed nodes b before p after)
    (enough : nodes.length ≤ fuel) :
    Circle.walk (ptr heap.memory) (stops heap.memory b.addr) fuel heap.freep = some p.addr := by
  obtain ⟨rest, whole⟩ : ∃ rest, nodes = ⟨base, 0⟩ :: rest :=
    ⟨nodes.tail, (List.cons_head?_tail inv.first).symm⟩
  have ring := inv.ring
  have freep := inv.freep
  rw [whole, map_cons] at ring freep
  have pIn : p ∈ nodes := by simp [placed.nodes]
  have proper := inv.proper b (by simp) (inv.used b mem_cons_self)
  have below := placed.below
  have pClear := inv.clear_live pIn mem_cons_self
  have pBounds := inv.bounds (mem_append_left (b :: live) pIn)
  obtain ⟨earlier, later⟩ := inv.split placed.nodes
  have target : p.addr ∈ base :: rest.map Block.addr := by
    have member := List.mem_map_of_mem (f := Block.addr) pIn
    rw [whole] at member
    exact member
  have length : (rest.map Block.addr).length < fuel := by
    rw [whole] at enough
    rw [List.length_map]
    exact enough
  refine Circle.Holds.walk ring freep target ?_ length
  intro node member
  have inNodes : node ∈ nodes.map Block.addr := by
    rw [whole]
    exact member
  obtain ⟨n, nIn, rfl⟩ := mem_map.mp inNodes
  have order : p.addr + 8 ≤ b.addr := by
    unfold Clear at pClear
    simp only [Block.stop] at below
    omega
  rw [placed.nodes] at nIn
  simp only [stops, Bool.or_eq_true, decide_eq_true_eq]
  rcases mem_append.mp nIn with inBefore | inRest
  · -- A block before the place: its pointer does not lead past the place.
    obtain ⟨front, back, rfl⟩ := List.append_of_mem inBefore
    have nodesEq : nodes = front ++ n :: (back ++ p :: after) := by
      rw [placed.nodes, append_assoc, cons_append]
    have leads := inv.next nodesEq
    have nFirst := (earlier n (by simp)).2
    obtain ⟨_, nLater⟩ := inv.split nodesEq
    cases back with
    | nil =>
      rw [List.nil_append, map_cons, headD_cons] at leads
      rw [leads]
      omega
    | cons q back =>
      rw [cons_append, map_cons, headD_cons] at leads
      have qSecond := (earlier q (by simp)).2
      have qAfter := (nLater q (by simp)).2
      rw [leads]
      omega
  rcases mem_cons.mp inRest with rfl | inAfter
  · -- The place: the pointer leads past the block, or back to `base`.
    have leads := inv.next placed.nodes
    cases after with
    | nil =>
      rw [map_nil, headD_nil] at leads
      rw [leads]
      omega
    | cons q after =>
      rw [map_cons, headD_cons] at leads
      have beyond := placed.above q (by simp)
      simp only [Block.stop] at beyond
      rw [leads]
      omega
  -- A block after the place: the block is below it.
  obtain ⟨front, back, rfl⟩ := List.append_of_mem inAfter
  have nodesEq : nodes = (before ++ p :: front) ++ n :: back := by
    rw [placed.nodes, append_assoc, cons_append]
  have leads := inv.next nodesEq
  have beyond := placed.above n (by simp)
  obtain ⟨_, nLater⟩ := inv.split nodesEq
  simp only [Block.stop] at beyond
  cases back with
  | nil =>
    rw [map_nil, headD_nil] at leads
    rw [leads]
    omega
  | cons q back =>
    rw [map_cons, headD_cons] at leads
    have qAfter := (nLater q (by simp)).2
    rw [leads]
    omega

end Inv

/-- A block that has been merged with the first of the blocks after it, or not. -/
structure Absorbs (b : Block) (after : List Block) (m : Block) (rest : List Block) : Prop where
  addr : m.addr = b.addr
  grows : b.units ≤ m.units
  sum : m.units + (rest.map Block.units).sum = b.units + (after.map Block.units).sum
  later : ∀ y ∈ rest, m.stop < y.addr
  sublist : rest.Sublist after
  below : ∀ limit, b.stop ≤ limit → (∀ y ∈ after, y.stop ≤ limit) → m.stop ≤ limit
  apart : ∀ l : Block, 0 < l.units → b.Apart l → (∀ y ∈ after, y.Apart l) → m.Apart l

theorem Absorbs.alone {b : Block} {after : List Block} (later : ∀ y ∈ after, b.stop < y.addr) :
    Absorbs b after b after :=
  ⟨rfl, Nat.le_refl _, rfl, later, List.Sublist.refl _, fun _ below _ => below,
    fun _ _ apart _ => apart⟩

theorem Absorbs.merged {b y : Block} {rest : List Block} (adjacent : b.stop = y.addr)
    (later : ∀ z ∈ rest, y.stop < z.addr) :
    Absorbs b (y :: rest) ⟨b.addr, b.units + y.units⟩ rest := by
  have stop : (⟨b.addr, b.units + y.units⟩ : Block).stop = y.stop := by
    simp only [Block.stop] at adjacent ⊢
    omega
  refine ⟨rfl, Nat.le_add_right _ _, ?_, ?_, List.sublist_cons_self _ _, ?_, ?_⟩
  · simp only [map_cons, sum_cons]
    omega
  · intro z member
    rw [stop]
    exact later z member
  · intro limit _ below
    rw [stop]
    exact below y mem_cons_self
  · intro l positive bApart apart
    have yApart := apart y mem_cons_self
    simp only [Block.Apart, stop]
    simp only [Block.Apart, Block.stop] at bApart yApart adjacent ⊢
    omega

namespace Inv

variable {base fuel : Nat} {heap : Heap} {nodes live before after : List Block} {b p : Block}

variable {n : Block}

theorem next_lt (inv : Inv base heap nodes live) (member : n ∈ nodes) :
    ptr heap.memory n.addr < SPACE := by
  have inside := inv.inside
  have above := inv.above
  obtain ⟨front, back, nodesEq⟩ := List.append_of_mem member
  have leads := inv.next nodesEq
  cases back with
  | nil =>
    rw [map_nil, headD_nil] at leads
    omega
  | cons q back =>
    have qIn : q ∈ nodes := by simp [nodesEq]
    have qBounds := inv.bounds (mem_append_left live qIn)
    rw [map_cons, headD_cons] at leads
    omega

theorem add_units (inv : Inv base heap nodes live) (member : n ∈ nodes ++ live) :
    add n.addr n.units = n.stop :=
  Nat.mod_eq_of_lt (Nat.lt_of_le_of_lt (inv.bounds member).2.2 inv.inside)

theorem joins_next (inv : Inv base heap nodes (b :: live)) (placed : Placed nodes b before p after) :
    ∃ m rest, Absorbs b after m rest ∧ Frame b.addr heap.memory (joinNext heap.memory p.addr b.addr) ∧
      size (joinNext heap.memory p.addr b.addr) b.addr = m.units ∧
      ptr (joinNext heap.memory p.addr b.addr) b.addr = (rest.map Block.addr).headD base ∧
      Circle.Path (ptr heap.memory) (rest.map Block.addr) base := by
  have bIn : b ∈ nodes ++ b :: live := by simp
  have pIn : p ∈ nodes := by simp [placed.nodes]
  have proper := inv.proper b bIn (inv.used b mem_cons_self)
  have bBounds := inv.bounds bIn
  have inside := inv.inside
  have units := inv.sizes b bIn
  have leads := inv.next placed.nodes
  have clearP := inv.clear_live pIn mem_cons_self
  have ring := inv.ring
  rw [placed.nodes, map_append, map_cons] at ring
  have path := (Circle.path_append.mp ring).2.2
  cases after with
  | nil =>
    have baseIn : (⟨base, 0⟩ : Block) ∈ nodes := List.mem_of_mem_head? inv.first
    have baseUnits : size heap.memory base = 0 :=
      inv.sizes _ (mem_append_left (b :: live) baseIn)
    simp only [Block.stop] at bBounds
    rw [joinNext_eq leads clearP]
    obtain ⟨frame, _, alone⟩ := joinPrevious_spec (show Clear b.addr base from
      inv.clear_live baseIn mem_cons_self) (by omega) (by omega) (inv.next_lt baseIn) (by omega)
    have apartNext : add b.addr (size heap.memory b.addr) ≠ base := by
      rw [units, inv.add_units bIn, Block.stop]
      omega
    obtain ⟨sizeB, ptrB⟩ := alone apartNext
    have last : ∀ y ∈ ([] : List Block), b.stop < y.addr := fun y none => by cases none
    exact ⟨b, [], .alone last, frame, sizeB.trans units, ptrB, path⟩
  | cons y rest =>
    have yIn : y ∈ nodes := by simp [placed.nodes]
    have yMember := mem_append_left (b :: live) yIn
    have yUnits := inv.sizes y yMember
    have yBounds := inv.bounds yMember
    have beyond := placed.above y mem_cons_self
    have nodesEq : nodes = (before ++ [p]) ++ y :: rest := by
      rw [placed.nodes, append_assoc, List.singleton_append]
    have yLater := (inv.split nodesEq).2
    rw [map_cons, headD_cons] at leads
    have small : size heap.memory b.addr + size heap.memory y.addr < SPACE := by
      rw [units, yUnits]
      simp only [Block.stop] at beyond yBounds
      omega
    rw [joinNext_eq leads clearP]
    obtain ⟨frame, joined, alone⟩ := joinPrevious_spec (inv.clear_live yIn mem_cons_self)
      (by omega) small (inv.next_lt yIn) (by omega)
    rw [units, inv.add_units bIn] at joined alone
    by_cases adjacent : b.stop = y.addr
    · obtain ⟨sizeB, ptrB⟩ := joined adjacent
      rw [yUnits] at sizeB
      rw [inv.next nodesEq] at ptrB
      exact ⟨_, rest, .merged adjacent fun z member => (yLater z member).1, frame, sizeB, ptrB,
        path.2⟩
    obtain ⟨sizeB, ptrB⟩ := alone adjacent
    refine ⟨b, y :: rest, .alone ?_, frame, sizeB, ptrB, path⟩
    intro z member
    rcases mem_cons.mp member with rfl | later
    · omega
    · have zAfter := (yLater z later).2
      omega

/-- The bytes of a live block are not in the header of a free one. -/
theorem outside (inv : Inv base heap nodes live) {l : Block} (lIn : l ∈ live) {a : Nat}
    (low : l.addr ≤ a) (high : a < l.stop) (nIn : n ∈ nodes) : a < n.addr ∨ n.addr + 8 ≤ a := by
  have lMember := mem_append_right nodes lIn
  rcases inv.apart n nIn l lIn with before | after
  · have clear := inv.clear_of_le (mem_append_left live nIn) lMember (inv.used l lIn) before
    omega
  · omega

theorem outside_live (inv : Inv base heap nodes (b :: live)) {l : Block} (lIn : l ∈ live) {a : Nat}
    (low : l.addr ≤ a) (high : a < l.stop) : a < b.addr ∨ b.addr + 8 ≤ a := by
  have apart := (pairwise_cons.mp inv.liveApart).1 l lIn
  have proper := inv.proper b (by simp) (inv.used b mem_cons_self)
  simp only [Block.Apart, Block.stop] at apart high
  omega

theorem assemble (inv : Inv base heap nodes (b :: live)) (placed : Placed nodes b before p after)
    {memory : Memory} {t : Block} {back : List Block}
    (frame : ∀ a, (a < p.addr ∨ p.addr + 8 ≤ a) → (a < b.addr ∨ b.addr + 8 ≤ a) →
      byte memory a = byte heap.memory a) (start : t.addr = p.addr)
    (isBase : before = [] → t = ⟨base, 0⟩)
    (path : Circle.Path (ptr memory) ((t :: back).map Block.addr) base)
    (sizes : ∀ n ∈ t :: back, size memory n.addr = n.units)
    (sorted : (t :: back).Pairwise fun a b => a.stop < b.addr)
    (proper : ∀ n ∈ t :: back, n ≠ ⟨base, 0⟩ → 0 < n.units ∧ base + 8 ≤ n.addr ∧ n.stop ≤ heap.brk)
    (apart : ∀ n ∈ t :: back, ∀ l ∈ live, n.Apart l)
    (units : ((t :: back).map Block.units).sum = p.units + b.units + (after.map Block.units).sum) :
    Inv base { heap with memory, freep := p.addr } (before ++ t :: back) live := by
  have pIn : p ∈ nodes := by simp [placed.nodes]
  have bLive : b ∈ b :: live := mem_cons_self
  have inNodes : ∀ n ∈ before, n ∈ nodes := by
    intro n member
    simp [placed.nodes, member]
  obtain ⟨earlier, _⟩ := inv.split placed.nodes
  -- Neither header is that of a block before the place, or of a live block.
  have frontFrame : ∀ n ∈ before, ∀ a, n.addr ≤ a → a < n.addr + 8 →
      byte memory a = byte heap.memory a := by
    intro n member a low high
    have first := (earlier n member).2
    have clear := inv.clear_live (inNodes n member) bLive
    unfold Clear at clear
    exact frame a (by omega) (by omega)
  have liveFrame : ∀ l ∈ live, ∀ a, l.addr ≤ a → a < l.stop →
      byte memory a = byte heap.memory a := by
    intro l member a low high
    exact frame a (inv.outside (mem_cons_of_mem b member) low high pIn)
      (inv.outside_live member low high)
  have ring := inv.ring
  rw [placed.nodes, map_append, map_cons] at ring
  have front := (Circle.path_append.mp ring).1
  refine ⟨?_, ?_, ?_, ?_, ?_, ?_, ?_, ?_, ?_, inv.nonnull, inv.above, inv.inside, ?_⟩
  · have first := inv.first
    rw [placed.nodes] at first
    cases before with
    | nil => rw [List.nil_append, List.head?_cons, isBase rfl]
    | cons n before => exact first
  · rw [map_append]
    refine Circle.path_append.mpr ⟨?_, path⟩
    rw [map_cons, headD_cons, start]
    refine front.congr ?_
    intro node member
    obtain ⟨n, nIn, rfl⟩ := mem_map.mp member
    exact load_congr _ _ fun a low high => frontFrame n nIn a low (by omega)
  · simp [start]
  · intro n member
    rcases mem_append.mp member with inFree | inLive
    · rcases mem_append.mp inFree with inFront | inBack
      · have same : size memory n.addr = size heap.memory n.addr :=
          load_congr _ _ fun a low high => frontFrame n inFront a (by omega) (by omega)
        rw [same]
        exact inv.sizes n (mem_append_left _ (inNodes n inFront))
      · exact sizes n inBack
    have nLive := mem_append_right nodes (mem_cons_of_mem b inLive)
    have positive := (inv.proper n nLive (inv.used n (mem_cons_of_mem b inLive))).1
    have same : size memory n.addr = size heap.memory n.addr :=
      load_congr _ _ fun a low high =>
        liveFrame n inLive a (by omega) (by simp only [Block.stop]; omega)
    rw [same]
    exact inv.sizes n nLive
  · have oldSorted := inv.sorted
    rw [placed.nodes, pairwise_append] at oldSorted
    refine pairwise_append.mpr ⟨oldSorted.1, sorted, ?_⟩
    intro a aIn n nIn
    have below := (earlier a aIn).1
    rcases mem_cons.mp nIn with rfl | later
    · rw [start]
      exact below
    have beyond := (pairwise_cons.mp sorted).1 n later
    simp only [Block.stop] at beyond below ⊢
    omega
  · intro n member different
    rcases mem_append.mp member with inFree | inLive
    · rcases mem_append.mp inFree with inFront | inBack
      · exact inv.proper n (mem_append_left _ (inNodes n inFront)) different
      · exact proper n inBack different
    · exact inv.proper n (mem_append_right _ (mem_cons_of_mem b inLive)) different
  · intro l member
    exact inv.used l (mem_cons_of_mem b member)
  · intro n member l lIn
    rcases mem_append.mp member with inFront | inBack
    · exact inv.apart n (inNodes n inFront) l (mem_cons_of_mem b lIn)
    · exact apart n inBack l lIn
  · exact (pairwise_cons.mp inv.liveApart).2
  · have total := inv.units
    rw [placed.nodes] at total
    simp only [map_append, map_cons, List.sum_append, sum_cons] at total units ⊢
    rw [← total]
    omega

end Inv

/-- What `free` leaves as it is: the free blocks behind the merged one, and everything outside
the two headers. The merged block itself is in its place. -/
structure Remains (base : Nat) (heap : Heap) (live : List Block) (p b m : Block)
    (rest : List Block) (memory : Memory) : Prop where
  outer : ∀ a, (a < p.addr ∨ p.addr + 8 ≤ a) → (a < b.addr ∨ b.addr + 8 ≤ a) →
    byte memory a = byte heap.memory a
  path : Circle.Path (ptr memory) (rest.map Block.addr) base
  sizes : ∀ y ∈ rest, size memory y.addr = y.units
  sorted : rest.Pairwise fun a b => a.stop < b.addr
  proper : ∀ y ∈ rest, y ≠ ⟨base, 0⟩ → 0 < y.units ∧ base + 8 ≤ y.addr ∧ y.stop ≤ heap.brk
  apart : ∀ y ∈ rest, ∀ l ∈ live, y.Apart l
  mergedBelow : m.stop ≤ heap.brk
  mergedApart : ∀ l ∈ live, m.Apart l

namespace Inv

variable {base fuel : Nat} {heap : Heap} {nodes live before after : List Block} {b p : Block}

variable {m : Block} {rest : List Block} {memory : Memory}

variable (inv : Inv base heap nodes (b :: live)) (placed : Placed nodes b before p after)
  (absorbs : Absorbs b after m rest)
include inv placed absorbs

theorem remains (path : Circle.Path (ptr heap.memory) (rest.map Block.addr) base)
    (outer : ∀ a, (a < p.addr ∨ p.addr + 8 ≤ a) → (a < b.addr ∨ b.addr + 8 ≤ a) →
      byte memory a = byte heap.memory a) : Remains base heap live p b m rest memory := by
  obtain ⟨_, later⟩ := inv.split placed.nodes
  have afterIn : ∀ y ∈ after, y ∈ nodes := by
    intro y member
    simp [placed.nodes, member]
  have restIn : ∀ y ∈ rest, y ∈ after := fun y member => absorbs.sublist.mem member
  have member : ∀ y ∈ rest, y ∈ nodes ++ b :: live := fun y inRest =>
    mem_append_left _ (afterIn y (restIn y inRest))
  have frame : ∀ y ∈ rest, ∀ a, y.addr ≤ a → a < y.addr + 8 →
      byte memory a = byte heap.memory a := by
    intro y inRest a low high
    have overP := (later y (restIn y inRest)).2
    have overB := inv.clear_live (afterIn y (restIn y inRest)) mem_cons_self
    unfold Clear at overB
    exact outer a (by omega) (by omega)
  refine ⟨outer, path.congr ?_, ?_, ?_, fun y inRest => inv.proper y (member y inRest), ?_, ?_, ?_⟩
  · intro node inRest
    obtain ⟨y, yIn, rfl⟩ := mem_map.mp inRest
    exact load_congr _ _ fun a low high => frame y yIn a low (by omega)
  · intro y inRest
    have same : size memory y.addr = size heap.memory y.addr :=
      load_congr _ _ fun a low high => frame y inRest a (by omega) (by omega)
    rw [same]
    exact inv.sizes y (member y inRest)
  · have sorted := inv.sorted
    rw [placed.nodes, pairwise_append, pairwise_cons] at sorted
    exact sorted.2.1.2.sublist absorbs.sublist
  · intro y inRest l lIn
    exact inv.apart y (afterIn y (restIn y inRest)) l (mem_cons_of_mem b lIn)
  · refine absorbs.below heap.brk (inv.bounds (show b ∈ nodes ++ b :: live by simp)).2.2 ?_
    intro y inAfter
    exact (inv.bounds (mem_append_left _ (afterIn y inAfter))).2.2
  · intro l lIn
    have lLive : l ∈ b :: live := mem_cons_of_mem b lIn
    have positive := (inv.proper l (mem_append_right nodes lLive) (inv.used l lLive)).1
    refine absorbs.apart l positive ((pairwise_cons.mp inv.liveApart).1 l lIn) ?_
    intro y inAfter
    exact inv.apart y (afterIn y inAfter) l lLive

theorem joined (remains : Remains base heap live p b m rest memory) (adjacent : p.stop = b.addr)
    (sizeP : size memory p.addr = p.units + m.units)
    (ptrP : ptr memory p.addr = (rest.map Block.addr).headD base) :
    Inv base { heap with memory, freep := p.addr }
      (before ++ ⟨p.addr, p.units + m.units⟩ :: rest) live := by
  have pIn : p ∈ nodes := by simp [placed.nodes]
  have bProper := inv.proper b (by simp) (inv.used b mem_cons_self)
  have notBase : p ≠ ⟨base, 0⟩ := by
    rintro rfl
    simp only [Block.stop] at adjacent
    omega
  have pProper := inv.proper p (mem_append_left _ pIn) notBase
  have stop : (⟨p.addr, p.units + m.units⟩ : Block).stop = m.stop := by
    have addr := absorbs.addr
    simp only [Block.stop] at adjacent ⊢
    omega
  refine inv.assemble placed remains.outer rfl ?_ ⟨ptrP, remains.path⟩ ?_ ?_ ?_ ?_ ?_
  · intro empty
    have first := inv.first
    rw [placed.nodes, empty] at first
    exact absurd (Option.some.inj first) notBase
  · intro n member
    rcases mem_cons.mp member with rfl | inRest
    · exact sizeP
    · exact remains.sizes n inRest
  · refine pairwise_cons.mpr ⟨?_, remains.sorted⟩
    intro y member
    rw [stop]
    exact absorbs.later y member
  · intro n member different
    rcases mem_cons.mp member with rfl | inRest
    · rw [stop]
      exact ⟨Nat.add_pos_left pProper.1 _, pProper.2.1, remains.mergedBelow⟩
    · exact remains.proper n inRest different
  · intro n member l lIn
    rcases mem_cons.mp member with rfl | inRest
    · have lLive : l ∈ b :: live := mem_cons_of_mem b lIn
      have pApart := inv.apart p pIn l lLive
      have positive := (inv.proper l (mem_append_right nodes lLive) (inv.used l lLive)).1
      have apart := remains.mergedApart l lIn
      have addr := absorbs.addr
      simp only [Block.Apart, stop]
      simp only [Block.Apart, Block.stop] at pApart apart adjacent ⊢
      omega
    · exact remains.apart n inRest l lIn
  · have sum := absorbs.sum
    simp only [map_cons, sum_cons]
    omega

theorem unjoined (remains : Remains base heap live p b m rest memory) (gap : p.stop ≠ b.addr)
    (sizeP : size memory p.addr = p.units) (ptrP : ptr memory p.addr = b.addr)
    (sizeB : size memory b.addr = m.units)
    (ptrB : ptr memory b.addr = (rest.map Block.addr).headD base) :
    Inv base { heap with memory, freep := p.addr } (before ++ p :: m :: rest) live := by
  have pIn : p ∈ nodes := by simp [placed.nodes]
  have bProper := inv.proper b (by simp) (inv.used b mem_cons_self)
  have addr := absorbs.addr
  have grows := absorbs.grows
  have below := placed.below
  obtain ⟨_, later⟩ := inv.split placed.nodes
  refine inv.assemble placed remains.outer rfl ?_ ⟨?_, ?_, remains.path⟩ ?_ ?_ ?_ ?_ ?_
  · intro empty
    have first := inv.first
    rw [placed.nodes, empty] at first
    exact Option.some.inj first
  · rw [ptrP, map_cons, headD_cons, addr]
  · rw [addr, ptrB]
  · intro n member
    rcases mem_cons.mp member with rfl | inRest
    · exact sizeP
    rcases mem_cons.mp inRest with rfl | inRest
    · rw [addr, sizeB]
    · exact remains.sizes n inRest
  · refine pairwise_cons.mpr ⟨?_, pairwise_cons.mpr ⟨absorbs.later, remains.sorted⟩⟩
    intro y member
    rcases mem_cons.mp member with rfl | inRest
    · omega
    · exact (later y (absorbs.sublist.mem inRest)).1
  · intro n member different
    rcases mem_cons.mp member with rfl | inRest
    · exact inv.proper n (mem_append_left _ pIn) different
    rcases mem_cons.mp inRest with rfl | inRest
    · exact ⟨by omega, by omega, remains.mergedBelow⟩
    · exact remains.proper n inRest different
  · intro n member l lIn
    rcases mem_cons.mp member with rfl | inRest
    · exact inv.apart n pIn l (mem_cons_of_mem b lIn)
    rcases mem_cons.mp inRest with rfl | inRest
    · exact remains.mergedApart l lIn
    · exact remains.apart n inRest l lIn
  · have sum := absorbs.sum
    simp only [map_cons, sum_cons]
    omega

/-- The second part of `free`, and the heap that it leaves. -/
theorem joins_previous {middle : Memory} (frame : Frame b.addr heap.memory middle)
    (sizeB : size middle b.addr = m.units)
    (ptrB : ptr middle b.addr = (rest.map Block.addr).headD base)
    (path : Circle.Path (ptr heap.memory) (rest.map Block.addr) base) :
    (∀ a, (a < p.addr ∨ p.addr + 8 ≤ a) → (a < b.addr ∨ b.addr + 8 ≤ a) →
      byte (joinPrevious middle p.addr b.addr) a = byte heap.memory a) ∧
    ∃ nodes', Inv base
        { heap with memory := joinPrevious middle p.addr b.addr, freep := p.addr } nodes' live ∧
      nodes'.length ≤ nodes.length + 1 ∧ (∃ n ∈ nodes', b.units ≤ n.units) := by
  have bIn : b ∈ nodes ++ b :: live := by simp
  have pIn : p ∈ nodes := by simp [placed.nodes]
  have pMember := mem_append_left (b :: live) pIn
  have bBounds := inv.bounds bIn
  have pBounds := inv.bounds pMember
  have inside := inv.inside
  have below := placed.below
  have order : p.addr + 8 ≤ b.addr :=
    inv.clear_of_le pMember bIn (inv.used b mem_cons_self) below
  have sizeP : size middle p.addr = p.units :=
    (frame.size (.inr order)).trans (inv.sizes p pMember)
  have addr := absorbs.addr
  have grows := absorbs.grows
  have mBelow := (inv.remains placed absorbs path fun _ _ _ => rfl).mergedBelow
  have headLt : ptr middle b.addr < SPACE := by
    rw [ptrB]
    cases rest with
    | nil =>
      rw [map_nil, headD_nil]
      omega
    | cons y rest =>
      have yIn : y ∈ nodes := by
        simp [placed.nodes, absorbs.sublist.mem mem_cons_self]
      have yBounds := inv.bounds (mem_append_left (b :: live) yIn)
      rw [map_cons, headD_cons]
      omega
  have small : size middle p.addr + size middle b.addr < SPACE := by
    rw [sizeP, sizeB]
    simp only [Block.stop] at below mBelow
    omega
  obtain ⟨frameP, joins, leaves⟩ := joinPrevious_spec (show Clear p.addr b.addr from .inl order)
    (by omega) small headLt (by omega)
  rw [sizeP, inv.add_units pMember, sizeB, ptrB] at joins
  rw [sizeP, inv.add_units pMember] at leaves
  have outer : ∀ a, (a < p.addr ∨ p.addr + 8 ≤ a) → (a < b.addr ∨ b.addr + 8 ≤ a) →
      byte (joinPrevious middle p.addr b.addr) a = byte heap.memory a :=
    fun a outsideP outsideB => (frameP a outsideP).trans (frame a outsideB)
  have remains := inv.remains placed absorbs path outer
  have lengths : rest.length ≤ after.length := absorbs.sublist.length_le
  refine ⟨outer, ?_⟩
  by_cases adjacent : p.stop = b.addr
  · obtain ⟨sizeNew, ptrNew⟩ := joins adjacent
    refine ⟨_, inv.joined placed absorbs remains adjacent sizeNew ptrNew, ?_, ?_⟩
    · rw [placed.nodes]
      simp only [List.length_append, List.length_cons]
      omega
    · exact ⟨⟨p.addr, p.units + m.units⟩, by simp, Nat.le_add_left_of_le grows⟩
  obtain ⟨sizeNew, ptrNew⟩ := leaves adjacent
  have sizeKept := (frameP.size (.inl order)).trans sizeB
  have ptrKept := (frameP.ptr (.inl order)).trans ptrB
  refine ⟨_, inv.unjoined placed absorbs remains adjacent sizeNew ptrNew sizeKept ptrKept, ?_, ?_⟩
  · rw [placed.nodes]
    simp only [List.length_append, List.length_cons]
    omega
  · exact ⟨m, by simp, grows⟩

end Inv

end RtXv6.Umalloc
