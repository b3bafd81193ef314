import RtXv6.UmallocBlocks

/-!
# The calls of the user heap allocator

From a heap whose headers describe its blocks, `free` and `malloc` return, with fuel for twice
around the list. `free` makes a live block free. `malloc` takes a free block that is large
enough, or the tail of one, and asks for more memory if there is none; it asks at most once,
since the block that it then gets is large enough. The bytes of the other live blocks stay.
-/

namespace RtXv6.Umalloc

open Bytes
open List (length_cons map_append map_cons mem_append mem_append_left mem_append_right mem_cons
  mem_cons_of_mem mem_cons_self mem_map mem_singleton pairwise_cons sum_cons)

/-- The bytes of these blocks are as before. -/
def Kept (live : List Block) (heap next : Heap) : Prop :=
  ∀ l ∈ live, ∀ a, l.addr ≤ a → a < l.stop → byte next.memory a = byte heap.memory a

variable {next : Heap}

theorem Kept.trans {live : List Block} {heap last : Heap} (first : Kept live heap next)
    (second : Kept live next last) : Kept live heap last :=
  fun l member a low high => (second l member a low high).trans (first l member a low high)

variable {before after : List Block} {n : Block} {p units : Nat}

namespace Inv

variable {base fuel : Nat} {heap : Heap} {nodes live : List Block} {b : Block}

theorem perm {others : List Block} (inv : Inv base heap nodes live) (same : live.Perm others) :
    Inv base heap nodes others := by
  have both := List.Perm.append_left nodes same
  refine { inv with sizes := ?_, proper := ?_, used := ?_, apart := ?_, liveApart := ?_, units := ?_ }
  · exact fun n member => inv.sizes n (both.mem_iff.mpr member)
  · exact fun n member => inv.proper n (both.mem_iff.mpr member)
  · exact fun l member => inv.used l (same.mem_iff.mpr member)
  · exact fun n nIn l member => inv.apart n nIn l (same.mem_iff.mpr member)
  · exact (same.pairwise_iff fun apart => apart.symm).mp inv.liveApart
  · rw [← (same.map Block.units).sum_nat]
    exact inv.units

theorem frees (inv : Inv base heap nodes (b :: live)) (enough : nodes.length ≤ fuel) :
    ∃ next nodes', free fuel (b.addr + 8) heap = some next ∧ Inv base next nodes' live ∧
      Kept live heap next ∧ nodes'.length ≤ nodes.length + 1 ∧ (∃ n ∈ nodes', b.units ≤ n.units) := by
  obtain ⟨before, p, after, placed⟩ := inv.placed
  obtain ⟨m, rest, absorbs, frame, sizeB, ptrB, path⟩ := inv.joins_next placed
  obtain ⟨outer, nodes', freed, length, large⟩ :=
    inv.joins_previous placed absorbs frame sizeB ptrB path
  have bBounds := inv.bounds (show b ∈ nodes ++ b :: live by simp)
  have inside := inv.inside
  have own : (b.addr + 8 + SPACE - 8) % SPACE = b.addr := by
    have moved : b.addr + 8 + SPACE - 8 = b.addr + SPACE := by omega
    rw [moved, Nat.add_mod_right, Nat.mod_eq_of_lt (by omega)]
  refine ⟨_, nodes', ?_, freed, ?_, length, large⟩
  · simp only [free, own, inv.finds placed enough, Option.map_some]
  · intro l member a low high
    have pIn : p ∈ nodes := by simp [placed.nodes]
    have same := outer a (inv.outside (mem_cons_of_mem b member) low high pIn)
      (inv.outside_live member low high)
    simpa only using same

theorem begins (fresh : heap.freep = 0) (none : heap.granted = 0) (nonnull : 0 < base)
    (above : base + 8 ≤ heap.brk) (inside : heap.brk < SPACE) :
    Inv base (begin base heap) [⟨base, 0⟩] [] := by
  have begun : begin base heap =
      { heap with memory := setSize (setPtr heap.memory base base) base 0, freep := base } := by
    simp only [begin, fresh, ↓reduceIte]
  have fits : base + 8 ≤ SPACE := by omega
  rw [begun]
  refine ⟨rfl, ⟨?_, trivial⟩, by simp, ?_, List.pairwise_singleton _ _, ?_, ?_, ?_, .nil, nonnull,
    above, inside, by simp [none]⟩
  · simp only
    rw [ptr_setSize (.inl rfl), ptr_setPtr_self fits (by omega)]
    rfl
  · intro b member
    rw [List.append_nil, mem_singleton] at member
    subst member
    exact size_setSize_self fits (by decide)
  · intro b member different
    rw [List.append_nil, mem_singleton] at member
    exact absurd member different
  · intro b member
    cases member
  · intro a _ b member
    cases member

/-- A new region above everything is one more live block. -/
theorem extend (inv : Inv base heap nodes live) (positive : 0 < units) (fresh : heap.brk ≤ p)
    (inside : p + 8 * units < SPACE) :
    Inv base
      { heap with
        memory := setSize heap.memory p units
        brk := p + 8 * units
        granted := heap.granted + 8 * units } nodes (⟨p, units⟩ :: live) ∧
    ∀ a, a < heap.brk → byte (setSize heap.memory p units) a = byte heap.memory a := by
  have frame : Frame p heap.memory (setSize heap.memory p units) := frame_setSize units
  have clear : ∀ b ∈ nodes ++ live, Clear p b.addr := by
    intro b member
    have bounds := inv.bounds member
    exact .inr (by omega)
  have inOld : ∀ b ∈ nodes ++ ⟨p, units⟩ :: live, b = ⟨p, units⟩ ∨ b ∈ nodes ++ live := by
    intro b member
    rcases mem_append.mp member with inNodes | inLive
    · exact .inr (mem_append_left live inNodes)
    rcases mem_cons.mp inLive with new | old
    · exact .inl new
    · exact .inr (mem_append_right nodes old)
  have above := inv.above
  refine ⟨⟨inv.first, ?_, inv.freep, ?_, inv.sorted, ?_, ?_, ?_, ?_, inv.nonnull, ?_, inside, ?_⟩, ?_⟩
  · refine inv.ring.congr ?_
    intro node member
    obtain ⟨n, nIn, rfl⟩ := mem_map.mp member
    exact frame.ptr (clear n (mem_append_left live nIn))
  · intro b member
    rcases inOld b member with rfl | old
    · exact size_setSize_self (by omega) (by omega)
    · exact (frame.size (clear b old)).trans (inv.sizes b old)
  · intro b member different
    rcases inOld b member with rfl | old
    · exact ⟨positive, by simp only; omega, Nat.le_refl _⟩
    · obtain ⟨units, low, high⟩ := inv.proper b old different
      exact ⟨units, low, by simp only; omega⟩
  · intro b member
    rcases mem_cons.mp member with rfl | old
    · intro isBase
      cases isBase
      omega
    · exact inv.used b old
  · intro n nIn b member
    rcases mem_cons.mp member with rfl | old
    · have bounds := inv.bounds (mem_append_left live nIn)
      exact .inl (by simp only; omega)
    · exact inv.apart n nIn b old
  · refine pairwise_cons.mpr ⟨?_, inv.liveApart⟩
    intro b member
    have bounds := inv.bounds (mem_append_right nodes member)
    exact .inr (by simp only; omega)
  · simp only
    omega
  · have total := inv.units
    simp only [map_cons, sum_cons]
    omega
  · intro a below
    exact frame a (.inl (by omega))

theorem takes_whole (inv : Inv base heap nodes live) {q : Block}
    (nodesEq : nodes = before ++ q :: n :: after) (positive : 0 < n.units) :
    Inv base
      { heap with
        memory := setPtr heap.memory q.addr (ptr heap.memory n.addr)
        freep := q.addr } (before ++ q :: after) (n :: live) := by
  have qIn : q ∈ nodes := by simp [nodesEq]
  have nIn : n ∈ nodes := by simp [nodesEq]
  have remaining : ∀ a ∈ before ++ q :: after, a ∈ nodes := by
    intro a member
    rw [nodesEq]
    rcases mem_append.mp member with front | back
    · exact mem_append_left _ front
    rcases mem_cons.mp back with rfl | back
    · simp
    · simp [back]
  have notBase : n ≠ ⟨base, 0⟩ := by
    rintro rfl
    exact Nat.lt_irrefl 0 positive
  have nodesEq' : nodes = (before ++ [q]) ++ n :: after := by
    rw [nodesEq, List.append_assoc, List.singleton_append]
  obtain ⟨qEarlier, qLater⟩ := inv.split nodesEq
  obtain ⟨nEarlier, nLater⟩ := inv.split nodesEq'
  have qBounds := inv.bounds (mem_append_left live qIn)
  have inside := inv.inside
  have inOld : ∀ b ∈ (before ++ q :: after) ++ n :: live, b ∈ nodes ++ live := by
    intro b member
    rcases mem_append.mp member with free | used
    · exact mem_append_left live (remaining b free)
    rcases mem_cons.mp used with rfl | used
    · exact mem_append_left live nIn
    · exact mem_append_right nodes used
  refine ⟨?_, ?_, ?_, ?_, ?_, ?_, ?_, ?_, ?_, inv.nonnull, inv.above, inv.inside, ?_⟩
  · have first := inv.first
    rw [nodesEq] at first
    cases before with
    | nil | cons => exact first
  · have ring := inv.ring
    rw [nodesEq] at ring
    simp only [map_append, map_cons] at ring ⊢
    refine ring.remove (ptr_setPtr_self (by omega) (inv.next_lt nIn)) ?_
    intro node member
    refine ptr_setPtr_other ?_
    rcases mem_append.mp member with front | back
    · obtain ⟨a, aIn, rfl⟩ := mem_map.mp front
      exact .inr (qEarlier a aIn).2
    · obtain ⟨a, aIn, rfl⟩ := mem_map.mp back
      exact .inl (qLater a (by simp [aIn])).2
  · simp
  · intro b member
    have clear : q.addr = b.addr ∨ Clear q.addr b.addr := by
      rcases mem_append.mp (inOld b member) with free | used
      · rw [nodesEq] at free
        rcases mem_append.mp free with front | back
        · exact .inr (.inr (qEarlier b front).2)
        rcases mem_cons.mp back with rfl | back
        · exact .inl rfl
        · exact .inr (.inl (qLater b back).2)
      · exact .inr (inv.clear_live qIn used).symm
    exact (size_setPtr clear).trans (inv.sizes b (inOld b member))
  · have sorted := inv.sorted
    rw [nodesEq] at sorted
    exact sorted.sublist (List.Sublist.append_left
      ((List.sublist_cons_self n after).cons_cons q) before)
  · exact fun b member => inv.proper b (inOld b member)
  · intro b member
    rcases mem_cons.mp member with rfl | used
    · exact notBase
    · exact inv.used b used
  · intro a aIn b member
    rcases mem_cons.mp member with rfl | used
    · rcases mem_append.mp aIn with front | back
      · exact .inl (Nat.le_of_lt (nEarlier a (by simp [front])).1)
      rcases mem_cons.mp back with rfl | back
      · exact .inl (Nat.le_of_lt (nEarlier a (by simp)).1)
      · exact .inr (Nat.le_of_lt (nLater a back).1)
    · exact inv.apart a (remaining a aIn) b used
  · exact pairwise_cons.mpr ⟨fun b used => inv.apart n nIn b used, inv.liveApart⟩
  · have total := inv.units
    rw [nodesEq] at total
    simp only [map_append, map_cons, List.sum_append, sum_cons] at total ⊢
    omega

theorem takes_tail (inv : Inv base heap nodes live) {freep : Nat}
    (nodesEq : nodes = before ++ n :: after) (positive : 0 < units) (larger : units < n.units)
    (free : freep ∈ nodes.map Block.addr) :
    Inv base
      { heap with
        memory := setSize (setSize heap.memory n.addr (n.units - units))
          (n.addr + 8 * (n.units - units)) units
        freep } (before ++ ⟨n.addr, n.units - units⟩ :: after)
      (⟨n.addr + 8 * (n.units - units), units⟩ :: live) := by
  have nIn : n ∈ nodes := by simp [nodesEq]
  have nMember := mem_append_left live nIn
  have notBase : n ≠ ⟨base, 0⟩ := by
    rintro rfl
    exact Nat.not_lt_zero _ larger
  have proper := inv.proper n nMember notBase
  have inside := inv.inside
  obtain ⟨earlier, later⟩ := inv.split nodesEq
  generalize restEq : n.units - units = rest
  have parts : n.units = rest + units := by omega
  have stop : n.stop = n.addr + 8 * rest + 8 * units := by
    simp only [Block.stop]
    omega
  have newStop : (⟨n.addr + 8 * rest, units⟩ : Block).stop = n.stop := by
    simp only [Block.stop]
    omega
  have leftStop : (⟨n.addr, rest⟩ : Block).stop < n.stop := by
    simp only [Block.stop]
    omega
  have frame : ∀ a, a < n.addr ∨ n.stop ≤ a →
      byte (setSize (setSize heap.memory n.addr rest) (n.addr + 8 * rest) units) a =
        byte heap.memory a := by
    intro a outside
    exact (frame_setSize units a (by omega)).trans (frame_setSize rest a (by omega))
  -- The other blocks are outside the block.
  have others : ∀ b ∈ (before ++ after) ++ live, b.addr + 8 ≤ n.addr ∨ n.stop ≤ b.addr := by
    intro b member
    rcases mem_append.mp member with free | used
    · rcases mem_append.mp free with front | back
      · exact .inl (earlier b front).2
      · exact .inr (Nat.le_of_lt (later b back).1)
    have bProper := inv.proper b (mem_append_right nodes used) (inv.used b used)
    rcases inv.apart n nIn b used with beyond | under
    · exact .inr beyond
    refine .inl ?_
    simp only [Block.stop] at under
    omega
  have oldIn : ∀ b ∈ (before ++ after) ++ live, b ∈ nodes ++ live := by
    intro b member
    rw [nodesEq]
    rcases mem_append.mp member with free | used
    · rcases mem_append.mp free with front | back
      · simp [front]
      · simp [back]
    · simp [used]
  have cases : ∀ b ∈ (before ++ ⟨n.addr, rest⟩ :: after) ++ ⟨n.addr + 8 * rest, units⟩ :: live,
      b = ⟨n.addr, rest⟩ ∨ b = ⟨n.addr + 8 * rest, units⟩ ∨ b ∈ (before ++ after) ++ live := by
    intro b member
    simp only [mem_append, mem_cons] at member ⊢
    tauto
  have sizeLeft : size (setSize (setSize heap.memory n.addr rest) (n.addr + 8 * rest) units)
      n.addr = rest := by
    rw [size_setSize_other (.inr (by omega)), size_setSize_self (by omega) (by omega)]
  refine ⟨?_, ?_, ?_, ?_, ?_, ?_, ?_, ?_, ?_, inv.nonnull, inv.above, inv.inside, ?_⟩
  · have first := inv.first
    rw [nodesEq] at first
    cases before with
    | nil => exact absurd (Option.some.inj first) notBase
    | cons => exact first
  · have ring := inv.ring
    rw [nodesEq] at ring
    simp only [map_append, map_cons] at ring ⊢
    refine ring.congr ?_
    intro node member
    have clear : node = n.addr ∨ node + 8 ≤ n.addr ∨ n.stop ≤ node := by
      rcases mem_append.mp member with front | back
      · obtain ⟨a, aIn, rfl⟩ := mem_map.mp front
        exact .inr (others a (by simp [aIn]))
      rcases mem_cons.mp back with same | back
      · exact .inl same
      · obtain ⟨a, aIn, rfl⟩ := mem_map.mp back
        exact .inr (others a (by simp [aIn]))
    rw [ptr_setSize, ptr_setSize]
    · unfold Clear
      omega
    · unfold Clear
      omega
  · rw [nodesEq] at free
    simpa using free
  · intro b member
    rcases cases b member with rfl | rfl | old
    · exact sizeLeft
    · exact size_setSize_self (by omega) (by omega)
    have far := others b old
    have same : size (setSize (setSize heap.memory n.addr rest) (n.addr + 8 * rest) units)
        b.addr = size heap.memory b.addr :=
      load_congr _ _ fun a low high => frame a (by omega)
    exact same.trans (inv.sizes b (oldIn b old))
  · have sorted := inv.sorted
    rw [nodesEq, List.pairwise_append, pairwise_cons] at sorted
    refine List.pairwise_append.mpr ⟨sorted.1, pairwise_cons.mpr ⟨?_, sorted.2.1.2⟩, ?_⟩
    · intro a aIn
      exact Nat.lt_trans leftStop (later a aIn).1
    · intro a aIn b bIn
      rcases mem_cons.mp bIn with rfl | back
      · exact (earlier a aIn).1
      · exact sorted.2.2 a aIn b (mem_cons_of_mem n back)
  · intro b member different
    rcases cases b member with rfl | rfl | old
    · exact ⟨by simp only; omega, proper.2.1, by simp only; omega⟩
    · exact ⟨positive, by simp only; omega, by simp only; omega⟩
    · exact inv.proper b (oldIn b old) different
  · intro b member
    rcases mem_cons.mp member with rfl | used
    · intro isBase
      cases isBase
      exact Nat.lt_irrefl 0 positive
    · exact inv.used b used
  · intro a aIn b member
    have aCases : a = ⟨n.addr, rest⟩ ∨ a ∈ before ++ after := by
      simp only [mem_append, mem_cons] at aIn ⊢
      tauto
    rcases mem_cons.mp member with rfl | used
    · rcases aCases with rfl | old
      · exact .inl (Nat.le_refl _)
      rcases mem_append.mp old with front | back
      · have below := (earlier a front).1
        exact .inl (by simp only; omega)
      · have beyond := (later a back).1
        exact .inr (by omega)
    rcases aCases with rfl | old
    · have apart := inv.apart n nIn b used
      simp only [Block.Apart] at apart ⊢
      omega
    have aNodes : a ∈ nodes := by
      rw [nodesEq]
      rcases mem_append.mp old with front | back
      · simp [front]
      · simp [back]
    exact inv.apart a aNodes b used
  · refine pairwise_cons.mpr ⟨?_, inv.liveApart⟩
    intro b used
    have apart := inv.apart n nIn b used
    simp only [Block.Apart, newStop] at apart ⊢
    omega
  · have total := inv.units
    rw [nodesEq] at total
    simp only [map_append, map_cons, List.sum_append, sum_cons] at total ⊢
    omega

end Inv

variable {todo : List Nat} {prevp : Nat}

section

variable {sbrk : Nat → Option Nat} {nunits : Nat} {heap : Heap}

/-- What `malloc` returns when it has found a block. -/
def found (heap : Heap) (nunits prevp p : Nat) : Nat × Heap :=
  let carved := carve heap.memory prevp p nunits
  (add carved.1 1, { heap with memory := carved.2, freep := prevp })

variable {fuel : Nat}

theorem mallocLoop_found (large : nunits ≤ size heap.memory p) :
    mallocLoop sbrk nunits (fuel + 1) prevp p heap = some (found heap nunits prevp p) := by
  simp only [mallocLoop, ge_iff_le, large, ↓reduceIte, found]

theorem mallocLoop_next (small : ¬ nunits ≤ size heap.memory p) (other : p ≠ heap.freep) :
    mallocLoop sbrk nunits (fuel + 1) prevp p heap =
      mallocLoop sbrk nunits fuel p (ptr heap.memory p) heap := by
  simp only [mallocLoop, ge_iff_le, small, ↓reduceIte, other]

/-- The loop of `malloc` stops at a block that is large enough. -/
theorem mallocLoop_finds {last : Nat} : ∀ {prevp fuel : Nat},
    Circle.Path (ptr heap.memory) (prevp :: todo) last →
    (∃ p ∈ todo ++ [last], nunits ≤ size heap.memory p) → (∀ p ∈ todo, p ≠ heap.freep) →
    todo.length < fuel →
    ∃ q ∈ prevp :: todo, ∃ p ∈ todo ++ [last], ptr heap.memory q = p ∧
      nunits ≤ size heap.memory p ∧
      mallocLoop sbrk nunits fuel prevp (ptr heap.memory prevp) heap =
        some (found heap nunits q p) := by
  induction todo with
  | nil =>
    intro prevp fuel path some_ _ short
    obtain ⟨p, member, large⟩ := some_
    obtain ⟨fuel, rfl⟩ := Nat.exists_eq_succ_of_ne_zero (Nat.ne_zero_of_lt short)
    have only : ptr heap.memory prevp = p := path.1.trans (mem_singleton.mp member).symm
    refine ⟨prevp, mem_cons_self, p, member, only, large, ?_⟩
    rw [only]
    exact mallocLoop_found large
  | cons first todo ih =>
    intro prevp fuel path some_ others short
    obtain ⟨fuel, rfl⟩ := Nat.exists_eq_succ_of_ne_zero (Nat.ne_zero_of_lt short)
    have leads : ptr heap.memory prevp = first := path.1
    rw [leads]
    by_cases large : nunits ≤ size heap.memory first
    · exact ⟨prevp, mem_cons_self, first, mem_cons_self, leads, large, mallocLoop_found large⟩
    have later : ∃ p ∈ todo ++ [last], nunits ≤ size heap.memory p := by
      obtain ⟨p, member, holds⟩ := some_
      rcases mem_cons.mp member with rfl | inRest
      · exact absurd holds large
      · exact ⟨p, inRest, holds⟩
    have rest : ∀ p ∈ todo, p ≠ heap.freep := fun p member =>
      others p (mem_cons_of_mem first member)
    obtain ⟨q, qIn, p, pIn, next, enough, ran⟩ :=
      ih path.2 later rest (Nat.lt_of_succ_lt_succ short)
    refine ⟨q, mem_cons_of_mem prevp qIn, p, mem_cons_of_mem first pIn, next, enough, ?_⟩
    rw [mallocLoop_next large (others first mem_cons_self)]
    exact ran

/-- The loop of `malloc` asks for more memory once it is back at `freep`. -/
theorem mallocLoop_asks (fuel : Nat) : ∀ {prevp : Nat},
    Circle.Path (ptr heap.memory) (prevp :: todo) heap.freep →
    (∀ p ∈ todo ++ [heap.freep], ¬ nunits ≤ size heap.memory p) →
    (∀ p ∈ todo, p ≠ heap.freep) →
    mallocLoop sbrk nunits (fuel + 1 + todo.length) prevp (ptr heap.memory prevp) heap =
      (morecore sbrk fuel nunits heap).bind fun got =>
        if got.1 = 0 then some (0, got.2)
        else mallocLoop sbrk nunits fuel got.1 (ptr got.2.memory got.1) got.2 := by
  induction todo with
  | nil =>
    intro prevp path small _
    have leads : ptr heap.memory prevp = heap.freep := path.1
    have none := small heap.freep (by simp)
    rw [leads]
    simp only [List.length_nil, Nat.add_zero, mallocLoop, ge_iff_le, none, ↓reduceIte]
  | cons first todo ih =>
    intro prevp path small others
    have leads : ptr heap.memory prevp = first := path.1
    rw [leads, length_cons, ← Nat.add_assoc,
      mallocLoop_next (small first (by simp)) (others first mem_cons_self)]
    refine ih path.2 ?_ ?_
    · exact fun p member => small p (by simpa using Or.inr (by simpa using member))
    · exact fun p member => others p (mem_cons_of_mem first member)

end

namespace Inv

variable {base : Nat} {heap : Heap} {nodes live : List Block}

section

variable (inv : Inv base heap nodes live)
include inv

theorem distinct : (nodes.map Block.addr).Nodup := by
  refine List.pairwise_map.mpr (inv.sorted.imp ?_)
  intro a b before same
  simp only [Block.stop] at before
  omega

theorem begins_with : nodes.map Block.addr = base :: nodes.tail.map Block.addr := by
  rw [← List.cons_head?_tail inv.first]
  rfl

theorem around :
    ∃ others, Circle.Path (ptr heap.memory) (heap.freep :: others) heap.freep ∧
      (heap.freep :: others).Perm (nodes.map Block.addr) ∧ ∀ p ∈ others, p ≠ heap.freep := by
  have circle : Circle.Holds (ptr heap.memory) base (nodes.tail.map Block.addr) := by
    have ring := inv.ring
    rw [inv.begins_with] at ring
    exact ring
  have member := inv.freep
  rw [inv.begins_with] at member
  obtain ⟨others, turned, perm⟩ := circle.startAt member
  rw [← inv.begins_with] at perm
  refine ⟨others, turned, perm, ?_⟩
  rintro p inOthers rfl
  exact (List.nodup_cons.mp (perm.nodup_iff.mpr inv.distinct)).1 inOthers

/-- `malloc` takes a block that is large enough, or its tail. -/
theorem takes {nunits q : Nat} (positive : 0 < nunits) (large : nunits ≤ n.units)
    (nIn : n ∈ nodes) (qIn : q ∈ nodes.map Block.addr) (leads : ptr heap.memory q = n.addr) :
    ∃ b nodes', b.units = nunits ∧ (found heap nunits q n.addr).1 = b.addr + 8 ∧
      Inv base (found heap nunits q n.addr).2 nodes' (b :: live) ∧
      Kept live heap (found heap nunits q n.addr).2 := by
  have nMember := mem_append_left live nIn
  have inside := inv.inside
  have units := inv.sizes n nMember
  have notBase : n ≠ ⟨base, 0⟩ := by
    rintro rfl
    exact absurd (Nat.lt_of_lt_of_le positive large) (Nat.lt_irrefl 0)
  have proper := inv.proper n nMember notBase
  obtain ⟨front, after, nodesEq⟩ := List.append_of_mem nIn
  by_cases whole : n.units = nunits
  · -- The block before it in the list is the one whose pointer leads to it.
    have carved : carve heap.memory q n.addr nunits =
        (n.addr, setPtr heap.memory q (ptr heap.memory n.addr)) := by
      simp only [carve, units, whole, ↓reduceIte]
    obtain ⟨before, p, rfl⟩ : ∃ before p, front = before ++ [p] := by
      rcases List.eq_nil_or_concat front with empty | ⟨before, p, concat⟩
      · have first := inv.first
        rw [nodesEq, empty] at first
        exact absurd (Option.some.inj first) notBase
      · exact ⟨before, p, concat.trans List.concat_eq_append⟩
    have nodesEq' : nodes = before ++ p :: n :: after := by
      rw [nodesEq, List.append_assoc, List.singleton_append]
    have pIn : p ∈ nodes := by simp [nodesEq']
    have same : q = p.addr := by
      have circle : Circle.Holds (ptr heap.memory) base (nodes.tail.map Block.addr) := by
        have ring := inv.ring
        rw [inv.begins_with] at ring
        exact ring
      refine circle.injective (inv.begins_with ▸ inv.distinct) (inv.begins_with ▸ qIn)
        (inv.begins_with ▸ List.mem_map_of_mem pIn) ?_
      rw [leads, inv.next nodesEq']
      rfl
    subst same
    have taken := inv.takes_whole nodesEq' proper.1
    refine ⟨n, before ++ p :: after, whole, ?_, ?_, ?_⟩
    · simp only [found, carved, add]
      exact Nat.mod_eq_of_lt (by have := inv.bounds nMember; omega)
    · simp only [found, carved]
      exact taken
    · intro l lIn a low high
      simp only [found, carved]
      exact frame_setPtr _ a (inv.outside lIn low high pIn)
  · have larger : nunits < n.units := by omega
    have left : size (setSize heap.memory n.addr (n.units - nunits)) n.addr = n.units - nunits := by
      have bounds := inv.bounds nMember
      simp only [Block.stop] at bounds
      exact size_setSize_self (by omega) (by omega)
    have stop : n.stop ≤ heap.brk := (inv.bounds nMember).2.2
    have tail : add n.addr (n.units - nunits) = n.addr + 8 * (n.units - nunits) := by
      simp only [Block.stop] at stop
      exact Nat.mod_eq_of_lt (by omega)
    have carved : carve heap.memory q n.addr nunits =
        (n.addr + 8 * (n.units - nunits),
          setSize (setSize heap.memory n.addr (n.units - nunits))
            (n.addr + 8 * (n.units - nunits)) nunits) := by
      simp only [carve, units, whole, ↓reduceIte, left, tail]
    have taken := inv.takes_tail nodesEq positive larger qIn
    refine ⟨⟨n.addr + 8 * (n.units - nunits), nunits⟩,
      front ++ ⟨n.addr, n.units - nunits⟩ :: after, rfl, ?_, ?_, ?_⟩
    · simp only [found, carved, add]
      simp only [Block.stop] at stop
      exact Nat.mod_eq_of_lt (by omega)
    · simp only [found, carved]
      exact taken
    · intro l lIn a low high
      have apart := inv.apart n nIn l lIn
      simp only [found, carved]
      simp only [Block.Apart, Block.stop] at apart high
      exact (frame_setSize _ a (by omega)).trans (frame_setSize _ a (by omega))

end

/-- What a returned call of `malloc` has done. -/
def Mallocs (base : Nat) (live : List Block) (nunits : Nat) (heap : Heap) (got : Nat × Heap) : Prop :=
  Kept live heap got.2 ∧
    ((got.1 = 0 ∧ ∃ nodes', Inv base got.2 nodes' live) ∨
      ∃ b nodes', got.1 = b.addr + 8 ∧ b.units = nunits ∧ Inv base got.2 nodes' (b :: live))

variable {sbrk : Nat → Option Nat} (inv : Inv base heap nodes live) {nunits fuel : Nat}
  (positive : 0 < nunits)
include inv positive

/-- The loop of `malloc` serves a request that a free block is large enough for. -/
theorem mallocs_free (large : ∃ n ∈ nodes, nunits ≤ n.units) (enough : nodes.length ≤ fuel) :
    ∃ got, mallocLoop sbrk nunits fuel heap.freep (ptr heap.memory heap.freep) heap = some got ∧
      Mallocs base live nunits heap got := by
  obtain ⟨others, path, perm, rest⟩ := inv.around
  have members : ∀ p, p ∈ others ++ [heap.freep] ↔ p ∈ nodes.map Block.addr := by
    intro p
    rw [← perm.mem_iff, mem_append, mem_singleton, mem_cons, or_comm]
  have sizes : ∀ n ∈ nodes, size heap.memory n.addr = n.units := fun n nIn =>
    inv.sizes n (mem_append_left live nIn)
  have length : others.length < fuel := by
    have lengths := perm.length_eq
    rw [length_cons, List.length_map] at lengths
    omega
  have some_ : ∃ p ∈ others ++ [heap.freep], nunits ≤ size heap.memory p := by
    obtain ⟨n, nIn, holds⟩ := large
    refine ⟨n.addr, (members _).mpr (List.mem_map_of_mem nIn), ?_⟩
    rw [sizes n nIn]
    exact holds
  obtain ⟨q, qIn, p, pIn, leads, holds, ran⟩ := mallocLoop_finds path some_ rest length
  obtain ⟨n, nIn, rfl⟩ := mem_map.mp ((members p).mp pIn)
  rw [sizes n nIn] at holds
  obtain ⟨b, nodes', units, result, after, kept⟩ :=
    inv.takes positive holds nIn (perm.mem_iff.mp qIn) leads
  exact ⟨_, ran, kept, .inr ⟨b, nodes', result, units, after⟩⟩

/-- The loop of `malloc` comes to an end, whether there is a free block that is large enough,
or `sbrk` gives more memory, or it does not. -/
theorem mallocs (moderate : 8 * nunits < SPACE)
    (honest : ∀ bytes p, sbrk bytes = some p → heap.brk ≤ p ∧ p + bytes < SPACE)
    (enough : 2 * nodes.length + 1 ≤ fuel) :
    ∃ got, mallocLoop sbrk nunits fuel heap.freep (ptr heap.memory heap.freep) heap = some got ∧
      Mallocs base live nunits heap got := by
  by_cases large : ∃ n ∈ nodes, nunits ≤ n.units
  · exact inv.mallocs_free positive large (by omega)
  obtain ⟨others, path, perm, rest⟩ := inv.around
  have lengths := perm.length_eq
  rw [length_cons, List.length_map] at lengths
  have small : ∀ p ∈ others ++ [heap.freep], ¬ nunits ≤ size heap.memory p := by
    intro p member holds
    have inRing : p ∈ nodes.map Block.addr := by
      rw [← perm.mem_iff]
      simpa [or_comm] using member
    obtain ⟨n, nIn, rfl⟩ := mem_map.mp inRing
    rw [inv.sizes n (mem_append_left live nIn)] at holds
    exact large ⟨n, nIn, holds⟩
  obtain ⟨left, split⟩ : ∃ left, fuel = left + 1 + others.length := ⟨fuel - 1 - others.length, by omega⟩
  rw [split, mallocLoop_asks left path small rest]
  generalize unitsEq : (if nunits < 4096 then 4096 else nunits) = nu
  have bounds : 0 < nu ∧ nunits ≤ nu ∧ 8 * nu < SPACE := by
    rw [← unitsEq]
    split
    · refine ⟨by omega, by omega, by decide⟩
    · exact ⟨positive, Nat.le_refl _, moderate⟩
  have bytes : nu * 8 % SPACE = 8 * nu := by
    rw [Nat.mul_comm]
    exact Nat.mod_eq_of_lt bounds.2.2
  cases answer : sbrk (8 * nu) with
  | none =>
    have asked : morecore sbrk left nunits heap = some (0, heap) := by
      simp only [morecore, unitsEq, bytes, answer]
    rw [asked]
    exact ⟨(0, heap), rfl, fun _ _ _ _ _ => rfl, .inl ⟨rfl, nodes, inv⟩⟩
  | some p =>
    obtain ⟨fresh, fits⟩ := honest _ p answer
    obtain ⟨extended, same⟩ := inv.extend bounds.1 fresh fits
    obtain ⟨next, nodes', freed, after, kept, length, n, nIn, holds⟩ :=
      extended.frees (show nodes.length ≤ left by omega)
    have start : add p 1 = p + 8 := by
      have eight : p + 8 * 1 < SPACE := by omega
      exact Nat.mod_eq_of_lt eight
    have asked : morecore sbrk left nunits heap = some (next.freep, next) := by
      simp only [morecore, unitsEq, bytes, answer, start]
      rw [freed]
      rfl
    have nonnull : next.freep ≠ 0 := by
      obtain ⟨m, mIn, atFreep⟩ := mem_map.mp after.freep
      have low := (after.bounds (mem_append_left live mIn)).1
      have positive := after.nonnull
      omega
    have keptBefore : Kept live heap next := by
      intro l lIn a low high
      have below := (inv.bounds (mem_append_right nodes lIn)).2.2
      exact (kept l lIn a low high).trans (same a (by omega))
    rw [asked]
    simp only [Option.bind_some, nonnull, ↓reduceIte]
    obtain ⟨got, ran, served, result⟩ := after.mallocs_free positive
      ⟨n, nIn, Nat.le_trans bounds.2.1 holds⟩ (show nodes'.length ≤ left by omega)
    exact ⟨got, ran, keptBefore.trans served, result⟩

end Inv

section

variable {sbrk : Nat → Option Nat} {fuel : Nat} {heap : Heap}

theorem free_mono {ap : Nat} (more : Nat) (ran : free fuel ap heap = some next) :
    free (fuel + more) ap heap = some next := by
  obtain ⟨p, found, rfl⟩ := Option.map_eq_some_iff.mp ran
  simp only [free, Circle.walk_mono more found, Option.map_some]

theorem morecore_mono {nu : Nat} {got : Nat × Heap} (more : Nat)
    (ran : morecore sbrk fuel nu heap = some got) :
    morecore sbrk (fuel + more) nu heap = some got := by
  simp only [morecore] at ran ⊢
  split
  · rename_i none
    simpa only [none] using ran
  rename_i p answer
  simp only [answer] at ran
  obtain ⟨next, freed, rfl⟩ := Option.map_eq_some_iff.mp ran
  simp only [free_mono more freed, Option.map_some]

theorem mallocLoop_mono {nunits : Nat} (more : Nat) : ∀ {fuel prevp p : Nat} {heap : Heap}
    {got : Nat × Heap}, mallocLoop sbrk nunits fuel prevp p heap = some got →
    mallocLoop sbrk nunits (fuel + more) prevp p heap = some got := by
  intro fuel
  induction fuel with
  | zero =>
    intro prevp p heap got ran
    cases ran
  | succ fuel ih =>
    intro prevp p heap got ran
    rw [Nat.succ_add]
    by_cases large : nunits ≤ size heap.memory p
    · rw [mallocLoop_found large] at ran ⊢
      exact ran
    by_cases round : p = heap.freep
    · subst round
      simp only [mallocLoop, ge_iff_le, large, ↓reduceIte] at ran ⊢
      obtain ⟨asked, answered, continues⟩ := Option.bind_eq_some_iff.mp ran
      rw [morecore_mono more answered, Option.bind_some]
      by_cases none : asked.1 = 0
      · simpa only [none, ↓reduceIte] using continues
      · simp only [none, ↓reduceIte] at continues ⊢
        exact ih continues
    · rw [mallocLoop_next large round] at ran ⊢
      exact ih ran

end

end RtXv6.Umalloc
