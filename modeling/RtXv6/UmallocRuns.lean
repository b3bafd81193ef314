import RtXv6.UmallocCalls

/-!
# Runs of a program with a heap

Every call of `malloc` and `free` returns, and leaves a heap whose free list is circular,
ordered and without adjacent blocks. What the program stores into an allocation stays there
until the program frees it.

`morecore` computes the number of bytes that it asks for as a `uint`. A request whose units
are 4294967296 bytes gets a block that `sbrk` never gave; all smaller ones are served as they
should be.
-/

namespace RtXv6.Umalloc

open Bytes

/-- The block of an allocation. -/
def Alloc.block (alloc : Alloc) : Block := ⟨alloc.ptr - 8, nunits alloc.nbytes⟩

/-- The request needs fewer than 4294967296 bytes, with its header. -/
def Event.Moderate : Event → Prop
  | .malloc _ _ nbytes => nbytes + 16 ≤ SPACE
  | _ => True

/-- The sum in the computation of the units does not wrap. -/
def Event.Unwrapped : Event → Prop
  | .malloc _ _ nbytes => nbytes + 8 - 1 < SPACE
  | _ => True

theorem nunits_spec {nbytes : Nat} (moderate : nbytes + 16 ≤ SPACE) :
    0 < nunits nbytes ∧ 8 * nunits nbytes < SPACE ∧ nbytes + 8 ≤ 8 * nunits nbytes := by
  have first : (nbytes + 8 - 1) % SPACE = nbytes + 7 := Nat.mod_eq_of_lt (by omega)
  have second : ((nbytes + 7) / 8 + 1) % SPACE = (nbytes + 7) / 8 + 1 :=
    Nat.mod_eq_of_lt (by omega)
  rw [nunits, first, second]
  omega

/-- The heap of a program: its blocks, the room in its allocations, and what it stored there. -/
structure Sound (base : Nat) (w : World) (nodes : List Block) : Prop where
  blocks : Inv base w.heap nodes (w.live.map Alloc.block)
  usable : ∀ alloc ∈ w.live, alloc.block.addr + 8 = alloc.ptr ∧
    alloc.ptr + alloc.nbytes ≤ alloc.block.stop
  contents : ∀ alloc ∈ w.live, ∀ a, alloc.ptr ≤ a → a < alloc.ptr + alloc.nbytes →
    ∀ value, w.stored a = some value → byte w.heap.memory a = value

namespace Sound

variable {base : Nat} {w : World} {nodes : List Block}

variable {alloc : Alloc} {a : Nat}

section

variable (sound : Sound base w nodes)
include sound

theorem within (member : alloc ∈ w.live) (low : alloc.ptr ≤ a)
    (high : a < alloc.ptr + alloc.nbytes) : alloc.block.addr + 8 ≤ a ∧ a < alloc.block.stop := by
  obtain ⟨start, room⟩ := sound.usable alloc member
  omega

theorem front (member : alloc ∈ w.live) :
    Inv base w.heap nodes (alloc.block :: (w.live.erase alloc).map Alloc.block) :=
  sound.blocks.perm ((List.perm_cons_erase member).map Alloc.block)

/-- Memory whose bytes in the allocations stay keeps what is stored there. -/
theorem keeps {live : List Alloc} {next : Heap} (subset : ∀ alloc ∈ live, alloc ∈ w.live)
    (kept : Kept (live.map Alloc.block) w.heap next) (member : alloc ∈ live) (low : alloc.ptr ≤ a)
    (high : a < alloc.ptr + alloc.nbytes) {value : UInt8} (stored : w.stored a = some value) :
    byte next.memory a = value := by
  have inside := sound.within (subset alloc member) low high
  rw [kept alloc.block (List.mem_map_of_mem member) a (by omega) inside.2]
  exact sound.contents alloc (subset alloc member) a low high value stored

theorem frees (member : alloc ∈ w.live) {fuel : Nat} (enough : nodes.length ≤ fuel) :
    ∃ next nodes', w.take base (.free fuel alloc) = some next ∧ Sound base next nodes' := by
  have front := sound.front member
  obtain ⟨next, nodes', ran, after, kept, _, _⟩ := front.frees enough
  have start := (sound.usable alloc member).1
  rw [start] at ran
  refine ⟨{ w with heap := next, live := w.live.erase alloc }, nodes', ?_, after, ?_, ?_⟩
  · simp only [World.take, ran, Option.map_some]
  · exact fun other inRest => sound.usable other (List.mem_of_mem_erase inRest)
  · intro other inRest a low high value stored
    exact sound.keeps (fun other => List.mem_of_mem_erase) kept inRest low high stored

theorem stores (member : alloc ∈ w.live) (low : alloc.ptr ≤ a)
    (high : a < alloc.ptr + alloc.nbytes) (value : UInt8) :
    ∃ next, w.take base (.store alloc a value) = some next ∧ Sound base next nodes := by
  have inside := sound.within member low high
  have front := sound.front member
  have alone : ∀ b ∈ nodes ++ w.live.map Alloc.block, a < b.addr ∨ b.addr + 8 ≤ a := by
    intro b bIn
    rcases List.mem_append.mp bIn with free | live
    · exact sound.blocks.outside (List.mem_map_of_mem member) (by omega) inside.2 free
    have positive := (sound.blocks.proper b bIn (sound.blocks.used b live)).1
    rw [((List.perm_cons_erase member).map Alloc.block).mem_iff] at live
    rcases List.mem_cons.mp live with rfl | other
    · omega
    have apart := (List.pairwise_cons.mp front.liveApart).1 b other
    simp only [Block.Apart, Block.stop] at apart inside
    omega
  have bytes : ∀ other, other ≠ a →
      byte (setByte w.heap.memory a value) other = byte w.heap.memory other := by
    intro other different
    rw [byte_setByte, if_neg fun same => different same.1]
  refine ⟨_, rfl, ?_, sound.usable, ?_⟩
  · refine { sound.blocks with ring := ?_, sizes := ?_ }
    · refine sound.blocks.ring.congr ?_
      intro node inRing
      obtain ⟨n, nIn, rfl⟩ := List.mem_map.mp inRing
      have outside := alone n (List.mem_append_left _ nIn)
      exact load_congr _ _ fun index from_ until_ => bytes index (by omega)
    · intro b bIn
      have outside := alone b bIn
      have same : size (setByte w.heap.memory a value) b.addr = size w.heap.memory b.addr :=
        load_congr _ _ fun index from_ until_ => bytes index (by omega)
      exact same.trans (sound.blocks.sizes b bIn)
  · intro other otherIn index from_ until_ byte_ stored
    by_cases same : index = a
    · subst same
      have bound := (sound.blocks.bounds (List.mem_append_right nodes
        (List.mem_map_of_mem member))).2.2
      have limit := sound.blocks.inside
      simp only [Function.update_self, Option.some.injEq] at stored
      simp only [byte_setByte, stored]
      exact if_pos ⟨trivial, by omega⟩
    · simp only [Function.update_of_ne same] at stored
      exact (bytes index same).trans (sound.contents other otherIn index from_ until_ byte_ stored)

end

/-- `malloc` returns and keeps everything, from the heap that it has begun with. -/
theorem mallocs (begun : Sound base { w with heap := begin base w.heap } nodes)
    {sbrk : Nat → Option Nat} {fuel nbytes : Nat} (moderate : nbytes + 16 ≤ SPACE)
    (honest : ∀ bytes p, sbrk bytes = some p → w.heap.brk ≤ p ∧ p + bytes < SPACE)
    (enough : 2 * nodes.length + 1 ≤ fuel) :
    ∃ next nodes', w.take base (.malloc sbrk fuel nbytes) = some next ∧ Sound base next nodes' := by
  obtain ⟨positive, small, room⟩ := nunits_spec moderate
  have brk : (begin base w.heap).brk = w.heap.brk := by
    unfold begin
    split <;> rfl
  have answers : ∀ bytes p, sbrk bytes = some p →
      (begin base w.heap).brk ≤ p ∧ p + bytes < SPACE := by
    rw [brk]
    exact honest
  obtain ⟨got, ran, kept, result⟩ := begun.blocks.mallocs positive small answers enough
  have called : malloc base sbrk fuel nbytes w.heap = some got := ran
  rcases result with ⟨none, nodes', after⟩ | ⟨b, nodes', start, units, after⟩
  · refine ⟨{ w with heap := got.2 }, nodes', ?_, after, begun.usable, ?_⟩
    · simp only [World.take, called, Option.map_some, none, ↓reduceIte]
    · intro alloc member a low high value stored
      exact begun.keeps (fun _ inLive => inLive) kept member low high stored
  have nonnull : got.1 ≠ 0 := by omega
  have block : (⟨got.1, nbytes⟩ : Alloc).block = b := by
    cases b
    simp only [Alloc.block, start, Nat.add_sub_cancel, ← units]
  refine ⟨_, nodes', by simp only [World.take, called, Option.map_some, nonnull, ↓reduceIte]; rfl,
    ?_, ?_, ?_⟩
  · simp only [List.map_cons, block]
    exact after
  · intro alloc member
    rcases List.mem_cons.mp member with rfl | old
    · rw [block]
      simp only [Block.stop, units]
      omega
    · exact begun.usable alloc old
  · intro alloc member a low high value stored
    have outside : ¬ (got.1 ≤ a ∧ a < got.1 + nbytes) := by
      intro inside
      simp only [inside, and_self, ↓reduceIte] at stored
      cases stored
    simp only [outside, ↓reduceIte] at stored
    rcases List.mem_cons.mp member with rfl | old
    · exact absurd ⟨low, high⟩ outside
    · exact begun.keeps (fun _ inLive => inLive) kept old low high stored

theorem begin_eq (sound : Sound base w nodes) : begin base w.heap = w.heap := by
  obtain ⟨n, nIn, same⟩ := List.mem_map.mp sound.blocks.freep
  have low := (sound.blocks.bounds (List.mem_append_left _ nIn)).1
  have positive := sound.blocks.nonnull
  have nonnull : w.heap.freep ≠ 0 := by omega
  simp only [begin, nonnull, ↓reduceIte]

/-- The heap of a program that has not called the allocator, once it has been begun. -/
theorem of_fresh (fresh : w.Fresh base) :
    Sound base { w with heap := begin base w.heap } [⟨base, 0⟩] := by
  have empty := fresh.live
  refine ⟨?_, ?_, ?_⟩
  · simp only [empty, List.map_nil]
    exact Inv.begins fresh.freep fresh.granted fresh.nonnull fresh.above fresh.inside
  · intro alloc member
    rw [empty] at member
    cases member
  · intro alloc member
    rw [empty] at member
    cases member

end Sound

namespace World

variable {base : Nat} {w next : World}

/-- The heap is as it should be, or not in use. -/
def Good (base : Nat) (w : World) : Prop := w.Fresh base ∨ ∃ nodes, Sound base w nodes

theorem Good.begun (good : Good base w) :
    ∃ nodes, Sound base { w with heap := begin base w.heap } nodes := by
  rcases good with fresh | ⟨nodes, sound⟩
  · exact ⟨_, Sound.of_fresh fresh⟩
  refine ⟨nodes, ?_⟩
  rw [sound.begin_eq]
  exact sound

theorem Good.sound (good : Good base w) {alloc : Alloc} (member : alloc ∈ w.live) :
    ∃ nodes, Sound base w nodes := by
  rcases good with fresh | sound
  · rw [fresh.live] at member
    cases member
  · exact sound

theorem Good.step (good : Good base w) {event : Event} (enabled : w.Enabled event)
    (moderate : event.Moderate) (takes : w.take base event = some next) : Good base next := by
  cases event with
  | malloc sbrk fuel nbytes =>
    obtain ⟨nodes, begun⟩ := good.begun
    obtain ⟨other, nodes', ran, sound⟩ := begun.mallocs moderate enabled.2
      (show 2 * nodes.length + 1 ≤ fuel + (2 * nodes.length + 1) by omega)
    obtain ⟨got, called, rfl⟩ := Option.map_eq_some_iff.mp takes
    have more : Umalloc.malloc base sbrk (fuel + (2 * nodes.length + 1)) nbytes w.heap = some got :=
      mallocLoop_mono _ called
    simp only [take, more, Option.map_some, Option.some.injEq] at ran
    rw [ran]
    exact .inr ⟨nodes', sound⟩
  | free fuel alloc =>
    obtain ⟨nodes, sound⟩ := good.sound enabled
    obtain ⟨other, nodes', ran, after⟩ := sound.frees enabled
      (show nodes.length ≤ fuel + nodes.length by omega)
    obtain ⟨heap, called, rfl⟩ := Option.map_eq_some_iff.mp takes
    simp only [take, free_mono _ called, Option.map_some, Option.some.injEq] at ran
    rw [ran]
    exact .inr ⟨nodes', after⟩
  | store alloc a value =>
    obtain ⟨nodes, sound⟩ := good.sound enabled.1
    obtain ⟨other, ran, after⟩ := sound.stores enabled.1 enabled.2.1 enabled.2.2 value
    rw [takes] at ran
    rw [Option.some.inj ran]
    exact .inr ⟨nodes, after⟩

theorem Run.good (run : Run base Event.Moderate w) : Good base w := by
  induction run with
  | fresh fresh => exact .inl fresh
  | step before enabled meets takes good => exact good.step enabled meets takes

/-- In every run of moderate requests, the heap is as it should be in every state, and every
further moderate call returns. -/
theorem heap_runs_good (run : Run base Event.Moderate w) :
    Good base w ∧
    (∀ sbrk nbytes, w.Enabled (.malloc sbrk 0 nbytes) → Event.Moderate (.malloc sbrk 0 nbytes) →
      ∃ bound, ∀ fuel, bound ≤ fuel → ∃ next, w.take base (.malloc sbrk fuel nbytes) = some next) ∧
    (∀ alloc ∈ w.live, ∃ bound, ∀ fuel, bound ≤ fuel →
      ∃ next, w.take base (.free fuel alloc) = some next) := by
  have good := run.good
  refine ⟨good, ?_, ?_⟩
  · intro sbrk nbytes enabled moderate
    obtain ⟨nodes, begun⟩ := good.begun
    refine ⟨2 * nodes.length + 1, fun fuel enough => ?_⟩
    obtain ⟨next, _, ran, _⟩ := begun.mallocs moderate enabled.2 enough
    exact ⟨next, ran⟩
  · intro alloc member
    obtain ⟨nodes, sound⟩ := good.sound member
    refine ⟨nodes.length, fun fuel enough => ?_⟩
    obtain ⟨next, _, ran, _⟩ := sound.frees member enough
    exact ⟨next, ran⟩

/-- A program whose memory ends at 8192 and is all zero. -/
def blank : World :=
  { heap := { memory := fun _ => 0, freep := 0, brk := 8192, granted := 0 }
    live := []
    stored := fun _ => none }

theorem blank_fresh : blank.Fresh 4096 :=
  ⟨rfl, by decide, by decide, by decide, rfl, rfl⟩

/-- The first allocation of a program. -/
theorem heap_runs_good_first :
    ∃ w, Run 4096 Event.Moderate w ∧ w.live = [⟨40944, 10⟩] ∧ Good 4096 w := by
  let sbrk : Nat → Option Nat := fun bytes => if bytes = 32768 then some 8192 else none
  have enabled : blank.Enabled (.malloc sbrk 3 10) := by
    refine ⟨by decide, fun bytes p answer => ?_⟩
    by_cases asked : bytes = 32768
    · simp only [sbrk, asked, ↓reduceIte, Option.some.injEq] at answer
      subst asked answer
      decide
    · simp only [sbrk, asked, ↓reduceIte] at answer
      cases answer
  have ran : (blank.take 4096 (.malloc sbrk 3 10)).map World.live = some [⟨40944, 10⟩] := by
    decide +kernel
  obtain ⟨w, takes, live⟩ := Option.map_eq_some_iff.mp ran
  have moderate : 10 + 16 ≤ SPACE := by decide
  have run : Run 4096 Event.Moderate w := .step (.fresh blank_fresh) enabled moderate takes
  exact ⟨w, run, live, (heap_runs_good run).1⟩

/-- The largest request whose units do not wrap gets a block that `sbrk` has not given. -/
theorem huge_request_unbacked :
    ∃ w, Run 4096 Event.Unwrapped w ∧ w.live = [⟨8200, 4294967288⟩] ∧ w.heap.granted = 0 ∧
      ¬ Good 4096 w := by
  let sbrk : Nat → Option Nat := fun bytes => if bytes = 0 then some 8192 else none
  have enabled : blank.Enabled (.malloc sbrk 3 4294967288) := by
    refine ⟨by decide, fun bytes p answer => ?_⟩
    by_cases asked : bytes = 0
    · simp only [sbrk, asked, ↓reduceIte, Option.some.injEq] at answer
      subst asked answer
      decide
    · simp only [sbrk, asked, ↓reduceIte] at answer
      cases answer
  have ran : (blank.take 4096 (.malloc sbrk 3 4294967288)).map (fun w => (w.live, w.heap.granted)) =
      some ([⟨8200, 4294967288⟩], 0) := by
    decide +kernel
  obtain ⟨w, takes, same⟩ := Option.map_eq_some_iff.mp ran
  obtain ⟨live, granted⟩ := Prod.mk.inj same
  have unwrapped : 4294967288 + 8 - 1 < SPACE := by decide
  refine ⟨w, .step (.fresh blank_fresh) enabled unwrapped takes, live, granted, ?_⟩
  rintro (fresh | ⟨nodes, sound⟩)
  · rw [fresh.live] at live
    cases live
  · have units := sound.blocks.units
    have member : (⟨8200, 4294967288⟩ : Alloc).block ∈ w.live.map Alloc.block := by
      rw [live]
      exact List.mem_singleton_self _
    have positive := (sound.blocks.proper _ (List.mem_append_right nodes member)
      (sound.blocks.used _ member)).1
    rw [granted, live] at units
    simp only [List.map_cons, List.map_nil, List.sum_cons, List.sum_nil] at units
    omega

end World

end RtXv6.Umalloc
