import Mathlib.Data.Fintype.Card
import RtXv6.BufferCache
import RtXv6.PointUpdates

/-!
# Coherence of the buffer cache

The invariant of the cache ties its parts together. The ring holds every buffer once,
so the two walks of `bget` see the whole cache and end. No two buffers carry one
block, because a buffer is recycled for a block only after the walk has missed it. A
clean buffer with data carries what is on disk, so recycling it loses nothing. The
contents left by the last holder of a block are in its buffer, or on disk when no
buffer has them.
-/

namespace RtXv6.Buffers

open Function (update_self update_of_ne)
open Outcome PointUpdates

/-- A ring through the head and every buffer, each once. -/
def Ringed (cache : Bcache) : Prop :=
  ∃ order : List BufId, order.Nodup ∧ (∀ id, id ∈ order) ∧
    Ring.Holds cache.links none (order.map some)

/-- The buffer carries the block. -/
def Carries (s : Buffers) (id : BufId) (dev blockno : UInt32) : Prop :=
  (s.cache.buf id).dev = dev ∧ (s.cache.buf id).blockno = blockno

/-- The invariant of the cache. -/
structure Coherent (s : Buffers) : Prop where
  ringed : Ringed s.cache
  unique : ∀ id other dev blockno, dev ≠ -1 → s.Carries id dev blockno →
    s.Carries other dev blockno → id = other
  held : ∀ id, (s.cache.buf id).busy = true ↔ (s.holder id).isSome = true
  real : ∀ id, (s.cache.buf id).busy = true ∨ (s.cache.buf id).valid = true →
    (s.cache.buf id).dev ≠ -1
  pinned : ∀ id, (s.cache.buf id).dirty = true → (s.cache.buf id).valid = true
  working : ∀ id, s.modified id = true →
    (s.cache.buf id).busy = true ∧ (s.cache.buf id).valid = true
  clean : ∀ id, (s.cache.buf id).valid = true → (s.cache.buf id).dirty = false →
    s.modified id = false →
    (s.cache.buf id).data = s.disk (s.cache.buf id).dev (s.cache.buf id).blockno
  released : ∀ id, (s.cache.buf id).valid = true → (s.cache.buf id).busy = false →
    s.left (s.cache.buf id).dev (s.cache.buf id).blockno = some (s.cache.buf id).data
  settled : ∀ dev blockno data, s.left dev blockno = some data →
    (∀ id, s.Carries id dev blockno → (s.cache.buf id).valid = false) →
    data = s.disk dev blockno

/-- What `bread` has to return for a block: the contents its last holder left, or those
of the disk if there was none. -/
def expected (s : Buffers) (dev blockno : UInt32) : Block :=
  (s.left dev blockno).getD (s.disk dev blockno)

@[simp] theorem modify_self (cache : Bcache) (id : BufId) (change : Buf → Buf) :
    (cache.modify id change).buf id = change (cache.buf id) :=
  update_self ..

variable {id : BufId}

theorem modify_other (cache : Bcache) {other : BufId} (change : Buf → Buf)
    (different : other ≠ id) : (cache.modify id change).buf other = cache.buf other :=
  update_of_ne different ..

variable {cache : Bcache}

/-- A walk over the ring in either direction sees every buffer: it finds one that passes
the test, or none does. -/
theorem Ringed.walks (ringed : Ringed cache) (test : Node → Bool) (walked : Option (Option Node))
    (direction : walked = Ring.walk cache.links.next none test (NBUF + 1) (cache.links.next none) ∨
      walked = Ring.walk cache.links.prev none test (NBUF + 1) (cache.links.prev none)) :
    (∃ id, walked = some (some (some id)) ∧ test (some id) = true) ∨
      (walked = some none ∧ ∀ id, test (some id) = false) := by
  obtain ⟨order, distinct, whole, ring⟩ := ringed
  have short : (order.map some).length < NBUF + 1 := by
    rw [List.length_map]
    have bound := distinct.length_le_card
    rw [Fintype.card_fin] at bound
    omega
  have result : ∃ nodes : List Node, (∀ node, node ∈ nodes ↔ ∃ id, some id = node) ∧
      walked = some (nodes.find? test) := by
    rcases direction with forward | backward
    · refine ⟨order.map some, ?_, forward.trans (ring.walk_next test _ short)⟩
      intro node
      simp [whole]
    · refine ⟨(order.map some).reverse, ?_, backward.trans (ring.walk_prev test _ short)⟩
      intro node
      simp [whole]
  obtain ⟨nodes, members, found⟩ := result
  cases search : nodes.find? test with
  | none =>
    right
    refine ⟨by rw [found, search], ?_⟩
    intro id
    have member : some id ∈ nodes := (members _).mpr ⟨id, rfl⟩
    simpa using List.find?_eq_none.mp search _ member
  | some node =>
    left
    obtain ⟨id, rfl⟩ := (members node).mp (List.mem_of_find?_eq_some search)
    exact ⟨id, by rw [found, search], List.find?_some search⟩

/-- The outcomes of `bget` on a ringed cache: the block's buffer is busy; it is free and
becomes busy; no buffer carries the block and a free clean one is recycled; or there is
none to recycle. -/
theorem bget_cases (ringed : Ringed cache) (dev blockno : UInt32) :
    (∃ id, cache.bget dev blockno = .ok none ∧ (cache.buf id).dev = dev ∧
      (cache.buf id).blockno = blockno ∧ (cache.buf id).busy = true) ∨
    (∃ id, cache.bget dev blockno =
        .ok (some (id, cache.modify id (fun b => { b with busy := true }))) ∧
      (cache.buf id).dev = dev ∧ (cache.buf id).blockno = blockno ∧
      (cache.buf id).busy = false) ∨
    (∃ id, cache.bget dev blockno = .ok (some (id, cache.modify id (fun b =>
        { b with
          dev := dev, blockno := blockno, busy := true, valid := false, dirty := false }))) ∧
      (cache.buf id).busy = false ∧ (cache.buf id).dirty = false ∧
      ∀ other, ¬ ((cache.buf other).dev = dev ∧ (cache.buf other).blockno = blockno)) ∨
    (cache.bget dev blockno = .error (.panic "bget: no buffers") ∧
      ∀ id, (cache.buf id).busy = true ∨ (cache.buf id).dirty = true) := by
  unfold Bcache.bget
  rcases ringed.walks (cache.caches dev blockno) _ (.inl rfl) with
    ⟨id, found, passes⟩ | ⟨missed, absent⟩
  · simp only [Bcache.caches, Bool.and_eq_true, beq_iff_eq] at passes
    rw [found]
    by_cases busy : (cache.buf id).busy = true
    · left
      exact ⟨id, if_pos busy, passes.1, passes.2, busy⟩
    right
    left
    exact ⟨id, if_neg busy, passes.1, passes.2, Bool.eq_false_iff.mpr busy⟩
  right
  right
  have none : ∀ other, ¬ ((cache.buf other).dev = dev ∧ (cache.buf other).blockno = blockno) := by
    intro other carries
    have fails := absent other
    simp [Bcache.caches, carries] at fails
  rw [missed]
  simp only
  unfold Bcache.recycle
  rcases ringed.walks cache.recyclable _ (.inr rfl) with
    ⟨id, found, passes⟩ | ⟨full, taken⟩
  · simp only [Bcache.recyclable, Bool.and_eq_true, Bool.not_eq_true'] at passes
    left
    rw [found]
    exact ⟨id, rfl, passes.1, passes.2, none⟩
  right
  rw [full]
  refine ⟨rfl, ?_⟩
  intro id
  have fails := taken id
  simp only [Bcache.recyclable, Bool.and_eq_false_iff, Bool.not_eq_false'] at fails
  exact fails

/-- The loop of `binit` over any list of distinct buffers that are not on the ring yet. -/
theorem binit_loop (ids : List BufId) (cache : Bcache) (order : List BufId)
    (distinct : (ids.reverse ++ order).Nodup)
    (ring : Ring.Holds cache.links none (order.map some)) :
    Ring.Holds (ids.foldl Bcache.binitOne cache).links none ((ids.reverse ++ order).map some) ∧
      ∀ id, (ids.foldl Bcache.binitOne cache).buf id =
        if id ∈ ids then { cache.buf id with dev := -1 } else cache.buf id := by
  induction ids generalizing cache order with
  | nil => exact ⟨ring, fun _ => rfl⟩
  | cons first rest ih =>
    rw [List.reverse_cons, List.append_assoc] at distinct ⊢
    have fresh : first ∉ order := by
      have later := (List.nodup_append.mp distinct).2.1
      exact (List.nodup_cons.mp later).1
    have joined : Ring.Holds (cache.binitOne first).links none ((first :: order).map some) :=
      ring.linkFront (by simpa using fresh)
    obtain ⟨whole, records⟩ := ih (cache.binitOne first) (first :: order) distinct joined
    refine ⟨whole, ?_⟩
    intro id
    rw [List.foldl_cons, records]
    by_cases here : id = first
    · subst here
      simp only [Bcache.binitOne, modify_self, List.mem_cons_self, if_true]
      split <;> rfl
    · simp only [Bcache.binitOne, modify_other _ _ here, List.mem_cons, here, false_or]

/-- `binit` leaves a ring of all buffers, none of which carries a block. -/
theorem binit_ringed :
    Ringed Bcache.binit ∧ ∀ id, Bcache.binit.buf id = { Bcache.blank with dev := -1 } := by
  have distinct : ((List.finRange NBUF).reverse ++ []).Nodup := by
    rw [List.append_nil, List.nodup_reverse]
    exact List.nodup_finRange NBUF
  obtain ⟨ring, records⟩ := binit_loop (List.finRange NBUF)
    ⟨fun _ => Bcache.blank, ⟨fun _ => none, fun _ => none⟩⟩ [] distinct
    (Ring.Holds.empty _ none rfl rfl)
  refine ⟨⟨_, distinct, ?_, ring⟩, ?_⟩
  · intro id
    simp
  · intro id
    exact (records id).trans (if_pos (List.mem_finRange id))

theorem start_coherent (disk : Disk) : Coherent (start disk) := by
  obtain ⟨ringed, blank⟩ := binit_ringed
  refine ⟨ringed, ?_, ?_, ?_, ?_, ?_, ?_, ?_, ?_⟩
  · rintro id other dev blockno real ⟨carries, _⟩
    simp only [start, blank] at carries
    exact absurd carries.symm real
  · intro id
    simp [start, blank, Bcache.blank]
  · intro id
    simp [start, blank, Bcache.blank]
  · intro id
    simp [start, blank, Bcache.blank]
  · intro id
    simp [start]
  · intro id
    simp [start, blank, Bcache.blank]
  · intro id
    simp [start, blank, Bcache.blank]
  · intro dev blockno data
    simp [start]

variable {s next : Buffers}

/-- What a step on one buffer has to show: the invariant for that buffer, that no other
buffer carries its block, and that the disk and the left contents change at most at its
block. -/
theorem Coherent.update (coherent : Coherent s) (id : BufId)
    (others : ∀ other, other ≠ id → next.cache.buf other = s.cache.buf other ∧
      next.holder other = s.holder other ∧ next.modified other = s.modified other)
    (ringed : Ringed next.cache)
    (unique : ∀ other dev blockno, other ≠ id → dev ≠ -1 → next.Carries id dev blockno →
      ¬ s.Carries other dev blockno)
    (held : (next.cache.buf id).busy = true ↔ (next.holder id).isSome = true)
    (real : (next.cache.buf id).dev ≠ -1)
    (pinned : (next.cache.buf id).dirty = true → (next.cache.buf id).valid = true)
    (working : next.modified id = true →
      (next.cache.buf id).busy = true ∧ (next.cache.buf id).valid = true)
    (clean : (next.cache.buf id).valid = true → (next.cache.buf id).dirty = false →
      next.modified id = false →
      (next.cache.buf id).data = next.disk (next.cache.buf id).dev (next.cache.buf id).blockno)
    (released : (next.cache.buf id).valid = true → (next.cache.buf id).busy = false →
      next.left (next.cache.buf id).dev (next.cache.buf id).blockno =
        some (next.cache.buf id).data)
    (elsewhere : ∀ dev blockno, ¬ next.Carries id dev blockno →
      next.disk dev blockno = s.disk dev blockno ∧ next.left dev blockno = s.left dev blockno)
    (settled : ∀ dev blockno data, next.left dev blockno = some data →
      (∀ other, next.Carries other dev blockno → (next.cache.buf other).valid = false) →
      data = next.disk dev blockno) : Coherent next := by
  have carries : ∀ other dev blockno, other ≠ id →
      (next.Carries other dev blockno ↔ s.Carries other dev blockno) := by
    intro other dev blockno different
    simp only [Carries, (others other different).1]
  have untouched : ∀ other, other ≠ id → (s.cache.buf other).valid = true →
      next.disk (s.cache.buf other).dev (s.cache.buf other).blockno =
        s.disk (s.cache.buf other).dev (s.cache.buf other).blockno ∧
      next.left (s.cache.buf other).dev (s.cache.buf other).blockno =
        s.left (s.cache.buf other).dev (s.cache.buf other).blockno := by
    intro other different valid
    apply elsewhere
    intro carried
    exact unique other _ _ different (coherent.real other (.inr valid)) carried ⟨rfl, rfl⟩
  refine ⟨ringed, ?_, ?_, ?_, ?_, ?_, ?_, ?_, settled⟩
  · intro left right dev blockno exists_ first second
    by_cases leftHere : left = id
    · by_cases rightHere : right = id
      · rw [leftHere, rightHere]
      · rw [leftHere] at first
        rw [carries right _ _ rightHere] at second
        exact absurd second (unique right dev blockno rightHere exists_ first)
    rw [carries left _ _ leftHere] at first
    by_cases rightHere : right = id
    · rw [rightHere] at second
      exact absurd first (unique left dev blockno leftHere exists_ second)
    · rw [carries right _ _ rightHere] at second
      exact coherent.unique left right dev blockno exists_ first second
  · intro other
    by_cases here : other = id
    · exact here ▸ held
    · rw [(others other here).1, (others other here).2.1]
      exact coherent.held other
  · intro other
    by_cases here : other = id
    · exact fun _ => here ▸ real
    · rw [(others other here).1]
      exact coherent.real other
  · intro other
    by_cases here : other = id
    · exact here ▸ pinned
    · rw [(others other here).1]
      exact coherent.pinned other
  · intro other
    by_cases here : other = id
    · exact here ▸ working
    · rw [(others other here).1, (others other here).2.2]
      exact coherent.working other
  · intro other
    by_cases here : other = id
    · exact here ▸ clean
    rw [(others other here).1, (others other here).2.2]
    intro valid tidy unmodified
    rw [(untouched other here valid).1]
    exact coherent.clean other valid tidy unmodified
  · intro other
    by_cases here : other = id
    · exact here ▸ released
    rw [(others other here).1]
    intro valid free
    rw [(untouched other here valid).2]
    exact coherent.released other valid free

theorem iderw_reads (disk : Disk) (busy : (cache.buf id).busy = true)
    (invalid : (cache.buf id).valid = false) (clean : (cache.buf id).dirty = false) :
    cache.iderw id disk = .ok (cache.modify id (fun b =>
      { b with data := disk b.dev b.blockno, valid := true, dirty := false }), disk) := by
  simp [Bcache.iderw, busy, invalid, clean]

theorem bwrite_writes (disk : Disk) (busy : (cache.buf id).busy = true) :
    cache.bwrite id disk = .ok (cache.modify id (fun b => { b with valid := true, dirty := false }),
      assign disk (cache.buf id).dev (cache.buf id).blockno (cache.buf id).data) := by
  simp [Bcache.bwrite, Bcache.iderw, Bcache.modify, busy]

theorem Coherent.hit (coherent : Coherent s) (process : Nat) (real : (s.cache.buf id).dev ≠ -1) :
    Coherent { s with
      cache := s.cache.modify id (fun b => { b with busy := true })
      holder := Function.update s.holder id (some process) } := by
  have carries : ∀ other dev blockno, s.Carries other dev blockno ↔
      Carries { s with
        cache := s.cache.modify id (fun b => { b with busy := true })
        holder := Function.update s.holder id (some process) } other dev blockno := by
    intro other dev blockno
    exact and_congr (Eq.congr_left (update_same Buf.dev (by rfl) other).symm)
      (Eq.congr_left (update_same Buf.blockno (by rfl) other).symm)
  refine coherent.update id ?_ coherent.ringed ?_ ?_ ?_ ?_ ?_ ?_ ?_ ?_ ?_
  · intro other different
    exact ⟨update_of_ne different _ _, update_of_ne different _ _, rfl⟩
  · intro other dev blockno different exists_ here there
    exact different (coherent.unique other id dev blockno exists_ there
      ((carries id dev blockno).mpr here))
  · simp
  · simpa using real
  · simpa using coherent.pinned id
  · intro modified
    simpa using (coherent.working id modified).2
  · simpa using coherent.clean id
  · simp
  · exact fun _ _ _ => ⟨rfl, rfl⟩
  · intro dev blockno data left invalid
    apply coherent.settled dev blockno data left
    intro other here
    rw [← invalid other ((carries other dev blockno).mp here)]
    exact (update_same Buf.valid (by rfl) other).symm

variable {blockno : UInt32}

variable {dev : UInt32}

section

variable (coherent : Coherent s)
include coherent

/-- Recycling a free clean buffer for a block that no buffer carries. -/
theorem Coherent.recycles (process : Nat) (real : dev ≠ -1) (free : (s.cache.buf id).busy = false)
    (clean : (s.cache.buf id).dirty = false)
    (missed : ∀ other, ¬ ((s.cache.buf other).dev = dev ∧ (s.cache.buf other).blockno = blockno)) :
    Coherent { s with
      cache := s.cache.modify id (fun b =>
        { b with dev := dev, blockno := blockno, busy := true, valid := false, dirty := false })
      holder := Function.update s.holder id (some process) } := by
  have unmodified : s.modified id = false := by
    by_contra working
    have busy := (coherent.working id (by simpa using working)).1
    simp [free] at busy
  refine coherent.update id ?_ coherent.ringed ?_ ?_ ?_ ?_ ?_ ?_ ?_ ?_ ?_
  · intro other different
    exact ⟨update_of_ne different _ _, update_of_ne different _ _, rfl⟩
  · intro other otherDev otherBlock different exists_ here there
    simp only [Carries, modify_self] at here
    exact missed other ⟨there.1.trans here.1.symm, there.2.trans here.2.symm⟩
  · simp
  · simpa using real
  · simp
  · simp [unmodified]
  · simp
  · simp
  · exact fun _ _ _ => ⟨rfl, rfl⟩
  intro oldDev oldBlock data left invalid
  by_cases carried : s.Carries id oldDev oldBlock ∧ (s.cache.buf id).valid = true
  · obtain ⟨⟨rfl, rfl⟩, valid⟩ := carried
    have contents := coherent.released id valid free
    rw [left] at contents
    rw [Option.some.inj contents]
    exact coherent.clean id valid clean unmodified
  apply coherent.settled oldDev oldBlock data left
  intro other here
  by_cases same : other = id
  · subst same
    by_contra valid
    exact carried ⟨here, by simpa using valid⟩
  · have unchanged := invalid other
    simp only [Carries, modify_other _ _ same] at unchanged
    exact unchanged here

/-- A step of a holder on its buffer, after which the buffer has data. The block stays
the same, so only what the step does to the data, the disk and the left contents is to be
shown. -/
theorem Coherent.rewrite (id : BufId) (busy : (s.cache.buf id).busy = true)
    (others : ∀ other, other ≠ id → next.cache.buf other = s.cache.buf other ∧
      next.holder other = s.holder other ∧ next.modified other = s.modified other)
    (ringed : Ringed next.cache) (dev : (next.cache.buf id).dev = (s.cache.buf id).dev)
    (blockno : (next.cache.buf id).blockno = (s.cache.buf id).blockno)
    (valid : (next.cache.buf id).valid = true)
    (held : (next.cache.buf id).busy = true ↔ (next.holder id).isSome = true)
    (working : next.modified id = true → (next.cache.buf id).busy = true)
    (clean : (next.cache.buf id).dirty = false → next.modified id = false →
      (next.cache.buf id).data = next.disk (s.cache.buf id).dev (s.cache.buf id).blockno)
    (released : (next.cache.buf id).busy = false →
      next.left (s.cache.buf id).dev (s.cache.buf id).blockno = some (next.cache.buf id).data)
    (elsewhere : ∀ dev blockno, ¬ s.Carries id dev blockno →
      next.disk dev blockno = s.disk dev blockno ∧ next.left dev blockno = s.left dev blockno) :
    Coherent next := by
  have carries : ∀ dev blockno, next.Carries id dev blockno ↔ s.Carries id dev blockno := by
    intro otherDev other
    simp only [Carries, dev, blockno]
  have real := coherent.real id (.inl busy)
  refine coherent.update id others ringed ?_ held (dev ▸ real) (fun _ => valid)
    (fun modified => ⟨working modified, valid⟩) ?_ ?_ ?_ ?_
  · intro other otherDev otherBlock different exists_ here there
    exact different (coherent.unique other id otherDev otherBlock exists_ there
      ((carries _ _).mp here))
  · intro _
    rw [dev, blockno]
    exact clean
  · intro _
    rw [dev, blockno]
    exact released
  · intro otherDev otherBlock uncarried
    exact elsewhere otherDev otherBlock (fun carried => uncarried ((carries _ _).mpr carried))
  intro otherDev otherBlock data left invalid
  have uncarried : ¬ s.Carries id otherDev otherBlock := by
    intro carried
    have blank := invalid id ((carries _ _).mpr carried)
    simp [valid] at blank
  obtain ⟨sameDisk, sameLeft⟩ := elsewhere otherDev otherBlock uncarried
  rw [sameDisk]
  apply coherent.settled otherDev otherBlock data (sameLeft ▸ left)
  intro other here
  have different : other ≠ id := by
    rintro rfl
    exact uncarried here
  have unchanged := invalid other
  simp only [Carries, (others other different).1] at unchanged
  exact unchanged here

variable (busy : (s.cache.buf id).busy = true)
include busy

theorem Coherent.fills :
    Coherent { s with
      cache := s.cache.modify id (fun b =>
        { b with data := s.disk b.dev b.blockno, valid := true, dirty := false }) } := by
  refine coherent.rewrite id busy ?_ coherent.ringed ?_ ?_ ?_ ?_ ?_ ?_ ?_ ?_
  · intro other different
    exact ⟨update_of_ne different _ _, rfl, rfl⟩
  · simp
  · simp
  · simp
  · simpa using coherent.held id
  · intro _
    simpa using busy
  · simp
  · simp [busy]
  · exact fun _ _ _ => ⟨rfl, rfl⟩

theorem Coherent.changes (valid : (s.cache.buf id).valid = true) (data : Block) :
    Coherent { s with
      cache := s.cache.modify id (fun b => { b with data := data })
      modified := Function.update s.modified id true } := by
  refine coherent.rewrite id busy ?_ coherent.ringed ?_ ?_ ?_ ?_ ?_ ?_ ?_ ?_
  · intro other different
    exact ⟨update_of_ne different _ _, rfl, update_of_ne different _ _⟩
  · simp
  · simp
  · simpa using valid
  · simpa using coherent.held id
  · intro _
    simpa using busy
  · simp
  · simp [busy]
  · exact fun _ _ _ => ⟨rfl, rfl⟩

theorem Coherent.writes :
    Coherent { s with
      cache := s.cache.modify id (fun b => { b with valid := true, dirty := false })
      disk := assign s.disk (s.cache.buf id).dev (s.cache.buf id).blockno (s.cache.buf id).data
      modified := Function.update s.modified id false } := by
  refine coherent.rewrite id busy ?_ coherent.ringed ?_ ?_ ?_ ?_ ?_ ?_ ?_ ?_
  · intro other different
    exact ⟨update_of_ne different _ _, rfl, update_of_ne different _ _⟩
  · simp
  · simp
  · simp
  · simpa using coherent.held id
  · simp
  · simp
  · simp [busy]
  · intro dev blockno uncarried
    exact ⟨assign_other _ _ uncarried, rfl⟩

theorem Coherent.pins (valid : (s.cache.buf id).valid = true) :
    Coherent { s with
      cache := s.cache.pin id
      modified := Function.update s.modified id false } := by
  refine coherent.rewrite id busy ?_ coherent.ringed ?_ ?_ ?_ ?_ ?_ ?_ ?_ ?_
  · intro other different
    exact ⟨update_of_ne different _ _, rfl, update_of_ne different _ _⟩
  · simp [Bcache.pin]
  · simp [Bcache.pin]
  · simpa [Bcache.pin] using valid
  · simpa [Bcache.pin] using coherent.held id
  · simp
  · simp [Bcache.pin]
  · simp [Bcache.pin, busy]
  · exact fun _ _ _ => ⟨rfl, rfl⟩

end

theorem Ringed.toFront (ringed : Ringed cache) (id : BufId) :
    Ringed { cache with links := (cache.links.unlink (some id)).linkFront none (some id) } := by
  obtain ⟨order, distinct, whole, ring⟩ := ringed
  obtain ⟨before, after, rfl⟩ := List.append_of_mem (whole id)
  rw [List.map_append, List.map_cons] at ring
  refine ⟨id :: (before ++ after), List.nodup_middle.mp distinct, ?_, ?_⟩
  · intro other
    have member := whole other
    simp only [List.mem_append, List.mem_cons] at member ⊢
    exact or_left_comm.mp member
  · rw [List.map_cons, List.map_append]
    exact ring.toFront

theorem Coherent.releases (coherent : Coherent s) (busy : (s.cache.buf id).busy = true)
    (valid : (s.cache.buf id).valid = true) (unmodified : s.modified id = false) :
    Coherent { s with
      cache := { s.cache.modify id (fun b => { b with busy := false }) with
        links := (s.cache.links.unlink (some id)).linkFront none (some id) }
      holder := Function.update s.holder id none
      left := assign s.left (s.cache.buf id).dev (s.cache.buf id).blockno
        (some (s.cache.buf id).data) } := by
  refine coherent.rewrite id busy ?_ (coherent.ringed.toFront id) ?_ ?_ ?_ ?_ ?_ ?_ ?_ ?_
  · intro other different
    exact ⟨update_of_ne different _ _, update_of_ne different _ _, rfl⟩
  · simp
  · simp
  · simpa using valid
  · simp
  · simp [unmodified]
  · simpa using fun clean => coherent.clean id valid clean
  · simp
  · intro dev blockno uncarried
    exact ⟨rfl, assign_other _ _ uncarried⟩

variable {process : Nat}

theorem get_cases {got : Option BufId} (coherent : Coherent s)
    (taken : s.get process dev blockno = .ok (next, got)) :
    (next = s ∧ got = none) ∨
    (∃ id, s.Carries id dev blockno ∧ (s.cache.buf id).busy = false ∧
      next = { s with
        cache := s.cache.modify id (fun b => { b with busy := true })
        holder := Function.update s.holder id (some process) } ∧
      got = some id) ∨
    (∃ id, (s.cache.buf id).busy = false ∧ (s.cache.buf id).dirty = false ∧
      (∀ other, ¬ s.Carries other dev blockno) ∧
      next = { s with
        cache := s.cache.modify id (fun b =>
          { b with dev := dev, blockno := blockno, busy := true, valid := false, dirty := false })
        holder := Function.update s.holder id (some process) } ∧
      got = some id) := by
  obtain ⟨result, walked, rest⟩ := bind_ok taken
  rcases bget_cases coherent.ringed dev blockno with
    ⟨id, outcome, _⟩ | ⟨id, outcome, devs, blocks, free⟩ | ⟨id, outcome, free, clean, missed⟩ |
    ⟨outcome, _⟩
  all_goals
    rw [outcome] at walked
    cases walked
  all_goals cases rest
  · exact .inl ⟨rfl, rfl⟩
  · exact .inr (.inl ⟨id, ⟨devs, blocks⟩, free, rfl, rfl⟩)
  · exact .inr (.inr ⟨id, free, clean, missed, rfl, rfl⟩)

variable {returned : Option BufId}

/-- A `bget` step is a pass of `bget`, and `bread` returns if the buffer has data. -/
theorem take_bget (taken : s.take (.bget process dev blockno) = .ok (next, returned)) :
    ∃ got, s.get process dev blockno = .ok (next, got) ∧
      returned = got.filter (fun id => (next.cache.buf id).valid) := by
  obtain ⟨⟨after, got⟩, passed, rest⟩ := bind_ok taken
  simp only [Except.ok.injEq, Prod.mk.injEq] at rest
  obtain ⟨rfl, filtered⟩ := rest
  exact ⟨got, passed, filtered.symm⟩

section

variable (coherent : Coherent s)
include coherent

theorem take_fill (allowed : s.Allowed (.fill process id))
    (taken : s.take (.fill process id) = .ok (next, returned)) :
    (s.cache.buf id).busy = true ∧ returned = some id ∧
      next = { s with
        cache := s.cache.modify id (fun b =>
          { b with data := s.disk b.dev b.blockno, valid := true, dirty := false }) } := by
  obtain ⟨holds, invalid⟩ := allowed
  have busy : (s.cache.buf id).busy = true := (coherent.held id).mpr (by rw [holds]; rfl)
  have clean : (s.cache.buf id).dirty = false := by
    by_contra dirty
    have valid := coherent.pinned id (by simpa using dirty)
    simp [invalid] at valid
  rw [take, iderw_reads s.disk busy invalid clean] at taken
  simp only [bind, Except.bind, Except.ok.injEq, Prod.mk.injEq] at taken
  exact ⟨busy, taken.2.symm, taken.1.symm⟩

theorem Coherent.holding (holding : s.Holding process id) : (s.cache.buf id).busy = true :=
  (coherent.held id).mpr (by rw [holding.1]; rfl)

theorem take_bwrite (holding : s.Holding process id)
    (taken : s.take (.bwrite process id) = .ok (next, returned)) :
    returned = none ∧ next = { s with
      cache := s.cache.modify id (fun b => { b with valid := true, dirty := false })
      disk := assign s.disk (s.cache.buf id).dev (s.cache.buf id).blockno (s.cache.buf id).data
      modified := Function.update s.modified id false } := by
  rw [take, bwrite_writes s.disk (coherent.holding holding)] at taken
  simp only [bind, Except.bind, Except.ok.injEq, Prod.mk.injEq] at taken
  exact ⟨taken.2.symm, taken.1.symm⟩

theorem take_brelse (holding : s.Holding process id)
    (taken : s.take (.brelse process id) = .ok (next, returned)) :
    returned = none ∧ next = { s with
      cache := { s.cache.modify id (fun b => { b with busy := false }) with
        links := (s.cache.links.unlink (some id)).linkFront none (some id) }
      holder := Function.update s.holder id none
      left := assign s.left (s.cache.buf id).dev (s.cache.buf id).blockno
        (some (s.cache.buf id).data) } := by
  have busy := coherent.holding holding
  simp only [take, Bcache.brelse, busy, Bool.not_true, Bool.false_eq_true, if_false, bind,
    Except.bind, Except.ok.injEq, Prod.mk.injEq] at taken
  exact ⟨taken.2.symm, taken.1.symm⟩

theorem Coherent.step (step : BufferStep) (allowed : s.Allowed step)
    (taken : s.take step = .ok (next, returned)) : Coherent next := by
  cases step with
  | bget process dev blockno =>
    obtain ⟨got, passed, _⟩ := take_bget taken
    rcases get_cases coherent passed with ⟨rfl, _⟩ | ⟨id, carries, _, rfl, _⟩ |
      ⟨id, free, clean, missed, rfl, _⟩
    · exact coherent
    · exact coherent.hit process (by rw [carries.1]; exact allowed)
    · exact coherent.recycles process allowed free clean missed
  | fill process id =>
    obtain ⟨busy, _, rfl⟩ := take_fill coherent allowed taken
    exact coherent.fills busy
  | change process id data =>
    simp only [take, Except.ok.injEq, Prod.mk.injEq] at taken
    obtain ⟨rfl, _⟩ := taken
    exact coherent.changes (coherent.holding allowed) allowed.2 data
  | bwrite process id =>
    obtain ⟨_, rfl⟩ := take_bwrite coherent allowed taken
    exact coherent.writes (coherent.holding allowed)
  | logWrite process id =>
    simp only [take, Except.ok.injEq, Prod.mk.injEq] at taken
    obtain ⟨rfl, _⟩ := taken
    exact coherent.pins (coherent.holding allowed) allowed.2
  | brelse process id =>
    obtain ⟨_, rfl⟩ := take_brelse coherent allowed.1 taken
    exact coherent.releases (coherent.holding allowed.1) allowed.1.2 allowed.2

end

theorem Reachable.coherent {disk : Disk} (reachable : Reachable disk s) : Coherent s := by
  induction reachable with
  | start => exact start_coherent disk
  | step _ step allowed taken ih =>
    exact ih.step step allowed taken

/-- What `bread` returns is what the block's last holder left, or the disk's contents. -/
theorem Coherent.returns (coherent : Coherent s) (step : BufferStep) (allowed : s.Allowed step)
    (taken : s.take step = .ok (next, some id)) :
    (next.cache.buf id).data =
      s.expected (next.cache.buf id).dev (next.cache.buf id).blockno := by
  cases step with
  | bget process dev blockno =>
    obtain ⟨got, passed, returned⟩ := take_bget taken
    obtain ⟨rfl, valid⟩ := Option.filter_eq_some_iff.mp returned.symm
    rcases get_cases coherent passed with ⟨_, nothing⟩ | ⟨found, _, free, rfl, same⟩ |
      ⟨found, _, _, _, rfl, same⟩
    · cases nothing
    · obtain rfl := Option.some.inj same
      simp only [modify_self] at valid
      simp only [modify_self, expected, coherent.released id valid free, Option.getD_some]
    · obtain rfl := Option.some.inj same
      simp only [modify_self, Bool.false_eq_true] at valid
  | fill process found =>
    obtain ⟨busy, returned, rfl⟩ := take_fill coherent allowed taken
    obtain rfl := Option.some.inj returned
    simp only [modify_self, expected]
    cases left : s.left (s.cache.buf id).dev (s.cache.buf id).blockno with
    | none => rfl
    | some data =>
      rw [Option.getD_some]
      symm
      apply coherent.settled _ _ data left
      intro other carries
      have same : other = id := coherent.unique other id _ _ (coherent.real id (.inl busy)) carries
        ⟨rfl, rfl⟩
      rw [same]
      exact allowed.2
  | change | logWrite =>
    simp only [take, Except.ok.injEq, Prod.mk.injEq, reduceCtorEq, and_false] at taken
  | bwrite process found =>
    obtain ⟨returned, _⟩ := take_bwrite coherent allowed taken
    cases returned
  | brelse process found =>
    obtain ⟨returned, _⟩ := take_brelse coherent allowed.1 taken
    cases returned

end RtXv6.Buffers
