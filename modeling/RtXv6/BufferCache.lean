import Mathlib.Algebra.GroupWithZero.Nat
import RtXv6.Outcome
import RtXv6.Ring

/-!
# The buffer cache

`bio.c` keeps `NBUF` buffers on a ring in the order of their last release. A lookup
walks the ring from the most recently used buffer; a miss recycles the least recently
used one that is neither busy nor dirty. The log marks a buffer dirty to keep it from
being recycled until the commit writes it.

A system state adds to the cache the disk, which transfers blocks faithfully, and
three facts that the code leaves to its callers: which process holds a busy buffer,
whether the holder has changed the data without writing or logging them yet, and what
the last holder of each block left in its buffer. Processes follow the cache's
protocol: they touch a buffer only while they hold it, and write or log what they
changed before they release it.
-/

namespace RtXv6

open Function (update update_of_ne)

/-- Block size. -/
abbrev BSIZE : Nat := 512

/-- The contents of a block. -/
abbrev Block := Fin BSIZE → UInt8

/-- Block contents by device and block number. -/
abbrev Disk := UInt32 → UInt32 → Block

/-- Replace what a map of blocks has for one block. -/
def assign {β : Type} (blocks : UInt32 → UInt32 → β) (dev blockno : UInt32) (value : β) :
    UInt32 → UInt32 → β :=
  update blocks dev (update (blocks dev) blockno value)

@[simp] theorem assign_self {β : Type} (blocks : UInt32 → UInt32 → β) (dev blockno : UInt32)
    (value : β) : assign blocks dev blockno value dev blockno = value := by
  simp [assign]

theorem assign_other {β : Type} (blocks : UInt32 → UInt32 → β) {dev blockno otherDev other : UInt32}
    (value : β) (different : ¬ (dev = otherDev ∧ blockno = other)) :
    assign blocks dev blockno value otherDev other = blocks otherDev other := by
  by_cases sameDev : otherDev = dev
  · subst sameDev
    have sameBlock : other ≠ blockno := fun same => different ⟨rfl, same.symm⟩
    simp [assign, update_of_ne sameBlock]
  · simp [assign, update_of_ne sameDev]

/-- The most blocks a file system operation writes. -/
abbrev MAXOPBLOCKS : Nat := 10

/-- The size of the buffer cache. -/
abbrev NBUF : Nat := MAXOPBLOCKS * 3

/-- There is a buffer. -/
instance nbuf_neZero : NeZero NBUF := ⟨by decide⟩

/-- A buffer of `bcache.buf`. -/
abbrev BufId := Fin NBUF

/-- A node of the ring: a buffer, or `bcache.head`. -/
abbrev Node := Option BufId

/-- `struct buf`, with its three flags apart. -/
structure Buf where
  busy : Bool
  valid : Bool
  dirty : Bool
  dev : UInt32
  blockno : UInt32
  data : Block

/-- `bcache`. -/
structure Bcache where
  buf : BufId → Buf
  links : Ring.Links Node

/-- How the code can stop: a panic, a walk that does not come back to the head, or a
store outside an array. -/
inductive Halt where
  | panic (message : String)
  | runaway
  | overrun
  deriving DecidableEq, Repr

namespace Bcache

/-- Update one buffer. -/
def modify (cache : Bcache) (id : BufId) (change : Buf → Buf) : Bcache :=
  { cache with buf := update cache.buf id (change (cache.buf id)) }

/-- One iteration of `binit`: the buffer joins the ring behind the head. -/
def binitOne (cache : Bcache) (id : BufId) : Bcache :=
  { cache.modify id (fun b => { b with dev := -1 }) with
    links := cache.links.linkFront none (some id) }

/-- A buffer of zeroed static memory. -/
def blank : Buf :=
  { busy := false, valid := false, dirty := false, dev := 0, blockno := 0, data := fun _ => 0 }

/-- `binit()` on zeroed static memory, from the head that points to itself. -/
def binit : Bcache :=
  (List.finRange NBUF).foldl binitOne ⟨fun _ => blank, ⟨fun _ => none, fun _ => none⟩⟩

/-- The test of `bget`'s first loop. -/
def caches (cache : Bcache) (dev blockno : UInt32) : Node → Bool
  | none => false
  | some id => (cache.buf id).dev == dev && (cache.buf id).blockno == blockno

/-- The test of `bget`'s second loop. -/
def recyclable (cache : Bcache) : Node → Bool
  | none => false
  | some id => !(cache.buf id).busy && !(cache.buf id).dirty

/-- The buffer a miss recycles, from the least recently used one on. -/
def recycle (dev blockno : UInt32) (cache : Bcache) : Except Halt (Option (BufId × Bcache)) :=
  match Ring.walk cache.links.prev none cache.recyclable (NBUF + 1) (cache.links.prev none) with
  | some (some (some id)) =>
    .ok (some (id, cache.modify id (fun b =>
      { b with dev := dev, blockno := blockno, busy := true, valid := false, dirty := false })))
  | some _ => .error (.panic "bget: no buffers")
  | none => .error .runaway

/-- One pass of `bget` under its lock. It returns a buffer that is now busy; with the
block's buffer busy already the caller sleeps and starts over, and nothing is
returned. -/
def bget (dev blockno : UInt32) (cache : Bcache) : Except Halt (Option (BufId × Bcache)) :=
  match Ring.walk cache.links.next none (cache.caches dev blockno) (NBUF + 1)
      (cache.links.next none) with
  | some (some (some id)) =>
    if (cache.buf id).busy then .ok none
    else .ok (some (id, cache.modify id (fun b => { b with busy := true })))
  | some _ => cache.recycle dev blockno
  | none => .error .runaway

/-- `iderw(b)`: a dirty buffer is written, an invalid one is read. -/
def iderw (id : BufId) (cache : Bcache) (disk : Disk) : Except Halt (Bcache × Disk) :=
  if !(cache.buf id).busy then .error (.panic "iderw: buf not busy")
  else if (cache.buf id).valid ∧ ¬ (cache.buf id).dirty then
    .error (.panic "iderw: nothing to do")
  else if (cache.buf id).dirty then
    .ok (cache.modify id (fun b => { b with valid := true, dirty := false }),
      assign disk (cache.buf id).dev (cache.buf id).blockno (cache.buf id).data)
  else
    .ok (cache.modify id (fun b =>
      { b with data := disk b.dev b.blockno, valid := true, dirty := false }), disk)

/-- `bwrite(b)`. -/
def bwrite (id : BufId) (cache : Bcache) (disk : Disk) : Except Halt (Bcache × Disk) :=
  if !(cache.buf id).busy then .error (.panic "bwrite")
  else (cache.modify id (fun b => { b with dirty := true })).iderw id disk

/-- `brelse(b)`: the buffer moves to the front of the ring and is no longer busy. -/
def brelse (id : BufId) (cache : Bcache) : Except Halt Bcache :=
  if !(cache.buf id).busy then .error (.panic "brelse")
  else .ok { cache.modify id (fun b => { b with busy := false }) with
    links := (cache.links.unlink (some id)).linkFront none (some id) }

/-- The effect of `log_write(b)` on the buffer. -/
def pin (id : BufId) (cache : Bcache) : Bcache :=
  cache.modify id (fun b => { b with dirty := true })

end Bcache

/-- The cache and the disk, with what the callers know: the holder of each busy buffer,
whether it has changed the data since it last wrote or logged them, and the contents
that the last holder of each block left in its buffer. -/
structure Buffers where
  cache : Bcache
  disk : Disk
  holder : BufId → Option Nat
  modified : BufId → Bool
  left : UInt32 → UInt32 → Option Block

/-- What a process does with the cache. `bread` is `bget` and, for a buffer without
data, `fill`. -/
inductive BufferStep where
  | bget (process : Nat) (dev blockno : UInt32)
  | fill (process : Nat) (id : BufId)
  | change (process : Nat) (id : BufId) (data : Block)
  | bwrite (process : Nat) (id : BufId)
  | logWrite (process : Nat) (id : BufId)
  | brelse (process : Nat) (id : BufId)

namespace Buffers

/-- The process holds the buffer and its `bread` has returned. -/
def Holding (s : Buffers) (process : Nat) (id : BufId) : Prop :=
  s.holder id = some process ∧ (s.cache.buf id).valid = true

/-- The protocol of the callers. -/
def Allowed (s : Buffers) : BufferStep → Prop
  | .bget _ dev _ => dev ≠ -1
  | .fill process id => s.holder id = some process ∧ (s.cache.buf id).valid = false
  | .change process id _ => s.Holding process id
  | .bwrite process id => s.Holding process id
  | .logWrite process id => s.Holding process id
  | .brelse process id => s.Holding process id ∧ s.modified id = false

instance (s : Buffers) (process : Nat) (id : BufId) : Decidable (s.Holding process id) :=
  inferInstanceAs (Decidable (_ ∧ _))

instance (s : Buffers) (step : BufferStep) : Decidable (s.Allowed step) :=
  match step with
  | .bget _ dev _ => inferInstanceAs (Decidable (dev ≠ -1))
  | .fill _ _ => inferInstanceAs (Decidable (_ ∧ _))
  | .change process id _ => inferInstanceAs (Decidable (s.Holding process id))
  | .bwrite process id => inferInstanceAs (Decidable (s.Holding process id))
  | .logWrite process id => inferInstanceAs (Decidable (s.Holding process id))
  | .brelse process id => inferInstanceAs (Decidable (s.Holding process id ∧ _))

/-- One pass of `bget` by a process, with the buffer it now holds. -/
def get (s : Buffers) (process : Nat) (dev blockno : UInt32) :
    Except Halt (Buffers × Option BufId) := do
  match ← s.cache.bget dev blockno with
  | none => .ok (s, none)
  | some (id, cache) =>
    .ok ({ s with cache := cache, holder := update s.holder id (some process) }, some id)

/-- Take a step, with the buffer that `bread` returned by it. -/
def take (s : Buffers) : BufferStep → Except Halt (Buffers × Option BufId)
  | .bget process dev blockno => do
    let (next, got) ← s.get process dev blockno
    .ok (next, got.filter (fun id => (next.cache.buf id).valid))
  | .fill _ id => do
    let (cache, disk) ← s.cache.iderw id s.disk
    .ok ({ s with cache := cache, disk := disk }, some id)
  | .change _ id data =>
    .ok ({ s with
      cache := s.cache.modify id (fun b => { b with data := data })
      modified := update s.modified id true }, none)
  | .bwrite _ id => do
    let (cache, disk) ← s.cache.bwrite id s.disk
    .ok ({ s with
      cache := cache
      disk := disk
      modified := update s.modified id false }, none)
  | .logWrite _ id =>
    .ok ({ s with
      cache := s.cache.pin id
      modified := update s.modified id false }, none)
  | .brelse _ id => do
    let cache ← s.cache.brelse id
    .ok ({ s with
      cache := cache
      holder := update s.holder id none
      left := assign s.left (s.cache.buf id).dev (s.cache.buf id).blockno
        (some (s.cache.buf id).data) }, none)

/-- The state after `binit`, over any disk. -/
def start (disk : Disk) : Buffers :=
  { cache := Bcache.binit
    disk := disk
    holder := fun _ => none
    modified := fun _ => false
    left := fun _ _ => none }

/-- The states of all sequences of steps that follow the protocol. -/
inductive Reachable (disk : Disk) : Buffers → Prop
  | start : Reachable disk (start disk)
  | step {s next : Buffers} {returned : Option BufId} (before : Reachable disk s)
      (step : BufferStep) (allowed : s.Allowed step) (taken : s.take step = .ok (next, returned)) :
      Reachable disk next

end Buffers

end RtXv6
