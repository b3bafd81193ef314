import RtXv6.CircularBuffer
import RtXv6.Inodes

/-!
# Pipes as streams of bytes

`pipewrite`, `piperead` and `pipeclose` of `pipe.c`, for any number of processes on one
pipe. A process holds `p->lock` from the start of a call, or from where it wakes up, to
the next `sleep` or the return; these sections are the steps. `wakeup1` wakes every
sleeper whose channel holds the same word as the given one, so a wakeup for a channel of
another object may wake a process here as well.

The bytes that writes store and those that reads take are recorded in the order of the
sections. Whatever the order, the bytes taken and those still in the buffer are the bytes
stored.
-/

namespace RtXv6

open CircularBuffer

/-- The bytes that a pipe holds at most. -/
abbrev PIPESIZE : Nat := 512

instance pipesize_neZero : NeZero PIPESIZE := ⟨by decide⟩

/-- `struct pipe`. -/
structure PipeBuffer extends Pipe where
  data : Fin PIPESIZE → UInt8
  nread : UInt32
  nwrite : UInt32

namespace PipeBuffer

/-- `p->nwrite == p->nread + PIPESIZE`. -/
def IsFull (pipe : PipeBuffer) : Prop := pipe.nwrite = pipe.nread + UInt32.ofNat PIPESIZE

instance decidableIsFull (pipe : PipeBuffer) : Decidable pipe.IsFull :=
  inferInstanceAs (Decidable (_ = _))

/-- `p->data[p->nwrite++ % PIPESIZE] = byte`. -/
def put (pipe : PipeBuffer) (byte : UInt8) : PipeBuffer :=
  { pipe with
    data := Function.update pipe.data (Fin.ofNat PIPESIZE pipe.nwrite.toNat) byte
    nwrite := pipe.nwrite + 1 }

/-- `p->data[p->nread % PIPESIZE]`. -/
def first (pipe : PipeBuffer) : UInt8 := pipe.data (Fin.ofNat PIPESIZE pipe.nread.toNat)

/-- `p->nread++`. -/
def advance (pipe : PipeBuffer) : PipeBuffer := { pipe with nread := pipe.nread + 1 }

/-- The number of bytes in the buffer, `p->nwrite - p->nread`. -/
def count (pipe : PipeBuffer) : Nat := (pipe.nwrite - pipe.nread).toNat

/-- The bytes in the buffer, from the next one to be read on. -/
def buffered (pipe : PipeBuffer) : List UInt8 := contents pipe.data pipe.nread.toNat pipe.count

end PipeBuffer

/-- How a section of `pipewrite` ends: with all bytes stored, with the read end closed or the
process killed, or in `sleep`. -/
inductive WriteEnd where
  | done
  | refused
  | full
  deriving DecidableEq, Repr

/-- What a section of `pipewrite` leaves. -/
structure Written where
  pipe : PipeBuffer
  stored : List UInt8
  left : List UInt8
  ending : WriteEnd

/-- The loop of `pipewrite` over the bytes that are left, up to `sleep` or the end. -/
def writeLoop (killed : Bool) : List UInt8 → PipeBuffer → Written
  | [], pipe => ⟨pipe, [], [], .done⟩
  | byte :: rest, pipe =>
    if pipe.IsFull then
      ⟨pipe, [], byte :: rest, if pipe.readopen = false ∨ killed = true then .refused else .full⟩
    else
      let later := writeLoop killed rest (pipe.put byte)
      { later with stored := byte :: later.stored }

/-- The copying loop of `piperead`: the bytes taken. -/
def readLoop : Nat → PipeBuffer → PipeBuffer × List UInt8
  | 0, pipe => (pipe, [])
  | n + 1, pipe =>
    if pipe.nread = pipe.nwrite then (pipe, [])
    else ((readLoop n pipe.advance).1, pipe.first :: (readLoop n pipe.advance).2)

/-- The call that a process is in. A write has the bytes that are left. -/
inductive PipeTask where
  | none
  | write (n : Int32) (left : List UInt8)
  | read (n : Int32)
  deriving DecidableEq

/-- A process that uses the pipe, with what its last call returned. -/
structure PipeProc where
  task : PipeTask
  sleeping : Bool
  killed : Bool
  result : Int32

/-- A pipe, its processes and the bytes that have passed. -/
structure PipeSystem (process : Type) where
  pipe : PipeBuffer
  proc : process → PipeProc
  stored : List UInt8
  taken : List UInt8

/-- What happens to a pipe. A call begins or goes on after a wakeup; `wake` is a wakeup for
another channel that holds the same word. -/
inductive PipeEvent (process : Type) where
  | pipewrite (p : process) (n : Int32) (bytes : List UInt8)
  | piperead (p : process) (n : Int32)
  | resume (p : process)
  | pipeclose (writable : Bool)
  | kill (p : process)
  | wake (p : process)

namespace PipeSystem

variable {process : Type} [DecidableEq process]

/-- The word at the channel of a sleeping process. -/
def word (pipe : PipeBuffer) : PipeTask → Option UInt32
  | .none => Option.none
  | .write _ _ => some pipe.nwrite
  | .read _ => some pipe.nread

/-- `wakeup` for a channel that holds a word. -/
def wakeup (s : PipeSystem process) (value : UInt32) : PipeSystem process :=
  { s with
    proc := fun q =>
      if (s.proc q).sleeping = true ∧ word s.pipe (s.proc q).task = some value then
        { s.proc q with sleeping := false }
      else s.proc q }

/-- A call of a process returns. -/
def return_ (s : PipeSystem process) (p : process) (r : Int32) : PipeSystem process :=
  { s with
    proc := Function.update s.proc p
      { s.proc p with task := .none, sleeping := false, result := r } }

/-- A process goes to sleep in a call. -/
def sleep (s : PipeSystem process) (p : process) (task : PipeTask) : PipeSystem process :=
  { s with proc := Function.update s.proc p { s.proc p with task, sleeping := true } }

/-- The pipe after bytes have been stored. -/
def stores (s : PipeSystem process) (written : Written) : PipeSystem process :=
  { s with pipe := written.pipe, stored := s.stored ++ written.stored }

/-- The pipe after bytes have been taken. -/
def takes (s : PipeSystem process) (copied : PipeBuffer × List UInt8) : PipeSystem process :=
  { s with pipe := copied.1, taken := s.taken ++ copied.2 }

/-- A section of `pipewrite` with the bytes that are left. -/
def pipewrite (s : PipeSystem process) (p : process) (n : Int32) (left : List UInt8) :
    PipeSystem process :=
  let written := writeLoop (s.proc p).killed left s.pipe
  match written.ending with
  | .done => ((s.stores written).wakeup written.pipe.nread).return_ p n
  | .refused => (s.stores written).return_ p (-1)
  | .full => ((s.stores written).wakeup written.pipe.nread).sleep p (.write n written.left)

/-- A section of `piperead`. -/
def piperead (s : PipeSystem process) (p : process) (n : Int32) : PipeSystem process :=
  if s.pipe.nread = s.pipe.nwrite ∧ s.pipe.writeopen = true then
    if (s.proc p).killed = true then s.return_ p (-1) else s.sleep p (.read n)
  else
    let copied := readLoop n.toInt.toNat s.pipe
    ((s.takes copied).wakeup copied.1.nwrite).return_ p (Int32.ofNat copied.2.length)

/-- `pipeclose`. -/
def pipeclose (s : PipeSystem process) (writable : Bool) : PipeSystem process :=
  if writable then { s with pipe := { s.pipe with writeopen := false } }.wakeup s.pipe.nread
  else { s with pipe := { s.pipe with readopen := false } }.wakeup s.pipe.nwrite

/-- `kill`, and the wakeup of a process for another reason. -/
def rouse (s : PipeSystem process) (p : process) (killed : Bool) : PipeSystem process :=
  { s with proc := Function.update s.proc p { s.proc p with killed, sleeping := false } }

/-- The call of a process goes on after its `sleep`. -/
def resume (s : PipeSystem process) (p : process) : PipeSystem process :=
  match (s.proc p).task with
  | .none => s
  | .write n left => s.pipewrite p n left
  | .read n => s.piperead p n

/-- What an event does. -/
def take (s : PipeSystem process) : PipeEvent process → PipeSystem process
  | .pipewrite p n bytes => s.pipewrite p n bytes
  | .piperead p n => s.piperead p n
  | .resume p => s.resume p
  | .pipeclose writable => s.pipeclose writable
  | .kill p => s.rouse p true
  | .wake p => s.rouse p (s.proc p).killed

/-- The pipe has not been freed. -/
def Allocated (s : PipeSystem process) : Prop := s.pipe.readopen = true ∨ s.pipe.writeopen = true

/-- When an event is possible. A process is in one call at a time, and a sleeping process
does not run; a write passes as many bytes as its length says. -/
def Enabled (s : PipeSystem process) : PipeEvent process → Prop
  | .pipewrite p n bytes =>
    s.Allocated ∧ (s.proc p).task = .none ∧ bytes.length = n.toInt.toNat
  | .piperead p _ => s.Allocated ∧ (s.proc p).task = .none
  | .resume p => s.Allocated ∧ (s.proc p).sleeping = false
  | .pipeclose _ => s.Allocated
  | .kill _ => True
  | .wake _ => True

/-- A pipe as `pipealloc` leaves it, in a page with any bytes. -/
structure Fresh (s : PipeSystem process) : Prop where
  readopen : s.pipe.readopen = true
  writeopen : s.pipe.writeopen = true
  nread : s.pipe.nread = 0
  nwrite : s.pipe.nwrite = 0
  idle : ∀ p, (s.proc p).task = .none ∧ (s.proc p).sleeping = false
  stored : s.stored = []
  taken : s.taken = []

/-- The states after events that all meet a condition. -/
inductive Run (meets : PipeSystem process → PipeEvent process → Prop) : PipeSystem process → Prop
  | start {s : PipeSystem process} (fresh : s.Fresh) : Run meets s
  | event {s : PipeSystem process} (before : Run meets s) (event : PipeEvent process)
      (enabled : s.Enabled event) (met : meets s event) : Run meets (s.take event)

/-- The states after any events. -/
abbrev Reachable : PipeSystem process → Prop := Run fun _ _ => True

end PipeSystem

namespace PipeBuffer

variable {pipe : PipeBuffer}

theorem count_eq_zero_iff : pipe.nread = pipe.nwrite ↔ pipe.count = 0 := by
  rw [eq_comm, ← UInt32.add_zero pipe.nread]
  exact distance_eq_iff.symm

theorem isFull_iff : pipe.IsFull ↔ pipe.count = PIPESIZE :=
  distance_eq_iff.symm

@[simp] theorem buffered_length (pipe : PipeBuffer) : pipe.buffered.length = pipe.count :=
  contents_length ..

theorem buffered_put (room : pipe.count < PIPESIZE) (byte : UInt8) :
    (pipe.put byte).buffered = pipe.buffered ++ [byte] :=
  held_push (by decide) pipe.data byte (by decide) room

theorem count_put (room : pipe.count < PIPESIZE) (byte : UInt8) :
    (pipe.put byte).count = pipe.count + 1 := by
  have longer := congrArg List.length (buffered_put room byte)
  simpa using longer

theorem buffered_advance (some : pipe.nread ≠ pipe.nwrite) :
    pipe.buffered = pipe.first :: pipe.advance.buffered :=
  held_pop (by decide) pipe.data some

theorem count_advance (some : pipe.nread ≠ pipe.nwrite) : pipe.count = pipe.advance.count + 1 :=
  distance_succ some

end PipeBuffer

/-- What the loop of `pipewrite` does: it stores bytes while there is room. -/
structure Fills (killed : Bool) (bytes : List UInt8) (pipe : PipeBuffer) (written : Written) :
    Prop where
  split : written.stored ++ written.left = bytes
  buffered : written.pipe.buffered = pipe.buffered ++ written.stored
  bound : written.pipe.count ≤ PIPESIZE
  toPipe : written.pipe.toPipe = pipe.toPipe
  nread : written.pipe.nread = pipe.nread
  stopped : written.left ≠ [] → written.pipe.IsFull
  done : written.ending = .done ↔ written.left = []
  refused : written.ending = .refused ↔
    written.left ≠ [] ∧ (pipe.readopen = false ∨ killed = true)

theorem writeLoop_fills (killed : Bool) (bytes : List UInt8) {pipe : PipeBuffer}
    (bound : pipe.count ≤ PIPESIZE) : Fills killed bytes pipe (writeLoop killed bytes pipe) := by
  induction bytes generalizing pipe with
  | nil =>
    exact ⟨rfl, (List.append_nil _).symm, bound, rfl, rfl, fun nonempty => absurd rfl nonempty,
      by simp [writeLoop], by simp [writeLoop]⟩
  | cons byte rest ih =>
    unfold writeLoop
    by_cases full : pipe.IsFull
    · rw [if_pos full]
      refine ⟨rfl, (List.append_nil _).symm, bound, rfl, rfl, fun _ => full, ?_, ?_⟩
      · by_cases refuses : pipe.readopen = false ∨ killed = true <;> simp [refuses]
      · by_cases refuses : pipe.readopen = false ∨ killed = true <;> simp [refuses]
    rw [if_neg full]
    have room : pipe.count < PIPESIZE := by
      rw [PipeBuffer.isFull_iff] at full
      omega
    have within : (pipe.put byte).count ≤ PIPESIZE := by
      rw [PipeBuffer.count_put room byte]
      exact room
    have fills := ih within
    refine ⟨congrArg (byte :: ·) fills.split, ?_, fills.bound, fills.toPipe, fills.nread,
      fills.stopped, fills.done, fills.refused⟩
    rw [fills.buffered, PipeBuffer.buffered_put room byte, List.append_assoc]
    rfl

section

variable {killed : Bool} {bytes : List UInt8} {pipe : PipeBuffer} {written : Written}
  (fills : Fills killed bytes pipe written)
include fills

theorem Fills.full (full : pipe.IsFull) : written.pipe.IsFull := by
  have bound := fills.bound
  have length := congrArg List.length fills.buffered
  rw [PipeBuffer.isFull_iff] at full ⊢
  rw [List.length_append, PipeBuffer.buffered_length, PipeBuffer.buffered_length] at length
  omega

theorem Fills.overflow (empty : pipe.nread = pipe.nwrite) (left : written.left ≠ []) :
    PIPESIZE < bytes.length := by
  have full := PipeBuffer.isFull_iff.mp (fills.stopped left)
  have none := PipeBuffer.count_eq_zero_iff.mp empty
  have length := congrArg List.length fills.buffered
  have some := List.length_pos_iff.mpr left
  rw [List.length_append, PipeBuffer.buffered_length, PipeBuffer.buffered_length] at length
  rw [← fills.split, List.length_append]
  omega

end

/-- What the loop of `piperead` does: it takes bytes while there are any. -/
structure Drains (pipe : PipeBuffer) (copied : PipeBuffer × List UInt8) : Prop where
  buffered : pipe.buffered = copied.2 ++ copied.1.buffered
  bound : copied.1.count ≤ pipe.count
  toPipe : copied.1.toPipe = pipe.toPipe
  nwrite : copied.1.nwrite = pipe.nwrite

theorem readLoop_drains (n : Nat) (pipe : PipeBuffer) : Drains pipe (readLoop n pipe) := by
  induction n generalizing pipe with
  | zero => exact ⟨rfl, Nat.le_refl _, rfl, rfl⟩
  | succ n ih =>
    unfold readLoop
    by_cases empty : pipe.nread = pipe.nwrite
    · rw [if_pos empty]
      exact ⟨rfl, Nat.le_refl _, rfl, rfl⟩
    rw [if_neg empty]
    have drains := ih pipe.advance
    refine ⟨?_, ?_, drains.toPipe, drains.nwrite⟩
    · rw [PipeBuffer.buffered_advance empty, drains.buffered]
      rfl
    · have fewer := PipeBuffer.count_advance empty
      have bound := drains.bound
      show (readLoop n pipe.advance).1.count ≤ pipe.count
      omega

namespace PipeSystem

variable {process : Type} [DecidableEq process]

/-- The buffer is within its size, and the bytes that have been taken and those in the buffer
are the bytes that have been stored. -/
structure Flows (s : PipeSystem process) : Prop where
  bound : s.pipe.count ≤ PIPESIZE
  stream : s.taken ++ s.pipe.buffered = s.stored

omit [DecidableEq process] in
theorem Flows.congr {s next : PipeSystem process} (flows : s.Flows)
    (count : next.pipe.count = s.pipe.count) (buffered : next.pipe.buffered = s.pipe.buffered)
    (taken : next.taken = s.taken) (stored : next.stored = s.stored) : next.Flows := by
  refine ⟨?_, ?_⟩
  · rw [count]
    exact flows.bound
  · rw [taken, buffered, stored]
    exact flows.stream

section

variable {s : PipeSystem process} (flows : s.Flows)
include flows

theorem Flows.pipewrite (p : process) (n : Int32) (left : List UInt8) :
    (s.pipewrite p n left).Flows := by
  have fills := writeLoop_fills (s.proc p).killed left flows.bound
  have moved : (s.stores (writeLoop (s.proc p).killed left s.pipe)).Flows := by
    refine ⟨fills.bound, ?_⟩
    show s.taken ++ (writeLoop (s.proc p).killed left s.pipe).pipe.buffered =
      s.stored ++ (writeLoop (s.proc p).killed left s.pipe).stored
    rw [fills.buffered, ← List.append_assoc, flows.stream]
  unfold PipeSystem.pipewrite
  cases ending : (writeLoop (s.proc p).killed left s.pipe).ending with
  | done | refused | full =>
    simp only [ending]
    exact moved.congr rfl rfl rfl rfl

theorem Flows.piperead (p : process) (n : Int32) : (s.piperead p n).Flows := by
  unfold PipeSystem.piperead
  by_cases waits : s.pipe.nread = s.pipe.nwrite ∧ s.pipe.writeopen = true
  · rw [if_pos waits]
    by_cases killed : (s.proc p).killed = true
    · rw [if_pos killed]
      exact flows.congr rfl rfl rfl rfl
    · rw [if_neg killed]
      exact flows.congr rfl rfl rfl rfl
  rw [if_neg waits]
  have drains := readLoop_drains n.toInt.toNat s.pipe
  refine ⟨Nat.le_trans drains.bound flows.bound, ?_⟩
  show s.taken ++ (readLoop n.toInt.toNat s.pipe).2 ++
    (readLoop n.toInt.toNat s.pipe).1.buffered = s.stored
  rw [List.append_assoc, ← drains.buffered]
  exact flows.stream

theorem Flows.take (event : PipeEvent process) : (s.take event).Flows := by
  cases event with
  | pipewrite p n bytes => exact flows.pipewrite p n bytes
  | piperead p n => exact flows.piperead p n
  | resume p =>
    show (s.resume p).Flows
    unfold PipeSystem.resume
    cases task : (s.proc p).task with
    | none => exact flows
    | write n left => exact flows.pipewrite p n left
    | read n => exact flows.piperead p n
  | pipeclose writable =>
    cases writable with
    | true | false => exact flows.congr rfl rfl rfl rfl
  | kill | wake => exact flows.congr rfl rfl rfl rfl

end

theorem Run.flows {meets : PipeSystem process → PipeEvent process → Prop} {s : PipeSystem process}
    (run : Run meets s) : s.Flows := by
  induction run with
  | start fresh =>
    have empty := PipeBuffer.count_eq_zero_iff.mp (fresh.nread.trans fresh.nwrite.symm)
    refine ⟨by rw [empty]; exact Nat.zero_le _, ?_⟩
    rw [fresh.taken, fresh.stored, PipeBuffer.buffered, empty]
    rfl
  | event before event enabled met flows => exact flows.take event

/-- A pipe is a lossless stream in the order of storing: at every point its counters are at
most `PIPESIZE` apart, and the bytes that reads have taken, followed by those in the buffer,
are the bytes that writes have stored. -/
theorem pipe_stream_exact {s : PipeSystem process} (reachable : Reachable s) :
    (s.pipe.nwrite - s.pipe.nread).toNat ≤ PIPESIZE ∧ s.taken ++ s.pipe.buffered = s.stored :=
  ⟨(Run.flows reachable).bound, (Run.flows reachable).stream⟩

/-- A pipe as `pipealloc` leaves it in a page of zeros. -/
def fresh : PipeSystem process :=
  { pipe :=
      { readopen := true, writeopen := true, data := fun _ => 0, nread := 0, nwrite := 0 }
    proc := fun _ => { task := .none, sleeping := false, killed := false, result := 0 }
    stored := []
    taken := [] }

omit [DecidableEq process] in
theorem fresh_fresh : (fresh : PipeSystem process).Fresh :=
  ⟨rfl, rfl, rfl, rfl, fun _ => ⟨rfl, rfl⟩, rfl, rfl⟩

theorem pipe_stream_exact_two : ∃ s : PipeSystem Bool, Reachable s ∧ s.taken = [1, 2] ∧
    s.taken ++ s.pipe.buffered = [1, 2, 3] := by
  have first : Reachable ((fresh : PipeSystem Bool).take (.pipewrite true 3 [1, 2, 3])) :=
    .event (.start fresh_fresh) _ ⟨.inl rfl, rfl, rfl⟩ trivial
  have second : Reachable (((fresh : PipeSystem Bool).take (.pipewrite true 3 [1, 2, 3])).take
      (.piperead false 2)) := .event first _ ⟨.inl rfl, rfl⟩ trivial
  exact ⟨_, second, by decide +kernel, (pipe_stream_exact second).2.trans (by decide +kernel)⟩

end PipeSystem

end RtXv6
