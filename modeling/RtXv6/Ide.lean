import RtXv6.FsFormat
import RtXv6.LinkedQueue

/-!
# The two disk drivers

`ide.c` drives a disk by commands and interrupts. `iderw` appends a buffer to a queue, starts
the disk if the buffer is the first one, and sleeps until the buffer is valid and clean;
`ideintr` finishes the request at the head of the queue and starts the next one. The device
takes a command, completes it some time later, and raises one interrupt for it.

`memide.c` keeps the disk in memory and serves a request at once.

Each buffer is the subject of one call. A section under `idelock` is one step; between the
sections the device may complete its command, and processes may be woken for other reasons.
-/

namespace RtXv6

open Function (update)

/-- `SECTOR_SIZE`. -/
abbrev SECTOR_SIZE : Nat := 512

/-- What `idestart` writes to the registers of the device: the number of sectors, the four
parts of the sector number, the last of them with the drive, and the command with its data. -/
structure IdeCommand where
  count : Nat
  low : Nat
  mid : Nat
  high : Nat
  select : Nat
  write : Bool
  data : Block

namespace IdeCommand

/-- The drive that a command selects. -/
def drive (command : IdeCommand) : Nat := command.select / 16 % 2

/-- The sector that a command is for. -/
def sector (command : IdeCommand) : Nat :=
  command.low + 256 * command.mid + 65536 * command.high + 16777216 * (command.select % 16)

/-- The command for a buffer. -/
def make (b : Buf) : IdeCommand :=
  let sector := b.blockno.toNat * (BSIZE / SECTOR_SIZE)
  { count := BSIZE / SECTOR_SIZE
    low := sector % 256
    mid := sector / 256 % 256
    high := sector / 65536 % 256
    select := 0xe0 + 16 * (b.dev.toNat % 2) + sector / 16777216 % 16
    write := b.dirty
    data := b.data }

end IdeCommand

/-- Where the process is that calls `iderw` for a buffer. -/
inductive IdeStage where
  | calling
  | sleeping
  | woken
  | returned
  deriving DecidableEq, Repr

/-- The driver, the device with its two drives, and the processes. `arrived` and `served` are
the requests in the order in which they entered the queue and left it. -/
structure Ide (ι : Type) where
  buf : ι → Buf
  qnext : ι → Option ι
  idequeue : Option ι
  havedisk1 : Bool
  disk : Nat → Nat → Block
  command : Option IdeCommand
  register : Block
  raised : Bool
  stage : ι → IdeStage
  arrived : List ι
  served : List ι

/-- A call, a woken process that goes on, a completed command, an interrupt, or a wakeup for
another reason. -/
inductive IdeEvent (ι : Type) where
  | iderw (id : ι)
  | resume (id : ι)
  | complete
  | ideintr
  | wake (id : ι)

namespace Ide

variable {ι : Type} [DecidableEq ι]

/-- `idestart`, for a device that has no command. -/
def idestart (id : ι) (s : Ide ι) : Except Halt (Ide ι) :=
  if (s.buf id).blockno.toNat ≥ FSSIZE then .error (.panic "incorrect blockno")
  else if BSIZE / SECTOR_SIZE > 7 then .error (.panic "idestart")
  else if s.command.isSome then .error .runaway
  else .ok { s with command := some (IdeCommand.make (s.buf id)) }

/-- The loop at the end of `iderw`: a process whose buffer is not done sleeps. -/
def wait (id : ι) (s : Ide ι) : Ide ι :=
  { s with
    stage := update s.stage id
      (if (s.buf id).valid ∧ ¬ (s.buf id).dirty then .returned else .sleeping) }

/-- `iderw`, up to where it first sleeps. -/
def iderw (id : ι) (s : Ide ι) : Except Halt (Ide ι) :=
  if !(s.buf id).busy then .error (.panic "iderw: buf not busy")
  else if (s.buf id).valid ∧ ¬ (s.buf id).dirty then .error (.panic "iderw: nothing to do")
  else if (s.buf id).dev ≠ 0 ∧ !s.havedisk1 then
    .error (.panic "iderw: ide disk 1 not present")
  else
    let qnext := update s.qnext id none
    match LinkedQueue.findEnd qnext s.idequeue (s.arrived.length + 1) none with
    | none => .error .runaway
    | some place => do
      let queue := LinkedQueue.storeAt qnext s.idequeue id place
      let s :=
        { s with idequeue := queue.1, qnext := queue.2, arrived := s.arrived ++ [id] }
      let s ← if s.idequeue = some id then idestart id s else .ok s
      return s.wait id

/-- `wakeup` for a buffer: `wakeup1` compares the flags of the buffers that the channels are. -/
def wakeup (id : ι) (s : Ide ι) : Ide ι :=
  { s with
    stage := fun other =>
      if s.stage other = .sleeping ∧ (s.buf other).busy = (s.buf id).busy ∧
          (s.buf other).valid = (s.buf id).valid ∧ (s.buf other).dirty = (s.buf id).dirty then
        .woken
      else s.stage other }

/-- `ideintr`. -/
def ideintr (s : Ide ι) : Except Halt (Ide ι) :=
  let s := { s with raised := false }
  match s.idequeue with
  | none => .ok s
  | some id =>
    let data := if (s.buf id).dirty then (s.buf id).data else s.register
    let s :=
      { s with
        idequeue := s.qnext id
        buf := update s.buf id { s.buf id with data, valid := true, dirty := false }
        served := s.served ++ [id] }
    let s := s.wakeup id
    match s.idequeue with
    | none => .ok s
    | some next => idestart next s

/-- The device completes its command without error and raises an interrupt. -/
def complete (s : Ide ι) : Ide ι :=
  match s.command with
  | none => s
  | some command =>
    let s := { s with command := none, raised := true }
    if command.write then
      { s with
        disk := update s.disk command.drive
          (update (s.disk command.drive) command.sector command.data) }
    else { s with register := s.disk command.drive command.sector }

/-- The next state. -/
def take (s : Ide ι) : IdeEvent ι → Except Halt (Ide ι)
  | .iderw id => s.iderw id
  | .resume id => .ok (s.wait id)
  | .complete => .ok s.complete
  | .ideintr => s.ideintr
  | .wake id => .ok { s with stage := update s.stage id .woken }

/-- When an event can happen. -/
def Enabled (s : Ide ι) : IdeEvent ι → Prop
  | .iderw id => s.stage id = .calling
  | .resume id => s.stage id = .woken
  | .complete => s.command.isSome
  | .ideintr => s.raised
  | .wake id => s.stage id = .sleeping

/-- Nothing has been requested; the buffers are busy and belong to blocks of device 1. -/
structure Start (s : Ide ι) : Prop where
  idequeue : s.idequeue = none
  havedisk1 : s.havedisk1 = true
  command : s.command = none
  raised : s.raised = false
  stage : ∀ id, s.stage id = .calling
  arrived : s.arrived = []
  served : s.served = []
  busy : ∀ id, (s.buf id).busy = true
  dev : ∀ id, (s.buf id).dev = 1
  blockno : ∀ id, (s.buf id).blockno.toNat < FSSIZE

/-- The states after any events. -/
inductive Run (first : Ide ι) : Ide ι → Prop
  | start (start : Start first) : Run first first
  | step {s next : Ide ι} (before : Run first s) {event : IdeEvent ι} (enabled : s.Enabled event)
      (takes : s.take event = .ok next) : Run first next

end Ide

/-- The disk of `memide.c`. -/
structure Memide where
  disksize : Nat
  memdisk : Nat → Block

namespace Memide

/-- `iderw` of `memide.c`. -/
def iderw (b : Buf) (m : Memide) : Except Halt (Buf × Memide) :=
  if !b.busy then .error (.panic "iderw: buf not busy")
  else if b.valid ∧ ¬ b.dirty then .error (.panic "iderw: nothing to do")
  else if b.dev ≠ 1 then .error (.panic "iderw: request not for disk 1")
  else if b.blockno.toNat ≥ m.disksize then .error (.panic "iderw: block out of range")
  else if b.dirty then
    .ok ({ b with dirty := false, valid := true },
      { m with memdisk := update m.memdisk b.blockno.toNat b.data })
  else .ok ({ b with data := m.memdisk b.blockno.toNat, valid := true }, m)

/-- The calls of `iderw` for a list of buffers, one after the other. -/
def serve {ι : Type} [DecidableEq ι] : List ι → (ι → Buf) → Memide →
    Except Halt ((ι → Buf) × Memide)
  | [], buf, m => .ok (buf, m)
  | id :: rest, buf, m => do
    let done ← m.iderw (buf id)
    serve rest (update buf id done.1) done.2

end Memide

end RtXv6
