import RtXv6.Log

/-!
# Operations over the log

Any number of processes read blocks, bracket operations with `begin_op` and `end_op` and
inside them change blocks and pass them to `log_write`. `log_write` tests the size of the
group before it takes the lock, so other processes may log between its test and its own
update. The process whose `end_op` was the last of a group commits it; processes in
`begin_op` sleep meanwhile.

The file system starts and restarts with `recover_from_log`. A run may crash anywhere.
-/

namespace RtXv6

open Function (update)

/-- What a process is doing with the log. An operation has a number that no other
operation has. -/
inductive Task where
  | idle
  | starting
  | asleep
  | active (op : Nat)
  | logging (op : Nat) (id : BufId)
  | committing (op : Nat) (pc : Pc)
  deriving DecidableEq, Repr

namespace Task

/-- The operation a process is inside, between `begin_op` and `end_op`. -/
def inside : Task → Option Nat
  | .active op => some op
  | .logging op _ => some op
  | _ => none

/-- The process is inside an operation and not in `log_write`. -/
def isActive : Task → Bool
  | .active _ => true
  | _ => false

/-- The process is in `log_write`, past its tests. -/
def isLogging : Task → Bool
  | .logging _ _ => true
  | _ => false

/-- The operation and the buffer of a process in `log_write`. -/
def logs : Task → Option (Nat × BufId)
  | .logging op id => some (op, id)
  | _ => none

/-- The process commits a group. -/
def isCommitting : Task → Bool
  | .committing _ _ => true
  | _ => false

/-- The process may call the buffer cache. -/
def isWorking : Task → Bool
  | .idle => true
  | .active _ => true
  | _ => false

variable {task : Task}

theorem isActive_iff : task.isActive = true ↔ ∃ op, task = .active op := by
  cases task <;> simp [isActive]

theorem isLogging_iff : task.isLogging = true ↔ ∃ op id, task = .logging op id := by
  cases task <;> simp [isLogging]

theorem isCommitting_iff : task.isCommitting = true ↔ ∃ op pc, task = .committing op pc := by
  cases task <;> simp [isCommitting]

end Task

/-- The fields of `struct log` that change. The count of `lh` is its length. -/
structure Log where
  lh : List UInt32
  outstanding : Int
  committing : Bool

/-- A block as an operation passed it to `log_write`. -/
structure Write where
  op : Nat
  blockno : UInt32
  data : Block

/-- The running system, or where the recovery of a starting one is. -/
inductive Phase where
  | running
  | recovering (pc : Pc)
  deriving DecidableEq, Repr

/-- What has been logged since the system last began to run on the disk `base`: the
groups whose commit has begun, the writes of the open group, how many commits have
returned and the operations whose `end_op` returned from a commit. -/
structure History where
  base : UInt32 → Block
  groups : List (List Write)
  current : List Write
  returned : Nat
  acknowledged : List Nat
  nextOp : Nat

/-- The log, the cache and the disk under it, and the processes. -/
structure Journal where
  buffers : Buffers
  log : Log
  task : Nat → Task
  phase : Phase
  history : History

/-- The steps of the system. -/
inductive JournalStep where
  | beginOp (process : Nat)
  | wake (process : Nat)
  | buffer (step : BufferStep)
  | logCheck (process : Nat) (id : BufId)
  | logWrite (process : Nat)
  | endOp (process : Nat)
  | commit (process : Nat)
  | crash
  | recover
  | boot

namespace Journal

/-- The process that runs `initlog`. -/
abbrev initproc : Nat := 1

/-- Set what a process is doing. -/
def setTask (s : Journal) (process : Nat) (task : Task) : Journal :=
  { s with task := update s.task process task }

/-- `wakeup(&log)`. -/
def wakeup (s : Journal) : Journal :=
  { s with task := fun process =>
      if s.task process = .asleep then .starting else s.task process }

/-- The test of `begin_op` for an operation that might exhaust the log space. -/
def Full (s : Journal) : Prop :=
  (s.log.lh.length : Int) + (s.log.outstanding + 1) * (MAXOPBLOCKS : Int) > LOGSIZE

instance (s : Journal) : Decidable s.Full :=
  inferInstanceAs (Decidable (_ > _))

/-- The last branch of `begin_op`: a new operation. -/
def enter (s : Journal) (process : Nat) : Journal :=
  { s with
    log := { s.log with outstanding := s.log.outstanding + 1 }
    task := update s.task process (.active s.history.nextOp)
    history := { s.history with nextOp := s.history.nextOp + 1 } }

/-- One pass through the loop of `begin_op`. -/
def beginOp (s : Journal) (process : Nat) : Journal :=
  if s.log.committing then s.setTask process .asleep
  else if s.Full then s.setTask process .asleep
  else s.enter process

/-- The tests of `log_write(b)`. -/
def logCheck (s : Journal) (process op : Nat) (id : BufId) : Except Halt Journal :=
  if s.log.lh.length ≥ LOGSIZE ∨ (s.log.lh.length : Int) ≥ (nlog : Int) - 1 then
    .error (.panic "too big a transaction")
  else if s.log.outstanding < 1 then .error (.panic "log_write outside of trans")
  else .ok (s.setTask process (.logging op id))

/-- `log.lh.block` with a block: one that the group has already is absorbed, another one
is appended. -/
def absorb (lh : List UInt32) (blockno : UInt32) : List UInt32 :=
  if blockno ∈ lh then lh else lh ++ [blockno]

theorem mem_absorb {lh : List UInt32} {blockno other : UInt32} :
    other ∈ absorb lh blockno ↔ other ∈ lh ∨ other = blockno := by
  unfold absorb
  split
  · next present =>
    refine ⟨.inl, ?_⟩
    rintro (old | rfl)
    · exact old
    · exact present
  · simp

/-- The state after the locked section of `log_write(b)`. -/
def logged (s : Journal) (buffers : Buffers) (process op : Nat) (b : Buf) : Journal :=
  { s with
    buffers
    log := { s.log with lh := absorb s.log.lh b.blockno }
    task := update s.task process (.active op)
    history := { s.history with current := s.history.current ++ [⟨op, b.blockno, b.data⟩] } }

/-- The locked section of `log_write(b)`. A block beyond `LOGSIZE` runs over
`log.lh.block`. -/
def logWrite (s : Journal) (process op : Nat) (id : BufId) : Except Halt Journal :=
  let b := s.buffers.cache.buf id
  if b.blockno ∉ s.log.lh ∧ LOGSIZE ≤ s.log.lh.length then .error .overrun
  else do
    let (buffers, _) ← s.buffers.take (.logWrite process id)
    .ok (s.logged buffers process op b)

/-- The last operation of a group ends. -/
def close (s : Journal) (process op : Nat) : Journal :=
  { s with
    log := { s.log with outstanding := s.log.outstanding - 1, committing := true }
    task := update s.task process (.committing op .test)
    history := { s.history with
      groups := s.history.groups ++ [s.history.current], current := [] } }

/-- An operation ends that is not the last of its group. -/
def leave (s : Journal) (process : Nat) : Journal :=
  { s with
    log := { s.log with outstanding := s.log.outstanding - 1 }
    task := update s.wakeup.task process .idle }

/-- `end_op` up to the call of `commit`. -/
def endOp (s : Journal) (process op : Nat) : Except Halt Journal :=
  if s.log.committing then .error (.panic "log.committing")
  else if s.log.outstanding - 1 = 0 then .ok (s.close process op)
  else .ok (s.leave process)

/-- `end_op` after `commit` has returned. -/
def finish (s : Journal) (process op : Nat) : Journal :=
  { s with
    log := { s.log with committing := false }
    task := update s.wakeup.task process .idle
    history := { s.history with
      returned := s.history.groups.length
      acknowledged := op :: s.history.acknowledged } }

/-- The next step of the process that commits. -/
def commit (s : Journal) (process op : Nat) (pc : Pc) : Except Halt Journal :=
  if pc = .done then .ok (s.finish process op)
  else do
    let c ← Committer.advance process ⟨s.log.lh, s.buffers, pc⟩
    .ok { s with
      buffers := c.buffers
      log := { s.log with lh := c.lh }
      task := update s.task process (.committing op c.pc) }

/-- The next step of `recover_from_log`. -/
def recover (s : Journal) (pc : Pc) : Except Halt Journal := do
  let c ← Committer.advance initproc ⟨s.log.lh, s.buffers, pc⟩
  .ok { s with
    buffers := c.buffers
    log := { s.log with lh := c.lh }
    phase := .recovering c.pc }

/-- The log in zeroed static memory. -/
def zeroLog : Log := { lh := [], outstanding := 0, committing := false }

/-- A machine that starts on the disk it finds. -/
def restart (disk : Disk) (history : History) : Journal :=
  { buffers := Buffers.start disk
    log := zeroLog
    task := fun _ => .idle
    phase := .recovering (.readHead .get)
    history }

/-- A history in which nothing has been logged. -/
def opening (disk : Disk) (nextOp : Nat) : History :=
  { base := disk ROOTDEV
    groups := []
    current := []
    returned := 0
    acknowledged := []
    nextOp }

/-- What a process may ask of the buffer cache: only `log.c` writes buffers, and only
inside an operation does a process change one. -/
def Permitted (s : Journal) : BufferStep → Prop
  | .bget process dev blockno =>
    (s.task process).isWorking = true ∧ s.buffers.Allowed (.bget process dev blockno)
  | .fill process id => (s.task process).isWorking = true ∧ s.buffers.Allowed (.fill process id)
  | .change process id data =>
    (s.task process).isActive = true ∧ s.buffers.Allowed (.change process id data)
  | .bwrite _ _ => False
  | .logWrite _ _ => False
  | .brelse process id => (s.task process).isWorking = true ∧ s.buffers.Allowed (.brelse process id)

/-- The steps that the positions of the processes allow. A process passes buffers to
`log_write` that it holds and that are on the file system's device. -/
def Enabled (s : Journal) : JournalStep → Prop
  | .beginOp process =>
    s.phase = .running ∧ (s.task process = .idle ∨ s.task process = .starting)
  | .wake process => s.task process = .asleep
  | .buffer step => s.phase = .running ∧ s.Permitted step
  | .logCheck process id => (s.task process).isActive = true ∧
    s.buffers.Holding process id ∧ (s.buffers.cache.buf id).dev = ROOTDEV
  | .logWrite process => (s.task process).isLogging = true
  | .endOp process => (s.task process).isActive = true
  | .commit process => (s.task process).isCommitting = true
  | .crash => True
  | .recover => s.phase ≠ .running
  | .boot => s.phase = .recovering .done

instance (s : Journal) (step : BufferStep) : Decidable (s.Permitted step) :=
  match step with
  | .bget process dev blockno =>
    inferInstanceAs (Decidable (_ ∧ s.buffers.Allowed (.bget process dev blockno)))
  | .fill process id => inferInstanceAs (Decidable (_ ∧ s.buffers.Allowed (.fill process id)))
  | .change process id data =>
    inferInstanceAs (Decidable (_ ∧ s.buffers.Allowed (.change process id data)))
  | .bwrite _ _ => inferInstanceAs (Decidable False)
  | .logWrite _ _ => inferInstanceAs (Decidable False)
  | .brelse process id => inferInstanceAs (Decidable (_ ∧ s.buffers.Allowed (.brelse process id)))

instance (s : Journal) (step : JournalStep) : Decidable (s.Enabled step) :=
  match step with
  | .beginOp _ => inferInstanceAs (Decidable (_ ∧ (_ ∨ _)))
  | .wake process => inferInstanceAs (Decidable (s.task process = .asleep))
  | .buffer step => inferInstanceAs (Decidable (_ ∧ s.Permitted step))
  | .logCheck process id => inferInstanceAs (Decidable (_ ∧ s.buffers.Holding process id ∧ _))
  | .logWrite process => inferInstanceAs (Decidable ((s.task process).isLogging = true))
  | .endOp process => inferInstanceAs (Decidable ((s.task process).isActive = true))
  | .commit process => inferInstanceAs (Decidable ((s.task process).isCommitting = true))
  | .crash => inferInstanceAs (Decidable True)
  | .recover => inferInstanceAs (Decidable (s.phase ≠ .running))
  | .boot => inferInstanceAs (Decidable (s.phase = .recovering .done))

/-- Execute a step. -/
def execute (s : Journal) : JournalStep → Except Halt Journal
  | .beginOp process => .ok (s.beginOp process)
  | .wake process => .ok (s.setTask process .starting)
  | .buffer step => do
    let (buffers, _) ← s.buffers.take step
    .ok { s with buffers }
  | .logCheck process id =>
    match s.task process with
    | .active op => s.logCheck process op id
    | _ => .ok s
  | .logWrite process =>
    match s.task process with
    | .logging op id => s.logWrite process op id
    | _ => .ok s
  | .endOp process =>
    match s.task process with
    | .active op => s.endOp process op
    | _ => .ok s
  | .commit process =>
    match s.task process with
    | .committing op pc => s.commit process op pc
    | _ => .ok s
  | .crash => .ok (restart s.buffers.disk s.history)
  | .recover =>
    match s.phase with
    | .recovering pc => s.recover pc
    | .running => .ok s
  | .boot =>
    .ok { s with phase := .running, history := opening s.buffers.disk s.history.nextOp }

/-- The states of all runs, from a disk with an empty log, whose steps are all
permitted. -/
inductive Reachable (permits : Journal → JournalStep → Prop) (disk : Disk) : Journal → Prop
  | start (empty : Bytes.load (disk ROOTDEV headBlock) 0 4 = 0) :
      Reachable permits disk (restart disk (opening disk 0))
  | step {s next : Journal} (before : Reachable permits disk s) (step : JournalStep)
      (enabled : s.Enabled step) (permitted : permits s step)
      (executed : s.execute step = .ok next) : Reachable permits disk next

/-- Play a list of permitted steps. -/
def play (permits : Journal → JournalStep → Prop) [∀ s step, Decidable (permits s step)]
    (s : Journal) : List JournalStep → Option Journal
  | [] => some s
  | step :: rest =>
    if s.Enabled step ∧ permits s step then
      match s.execute step with
      | .ok next => next.play permits rest
      | .error _ => none
    else none

variable {s next : Journal}

section

variable {permits : Journal → JournalStep → Prop} [∀ s step, Decidable (permits s step)]
  {disk : Disk} (reachable : Reachable permits disk s) (steps : List JournalStep)
include reachable

theorem Reachable.play (played : s.play permits steps = some next) :
    Reachable permits disk next := by
  induction steps generalizing s with
  | nil =>
    obtain rfl : s = next := Option.some.inj played
    exact reachable
  | cons step rest ih =>
    by_cases possible : s.Enabled step ∧ permits s step
    · rw [Journal.play, if_pos possible] at played
      cases executed : s.execute step with
      | error halt => simp [executed] at played
      | ok middle =>
        rw [executed] at played
        exact ih (reachable.step step possible.1 possible.2 executed) played
    · rw [Journal.play, if_neg possible] at played
      cases played

theorem Reachable.of_play (test : Journal → Bool)
    (passed : (s.play permits steps).any test = true) :
    ∃ next, Reachable permits disk next ∧ test next = true := by
  cases played : s.play permits steps with
  | none => simp [played] at passed
  | some next =>
    rw [played] at passed
    exact ⟨next, reachable.play steps played, passed⟩

end

/-- The steps of a recovery that finds an empty log, and the start of the system. -/
def startup : List JournalStep := List.replicate 10 .recover ++ [.boot]

/-- The state after a call of a commit. -/
def commits (s : Journal) (process op : Nat) (c : Committer) : Journal :=
  { s with
    buffers := c.buffers
    log := { s.log with lh := c.lh }
    task := update s.task process (.committing op c.pc) }

/-- The state after a call of a recovery. -/
def recovers (s : Journal) (c : Committer) : Journal :=
  { s with
    buffers := c.buffers
    log := { s.log with lh := c.lh }
    phase := .recovering c.pc }

/-- What an enabled step makes of the system when it does not halt. In `begin_op`, when it
is woken and at the tests of `log_write` a process only moves. -/
inductive Becomes (s : Journal) : JournalStep → Journal → Prop
  | moves {step : JournalStep} {process : Nat} {task : Task}
      (runs : s.task process = .idle → s.phase = .running)
      (inside : task.inside = (s.task process).inside)
      (still : (s.task process).isCommitting = false) (outside : task.isCommitting = false)
      (waits : task = .asleep → s.log.committing = true ∨ s.Full)
      (holds : ∀ op id, task = .logging op id →
        s.buffers.Holding process id ∧ (s.buffers.cache.buf id).dev = ROOTDEV) :
      Becomes s step (s.setTask process task)
  | enters {process : Nat} (running : s.phase = .running)
      (outside : (s.task process).inside = none) (open_ : s.log.committing = false)
      (room : ¬ s.Full) : Becomes s (.beginOp process) (s.enter process)
  | calls {step : BufferStep} {buffers : Buffers} {returned : Option BufId}
      (running : s.phase = .running) (permitted : s.Permitted step)
      (taken : s.buffers.take step = .ok (buffers, returned)) :
      Becomes s (.buffer step) { s with buffers }
  | logs {process op : Nat} {id : BufId} {buffers : Buffers} {returned : Option BufId}
      (logging : s.task process = .logging op id)
      (taken : s.buffers.take (.logWrite process id) = .ok (buffers, returned)) :
      Becomes s (.logWrite process) (s.logged buffers process op (s.buffers.cache.buf id))
  | closes {process op : Nat} (active : s.task process = .active op)
      (open_ : s.log.committing = false) (last : s.log.outstanding - 1 = 0) :
      Becomes s (.endOp process) (s.close process op)
  | leaves {process op : Nat} (active : s.task process = .active op)
      (open_ : s.log.committing = false) (more : s.log.outstanding - 1 ≠ 0) :
      Becomes s (.endOp process) (s.leave process)
  | finishes {process op : Nat} (committing : s.task process = .committing op .done) :
      Becomes s (.commit process) (s.finish process op)
  | advances {process op : Nat} {pc : Pc} {c : Committer}
      (committing : s.task process = .committing op pc)
      (advanced : Committer.advance process ⟨s.log.lh, s.buffers, pc⟩ = .ok c) :
      Becomes s (.commit process) (s.commits process op c)
  | crashes : Becomes s .crash (restart s.buffers.disk s.history)
  | recovers {pc : Pc} {c : Committer} (phase : s.phase = .recovering pc)
      (advanced : Committer.advance initproc ⟨s.log.lh, s.buffers, pc⟩ = .ok c) :
      Becomes s .recover (s.recovers c)
  | boots (phase : s.phase = .recovering .done) :
      Becomes s .boot { s with
        phase := .running
        history := opening s.buffers.disk s.history.nextOp }

variable {process op : Nat}

theorem Becomes.of_beginOp (enabled : s.Enabled (.beginOp process)) :
    Becomes s (.beginOp process) (s.beginOp process) := by
  have outside : (s.task process).inside = none ∧ (s.task process).isCommitting = false := by
    rcases enabled.2 with idle | starting
    · rw [idle]
      exact ⟨rfl, rfl⟩
    · rw [starting]
      exact ⟨rfl, rfl⟩
  have sleeps : s.log.committing = true ∨ s.Full →
      Becomes s (.beginOp process) (s.setTask process .asleep) := by
    intro reason
    exact .moves (fun _ => enabled.1) outside.1.symm outside.2 rfl (fun _ => reason) (by simp)
  unfold Journal.beginOp
  split
  · next committing => exact sleeps (.inl committing)
  next open_ =>
  split
  · next full => exact sleeps (.inr full)
  · next room => exact .enters enabled.1 outside.1 (eq_false_of_ne_true open_) room

theorem Becomes.of_logCheck {id : BufId} (enabled : s.Enabled (.logCheck process id))
    (active : s.task process = .active op) (executed : s.logCheck process op id = .ok next) :
    Becomes s (.logCheck process id) next := by
  unfold logCheck at executed
  split at executed
  · cases executed
  split at executed
  · cases executed
  obtain rfl := Except.ok.inj executed
  refine .moves (by simp [active]) (by rw [active]; rfl) (by rw [active]; rfl) rfl (by simp) ?_
  rintro _ _ ⟨⟩
  exact enabled.2

theorem Becomes.of_logWrite {id : BufId} (logging : s.task process = .logging op id)
    (executed : s.logWrite process op id = .ok next) : Becomes s (.logWrite process) next := by
  unfold logWrite at executed
  simp only at executed
  split at executed
  · cases executed
  obtain ⟨⟨buffers, returned⟩, taken, rest⟩ := Outcome.bind_ok executed
  obtain rfl := Except.ok.inj rest
  exact .logs logging taken

theorem Becomes.of_endOp (active : s.task process = .active op)
    (executed : s.endOp process op = .ok next) : Becomes s (.endOp process) next := by
  unfold endOp at executed
  split at executed
  · cases executed
  next open_ =>
  split at executed
  · next last =>
    obtain rfl := Except.ok.inj executed
    exact .closes active (eq_false_of_ne_true open_) last
  · next more =>
    obtain rfl := Except.ok.inj executed
    exact .leaves active (eq_false_of_ne_true open_) more

theorem Becomes.of_commit {pc : Pc} (committing : s.task process = .committing op pc)
    (executed : s.commit process op pc = .ok next) : Becomes s (.commit process) next := by
  unfold commit at executed
  split at executed
  · next done =>
    obtain rfl := Except.ok.inj executed
    exact .finishes (done ▸ committing)
  · obtain ⟨c, advanced, rfl⟩ := Outcome.bind_ok_ok executed
    exact .advances committing advanced

theorem Becomes.of_execute {step : JournalStep} (enabled : s.Enabled step)
    (executed : s.execute step = .ok next) : Becomes s step next := by
  cases step with
  | beginOp process =>
    obtain rfl := Except.ok.inj executed
    exact of_beginOp enabled
  | wake process =>
    obtain rfl := Except.ok.inj executed
    have asleep : s.task process = .asleep := enabled
    exact .moves (by simp [asleep]) (by rw [asleep]; rfl) (by rw [asleep]; rfl) rfl (by simp)
      (by simp)
  | buffer step =>
    obtain ⟨⟨buffers, returned⟩, taken, rest⟩ := Outcome.bind_ok executed
    obtain rfl := Except.ok.inj rest
    exact .calls enabled.1 enabled.2 taken
  | logCheck process id =>
    obtain ⟨op, active⟩ := Task.isActive_iff.mp enabled.1
    rw [execute, active] at executed
    exact of_logCheck enabled active executed
  | logWrite process =>
    obtain ⟨op, id, logging⟩ := Task.isLogging_iff.mp enabled
    rw [execute, logging] at executed
    exact of_logWrite logging executed
  | endOp process =>
    obtain ⟨op, active⟩ := Task.isActive_iff.mp enabled
    rw [execute, active] at executed
    exact of_endOp active executed
  | commit process =>
    obtain ⟨op, pc, committing⟩ := Task.isCommitting_iff.mp enabled
    rw [execute, committing] at executed
    exact of_commit committing executed
  | crash =>
    obtain rfl := Except.ok.inj executed
    exact .crashes
  | recover =>
    cases phase : s.phase with
    | running => exact absurd phase enabled
    | recovering pc =>
      rw [execute, phase] at executed
      obtain ⟨c, advanced, rfl⟩ := Outcome.bind_ok_ok executed
      exact .recovers phase advanced
  | boot =>
    obtain rfl := Except.ok.inj executed
    exact .boots enabled

end Journal

end RtXv6
