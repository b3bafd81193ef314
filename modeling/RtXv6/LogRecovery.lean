import RtXv6.LogCommit
import RtXv6.LogReservation

/-!
# Crash atomicity of the log

A group is one transaction: after a crash anywhere and a recovery that may itself crash,
the home blocks hold what the groups up to some point have logged, all of each and none of
the later ones, and at least the groups whose commit had returned.
-/

namespace RtXv6

open Function (update update_self update_of_ne)
open Outcome Buffers PointUpdates
open List (mem_append mem_flatten mem_singleton)

/-- The home blocks after a list of logged writes. -/
def replay (base : UInt32 → Block) (writes : List Write) : UInt32 → Block :=
  writes.foldl (fun blocks write => update blocks write.blockno write.data) base

theorem replay_append (base : UInt32 → Block) (earlier later : List Write) :
    replay base (earlier ++ later) = replay (replay base earlier) later :=
  List.foldl_append

theorem replay_snoc (base : UInt32 → Block) (writes : List Write) (write : Write) :
    replay base (writes ++ [write]) =
      update (replay base writes) write.blockno write.data := by
  rw [replay_append]
  rfl

namespace History

/-- The home blocks after the first groups. -/
def committed (h : History) (count : Nat) : UInt32 → Block :=
  replay h.base (h.groups.take count).flatten

/-- Everything that has been logged. -/
def logged (h : History) : List Write := h.groups.flatten ++ h.current

/-- The home blocks after everything that has been logged. -/
def value (h : History) : UInt32 → Block := replay h.base h.logged

end History

variable {id : BufId}

/-- Logging a home block puts its new data among what the cache tracks. -/
theorem Buffers.Tracks.logs {s next : Buffers} {value : UInt32 → Block} {lh : List UInt32}
    (tracks : Tracks s value lh) {b : Buf} (record : s.cache.buf id = b)
    (device : b.dev = ROOTDEV) (others : ∀ other, other ≠ id → Kept other s next)
    (disk : next.disk = s.disk) (pinned : next.cache.buf id = { b with dirty := true }) :
    Tracks next (update value b.blockno b.data) (Journal.absorb lh b.blockno) := by
  have carries : next.Carries id ROOTDEV b.blockno := by
    rw [Carries, pinned]
    exact ⟨device, rfl⟩
  refine ⟨?_, ?_, ?_⟩
  · intro blockno home absent
    rw [Journal.mem_absorb, not_or] at absent
    rw [blocks, disk, update_of_ne absent.2]
    exact tracks.settled blockno home absent.1
  · intro blockno logged
    by_cases same : blockno = b.blockno
    · subst same
      refine ⟨id, carries, by rw [pinned], ?_⟩
      intro _
      rw [pinned, update_self]
    obtain ⟨other, otherCarries, dirty, data⟩ :=
      tracks.pinned blockno ((Journal.mem_absorb.mp logged).resolve_right same)
    have different : other ≠ id := by
      rintro rfl
      rw [Carries, record] at otherCarries
      exact same otherCarries.2.symm
    have kept := others other different
    refine ⟨other, ?_, by rw [kept.buf, dirty], ?_⟩
    · simpa only [Carries, kept.buf] using otherCarries
    · rw [kept.buf, kept.modified, update_of_ne same]
      exact data
  · intro other dirty
    rw [Journal.mem_absorb]
    by_cases same : other = id
    · subst same
      exact ⟨carries.1, .inr carries.2⟩
    · rw [(others other same).buf] at dirty ⊢
      exact ⟨(tracks.dirty other dirty).1, .inl (tracks.dirty other dirty).2⟩

variable {c : Committer} {buffers : Buffers} {durable : Nat} {pc : Pc}

namespace Journal

variable {s : Journal} {returned : Option BufId}

/-- The steps of processes leave what a commit relies on. -/
theorem Permitted.effect {step : BufferStep} {next : Buffers} (permitted : s.Permitted step)
    (coherent : Coherent s.buffers) (taken : s.buffers.take step = .ok (next, returned)) :
    Coherent next ∧ Quiet s.buffers next ∧
      ∀ process, (s.task process).isWorking = false → Spares process s.buffers next := by
  have apart : ∀ {process other : Nat}, (s.task process).isWorking = true →
      (s.task other).isWorking = false → process ≠ other := by
    rintro process other works idle rfl
    simp [works] at idle
  cases step with
  | bget process dev blockno =>
    obtain ⟨got, passed, _⟩ := take_bget taken
    obtain ⟨coherent', quiet, keeps, _⟩ := get_spec coherent permitted.2 passed
    refine ⟨coherent', quiet, ?_⟩
    intro other _ id held
    exact keeps id (by rw [held]; rfl)
  | fill process id =>
    obtain ⟨coherent', quiet, others, _⟩ := fill_spec coherent permitted.2 taken
    exact ⟨coherent', quiet, fun other idle =>
      spares_of_holder (apart permitted.1 idle) permitted.2.1 others⟩
  | change process id data =>
    obtain ⟨op, active⟩ := Task.isActive_iff.mp permitted.1
    have works : (s.task process).isWorking = true := by
      rw [active]
      rfl
    obtain ⟨coherent', quiet, others, _⟩ := change_spec coherent permitted.2 taken
    exact ⟨coherent', quiet, fun other idle =>
      spares_of_holder (apart works idle) permitted.2.1 others⟩
  | bwrite | logWrite => exact permitted.elim
  | brelse process id =>
    obtain ⟨coherent', quiet, others⟩ := brelse_spec coherent permitted.2 taken
    exact ⟨coherent', quiet, fun other idle =>
      spares_of_holder (apart permitted.1 idle) permitted.2.1.1 others⟩

/-- An open group: the disk holds the closed groups and the cache what has been logged
since. -/
structure Opened (buffers : Buffers) (lh : List UInt32) (h : History) : Prop where
  durable : Recoverable buffers.blocks (h.committed h.groups.length) []
  tracks : Tracks buffers h.value lh
  returned : h.returned = h.groups.length

/-- The last group is being committed. -/
def Closing (c : Committer) (h : History) (process : Nat) : Prop :=
  ∃ count, h.groups.length = count + 1 ∧ h.returned = count ∧
    c.At process (h.committed count) (h.committed (count + 1))

/-- The disk is recovered to at least the groups whose commit has returned. -/
def Recovers (c : Committer) (h : History) : Prop :=
  ∃ durable, h.returned ≤ durable ∧ durable ≤ h.groups.length ∧
    c.At initproc (h.committed durable) (h.committed durable)

/-- The invariant of the log. -/
structure Consistent (s : Journal) : Prop where
  coherent : Coherent s.buffers
  opened : s.phase = .running → s.log.committing = false →
    Opened s.buffers s.log.lh s.history
  closing : ∀ process op pc, s.task process = .committing op pc →
    Closing ⟨s.log.lh, s.buffers, pc⟩ s.history process
  recovers : ∀ pc, s.phase = .recovering pc → Recovers ⟨s.log.lh, s.buffers, pc⟩ s.history
  logging : ∀ process op id, s.task process = .logging op id →
    ∃ blockno data, Loaded s.buffers process id blockno data
  home : ∀ write ∈ s.history.current, Home write.blockno

variable {disk : Disk}

theorem Consistent.restart {h : History} {named : List UInt32} (least : h.returned ≤ durable)
    (most : durable ≤ h.groups.length)
    (recoverable : Recoverable (disk ROOTDEV) (h.committed durable) named)
    (home : ∀ write ∈ h.current, Home write.blockno) : Consistent (Journal.restart disk h) := by
  refine ⟨start_coherent disk, by simp [Journal.restart], by simp [Journal.restart], ?_,
    by simp [Journal.restart], home⟩
  intro pc phase
  obtain rfl := Phase.recovering.inj phase
  refine ⟨durable, least, most, named, recoverable, ?_, trivial⟩
  intro id dirty
  simp [Journal.restart, start, binit_ringed.2, Bcache.blank] at dirty

theorem Consistent.recoverable (consistent : Consistent s) (admission : Admission s) :
    ∃ named durable, s.history.returned ≤ durable ∧ durable ≤ s.history.groups.length ∧
      Recoverable s.buffers.blocks (s.history.committed durable) named := by
  cases phase : s.phase with
  | running =>
    by_cases committing : s.log.committing = true
    · obtain ⟨process, commits⟩ := admission.driven committing
      obtain ⟨op, pc, task⟩ := Task.isCommitting_iff.mp commits
      obtain ⟨count, length, returned, position⟩ := consistent.closing process op pc task
      rcases position.recoverable with ⟨named, before⟩ | ⟨named, after⟩
      · exact ⟨named, count, returned.le, by omega, before⟩
      · exact ⟨named, count + 1, by omega, by omega, after⟩
    · obtain ⟨durable, _, returned⟩ := consistent.opened phase (by simpa using committing)
      exact ⟨[], _, returned.le, Nat.le_refl _, durable⟩
  | recovering pc =>
    obtain ⟨durable, least, most, position⟩ := consistent.recovers pc phase
    rcases position.recoverable with ⟨named, found⟩ | ⟨named, found⟩
    · exact ⟨named, durable, least, most, found⟩
    · exact ⟨named, durable, least, most, found⟩

variable {next : Journal}

/-- A step that changes only where processes are, and none of them into a commit or into
`log_write`, keeps the invariant. -/
theorem Consistent.same (consistent : Consistent s) (buffers : next.buffers = s.buffers)
    (lh : next.log.lh = s.log.lh) (committing : next.log.committing = s.log.committing)
    (phase : next.phase = s.phase) (history : ∃ nextOp, next.history = { s.history with nextOp })
    (commits : ∀ process op pc, next.task process = .committing op pc →
      s.task process = .committing op pc)
    (logs : ∀ process op id, next.task process = .logging op id →
      ∃ blockno data, Loaded s.buffers process id blockno data) : Consistent next := by
  obtain ⟨nextOp, history⟩ := history
  refine ⟨buffers ▸ consistent.coherent, ?_, ?_, ?_, buffers ▸ logs, ?_⟩
  · rw [phase, committing, buffers, lh, history]
    intro running open_
    obtain ⟨durable, tracks, returned⟩ := consistent.opened running open_
    exact ⟨durable, tracks, returned⟩
  · intro process op pc task
    rw [buffers, lh, history]
    exact consistent.closing process op pc (commits process op pc task)
  · intro pc
    rw [phase, buffers, lh, history]
    exact consistent.recovers pc
  · rw [history]
    exact consistent.home

variable {process : Nat} {task : Task}

/-- Moving one process, not into a commit, keeps the invariant; a process that moves into
`log_write` holds its buffer. -/
theorem Consistent.setTask (consistent : Consistent s) (outside : task.isCommitting = false)
    (logs : ∀ op id, task = .logging op id →
      s.buffers.Holding process id ∧ (s.buffers.cache.buf id).dev = ROOTDEV) :
    Consistent (s.setTask process task) := by
  refine consistent.same rfl rfl rfl rfl ⟨_, rfl⟩ ?_ ?_
  · intro other op pc moved
    refine (of_update id ?_ moved).2
    rintro rfl
    simp [Task.isCommitting] at outside
  intro other op buffer moved
  rcases update_cases id moved with ⟨rfl, own⟩ | ⟨_, before⟩
  · obtain ⟨holding, device⟩ := logs op buffer own
    exact ⟨_, _, holding.1, ⟨device, rfl⟩, holding.2, rfl⟩
  · exact consistent.logging other op buffer before

/-- After an `end_op` a process is idle, woken, or where it was. -/
theorem leave_task {other : Nat} (busy : task ≠ .idle) (entered : task ≠ .starting)
    (moved : (s.leave process).task other = task) : s.task other = task := by
  have elsewhere := (of_update id busy.symm moved).2
  rcases wakeup_task s other with ⟨unchanged, _⟩ | ⟨_, woken⟩
  · exact unchanged.symm.trans elsewhere
  · exact absurd (elsewhere.symm.trans woken) entered

theorem Consistent.leave (consistent : Consistent s) (process : Nat) :
    Consistent (s.leave process) := by
  refine consistent.same rfl rfl rfl rfl ⟨_, rfl⟩ ?_ ?_
  · intro other op pc moved
    exact leave_task (by simp) (by simp) moved
  · intro other op id moved
    exact consistent.logging other op id (leave_task (by simp) (by simp) moved)

theorem Consistent.enter (consistent : Consistent s) (process : Nat) :
    Consistent (s.enter process) := by
  refine consistent.same rfl rfl rfl rfl ⟨_, rfl⟩ ?_ ?_
  · intro other op pc moved
    exact (of_update id (by simp) moved).2
  · intro other op buffer moved
    exact consistent.logging other op buffer (of_update id (by simp) moved).2

theorem Consistent.buffer (consistent : Consistent s) (running : s.phase = .running)
    {step : BufferStep} (permitted : s.Permitted step)
    (taken : s.buffers.take step = .ok (buffers, returned)) : Consistent { s with buffers } := by
  obtain ⟨coherent, quiet, spares⟩ := permitted.effect consistent.coherent taken
  have blocks : buffers.blocks = s.buffers.blocks := congrFun quiet.disk ROOTDEV
  refine ⟨coherent, ?_, ?_, ?_, ?_, consistent.home⟩
  · intro _ open_
    obtain ⟨durable, tracks, count⟩ := consistent.opened running open_
    exact ⟨blocks ▸ durable, tracks.quiet quiet, count⟩
  · intro process op pc task
    obtain ⟨count, length, before, position⟩ := consistent.closing process op pc task
    exact ⟨count, length, before, position.stable quiet (spares process (by rw [task]; rfl))⟩
  · intro pc phase
    simp [running] at phase
  · intro process op id task
    obtain ⟨blockno, data, loaded⟩ := consistent.logging process op id task
    exact ⟨blockno, data, loaded.kept (spares process (by rw [task]; rfl) id loaded.holder)⟩

variable {op : Nat}

section

variable (consistent : Consistent s) (admission : Admission s)
include consistent admission

/-- The locked section of `log_write` on a home block keeps the invariant. -/
theorem Consistent.logWrite (logging : s.task process = .logging op id)
    (home : Home (s.buffers.cache.buf id).blockno)
    (taken : s.buffers.take (.logWrite process id) = .ok (buffers, returned)) :
    Consistent (s.logged buffers process op (s.buffers.cache.buf id)) := by
  have running := admission.running logging (by simp)
  have open_ := admission.open_ logging (by simp [Task.inside])
  obtain ⟨blockno, data, loaded⟩ := consistent.logging process op id logging
  obtain ⟨coherent, others, disk, pinned⟩ :=
    pin_spec consistent.coherent ⟨loaded.holder, loaded.valid⟩ taken
  have blocks : buffers.blocks = s.buffers.blocks := congrFun disk ROOTDEV
  refine ⟨coherent, ?_, ?_, ?_, ?_, ?_⟩
  · intro _ _
    obtain ⟨durable, tracks, count⟩ := consistent.opened running open_
    refine ⟨blocks ▸ durable, ?_, count⟩
    have value : (s.logged buffers process op (s.buffers.cache.buf id)).history.value =
        update s.history.value (s.buffers.cache.buf id).blockno
          (s.buffers.cache.buf id).data := by
      simp only [History.value, History.logged, Journal.logged, ← List.append_assoc, replay_snoc]
    rw [value]
    exact tracks.logs rfl loaded.carries.1 others disk pinned
  · intro other otherOp pc task
    exact absurd (of_update (fun task => task) (by simp) task).2
      (admission.no_committer open_ other otherOp pc)
  · intro pc phase
    simp [Journal.logged, running] at phase
  · intro other otherOp otherId task
    obtain ⟨different, before⟩ := of_update (fun task => task) (by simp) task
    obtain ⟨otherBlock, otherData, otherLoaded⟩ := consistent.logging other otherOp otherId before
    refine ⟨otherBlock, otherData, otherLoaded.kept (others otherId ?_)⟩
    rintro rfl
    exact different (Option.some.inj (otherLoaded.holder.symm.trans loaded.holder))
  · intro write member
    rcases mem_append.mp member with old | new
    · exact consistent.home write old
    · rw [mem_singleton.mp new]
      exact home

theorem Consistent.close (grouped : Grouped s) (active : s.task process = .active op)
    (open_ : s.log.committing = false) : Consistent (s.close process op) := by
  have running := admission.running active (by simp)
  have listed := grouped.listed running open_
  refine ⟨consistent.coherent, by simp [Journal.close], ?_, ?_, ?_, by simp [Journal.close]⟩
  · intro other otherOp pc task
    rcases update_cases id task with ⟨same, ⟨⟩⟩ | ⟨_, before⟩
    · obtain ⟨durable, tracks, returned⟩ := consistent.opened running open_
      refine ⟨s.history.groups.length, ?_, returned, ?_⟩
      · simp [Journal.close]
      · have before : (s.close process op).history.committed s.history.groups.length =
            s.history.committed s.history.groups.length := by
          simp [History.committed, Journal.close]
        have after : (s.close process op).history.committed (s.history.groups.length + 1) =
            s.history.value := by
          have whole : (s.history.groups ++ [s.history.current]).take (s.history.groups.length + 1) =
              s.history.groups ++ [s.history.current] := List.take_of_length_le (by simp)
          simp [History.committed, History.value, History.logged, Journal.close, whole]
        rw [before, after]
        refine ⟨durable, tracks, listed.distinct, ?_, by simp⟩
        intro blockno member
        obtain ⟨write, logged, rfl⟩ := List.mem_map.mp ((listed.members blockno).mp member)
        exact consistent.home write logged
    · exact absurd before (admission.no_committer open_ other otherOp pc)
  · intro pc phase
    simp [Journal.close, running] at phase
  · intro other otherOp buffer task
    exact consistent.logging other otherOp buffer (of_update id (by simp) task).2

theorem Consistent.advance (committing : s.task process = .committing op pc)
    (advanced : Committer.advance process ⟨s.log.lh, s.buffers, pc⟩ = .ok c) :
    Consistent (s.commits process op c) := by
  have commitsNow := admission.closes committing
  obtain ⟨count, length, returned, position⟩ := consistent.closing process op pc committing
  obtain ⟨coherent, after⟩ := Committer.At.advance consistent.coherent position advanced
  refine ⟨coherent, ?_, ?_, ?_, ?_, consistent.home⟩
  · intro _ open_
    simp [Journal.commits, commitsNow] at open_
  · intro other otherOp otherPc task
    rcases update_cases id task with ⟨rfl, ⟨⟩⟩ | ⟨different, before⟩
    · exact ⟨count, length, returned, after⟩
    · exact absurd (admission.single other process (congrArg Task.isCommitting before)
        (congrArg Task.isCommitting committing)) different
  · intro otherPc phase
    simp [Journal.commits, admission.running committing (by simp)] at phase
  · intro other otherOp buffer task
    have open_ := admission.open_ (of_update id (by simp) task).2 (by simp [Task.inside])
    simp [commitsNow] at open_

theorem Consistent.finish (grouped : Grouped s)
    (committing : s.task process = .committing op .done) : Consistent (s.finish process op) := by
  obtain ⟨count, length, _, empty, durable, clean⟩ := consistent.closing process op .done committing
  have nothing : s.history.current = [] := grouped.closed (admission.closes committing)
  have everything : s.history.value = s.history.committed (count + 1) := by
    rw [History.value, History.logged, nothing, History.committed, ← length, List.take_length,
      List.append_nil]
  refine ⟨consistent.coherent, ?_, ?_, ?_, ?_, consistent.home⟩
  · intro _ _
    simp only at empty
    refine ⟨?_, ?_, rfl⟩
    · simp only [Journal.finish, length]
      exact durable
    · simp only [Journal.finish, empty]
      change Tracks s.buffers s.history.value []
      rw [everything]
      exact ⟨durable.rest, by simp, clean⟩
  · intro other otherOp pc task
    exact absurd task ((admission.finish committing).no_committer rfl other otherOp pc)
  · intro pc phase
    simp [Journal.finish, admission.running committing (by simp)] at phase
  · intro other otherOp id task
    have outside := admission.finish_outside committing other
    simp [task, Task.inside] at outside

theorem Consistent.recover (phase : s.phase = .recovering pc)
    (advanced : Committer.advance initproc ⟨s.log.lh, s.buffers, pc⟩ = .ok c) :
    Consistent (s.recovers c) := by
  have idle := (admission.stopped (by rw [phase]; simp)).2
  obtain ⟨durable, least, most, position⟩ := consistent.recovers pc phase
  obtain ⟨coherent, after⟩ := Committer.At.advance consistent.coherent position advanced
  refine ⟨coherent, by simp [Journal.recovers], ?_, ?_, ?_, consistent.home⟩
  · intro process op otherPc task
    simp [Journal.recovers, idle] at task
  · intro otherPc same
    obtain rfl := Phase.recovering.inj same
    exact ⟨durable, least, most, after⟩
  · intro process op id task
    simp [Journal.recovers, idle] at task

theorem Consistent.boot (phase : s.phase = .recovering .done) :
    Consistent { s with
      phase := .running
      history := opening s.buffers.disk s.history.nextOp } := by
  have idle := (admission.stopped (by rw [phase]; simp)).2
  obtain ⟨_, _, _, empty, recoverable, clean⟩ := consistent.recovers .done phase
  have nothing : s.log.lh = [] := empty
  refine ⟨consistent.coherent, ?_, ?_, by simp, ?_, by simp [opening]⟩
  · intro _ _
    simp only [nothing]
    refine ⟨?_, ⟨fun _ _ _ => rfl, by simp, clean⟩, rfl⟩
    exact ⟨recoverable.count, recoverable.header, List.nodup_nil, by simp, by decide, by simp,
      fun _ _ _ => rfl⟩
  · intro process op pc task
    simp [idle] at task
  · intro process op id task
    simp [idle] at task

end

/-- The calls of `log_write` name home blocks. -/
def Outside (s : Journal) (step : JournalStep) : Prop :=
  match step with
  | .logWrite process =>
    (s.task process).logs.all (fun (_, id) => decide (Home (s.buffers.cache.buf id).blockno)) = true
  | _ => True

instance (s : Journal) (step : JournalStep) : Decidable (Outside s step) :=
  match step with
  | .logWrite _ => inferInstanceAs (Decidable (_ = true))
  | .beginOp _ | .wake _ | .buffer _ | .logCheck _ _ | .endOp _ | .commit _ | .crash | .recover
  | .boot => inferInstanceAs (Decidable True)

/-- Every step whose `log_write` names a home block keeps the invariant. -/
theorem Consistent.step (consistent : Consistent s) (admission : Admission s) (grouped : Grouped s)
    (step : JournalStep) (enabled : s.Enabled step) (outside : Outside s step)
    (executed : s.execute step = .ok next) : Consistent next := by
  cases Becomes.of_execute enabled executed with
  | moves _ _ _ apart _ holds => exact consistent.setTask apart holds
  | enters => exact consistent.enter _
  | calls running permitted taken => exact consistent.buffer running permitted taken
  | logs logging taken =>
    simp only [Outside, logging, Task.logs, Option.all_some, decide_eq_true_eq] at outside
    exact consistent.logWrite admission logging outside taken
  | closes active open_ => exact consistent.close admission grouped active open_
  | leaves => exact consistent.leave _
  | finishes committing => exact consistent.finish admission grouped committing
  | advances committing advanced => exact consistent.advance admission committing advanced
  | crashes =>
    obtain ⟨named, durable, least, most, recoverable⟩ := consistent.recoverable admission
    exact Consistent.restart least most recoverable consistent.home
  | recovers phase advanced => exact consistent.recover admission phase advanced
  | boots phase => exact consistent.boot admission phase

theorem Logheader.read_empty {data : Block} (empty : Bytes.load data 0 4 = 0) :
    Logheader.read data = .ok [] := by
  unfold Logheader.read
  rw [empty]
  rfl

/-- The log is consistent in every state of a run that logs home blocks. -/
theorem Reachable.consistent (reachable : Reachable Outside disk s) : Consistent s := by
  induction reachable with
  | start empty =>
    have recoverable : Recoverable (disk ROOTDEV) ((opening disk 0).committed 0) [] :=
      ⟨empty, Logheader.read_empty empty, List.nodup_nil,
        by simp, by decide, by simp, fun _ _ _ => rfl⟩
    exact Consistent.restart (Nat.le_refl 0) (Nat.le_refl 0) recoverable (by simp [opening])
  | step before step enabled outside executed ih =>
    exact ih.step before.admission before.grouped step enabled outside executed

/-- The operations of a group are numbered after those of the groups before it. -/
structure Ordered (s : Journal) (opened : Nat) : Prop where
  groups : s.history.groups.Pairwise (fun earlier later =>
    ∀ first ∈ earlier, ∀ second ∈ later, first.op < second.op)
  closed : ∀ group ∈ s.history.groups, ∀ write ∈ group, write.op < opened
  current : ∀ write ∈ s.history.current, opened ≤ write.op
  inside : ∀ process op, (s.task process).inside = some op → opened ≤ op
  commits : ∀ process op pc, s.task process = .committing op pc → op < opened
  acknowledged : ∀ op ∈ s.history.acknowledged, op < opened ∧
    ∀ group ∈ s.history.groups.drop s.history.returned, ∀ write ∈ group, op < write.op
  fresh : opened ≤ s.history.nextOp

variable {opened : Nat}

section

variable (ordered : Ordered s opened)
include ordered

/-- A step that logs nothing and moves processes only where they were keeps the order. -/
theorem Ordered.same (history : next.history = s.history)
    (inside : ∀ process op, (next.task process).inside = some op →
      (s.task process).inside = some op)
    (commits : ∀ process op pc, next.task process = .committing op pc →
      ∃ before, s.task process = .committing op before) : Ordered next opened := by
  obtain ⟨groups, closed, current, inOp, committing, acknowledged, fresh⟩ := ordered
  refine ⟨?_, ?_, ?_, ?_, ?_, ?_, ?_⟩
  · rwa [history]
  · rwa [history]
  · rwa [history]
  · intro process op now
    exact inOp process op (inside process op now)
  · intro process op pc task
    obtain ⟨before, was⟩ := commits process op pc task
    exact committing process op before was
  · rwa [history]
  · rwa [history]

/-- A step that moves one process and nothing into an operation or a commit keeps the
order. -/
theorem Ordered.move (history : next.history = s.history)
    (tasks : next.task = update s.task process task)
    (inside : task.inside = (s.task process).inside)
    (commits : ∀ op pc, task = .committing op pc → ∃ before, s.task process = .committing op before) :
    Ordered next opened := by
  refine ordered.same history ?_ ?_
  · intro other op
    rw [tasks, update_same Task.inside inside]
    exact id
  intro other op pc moved
  rw [tasks] at moved
  rcases update_cases id moved with ⟨rfl, own⟩ | ⟨_, before⟩
  · exact commits op pc own
  · exact ⟨pc, before⟩

theorem Ordered.enter (process : Nat) : Ordered (s.enter process) opened := by
  obtain ⟨groups, closed, current, inside, commits, acknowledged, fresh⟩ := ordered
  refine ⟨groups, closed, current, ?_, ?_, acknowledged, Nat.le_succ_of_le fresh⟩
  · intro other op moved
    rcases update_cases Task.inside moved with ⟨_, own⟩ | ⟨_, before⟩
    · exact Option.some.inj own ▸ fresh
    · exact inside other op before
  · intro other op pc moved
    exact commits other op pc (of_update id (by simp) moved).2

theorem Ordered.logWrite (logging : s.task process = .logging op id) (buffers : Buffers) (b : Buf) :
    Ordered (s.logged buffers process op b) opened := by
  have number := ordered.inside process op (by rw [logging]; rfl)
  obtain ⟨groups, closed, current, inside, commits, acknowledged, fresh⟩ := ordered
  refine ⟨groups, closed, ?_, ?_, ?_, acknowledged, fresh⟩
  · intro write member
    rcases mem_append.mp member with old | new
    · exact current write old
    · rw [mem_singleton.mp new]
      exact number
  · intro other otherOp moved
    rcases update_cases Task.inside moved with ⟨_, own⟩ | ⟨_, before⟩
    · exact Option.some.inj own ▸ number
    · exact inside other otherOp before
  · intro other otherOp pc moved
    exact commits other otherOp pc (of_update (fun task => task) (by simp) moved).2

theorem Ordered.close (admission : Admission s) (grouped : Grouped s)
    (returned : s.history.returned = s.history.groups.length)
    (active : s.task process = .active op) (open_ : s.log.committing = false)
    (last : s.log.outstanding - 1 = 0) : Ordered (s.close process op) s.history.nextOp := by
  have number := grouped.operations process op (by rw [active]; rfl)
  obtain ⟨groups, closed, current, _, commits, acknowledged, fresh⟩ := ordered
  refine ⟨?_, ?_, by simp [Journal.close], ?_, ?_, ?_, Nat.le_refl _⟩
  · refine List.pairwise_append.mpr ⟨groups, List.pairwise_singleton _ _, ?_⟩
    intro earlier member later single first inEarlier second inLater
    rw [mem_singleton.mp single] at inLater
    exact Nat.lt_of_lt_of_le (closed earlier member first inEarlier) (current second inLater)
  · intro group member write inGroup
    rcases mem_append.mp member with old | new
    · exact Nat.lt_of_lt_of_le (closed group old write inGroup) fresh
    · rw [mem_singleton.mp new] at inGroup
      exact grouped.numbered write inGroup
  · intro other otherOp moved
    have outside := (admission.close active open_ last).closed rfl other
    simp [outside] at moved
  · intro other otherOp pc moved
    rcases update_cases id moved with ⟨_, ⟨⟩⟩ | ⟨_, before⟩
    · exact number
    · exact absurd before (admission.no_committer open_ other otherOp pc)
  · intro known member
    refine ⟨Nat.lt_of_lt_of_le (acknowledged known member).1 fresh, ?_⟩
    intro group later write inGroup
    simp only [Journal.close, returned, List.drop_left] at later
    rw [mem_singleton.mp later] at inGroup
    exact Nat.lt_of_lt_of_le (acknowledged known member).1 (current write inGroup)

theorem Ordered.finish (admission : Admission s)
    (committing : s.task process = .committing op .done) :
    Ordered (s.finish process op) opened := by
  have number := ordered.commits process op .done committing
  obtain ⟨groups, closed, current, _, _, acknowledged, fresh⟩ := ordered
  refine ⟨groups, closed, current, ?_, ?_, ?_, fresh⟩
  · intro other otherOp moved
    simp [admission.finish_outside committing] at moved
  · intro other otherOp pc moved
    exact absurd moved ((admission.finish committing).no_committer rfl other otherOp pc)
  · intro known member
    refine ⟨?_, ?_⟩
    · rcases List.mem_cons.mp member with rfl | old
      · exact number
      · exact (acknowledged known old).1
    · intro group later
      simp [Journal.finish] at later

theorem Ordered.step (admission : Admission s) (grouped : Grouped s) (consistent : Consistent s)
    (step : JournalStep) (enabled : s.Enabled step) (executed : s.execute step = .ok next) :
    ∃ opened, Ordered next opened := by
  cases Becomes.of_execute enabled executed with
  | moves _ inside _ outside =>
    refine ⟨opened, ordered.move rfl rfl inside ?_⟩
    rintro op pc rfl
    simp [Task.isCommitting] at outside
  | enters => exact ⟨opened, ordered.enter _⟩
  | calls | recovers =>
    exact ⟨opened, ordered.same rfl (fun _ _ inside => inside) (fun _ _ pc task => ⟨pc, task⟩)⟩
  | logs logging => exact ⟨opened, ordered.logWrite logging _ _⟩
  | closes active open_ last =>
    have running := admission.running active (by simp)
    exact ⟨_, ordered.close admission grouped (consistent.opened running open_).returned active open_
      last⟩
  | leaves =>
    refine ⟨opened, ordered.same rfl ?_ ?_⟩
    · intro other otherOp inside
      have before := (of_update Task.inside (by simp [Task.inside]) inside).2
      exact (wakeup_inside s other).symm.trans before
    · intro other otherOp pc moved
      exact ⟨pc, leave_task (by simp) (by simp) moved⟩
  | finishes committing => exact ⟨opened, ordered.finish admission committing⟩
  | advances committing =>
    refine ⟨opened, ordered.move rfl rfl (by rw [committing]; rfl) ?_⟩
    rintro _ _ ⟨⟩
    exact ⟨_, committing⟩
  | crashes =>
    obtain ⟨groups, closed, current, _, _, acknowledged, fresh⟩ := ordered
    exact ⟨opened, groups, closed, current, by simp [Journal.restart, Task.inside],
      by simp [Journal.restart], acknowledged, fresh⟩
  | boots phase =>
    have idle := (admission.stopped (by simp [phase])).2
    refine ⟨s.history.nextOp, List.Pairwise.nil, by simp [opening], by simp [opening], ?_, ?_,
      by simp [opening], Nat.le_refl _⟩
    · intro process op inside
      simp [idle, Task.inside] at inside
    · intro process op pc task
      simp [idle] at task

end

/-- Operations are ordered in every state of a run that logs home blocks. -/
theorem Reachable.ordered (reachable : Reachable Outside disk s) : ∃ opened, Ordered s opened := by
  induction reachable with
  | start _ =>
    exact ⟨0, List.Pairwise.nil, by simp [restart, opening], by simp [restart, opening],
      by simp [restart, Task.inside], by simp [restart], by simp [restart, opening], Nat.le_refl 0⟩
  | step before step enabled _ executed ih =>
    obtain ⟨opened, ordered⟩ := ih
    exact ordered.step before.admission before.grouped before.consistent step enabled executed

/-- The writes of one operation are all among the first groups or none is. -/
theorem Ordered.atomic (ordered : Ordered s opened) (durable : Nat) (op : Nat) :
    (∀ write ∈ s.history.logged, write.op = op →
      write ∈ (s.history.groups.take durable).flatten) ∨
      ∀ write ∈ (s.history.groups.take durable).flatten, write.op ≠ op := by
  by_cases found : ∃ write ∈ (s.history.groups.take durable).flatten, write.op = op
  · left
    obtain ⟨first, member, rfl⟩ := found
    obtain ⟨group, among, inGroup⟩ := mem_flatten.mp member
    intro write logged same
    rcases mem_append.mp logged with grouped | current
    · rw [← List.take_append_drop durable s.history.groups, List.flatten_append,
        mem_append] at grouped
      rcases grouped with early | late
      · exact early
      obtain ⟨later, amongLater, inLater⟩ := mem_flatten.mp late
      have split := ordered.groups
      rw [← List.take_append_drop durable s.history.groups, List.pairwise_append] at split
      have less := split.2.2 group among later amongLater first inGroup write inLater
      omega
    · have less := ordered.closed group (List.mem_of_mem_take among) first inGroup
      have least := ordered.current write current
      omega
  · right
    intro write member same
    exact found ⟨write, member, same⟩

/-- The writes of an operation whose `end_op` returned from a commit are all among the
groups whose commit returned. -/
theorem Ordered.acknowledges (ordered : Ordered s opened) (least : s.history.returned ≤ durable)
    (known : op ∈ s.history.acknowledged) {write : Write} (logged : write ∈ s.history.logged)
    (same : write.op = op) : write ∈ (s.history.groups.take durable).flatten := by
  obtain ⟨below, later⟩ := ordered.acknowledged op known
  rcases mem_append.mp logged with grouped | current
  · rw [← List.take_append_drop durable s.history.groups, List.flatten_append,
      mem_append] at grouped
    refine grouped.resolve_right ?_
    intro late
    obtain ⟨group, among, inGroup⟩ := mem_flatten.mp late
    have less := later group (List.drop_subset_drop_left _ least among) write inGroup
    omega
  · have bound := ordered.current write current
    omega

/-- After any run that logs home blocks, with crashes anywhere, a completed
`recover_from_log` leaves at home the state of a prefix of the groups that includes every
group whose commit had returned; the writes of an operation are in it all or not at all,
those of an operation whose `end_op` returned from its commit are in it, and the header
counts no block. -/
theorem recovery_atomic (disk : Disk) (s : Journal) (reachable : Reachable Outside disk s)
    (recovered : s.phase = .recovering .done) :
    ∃ durable, s.history.returned ≤ durable ∧ durable ≤ s.history.groups.length ∧
      (∀ blockno, Home blockno → s.buffers.disk ROOTDEV blockno =
        replay s.history.base (s.history.groups.take durable).flatten blockno) ∧
      (∀ op,
        (∀ write ∈ s.history.logged, write.op = op →
          write ∈ (s.history.groups.take durable).flatten) ∨
        ∀ write ∈ (s.history.groups.take durable).flatten, write.op ≠ op) ∧
      (∀ op ∈ s.history.acknowledged, ∀ write ∈ s.history.logged, write.op = op →
        write ∈ (s.history.groups.take durable).flatten) ∧
      Bytes.load (s.buffers.disk ROOTDEV headBlock) 0 4 = 0 := by
  obtain ⟨opened, ordered⟩ := reachable.ordered
  obtain ⟨durable, least, most, _, recoverable, _⟩ := reachable.consistent.recovers .done recovered
  refine ⟨durable, least, most, ?_, ordered.atomic durable, ?_, recoverable.count⟩
  · intro blockno home
    exact recoverable.rest blockno home List.not_mem_nil
  · intro op known write logged same
    exact ordered.acknowledges least known logged same

/-- One operation changes block 100 and ends; its commit crashes after the header is
written, and the machine recovers. -/
def crashed : List JournalStep :=
  startup ++ [.beginOp 1, .buffer (.bget 1 ROOTDEV 100), .buffer (.fill 1 1),
    .buffer (.change 1 1 (fun _ => 7)), .logCheck 1 1, .logWrite 1, .buffer (.brelse 1 1),
    .endOp 1] ++ List.replicate 14 (.commit 1) ++ [.crash] ++ List.replicate 18 .recover

/-- The recovered disk of that run. -/
theorem recovery_atomic_crashed : ∃ s, Reachable Outside (fun _ _ _ => 0) s ∧
    s.phase = .recovering .done ∧ s.buffers.disk ROOTDEV 100 0 = 7 ∧
    Bytes.load (s.buffers.disk ROOTDEV headBlock) 0 4 = 0 := by
  obtain ⟨s, reachable, passed⟩ := Reachable.of_play
    (.start (Bytes.load_zero 0 4) : Reachable Outside (fun _ _ _ => 0) _) crashed
    (fun s => decide (s.phase = .recovering .done ∧ s.buffers.disk ROOTDEV 100 0 = 7))
    (by decide +kernel)
  obtain ⟨recovered, installed⟩ := of_decide_eq_true passed
  obtain ⟨_, _, _, _, _, _, count⟩ := recovery_atomic _ s reachable recovered
  exact ⟨s, reachable, recovered, installed, count⟩

end Journal

end RtXv6
