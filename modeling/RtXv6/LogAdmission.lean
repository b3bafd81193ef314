import Mathlib.Data.Finset.Card
import RtXv6.Journal
import RtXv6.PointUpdates

/-!
# Admission of operations to the log

`log.outstanding` counts the processes between `begin_op` and `end_op`. A commit begins
when it has dropped to zero and no operation is admitted before the commit ends, so a
group is closed to every `log_write` while it commits. A process sleeps in `begin_op`
only while a commit runs or the log has no room for one more operation: whenever either
ends, the sleepers are woken.
-/

namespace RtXv6.Journal

open PointUpdates

/-- The number of processes inside an operation. -/
def Counts (task : Nat → Task) (outstanding : Int) : Prop :=
  ∃ processes : Finset Nat, (∀ process, process ∈ processes ↔ (task process).inside.isSome = true) ∧
    outstanding = processes.card

variable {task : Nat → Task} {outstanding : Int}

theorem Counts.congr {next : Nat → Task} (counts : Counts task outstanding)
    (same : ∀ process, (next process).inside.isSome = (task process).inside.isSome) :
    Counts next outstanding := by
  obtain ⟨processes, members, size⟩ := counts
  refine ⟨processes, ?_, size⟩
  intro process
  rw [members, same]

theorem Counts.start : Counts (fun _ => .idle) 0 :=
  ⟨∅, by simp [Task.inside], rfl⟩

variable {process : Nat}

section

variable (counts : Counts task outstanding)
include counts

theorem Counts.enter {entered : Task} (outside : (task process).inside = none)
    (inside : entered.inside.isSome = true) :
    Counts (Function.update task process entered) (outstanding + 1) := by
  obtain ⟨processes, members, size⟩ := counts
  have fresh : process ∉ processes := by
    rw [members, outside]
    exact Bool.false_ne_true
  refine ⟨insert process processes, ?_, ?_⟩
  · intro other
    by_cases same : other = process
    · subst same
      simp [inside]
    · simp [same, members]
  · rw [Finset.card_insert_of_notMem fresh, size]
    rfl

theorem Counts.leave {left : Task} (inside : (task process).inside.isSome = true)
    (outside : left.inside = none) :
    Counts (Function.update task process left) (outstanding - 1) := by
  obtain ⟨processes, members, size⟩ := counts
  have member : process ∈ processes := (members process).mpr inside
  refine ⟨processes.erase process, ?_, ?_⟩
  · intro other
    by_cases same : other = process
    · subst same
      simp [outside]
    · simp [same, members]
  · have positive := Finset.card_pos.mpr ⟨process, member⟩
    rw [Finset.card_erase_of_mem member, size]
    omega

theorem Counts.zero_iff : outstanding = 0 ↔ ∀ process, (task process).inside = none := by
  obtain ⟨processes, members, size⟩ := counts
  rw [size, Int.natCast_eq_zero, Finset.card_eq_zero, Finset.eq_empty_iff_forall_notMem]
  apply forall_congr'
  intro process
  rw [members, Bool.not_eq_true, Option.isSome_eq_false_iff, Option.isNone_iff_eq_none]

theorem Counts.positive (inside : (task process).inside.isSome = true) : 1 ≤ outstanding := by
  obtain ⟨processes, members, size⟩ := counts
  have positive := Finset.card_pos.mpr ⟨process, (members process).mpr inside⟩
  omega

end

/-- The invariant of admission. -/
structure Admission (s : Journal) : Prop where
  counts : Counts s.task s.log.outstanding
  closed : s.log.committing = true → ∀ process, (s.task process).inside = none
  commits : ∀ process, (s.task process).isCommitting = true → s.log.committing = true
  single : ∀ process other, (s.task process).isCommitting = true →
    (s.task other).isCommitting = true → process = other
  driven : s.log.committing = true → ∃ process, (s.task process).isCommitting = true
  waits : ∀ process, s.task process = .asleep → s.log.committing = true ∨ s.Full
  stopped : s.phase ≠ .running → s.log.committing = false ∧ ∀ process, s.task process = .idle

theorem full_iff (s : Journal) :
    s.Full ↔ 30 < (s.log.lh.length : Int) + (s.log.outstanding + 1) * 10 :=
  Iff.rfl

theorem absorb_longer (lh : List UInt32) (blockno : UInt32) :
    lh.length ≤ (absorb lh blockno).length := by
  unfold absorb
  split <;> simp

variable {next s : Journal}

theorem Full.longer (full : s.Full) (outstanding : next.log.outstanding = s.log.outstanding)
    (longer : s.log.lh.length ≤ next.log.lh.length) : next.Full := by
  rw [full_iff] at full ⊢
  rw [outstanding]
  omega

/-- A step that changes one process, neither into nor out of an operation or a commit, and
that leaves no more room in an open group keeps the invariant. -/
theorem Admission.update (admission : Admission s) {task : Task}
    (tasks : next.task = Function.update s.task process task)
    (outstanding : next.log.outstanding = s.log.outstanding)
    (committing : next.log.committing = s.log.committing) (running : next.phase = .running)
    (inside : task.inside.isSome = (s.task process).inside.isSome)
    (commits : task.isCommitting = (s.task process).isCommitting)
    (longer : s.log.committing = false → s.log.lh.length ≤ next.log.lh.length)
    (waits : task = .asleep → s.log.committing = true ∨ next.Full) : Admission next := by
  have sameInside : ∀ other, (next.task other).inside.isSome = (s.task other).inside.isSome := by
    rw [tasks]
    exact update_same (fun task : Task => task.inside.isSome) inside
  have sameCommits : ∀ other, (next.task other).isCommitting = (s.task other).isCommitting := by
    rw [tasks]
    exact update_same Task.isCommitting commits
  refine ⟨outstanding ▸ admission.counts.congr sameInside, ?_, ?_, ?_, ?_, ?_, ?_⟩
  · intro commitsNow other
    have before := admission.closed (committing ▸ commitsNow) other
    rw [← Option.isNone_iff_eq_none, ← Option.isSome_eq_false_iff] at before ⊢
    rw [sameInside, before]
  · intro other
    rw [sameCommits, committing]
    exact admission.commits other
  · intro first second
    rw [sameCommits, sameCommits]
    exact admission.single first second
  · intro commitsNow
    obtain ⟨driver, drives⟩ := admission.driven (committing ▸ commitsNow)
    exact ⟨driver, by rw [sameCommits, drives]⟩
  · intro other asleep
    rw [committing]
    rw [tasks] at asleep
    rcases update_cases id asleep with ⟨_, sleeps⟩ | ⟨_, slept⟩
    · exact waits sleeps
    cases commitsNow : s.log.committing with
    | true => exact .inl rfl
    | false =>
      have full := (admission.waits other slept).resolve_left (by simp [commitsNow])
      exact .inr (full.longer outstanding (longer commitsNow))
  · intro stopped
    exact absurd running stopped

/-- A step that leaves the processes and the log keeps the invariant. -/
theorem Admission.same (admission : Admission s) (tasks : next.task = s.task)
    (log : next.log = s.log) (phase : next.phase = s.phase) : Admission next := by
  obtain ⟨buffers, _, _, _, history⟩ := next
  simp only at tasks log phase
  subst tasks log phase
  obtain ⟨counts, closed, commits, single, driven, waits, stopped⟩ := admission
  exact ⟨counts, closed, commits, single, driven, waits, stopped⟩

/-- A machine in which nobody commits satisfies the invariant, if its sleepers wait for room. -/
theorem Admission.of_open (counts : Counts s.task s.log.outstanding)
    (open_ : s.log.committing = false) (nobody : ∀ process, (s.task process).isCommitting = false)
    (waits : ∀ process, s.task process = .asleep → s.Full)
    (stopped : s.phase = .running ∨ ∀ process, s.task process = .idle) : Admission s := by
  have notCommitting : ¬ s.log.committing = true := by simp [open_]
  have outside : ∀ process, ¬ (s.task process).isCommitting = true := by simp [nobody]
  exact ⟨counts, fun now => absurd now notCommitting, fun process now => absurd now (outside process),
    fun process _ now => absurd now (outside process), fun now => absurd now notCommitting,
    fun process asleep => .inr (waits process asleep),
    fun halted => ⟨open_, stopped.resolve_left halted⟩⟩

theorem Admission.of_idle (idle : ∀ process, s.task process = .idle)
    (counts : Counts s.task s.log.outstanding) (open_ : s.log.committing = false) :
    Admission s := by
  refine .of_open counts open_ ?_ ?_ (.inr idle)
  · intro process
    rw [idle]
    rfl
  · intro process asleep
    simp [idle] at asleep

/-- Waking the sleepers changes who waits and nothing else. -/
theorem wakeup_task (s : Journal) (process : Nat) :
    (s.wakeup.task process = s.task process ∧ s.task process ≠ .asleep) ∨
      (s.task process = .asleep ∧ s.wakeup.task process = .starting) := by
  by_cases asleep : s.task process = .asleep
  · exact .inr ⟨asleep, if_pos asleep⟩
  · exact .inl ⟨if_neg asleep, asleep⟩

/-- An observation that does not tell the sleepers from the woken is as before. -/
theorem wakeup_same {α : Type} (observe : Task → α) (same : observe .starting = observe .asleep)
    (s : Journal) (process : Nat) : observe (s.wakeup.task process) = observe (s.task process) := by
  rcases wakeup_task s process with ⟨unchanged, _⟩ | ⟨asleep, woken⟩
  · rw [unchanged]
  · rw [asleep, woken, same]

theorem wakeup_inside (s : Journal) (process : Nat) :
    (s.wakeup.task process).inside = (s.task process).inside :=
  wakeup_same Task.inside rfl s process

/-- After a wakeup nobody sleeps, and no process that then becomes idle does. -/
theorem wakeup_idle_awake (s : Journal) (process other : Nat) :
    Function.update s.wakeup.task process .idle other ≠ .asleep := by
  intro asleep
  rcases wakeup_task s other with ⟨same, awake⟩ | ⟨_, woken⟩
  · exact awake (same.symm.trans (of_update id (by simp) asleep).2)
  · have slept := (of_update id (by simp) asleep).2
    simp [woken] at slept

section Reading

variable {op : Nat} {pc : Pc} {task : Task} (admission : Admission s)

include admission

theorem Admission.running (doing : s.task process = task) (busy : task ≠ .idle) :
    s.phase = .running := by
  by_contra stopped
  exact busy (doing.symm.trans ((admission.stopped stopped).2 process))

theorem Admission.open_ (doing : s.task process = task) (inside : task.inside ≠ none) :
    s.log.committing = false := by
  by_contra committing
  rw [← doing] at inside
  exact inside (admission.closed (Bool.of_not_eq_false committing) process)

theorem Admission.closes (committing : s.task process = .committing op pc) :
    s.log.committing = true :=
  admission.commits process (by rw [committing]; rfl)

theorem Admission.nobody (open_ : s.log.committing = false) (process : Nat) :
    (s.task process).isCommitting = false := by
  by_contra commits
  have committing := admission.commits process (Bool.of_not_eq_false commits)
  simp [open_] at committing

theorem Admission.no_committer (open_ : s.log.committing = false) (process op : Nat) (pc : Pc) :
    s.task process ≠ .committing op pc := by
  intro committing
  simp [admission.closes committing] at open_

end Reading

theorem Admission.enter (admission : Admission s) (running : s.phase = .running)
    (outside : (s.task process).inside = none) (open_ : s.log.committing = false) :
    Admission (s.enter process) := by
  refine .of_open (admission.counts.enter outside rfl) open_ ?_ ?_ (.inl running)
  · intro other
    refine (update_same Task.isCommitting ?_ other).trans (admission.nobody open_ other)
    exact (admission.nobody open_ process).symm
  intro other asleep
  have slept := (of_update id (by simp) asleep).2
  have full := (admission.waits other slept).resolve_left (by simp [open_])
  rw [full_iff] at full ⊢
  simp only [Journal.enter]
  omega

theorem Admission.close (admission : Admission s) {op : Nat} (inside : s.task process = .active op)
    (open_ : s.log.committing = false) (last : s.log.outstanding - 1 = 0) :
    Admission (s.close process op) := by
  have counts : Counts (s.close process op).task (s.log.outstanding - 1) :=
    admission.counts.leave (by rw [inside]; rfl) rfl
  have committer : ∀ other, ((s.close process op).task other).isCommitting = true →
      other = process := by
    intro other commits
    rcases update_cases Task.isCommitting commits with ⟨same, _⟩ | ⟨_, before⟩
    · exact same
    · simp [admission.nobody open_] at before
  refine ⟨counts, fun _ => counts.zero_iff.mp last, fun _ _ => rfl, ?_, ?_, fun _ _ => .inl rfl, ?_⟩
  · intro first second firstCommits secondCommits
    rw [committer first firstCommits, committer second secondCommits]
  · intro _
    exact ⟨process, by simp [Journal.close, Task.isCommitting]⟩
  · intro stopped
    exact absurd (admission.running inside (by simp)) stopped

/-- Who commits after a process has become idle did so before. -/
theorem idle_isCommitting {other : Nat}
    (commits : (Function.update s.wakeup.task process .idle other).isCommitting = true) :
    other ≠ process ∧ (s.task other).isCommitting = true := by
  obtain ⟨different, before⟩ := of_update Task.isCommitting (by simp [Task.isCommitting]) commits
  exact ⟨different, (wakeup_same Task.isCommitting rfl s other).symm.trans before⟩

theorem Admission.leave (admission : Admission s) {op : Nat} (inside : s.task process = .active op)
    (open_ : s.log.committing = false) :
    Admission (s.leave process) := by
  have woken : Counts s.wakeup.task s.log.outstanding :=
    admission.counts.congr (fun other => by rw [wakeup_inside])
  refine .of_open (woken.leave (by rw [wakeup_inside, inside]; rfl) rfl) open_ ?_ ?_
    (.inl (admission.running inside (by simp)))
  · intro other
    by_contra commits
    have before := (idle_isCommitting (Bool.of_not_eq_false commits)).2
    simp [admission.nobody open_] at before
  · intro other asleep
    exact absurd asleep (wakeup_idle_awake s process other)

variable {op : Nat} {pc : Pc}

theorem Admission.finish (admission : Admission s) (committing : s.task process = .committing op pc) :
    Admission (s.finish process op) := by
  refine .of_open (admission.counts.congr ?_) rfl ?_ ?_
    (.inl (admission.running committing (by simp)))
  · intro other
    refine congrArg Option.isSome ((update_same Task.inside ?_ other).trans (wakeup_inside s other))
    rw [wakeup_inside, committing]
    rfl
  · intro other
    by_contra commits
    obtain ⟨different, elsewhere⟩ := idle_isCommitting (Bool.of_not_eq_false commits)
    exact different (admission.single other process elsewhere (by rw [committing]; rfl))
  · intro other asleep
    exact absurd asleep (wakeup_idle_awake s process other)

theorem Admission.finish_outside (admission : Admission s)
    (committing : s.task process = .committing op pc) (other : Nat) :
    ((s.finish process op).task other).inside = none :=
  (admission.finish committing).counts.zero_iff.mp
    (admission.counts.zero_iff.mpr (admission.closed (admission.closes committing))) other

theorem Admission.step (admission : Admission s) (step : JournalStep) (enabled : s.Enabled step)
    (executed : s.execute step = .ok next) : Admission next := by
  cases Becomes.of_execute enabled executed with
  | moves runs inside still outside waits =>
    have running : s.phase = .running := by
      by_contra halted
      exact halted (runs ((admission.stopped halted).2 _))
    exact admission.update rfl rfl rfl running (by rw [inside]) (outside.trans still.symm)
      (fun _ => Nat.le_refl _) waits
  | enters running outside open_ => exact admission.enter running outside open_
  | calls => exact admission.same rfl rfl rfl
  | logs logging =>
    exact admission.update rfl rfl rfl (admission.running logging (by simp)) (by rw [logging]; rfl)
      (by rw [logging]; rfl) (fun _ => absorb_longer _ _) (by simp)
  | closes active open_ last => exact admission.close active open_ last
  | leaves active open_ => exact admission.leave active open_
  | finishes committing => exact admission.finish committing
  | advances committing =>
    exact admission.update rfl rfl rfl (admission.running committing (by simp))
      (by rw [committing]; rfl) (by rw [committing]; rfl)
      (fun open_ => absurd committing (admission.no_committer open_ _ _ _)) (by simp)
  | crashes => exact .of_idle (fun _ => rfl) .start rfl
  | recovers phase | boots phase =>
    obtain ⟨open_, idle⟩ := admission.stopped (by simp [phase])
    exact .of_idle idle admission.counts open_

theorem Reachable.admission {permits : Journal → JournalStep → Prop} {disk : Disk}
    (reachable : Reachable permits disk s) : Admission s := by
  induction reachable with
  | start _ => exact .of_idle (fun _ => rfl) .start rfl
  | step _ step enabled _ executed ih =>
    exact ih.step step enabled executed

/-- In every reachable state: a commit runs only with no operation outstanding, no process
is in or enters `log_write` while one runs, `end_op` does not find one running, and a
process sleeps in `begin_op` only while one runs or the log has no room. -/
theorem group_commit_isolated (permits : Journal → JournalStep → Prop) (disk : Disk) (s : Journal)
    (reachable : Reachable permits disk s) :
    (s.log.committing = true → s.log.outstanding = 0) ∧
    (∀ process id, s.Enabled (.logCheck process id) ∨ s.Enabled (.logWrite process) →
      s.log.committing = false) ∧
    (∀ process, s.Enabled (.endOp process) →
      s.execute (.endOp process) ≠ .error (.panic "log.committing")) ∧
    ∀ process, s.task process = .asleep → s.log.committing = true ∨
      (s.log.lh.length : Int) + (s.log.outstanding + 1) * (MAXOPBLOCKS : Int) > LOGSIZE := by
  have admission := reachable.admission
  refine ⟨?_, ?_, ?_, admission.waits⟩
  · intro committing
    exact admission.counts.zero_iff.mpr (admission.closed committing)
  · rintro process id (check | write)
    · obtain ⟨op, active⟩ := Task.isActive_iff.mp check.1
      exact admission.open_ active (by simp [Task.inside])
    · obtain ⟨op, buffer, logging⟩ := Task.isLogging_iff.mp write
      exact admission.open_ logging (by simp [Task.inside])
  · intro process enabled failed
    obtain ⟨op, active⟩ := Task.isActive_iff.mp enabled
    have notCommitting := admission.open_ active (by simp [Task.inside])
    simp only [execute, active, endOp, notCommitting, Bool.false_eq_true, if_false] at failed
    split at failed <;> cases failed

/-- A process that begins and ends an operation commits with none outstanding. -/
theorem group_commit_isolated_first : ∃ s, Reachable (fun _ _ => True) (fun _ _ _ => 0) s ∧
    s.log.committing = true ∧ s.log.outstanding = 0 := by
  obtain ⟨s, reachable, committing⟩ := Reachable.of_play
    (.start (Bytes.load_zero 0 4) : Reachable (fun _ _ => True) (fun _ _ _ => 0) _)
    (startup ++ [.beginOp 1, .endOp 1]) (fun s => s.log.committing) (by decide +kernel)
  exact ⟨s, reachable, committing, (group_commit_isolated _ _ s reachable).1 committing⟩

end RtXv6.Journal
