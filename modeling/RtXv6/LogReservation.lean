import Mathlib.Algebra.Order.BigOperators.Group.Finset
import RtXv6.LogAdmission

/-!
# The room that `begin_op` reserves

`begin_op` reserves `MAXOPBLOCKS` blocks of `LOGSIZE` for every operation it admits, but
the header takes one of the `nlog` blocks of the log area, and `log_write` panics at
`log.size - 1`. The open group lists each block that its operations have logged once.
Three operations that each log `MAXOPBLOCKS` blocks of their own fill the reservation
and run into the panic; operations that log one block fewer never do.
-/

namespace RtXv6

open Function (update_of_ne)
open Outcome PointUpdates

variable {c : Committer}

namespace Committer

/-- After `install_trans` the group is empty. -/
def Cleared (lh : List UInt32) : Pc → Prop
  | .done => lh = []
  | .writeHead true _ => lh = []
  | _ => True

theorem advance_cleared {process : Nat} {next : Committer} (cleared : Cleared c.lh c.pc)
    (advanced : c.advance process = .ok next) : Cleared next.lh next.pc := by
  obtain ⟨lh, buffers, pc⟩ := c
  cases pc with
  | test =>
    obtain rfl := Except.ok.inj advanced
    by_cases some : 0 < lh.length
    · simp only [some, if_true]
      trivial
    · simp only [some, if_false]
      exact List.length_eq_zero_iff.mp (by omega)
  | readHead stage =>
    cases stage <;>
    · obtain ⟨_, _, rfl⟩ := bind_ok_ok advanced
      trivial
  | copy loop tail stage =>
    cases stage with
    | getLog =>
      unfold advance copyStep at advanced
      simp only at advanced
      split at advanced
      · obtain ⟨_, _, rfl⟩ := bind_ok_ok advanced
        trivial
      cases loop <;>
      · obtain rfl := Except.ok.inj advanced
        trivial
    | _ =>
      obtain ⟨_, _, rfl⟩ := bind_ok_ok advanced
      trivial
  | writeHead last stage =>
    cases last with
    | false =>
      cases stage <;>
      · obtain ⟨_, _, rfl⟩ := bind_ok_ok advanced
        trivial
    | true =>
      cases stage <;>
      · obtain ⟨_, _, rfl⟩ := bind_ok_ok advanced
        exact cleared
  | done =>
    obtain rfl := Except.ok.inj advanced
    exact cleared

end Committer

variable {lh : List UInt32} {current : List Write} {next : Journal} {task : Task} {larger : Nat}

namespace Journal

/-- The open group lists each block that has been logged in it once. -/
structure Listed (lh : List UInt32) (current : List Write) : Prop where
  distinct : lh.Nodup
  members : ∀ blockno, blockno ∈ lh ↔ blockno ∈ current.map Write.blockno

theorem Listed.nil : Listed [] [] :=
  ⟨List.nodup_nil, fun _ => by simp⟩

theorem Listed.absorb (listed : Listed lh current) (write : Write) :
    Listed (absorb lh write.blockno) (current ++ [write]) := by
  obtain ⟨distinct, members⟩ := listed
  have extended : ∀ blockno, blockno ∈ (current ++ [write]).map Write.blockno ↔
      blockno ∈ lh ∨ blockno = write.blockno := by
    intro blockno
    rw [List.map_append, List.mem_append, ← members, List.map_singleton, List.mem_singleton]
  refine ⟨?_, fun blockno => mem_absorb.trans (extended blockno).symm⟩
  unfold Journal.absorb
  by_cases present : write.blockno ∈ lh
  · rwa [if_pos present]
  rw [if_neg present]
  refine List.nodup_append.mpr ⟨distinct, List.nodup_singleton _, ?_⟩
  rintro each member other single rfl
  exact present (List.mem_singleton.mp single ▸ member)

/-- The number of blocks in the group is the number of distinct ones logged. -/
theorem Listed.length (listed : Listed lh current) :
    lh.length = (current.map Write.blockno).toFinset.card := by
  rw [← List.toFinset_card_of_nodup listed.distinct]
  congr 1
  ext blockno
  simp [listed.members]

/-- A commit or a recovery of the system is at the position. -/
def Works (s : Journal) (pc : Pc) : Prop :=
  s.phase = .recovering pc ∨ ∃ process op, s.task process = .committing op pc

/-- What the open group lists, and that a closed one is cleared. -/
structure Grouped (s : Journal) : Prop where
  listed : s.phase = .running → s.log.committing = false →
    Listed s.log.lh s.history.current
  unused : s.phase = .running → s.log.committing = false →
    (∀ process, (s.task process).inside = none) → s.log.lh = []
  closed : s.log.committing = true → s.history.current = []
  cleared : ∀ pc, s.Works pc → Committer.Cleared s.log.lh pc
  numbered : ∀ write ∈ s.history.current, write.op < s.history.nextOp
  operations : ∀ process op, (s.task process).inside = some op → op < s.history.nextOp

variable {s : Journal}

/-- Nothing is committed or recovered in a running system with an open group. -/
theorem Admission.no_work (admission : Admission s) (running : s.phase = .running)
    (open_ : s.log.committing = false) (pc : Pc) : ¬ s.Works pc := by
  rintro (recovers | ⟨process, op, committing⟩)
  · simp [running] at recovers
  · exact admission.no_committer open_ process op pc committing

variable {process op : Nat} {id : BufId}

section

variable (grouped : Grouped s)
include grouped

/-- Moving a process, neither into nor out of an operation or a commit, keeps the group. -/
theorem Grouped.moves (inside : task.inside = (s.task process).inside)
    (outside : task.isCommitting = false) : Grouped (s.setTask process task) := by
  have same : ∀ other, ((s.setTask process task).task other).inside = (s.task other).inside :=
    update_same Task.inside inside
  refine ⟨grouped.listed, ?_, grouped.closed, ?_, grouped.numbered, ?_⟩
  · simp only [same]
    exact grouped.unused
  · rintro pc (recovers | ⟨other, op, committing⟩)
    · exact grouped.cleared pc (.inl recovers)
    · refine grouped.cleared pc (.inr ⟨other, op, (of_update id ?_ committing).2⟩)
      rintro rfl
      simp [Task.isCommitting] at outside
  · simp only [same]
    exact grouped.operations

theorem Grouped.logWrite (admission : Admission s) (logging : s.task process = .logging op id)
    {buffers : Buffers} {b : Buf} (after : Admission (s.logged buffers process op b)) :
    Grouped (s.logged buffers process op b) := by
  have running := admission.running logging (by simp)
  have open_ := admission.open_ logging (by simp [Task.inside])
  have number := grouped.operations process op (by rw [logging]; rfl)
  refine ⟨fun _ _ => (grouped.listed running open_).absorb ⟨op, b.blockno, b.data⟩, ?_, ?_,
    fun pc works => absurd works (after.no_work running open_ pc), ?_, ?_⟩
  · intro _ _ nobody
    have outside := nobody process
    simp [logged, Task.inside] at outside
  · intro committing
    simp [logged, open_] at committing
  · intro write member
    rcases List.mem_append.mp member with old | new
    · exact grouped.numbered write old
    · rw [List.mem_singleton.mp new]
      exact number
  · intro other otherOp inside
    rcases update_cases Task.inside inside with ⟨_, own⟩ | ⟨_, before⟩
    · exact Option.some.inj own ▸ number
    · exact grouped.operations other otherOp before

theorem Grouped.enter (running : s.phase = .running) (open_ : s.log.committing = false)
    (after : Admission (s.enter process)) : Grouped (s.enter process) := by
  refine ⟨grouped.listed, ?_, grouped.closed,
    fun pc works => absurd works (after.no_work running open_ pc), ?_, ?_⟩
  · intro _ _ nobody
    have outside := nobody process
    simp [Journal.enter, Task.inside] at outside
  · intro write member
    exact Nat.lt_succ_of_lt (grouped.numbered write member)
  · intro other op inside
    rcases update_cases Task.inside inside with ⟨_, own⟩ | ⟨_, before⟩
    · exact Option.some.inj own ▸ Nat.lt_succ_self _
    · exact Nat.lt_succ_of_lt (grouped.operations other op before)

theorem Grouped.close (admission : Admission s) (active : s.task process = .active op)
    (open_ : s.log.committing = false) : Grouped (s.close process op) := by
  refine ⟨by simp [Journal.close], by simp [Journal.close], fun _ => rfl, ?_,
    by simp [Journal.close], ?_⟩
  · rintro pc (recovers | ⟨other, otherOp, committing⟩)
    · simp [Journal.close, admission.running active (by simp)] at recovers
    · rcases update_cases id committing with ⟨_, ⟨⟩⟩ | ⟨_, before⟩
      · trivial
      · exact absurd before (admission.no_committer open_ other otherOp pc)
  · intro other otherOp inside
    exact grouped.operations other otherOp (of_update Task.inside (by simp [Task.inside]) inside).2

theorem Grouped.leave (running : s.phase = .running) (open_ : s.log.committing = false)
    (more : s.log.outstanding - 1 ≠ 0) (after : Admission (s.leave process)) :
    Grouped (s.leave process) := by
  refine ⟨grouped.listed, ?_, grouped.closed,
    fun pc works => absurd works (after.no_work running open_ pc), grouped.numbered, ?_⟩
  · intro _ _ nobody
    exact absurd (after.counts.zero_iff.mpr nobody) more
  · intro other otherOp inside
    have before := (of_update Task.inside (by simp [Task.inside]) inside).2
    exact grouped.operations other otherOp ((wakeup_inside s other).symm.trans before)

theorem Grouped.advance (admission : Admission s) {pc : Pc}
    (committing : s.task process = .committing op pc)
    (advanced : Committer.advance process ⟨s.log.lh, s.buffers, pc⟩ = .ok c) :
    Grouped (s.commits process op c) := by
  have closed : s.log.committing ≠ false := by simp [admission.closes committing]
  refine ⟨fun _ open_ => absurd open_ closed, fun _ open_ => absurd open_ closed, grouped.closed, ?_,
    grouped.numbered, ?_⟩
  · rintro next (recovers | ⟨other, otherOp, still⟩)
    · simp [Journal.commits, admission.running committing (by simp)] at recovers
    · rcases update_cases id still with ⟨_, ⟨⟩⟩ | ⟨different, before⟩
      · exact Committer.advance_cleared (grouped.cleared pc (.inr ⟨process, op, committing⟩)) advanced
      · exact absurd (admission.single other process (congrArg Task.isCommitting before)
          (congrArg Task.isCommitting committing)) different
  · intro other otherOp inside
    exact grouped.operations other otherOp (of_update Task.inside (by simp [Task.inside]) inside).2

theorem Grouped.finish (admission : Admission s)
    (committing : s.task process = .committing op .done) : Grouped (s.finish process op) := by
  have running := admission.running committing (by simp)
  have empty : s.log.lh = [] := grouped.cleared .done (.inr ⟨process, op, committing⟩)
  have nothing : s.history.current = [] := grouped.closed (admission.closes committing)
  refine ⟨?_, fun _ _ _ => empty, by simp [Journal.finish],
    fun pc works => absurd works ((admission.finish committing).no_work running rfl pc),
    grouped.numbered, ?_⟩
  · intro _ _
    simp only [Journal.finish, empty, nothing]
    exact Listed.nil
  · intro other otherOp inside
    simp [admission.finish_outside committing] at inside

end

theorem Grouped.restart {disk : Disk} {history : History}
    (numbered : ∀ write ∈ history.current, write.op < history.nextOp) :
    Grouped (Journal.restart disk history) := by
  refine ⟨by simp [Journal.restart], by simp [Journal.restart], by simp [Journal.restart, zeroLog],
    ?_, numbered, by simp [Journal.restart, Task.inside]⟩
  rintro pc (recovers | ⟨_, _, committing⟩)
  · obtain rfl := Phase.recovering.inj recovers
    trivial
  · cases committing

theorem Grouped.step (grouped : Grouped s) (admission : Admission s) (step : JournalStep)
    (enabled : s.Enabled step) (executed : s.execute step = .ok next) : Grouped next := by
  have after := admission.step step enabled executed
  cases Becomes.of_execute enabled executed with
  | moves _ inside _ outside => exact grouped.moves inside outside
  | enters running _ open_ => exact grouped.enter running open_ after
  | calls =>
    obtain ⟨listed, unused, closed, cleared, numbered, operations⟩ := grouped
    exact ⟨listed, unused, closed, cleared, numbered, operations⟩
  | logs logging => exact grouped.logWrite admission logging after
  | closes active open_ => exact grouped.close admission active open_
  | leaves active open_ more =>
    exact grouped.leave (admission.running active (by simp)) open_ more after
  | finishes committing => exact grouped.finish admission committing
  | advances committing advanced => exact grouped.advance admission committing advanced
  | crashes => exact .restart grouped.numbered
  | recovers phase advanced =>
    have idle := (admission.stopped (by simp [phase])).2
    refine ⟨by simp [Journal.recovers], by simp [Journal.recovers], grouped.closed, ?_,
      grouped.numbered, grouped.operations⟩
    rintro next (recovers | ⟨process, op, committing⟩)
    · obtain rfl := Phase.recovering.inj recovers
      exact Committer.advance_cleared (grouped.cleared _ (.inl phase)) advanced
    · simp [Journal.recovers, idle] at committing
  | boots phase =>
    have empty : s.log.lh = [] := grouped.cleared .done (.inl phase)
    have open_ := (admission.stopped (by simp [phase])).1
    refine ⟨?_, fun _ _ _ => empty, fun _ => rfl,
      fun pc works => absurd works (after.no_work rfl open_ pc), by simp [opening],
      grouped.operations⟩
    intro _ _
    simp only [empty]
    exact Listed.nil

variable {disk : Disk}

theorem Reachable.grouped {permits : Journal → JournalStep → Prop}
    (reachable : Reachable permits disk s) : Grouped s := by
  induction reachable with
  | start _ => exact .restart (by simp [opening])
  | step before step enabled _ executed ih =>
    exact ih.step before.admission step enabled executed

/-- The distinct blocks that an operation of the open group has passed to `log_write`. -/
def passed (s : Journal) (op : Nat) : Finset UInt32 :=
  ((s.history.current.filter (fun write => write.op = op)).map Write.blockno).toFinset

/-- The test that with a buffer an operation passes at most `limit` distinct blocks to
`log_write`. -/
def fits (s : Journal) (limit op : Nat) (id : BufId) : Bool :=
  decide ((insert (s.buffers.cache.buf id).blockno (s.passed op)).card ≤ limit)

/-- A call of `log_write` respects the limit on the blocks of an operation. -/
def Within (limit : Nat) (s : Journal) (step : JournalStep) : Prop :=
  match step with
  | .logCheck process id => (s.task process).inside.all (fun op => s.fits limit op id) = true
  | .logWrite process => (s.task process).logs.all (fun (op, id) => s.fits limit op id) = true
  | _ => True

instance (limit : Nat) (s : Journal) (step : JournalStep) : Decidable (Within limit s step) :=
  match step with
  | .logCheck _ _ => inferInstanceAs (Decidable (_ = true))
  | .logWrite _ => inferInstanceAs (Decidable (_ = true))
  | .beginOp _ | .wake _ | .buffer _ | .endOp _ | .commit _ | .crash | .recover | .boot =>
    inferInstanceAs (Decidable True)

variable {limit : Nat}

theorem Within.mono (le : limit ≤ larger) {step : JournalStep} (within : Within limit s step) :
    Within larger s step := by
  have fits : ∀ op id, s.fits limit op id = true → s.fits larger op id = true := by
    intro op id fits
    exact decide_eq_true (Nat.le_trans (of_decide_eq_true fits) le)
  cases step with
  | logCheck process id =>
    simp only [Within] at within ⊢
    cases inside : (s.task process).inside with
    | none => rfl
    | some op =>
      rw [inside] at within
      exact fits op id within
  | logWrite process =>
    simp only [Within] at within ⊢
    cases logs : (s.task process).logs with
    | none => rfl
    | some call =>
      rw [logs] at within
      exact fits call.1 call.2 within
  | _ => trivial

/-- The blocks that a process may still log, if an operation may log one block fewer than
`MAXOPBLOCKS`. -/
def unspent (s : Journal) (process : Nat) : Nat :=
  (s.task process).inside.elim 0 (fun op => MAXOPBLOCKS - 1 - (s.passed op).card)

/-- What the open group has and what its operations may still add stay below the tests of
`log_write`. -/
def Budget (s : Journal) : Prop :=
  s.phase = .running → s.log.committing = false → ∀ processes : Finset Nat,
    (∀ process, process ∈ processes ↔ (s.task process).inside.isSome = true) →
    s.log.lh.length + ∑ process ∈ processes, s.unspent process ≤ LOGSIZE - 2

theorem Budget.of_none (nobody : ∀ process, (s.task process).inside = none)
    (empty : s.log.lh = []) : Budget s := by
  intro _ _ processes members
  have none : processes = ∅ := by
    rw [Finset.eq_empty_iff_forall_notMem]
    intro process member
    have inside := (members process).mp member
    simp [nobody] at inside
  rw [none, empty, Finset.sum_empty]
  decide

/-- Moving a process, neither into nor out of an operation, keeps the budget. -/
theorem Budget.moves (budget : Budget s) (inside : task.inside = (s.task process).inside) :
    Budget (s.setTask process task) := by
  have same : ∀ other, ((s.setTask process task).task other).inside = (s.task other).inside :=
    update_same Task.inside inside
  have unspent : (s.setTask process task).unspent = s.unspent := by
    funext other
    simp only [Journal.unspent, same]
    rfl
  intro running open_ processes members
  rw [unspent]
  simp only [same] at members
  exact budget running open_ processes members

theorem unspent_le (s : Journal) (process : Nat) : s.unspent process ≤ MAXOPBLOCKS - 1 := by
  unfold unspent
  cases (s.task process).inside with
  | none => exact Nat.zero_le _
  | some op => exact Nat.sub_le _ _

/-- The operations inside may log at most `MAXOPBLOCKS - 1` blocks each. -/
theorem sum_unspent_le (s : Journal) (processes : Finset Nat) :
    ∑ process ∈ processes, s.unspent process ≤ processes.card * (MAXOPBLOCKS - 1) := by
  have bound := Finset.sum_le_card_nsmul processes s.unspent (MAXOPBLOCKS - 1)
    (fun process _ => unspent_le s process)
  simpa using bound

theorem Budget.enter (grouped : Grouped s) (admission : Admission s)
    (running : s.phase = .running) (outside : (s.task process).inside = none)
    (open_ : s.log.committing = false) (room : ¬ s.Full) : Budget (s.enter process) := by
  intro _ _ processes members
  obtain ⟨before, earlier, size⟩ := admission.counts
  have fresh : process ∉ before := by
    rw [earlier, outside]
    exact Bool.false_ne_true
  have grown : processes = insert process before := by
    ext other
    rw [members, Finset.mem_insert, earlier]
    by_cases same : other = process
    · simp [same, Journal.enter, Task.inside]
    · simp [same, Journal.enter]
  have others : ∑ other ∈ before, (s.enter process).unspent other =
      ∑ other ∈ before, s.unspent other := by
    apply Finset.sum_congr rfl
    intro other member
    have different : other ≠ process := by
      rintro rfl
      exact fresh member
    simp only [unspent, passed, Journal.enter, update_of_ne different]
  have spent := sum_unspent_le s before
  have new := unspent_le (s.enter process) process
  rw [grown, Finset.sum_insert fresh, others]
  rw [full_iff, size] at room
  have length : (s.enter process).log.lh = s.log.lh := rfl
  rw [length]
  simp only [LOGSIZE, MAXOPBLOCKS] at spent new ⊢
  by_cases empty : before.card = 0
  · have nobody : s.log.outstanding = 0 := by omega
    have unused := grouped.unused running open_ (admission.counts.zero_iff.mp nobody)
    rw [unused, List.length_nil]
    omega
  · omega

/-- The blocks that operations have passed after one more `log_write`. -/
theorem passed_logged (s : Journal) (buffers : Buffers) (process op other : Nat) (b : Buf) :
    (s.logged buffers process op b).passed other =
      if other = op then insert b.blockno (s.passed other) else s.passed other := by
  unfold passed logged
  by_cases same : other = op
  · subst same
    rw [if_pos rfl]
    ext blockno
    simp
  · rw [if_neg same]
    have different : ¬ op = other := fun equal => same equal.symm
    simp [different]

/-- An operation passes only blocks that the group lists. -/
theorem passed_listed (listed : Listed s.log.lh s.history.current) {blockno : UInt32}
    (member : blockno ∈ s.passed op) : blockno ∈ s.log.lh := by
  simp only [passed, List.mem_toFinset, List.mem_map, List.mem_filter] at member
  obtain ⟨write, ⟨inGroup, _⟩, rfl⟩ := member
  exact (listed.members _).mpr (List.mem_map_of_mem inGroup)

theorem Budget.logWrite (budget : Budget s) (grouped : Grouped s)
    (logging : s.task process = .logging op id) (buffers : Buffers) (b : Buf)
    (fits : (insert b.blockno (s.passed op)).card ≤ MAXOPBLOCKS - 1) :
    Budget (s.logged buffers process op b) := by
  intro running open_ processes members
  have inside : ∀ other, ((s.logged buffers process op b).task other).inside =
      (s.task other).inside := update_same Task.inside (by rw [logging]; rfl)
  simp only [inside] at members
  have before := budget running open_ processes members
  have fewer : ∀ other, (s.logged buffers process op b).unspent other ≤ s.unspent other := by
    intro other
    unfold unspent
    rw [inside]
    cases (s.task other).inside with
    | none => exact Nat.le_refl _
    | some otherOp =>
      simp only [Option.elim_some, passed_logged]
      split
      · have grown := Finset.card_le_card (Finset.subset_insert b.blockno (s.passed otherOp))
        omega
      · exact Nat.le_refl _
  have rest : ∑ other ∈ processes.erase process, (s.logged buffers process op b).unspent other ≤
      ∑ other ∈ processes.erase process, s.unspent other :=
    Finset.sum_le_sum (fun other _ => fewer other)
  have member : process ∈ processes := (members process).mpr (by rw [logging]; rfl)
  rw [← Finset.add_sum_erase _ _ member] at before ⊢
  have listed := grouped.listed running open_
  have own := fewer process
  change (absorb s.log.lh b.blockno).length + _ ≤ _
  unfold absorb
  by_cases present : b.blockno ∈ s.log.lh
  · rw [if_pos present]
    omega
  rw [if_neg present, List.length_append, List.length_singleton]
  have new : b.blockno ∉ s.passed op := fun old => present (passed_listed listed old)
  have spends : (s.logged buffers process op b).unspent process + 1 = s.unspent process := by
    unfold unspent
    rw [inside, logging]
    simp only [Task.inside, Option.elim_some, passed_logged, if_true,
      Finset.card_insert_of_notMem new] at fits ⊢
    omega
  omega

theorem Budget.leave (budget : Budget s) (active : s.task process = .active op) :
    Budget (s.leave process) := by
  intro running open_ processes members
  have shrunk : ∀ other, (s.task other).inside.isSome = true ↔
      other ∈ insert process processes := by
    intro other
    rw [Finset.mem_insert, members]
    by_cases same : other = process
    · simp [same, active, Task.inside]
    · simp [same, Journal.leave, wakeup_inside]
  have before := budget running open_ (insert process processes) (fun other => (shrunk other).symm)
  have others : ∑ other ∈ processes, (s.leave process).unspent other =
      ∑ other ∈ processes, s.unspent other := by
    apply Finset.sum_congr rfl
    intro other member
    have different : other ≠ process := by
      rintro rfl
      have inside := (members other).mp member
      simp [Journal.leave, Task.inside] at inside
    simp only [unspent, passed, Journal.leave, update_of_ne different, wakeup_inside]
  have fewer : ∑ other ∈ processes, s.unspent other ≤
      ∑ other ∈ insert process processes, s.unspent other :=
    Finset.sum_le_sum_of_subset (Finset.subset_insert process processes)
  rw [others]
  exact Nat.le_trans (Nat.add_le_add_left fewer _) before

theorem Budget.step (small : limit ≤ MAXOPBLOCKS - 1) (budget : Budget s) (grouped : Grouped s)
    (admission : Admission s) (step : JournalStep) (enabled : s.Enabled step)
    (within : Within limit s step) (executed : s.execute step = .ok next) : Budget next := by
  cases Becomes.of_execute enabled executed with
  | moves _ inside => exact budget.moves inside
  | enters running outside open_ room => exact Budget.enter grouped admission running outside open_ room
  | calls => exact budget
  | logs logging =>
    simp only [Within, logging, Task.logs, Option.all_some, fits, decide_eq_true_eq] at within
    exact budget.logWrite grouped logging _ _ (Nat.le_trans within small)
  | closes => simp [Budget, Journal.close]
  | leaves active => exact budget.leave active
  | finishes committing =>
    exact Budget.of_none (admission.finish_outside committing)
      (grouped.cleared .done (.inr ⟨_, _, committing⟩))
  | advances committing => simp [Budget, Journal.commits, admission.closes committing]
  | crashes => simp [Budget, restart]
  | recovers => simp [Budget, Journal.recovers]
  | boots phase =>
    have idle := (admission.stopped (by simp [phase])).2
    exact Budget.of_none (fun process => by simp only [idle]; rfl)
      (grouped.cleared .done (.inl phase))

/-- In a run within the smaller limit the group stays within the budget. -/
theorem Reachable.budget (small : limit ≤ MAXOPBLOCKS - 1)
    (reachable : Reachable (Within limit) disk s) : Budget s := by
  induction reachable with
  | start _ => simp [Budget, restart]
  | step before step enabled within executed ih =>
    exact ih.step small before.grouped before.admission step enabled within executed

theorem Reachable.within_mono (le : limit ≤ larger) (reachable : Reachable (Within limit) disk s) :
    Reachable (Within larger) disk s := by
  induction reachable with
  | start empty => exact .start empty
  | step _ step enabled within executed ih =>
    exact ih.step step enabled (within.mono le) executed

/-- `log_write` panics for its size exactly when the group has `log.size - 1` blocks. -/
theorem logCheck_panics_iff (admission : Admission s) (enabled : s.Enabled (.logCheck process id)) :
    s.execute (.logCheck process id) = .error (.panic "too big a transaction") ↔
      LOGSIZE - 1 ≤ s.log.lh.length := by
  obtain ⟨op, active⟩ := Task.isActive_iff.mp enabled.1
  have outstanding := admission.counts.positive (show (s.task process).inside.isSome = true by
    rw [active]
    rfl)
  simp only [execute, active, logCheck, nlog, LOGSIZE, MAXOPBLOCKS]
  split
  · next big =>
    simp only [true_iff]
    omega
  next small =>
  rw [if_neg (by omega)]
  simp only [reduceCtorEq, false_iff]
  omega

/-- A process reads a block into a buffer, logs it and releases it. -/
def logOne (process : Nat) (blockno : UInt32) (id : BufId) : List JournalStep :=
  [.buffer (.bget process ROOTDEV blockno), .buffer (.fill process id), .logCheck process id,
    .logWrite process, .buffer (.brelse process id)]

/-- Three operations log 10, 10 and 9 blocks of their own, and the third reads its tenth. -/
def exhaust : List JournalStep :=
  startup ++ [.beginOp 1, .beginOp 2, .beginOp 3] ++
    (List.range 29).flatMap (fun i =>
      logOne (i / 10 + 1) (UInt32.ofNat (100 + i)) (Fin.ofNat NBUF (i + 1))) ++
    [.buffer (.bget 3 ROOTDEV 129), .buffer (.fill 3 0)]

/-- The run leaves no room for the block that the third operation may still log. -/
theorem exhausted : ∃ s, Reachable (Within MAXOPBLOCKS) (fun _ _ _ => 0) s ∧
    s.Enabled (.logCheck 3 0) ∧ Within MAXOPBLOCKS s (.logCheck 3 0) ∧
    s.log.lh.length = LOGSIZE - 1 := by
  obtain ⟨s, reachable, passed⟩ := Reachable.of_play
    (.start (Bytes.load_zero 0 4) : Reachable (Within MAXOPBLOCKS) (fun _ _ _ => 0) _) exhaust
    (fun s => decide (s.Enabled (.logCheck 3 0) ∧ Within MAXOPBLOCKS s (.logCheck 3 0) ∧
      s.log.lh.length = LOGSIZE - 1)) (by decide +kernel)
  exact ⟨s, reachable, of_decide_eq_true passed⟩

/-- In every reachable state a call of `log_write` panics for its size exactly when the open
group has `LOGSIZE - 1` distinct blocks. Operations that each pass at most `limit` distinct
blocks never panic, in any run, exactly when the limit is below `MAXOPBLOCKS`. -/
theorem reservation_sufficient_iff (limit : Nat) :
    (∀ permits disk s, Reachable permits disk s → ∀ process id,
      s.Enabled (.logCheck process id) →
      (s.execute (.logCheck process id) = .error (.panic "too big a transaction") ↔
        LOGSIZE - 1 ≤ (s.history.current.map Write.blockno).toFinset.card)) ∧
    ((∀ disk s, Reachable (Within limit) disk s → ∀ process id,
      s.Enabled (.logCheck process id) → Within limit s (.logCheck process id) →
      s.execute (.logCheck process id) ≠ .error (.panic "too big a transaction")) ↔
      limit ≤ MAXOPBLOCKS - 1) := by
  have open_ : ∀ {s : Journal}, Admission s → ∀ {process id}, s.Enabled (.logCheck process id) →
      s.phase = .running ∧ s.log.committing = false := by
    intro s admission process id enabled
    obtain ⟨op, active⟩ := Task.isActive_iff.mp enabled.1
    exact ⟨admission.running active (by simp), admission.open_ active (by simp [Task.inside])⟩
  refine ⟨?_, ?_, ?_⟩
  · intro permits disk s reachable process id enabled
    obtain ⟨running, notCommitting⟩ := open_ reachable.admission enabled
    rw [logCheck_panics_iff reachable.admission enabled,
      (reachable.grouped.listed running notCommitting).length]
  · intro sufficient
    by_contra large
    obtain ⟨s, reachable, enabled, within, full⟩ := exhausted
    have le : MAXOPBLOCKS ≤ limit := by omega
    exact sufficient _ s (reachable.within_mono le) 3 0 enabled (within.mono le)
      ((logCheck_panics_iff reachable.admission enabled).mpr full.ge)
  · intro small disk s reachable process id enabled _ panics
    have admission := reachable.admission
    obtain ⟨running, notCommitting⟩ := open_ admission enabled
    obtain ⟨processes, members, _⟩ := admission.counts
    have bound := reachable.budget small running notCommitting processes members
    have long := (logCheck_panics_iff admission enabled).mp panics
    simp only [LOGSIZE, MAXOPBLOCKS] at bound long
    omega

/-- The tenth block of the third operation: each operation has passed at most `MAXOPBLOCKS`
distinct blocks, and `log_write` panics. -/
theorem full_reservation_panics : ∃ s, Reachable (Within MAXOPBLOCKS) (fun _ _ _ => 0) s ∧
    s.Enabled (.logCheck 3 0) ∧ Within MAXOPBLOCKS s (.logCheck 3 0) ∧
    s.execute (.logCheck 3 0) = .error (.panic "too big a transaction") := by
  obtain ⟨s, reachable, enabled, within, full⟩ := exhausted
  exact ⟨s, reachable, enabled, within, (logCheck_panics_iff reachable.admission enabled).mpr full.ge⟩

end Journal

end RtXv6
