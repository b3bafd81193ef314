import RtXv6.Outcome
import RtXv6.PointUpdates
import RtXv6.ProcessTable

/-!
# The ready queue holds exactly the runnable processes

Every section of `proc.c` that makes a process ready also inserts it, and the
scheduler alone takes entries out. The invariant says so for the whole table: the
counted cells hold the runnable processes, each once; a process is running exactly
when one processor executes it, and that processor's `proc` names it; and a slot
that a `fork` in progress has claimed is an embryo with a single owner. The last
part is what keeps the end of `fork` from inserting a process that is already
queued.

Each section has one law stating that it keeps the invariant and does not store past
the queue's array. Which faults remain is not decided here.
-/

namespace RtXv6

open Function (update update_self update_of_ne update_idem)
open Segments Outcome PointUpdates

variable {cpus : Nat}

namespace Kernel

/-- The runnable processes of a table. -/
def runnables (table : Table) : Set Slot := {slot | (table slot).state = .runnable}

variable {slot : Slot}

theorem mem_runnables {table : Table} : slot ∈ runnables table ↔ (table slot).state = .runnable :=
  Iff.rfl

/-- The queue, the processors and the forks in progress agree with the process
states. -/
structure Exact (k : Kernel cpus) : Prop where
  queued : Holds k.ready.queue k.ready.count (runnables k.proc)
  named : k.cpuProc = k.context
  running : ∀ slot, (k.proc slot).state = .running ↔ ∃ cpu, k.context cpu = some slot
  single : ∀ cpu other slot, k.context cpu = some slot → k.context other = some slot → cpu = other
  embryos : ∀ slot child, (k.proc slot).stage.child = some child →
    (k.proc child).state = .embryo
  owners : ∀ slot other child, (k.proc slot).stage.child = some child →
    (k.proc other).stage.child = some child → slot = other

/-- No fault of a section is a store past the queue. -/
def NoOverrun (fault : Fault) : Prop := fault ≠ .overrun

@[simp] theorem modify_self (k : Kernel cpus) (slot : Slot) (change : Proc → Proc) :
    (k.modify slot change).proc slot = change (k.proc slot) :=
  update_self ..

theorem modify_other (k : Kernel cpus) {other : Slot} (change : Proc → Proc)
    (different : other ≠ slot) : (k.modify slot change).proc other = k.proc other :=
  update_of_ne different ..

theorem modify_modify (k : Kernel cpus) (slot : Slot) (change other : Proc → Proc) :
    (k.modify slot change).modify slot other = k.modify slot (fun p => other (change p)) := by
  simp only [Kernel.modify, update_self, update_idem]

variable {k : Kernel cpus} {cpu : Fin cpus}

theorem Exact.current (exact : Exact k) (executes : k.context cpu = some slot) :
    k.current cpu = .ok slot := by
  simp only [Kernel.current, exact.named, executes]

theorem Exact.executing (exact : Exact k) (executes : k.context cpu = some slot) :
    (k.proc slot).state = .running :=
  (exact.running slot).mpr ⟨cpu, executes⟩

variable {next : Kernel cpus}

/-- The part of the invariant about forks survives if every claim was made before and still names
an embryo. -/
theorem Exact.rebuild (exact : Exact k)
    (stages : ∀ slot child, (next.proc slot).stage.child = some child →
      (k.proc slot).stage.child = some child ∧ (next.proc child).state = .embryo)
    (queued : Holds next.ready.queue next.ready.count (runnables next.proc))
    (named : next.cpuProc = next.context)
    (running : ∀ slot, (next.proc slot).state = .running ↔ ∃ cpu, next.context cpu = some slot)
    (single : ∀ cpu other slot, next.context cpu = some slot → next.context other = some slot →
      cpu = other) : Exact next :=
  ⟨queued, named, running, single, fun slot child claimed => (stages slot child claimed).2,
    fun slot other child left right =>
      exact.owners slot other child (stages slot child left).1 (stages other child right).1⟩

/-- The invariant survives a section that leaves the processors alone, neither
starts nor stops a running process, and keeps every claimed slot an embryo. -/
theorem Exact.keep (exact : Exact k)
    (queued : Holds next.ready.queue next.ready.count (runnables next.proc))
    (cpuProc : next.cpuProc = k.cpuProc) (context : next.context = k.context)
    (running : ∀ slot, (next.proc slot).state = .running ↔ (k.proc slot).state = .running)
    (stages : ∀ slot child, (next.proc slot).stage.child = some child →
      (k.proc slot).stage.child = some child ∧ (next.proc child).state = .embryo) :
    Exact next := by
  apply exact.rebuild stages queued
  · rw [cpuProc, context, exact.named]
  · intro slot
    rw [running, context]
    exact exact.running slot
  · rw [context]
    exact exact.single

/-- If one record that is no embryo changes its state and every stage is kept, so are the claims
of the forks in progress. -/
theorem Exact.claims_kept (exact : Exact k) (apart : (k.proc slot).state ≠ .embryo)
    (others : ∀ other, other ≠ slot → (next.proc other).state = (k.proc other).state)
    (stages : ∀ other, (next.proc other).stage = (k.proc other).stage) (owner child : Slot)
    (claimed : (next.proc owner).stage.child = some child) :
    (k.proc owner).stage.child = some child ∧ (next.proc child).state = .embryo := by
  rw [stages] at claimed
  have embryo := exact.embryos owner child claimed
  have different : child ≠ slot := by
    rintro rfl
    exact apart embryo
  exact ⟨claimed, (others child different).trans embryo⟩

theorem Exact.congr (exact : Exact k) (ready : next.ready = k.ready)
    (cpuProc : next.cpuProc = k.cpuProc) (context : next.context = k.context)
    (states : ∀ slot, (next.proc slot).state = (k.proc slot).state)
    (stages : ∀ slot, (next.proc slot).stage = (k.proc slot).stage) : Exact next := by
  apply exact.keep _ cpuProc context
  · intro slot
    rw [states]
  · intro slot child claimed
    rw [stages] at claimed
    exact ⟨claimed, (states child).trans (exact.embryos slot child claimed)⟩
  · rw [ready]
    apply exact.queued.congr
    intro slot
    simp only [mem_runnables, states]

/-- A process that is ready neither before nor after a section leaves the queue as it is. -/
theorem Exact.unready (exact : Exact k) (before : (k.proc slot).state ≠ .runnable)
    (after : (next.proc slot).state ≠ .runnable)
    (others : ∀ other, other ≠ slot → (next.proc other).state = (k.proc other).state) :
    Holds k.ready.queue k.ready.count (runnables next.proc) := by
  apply exact.queued.congr
  intro other
  by_cases same : other = slot
  · subst same
    simp only [mem_runnables, before, after]
  · rw [mem_runnables, mem_runnables, others other same]

/-- A change of one record that keeps its state and stage keeps the invariant. -/
theorem Exact.modify (exact : Exact k) (slot : Slot) (change : Proc → Proc)
    (state : ∀ p, (change p).state = p.state) (stage : ∀ p, (change p).stage = p.stage) :
    Exact (k.modify slot change) :=
  exact.congr rfl rfl rfl (update_same Proc.state (state _))
    (update_same Proc.stage (stage _))

/-- Inserting a process that is not queued succeeds and queues exactly it. -/
theorem enqueue_holds (env : Env) (slot : Slot) (k : Kernel cpus) (members : Set Slot)
    (held : Holds k.ready.queue k.ready.count members) (fresh : slot ∉ members) :
    ∃ ready reads, k.enqueue env slot = .ok { k with ready := ready, reads := reads } ∧
      ready.count = k.ready.count + 1 ∧ Holds ready.queue ready.count (insert slot members) := by
  obtain ⟨⟨ready, reads⟩, inserted, counted, holds⟩ :=
    ReadyQueue.insert_holds env.config env.tick k.proc slot k.ready k.reads members held fresh
  refine ⟨ready, reads, ?_, counted, holds⟩
  simp only [enqueue, inserted]

/-- One record became runnable; all other states and every stage stayed. -/
structure Readied (before after : Table) (slot : Slot) : Prop where
  state : (after slot).state = .runnable
  others : ∀ other, other ≠ slot → (after other).state = (before other).state
  stages : ∀ other, (after other).stage = (before other).stage

theorem Readied.update (table : Table) (slot : Slot) (record : Proc)
    (state : record.state = .runnable) (stage : record.stage = (table slot).stage) :
    Readied table (Function.update table slot record) slot where
  state := by rw [update_self, state]
  others := fun other different => by rw [update_of_ne different]
  stages := update_same Proc.stage stage

theorem Readied.runnables {before after : Table} (readied : Readied before after slot) :
    ∀ other, other ∈ insert slot (runnables before) ↔ other ∈ runnables after := by
  intro other
  by_cases same : other = slot
  · subst same
    simp only [Set.mem_insert_iff, true_or, true_iff]
    exact readied.state
  · simp only [Set.mem_insert_iff, same, false_or, mem_runnables, readied.others other same]

/-- A process that was neither running, runnable nor an embryo may be made ready and
inserted: the insertion succeeds and the invariant holds again. -/
theorem Exact.admits (exact : Exact k) (env : Env) (slot : Slot)
    (readied : Readied k.proc next.proc slot) (ready : next.ready = k.ready)
    (cpuProc : next.cpuProc = k.cpuProc) (context : next.context = k.context)
    (apart : (k.proc slot).state = .sleeping ∨ (k.proc slot).state = .waiting) :
    ∃ after reads, next.enqueue env slot = .ok { next with ready := after, reads := reads } ∧
      Exact { next with ready := after, reads := reads } := by
  have fresh : slot ∉ runnables k.proc := by
    intro member
    rw [mem_runnables] at member
    rcases apart with state | state <;> simp [member] at state
  obtain ⟨after, reads, inserted, _, holds⟩ :=
    enqueue_holds env slot next (runnables k.proc) (ready ▸ exact.queued) fresh
  refine ⟨after, reads, inserted, exact.keep (holds.congr readied.runnables) cpuProc context ?_ ?_⟩
  · intro other
    by_cases same : other = slot
    · subst same
      rcases apart with state | state <;> simp [readied.state, state]
    · simp only [readied.others other same]
  · exact exact.claims_kept (by rcases apart with state | state <;> simp [state]) readied.others
      readied.stages

/-- What a scan that makes processes ready leaves alone. -/
structure Woken (k next : Kernel cpus) : Prop where
  exact : Exact next
  context : next.context = k.context
  running : ∀ slot, (k.proc slot).state = .running → (next.proc slot).state = .running
  stages : ∀ slot, (next.proc slot).stage = (k.proc slot).stage

theorem Woken.refl (exact : Exact k) : Woken k k :=
  ⟨exact, rfl, fun _ running => running, fun _ => rfl⟩

theorem Woken.trans {middle : Kernel cpus} (first : Woken k middle) (second : Woken middle next) :
    Woken k next where
  exact := second.exact
  context := second.context.trans first.context
  running := fun slot running => second.running slot (first.running slot running)
  stages := fun slot => (second.stages slot).trans (first.stages slot)

section

variable (exact : Exact k) (env : Env)
include exact

/-- Making one sleeping or waiting process ready and inserting it is such a scan. -/
theorem Exact.wakes (slot : Slot) (readied : Readied k.proc next.proc slot)
    (ready : next.ready = k.ready) (cpuProc : next.cpuProc = k.cpuProc)
    (context : next.context = k.context)
    (apart : (k.proc slot).state = .sleeping ∨ (k.proc slot).state = .waiting) :
    Ends (Woken k) NoOverrun (next.enqueue env slot) := by
  obtain ⟨after, reads, inserted, kept⟩ := exact.admits env slot readied ready cpuProc context apart
  rw [inserted]
  refine ⟨kept, context, ?_, readied.stages⟩
  intro other running
  have different : other ≠ slot := by
    rintro rfl
    rcases apart with state | state <;> simp [running] at state
  exact (readied.others other different).trans running

theorem wakeOne_ends (memory : Nat → UInt32) (chan : Addr) (slot : Slot) :
    Ends (Woken k) NoOverrun (k.wakeOne env memory chan slot) := by
  refine wakeOne_rule (fun _ => .refl exact) fun hears => ?_
  have wakes : Ends (Woken k) NoOverrun ((k.awoken env slot).enqueue env slot) :=
    exact.wakes env slot (Readied.update k.proc slot _ rfl rfl) rfl rfl rfl (.inl hears.1)
  exact wakes.imp fun next woken =>
    ⟨fun _ => woken, woken.exact.congr rfl rfl rfl (fun _ => rfl) (fun _ => rfl), woken.context,
      woken.running, woken.stages⟩

theorem wakeup1_ends (memory : Nat → UInt32) (chan : Addr) :
    Ends (Woken k) NoOverrun (k.wakeup1 env memory chan) := by
  apply Ends.foldlM _ _ (Woken.refl exact)
  intro state slot _ woken
  exact (wakeOne_ends woken.exact env memory chan slot).imp (fun next => woken.trans)

theorem reparentOne_ends (memory : Nat → UInt32) (parent slot : Slot) :
    Ends (Woken k) NoOverrun (k.reparentOne env memory parent slot) := by
  have passed : Woken k (k.passed slot) :=
    ⟨exact.modify slot _ (fun _ => rfl) (fun _ => rfl), rfl, fun other running =>
      (update_same Proc.state (by rfl) other).trans running,
      update_same Proc.stage (by rfl)⟩
  exact reparentOne_rule (fun _ => .refl exact) (fun _ _ => passed) fun _ _ =>
    (wakeup1_ends passed.exact env memory _).imp (fun next => passed.trans)

theorem unfreezeOne_ends (slot : Slot) : Ends (Woken k) NoOverrun (k.unfreezeOne env slot) := by
  by_cases waiting : (k.proc slot).state = .waiting
  · rw [unfreezeOne, if_pos waiting]
    exact exact.wakes env slot (Readied.update k.proc slot _ rfl rfl) rfl rfl rfl (Or.inr waiting)
  · rw [unfreezeOne, if_neg waiting]
    exact Woken.refl exact

theorem kill_ends (pid : Int32) :
    Ends (fun result => Exact result.1) NoOverrun (k.kill env pid) := by
  have marked : ∀ slot, Exact (k.marked slot) := fun slot =>
    exact.modify slot _ (fun _ => rfl) (fun _ => rfl)
  refine kill_rule (fun _ => exact) (fun slot _ => marked slot) fun slot _ asleep => ?_
  have sleeping : ((k.marked slot).proc slot).state = .sleeping := by
    rw [Kernel.marked, modify_self, asleep]
  refine Ends.imp ?_ fun next (woken : Woken (k.marked slot) next) => woken.exact
  exact (marked slot).wakes env slot (Readied.update _ slot _ rfl rfl) rfl rfl rfl (.inl sleeping)

end

variable {caller : Slot}

/-- The end of a section in which the executed process stops running: the processor
is back in its scheduler. -/
theorem Exact.leaves (exact : Exact k) (executes : k.context cpu = some caller)
    (queued : Holds next.ready.queue next.ready.count (runnables next.proc))
    (cpuProc : next.cpuProc = k.cpuProc) (context : next.context = k.context)
    (stopped : (next.proc caller).state ≠ .running)
    (others : ∀ other, other ≠ caller → (next.proc other).state = (k.proc other).state)
    (stages : ∀ other, (next.proc other).stage = (k.proc other).stage) :
    Exact (next.sched cpu) := by
  refine exact.rebuild (exact.claims_kept (by simp [exact.executing executes]) others stages) queued
    ?_ ?_ ?_
  · simp only [sched, cpuProc, context, exact.named]
  · intro slot
    by_cases same : slot = caller
    · subst same
      simp only [sched, context, stopped, false_iff, not_exists]
      intro other executed
      obtain ⟨here, executed⟩ := of_update id (by simp) executed
      exact here (exact.single other cpu slot executed executes)
    simp only [sched, context, others slot same, exact.running slot]
    constructor
    · rintro ⟨other, executed⟩
      have elsewhere : other ≠ cpu := by
        rintro rfl
        exact same (Option.some.inj (executed.symm.trans executes))
      exact ⟨other, by rw [update_of_ne elsewhere, executed]⟩
    · rintro ⟨other, executed⟩
      exact ⟨other, (of_update id (by simp) executed).2⟩
  · intro left right slot first second
    simp only [sched, context] at first second
    exact exact.single left right slot (of_update id (by simp) first).2
      (of_update id (by simp) second).2

/-- A process that stops without becoming ready leaves the queue alone. -/
theorem Exact.stops (exact : Exact k) (executes : k.context cpu = some caller)
    (change : Proc → Proc) (stopped : ∀ p, (change p).state ≠ .running)
    (unready : ∀ p, (change p).state ≠ .runnable) (stage : ∀ p, (change p).stage = p.stage) :
    Exact ((k.modify caller change).sched cpu) := by
  have others : ∀ other, other ≠ caller →
      ((k.modify caller change).proc other).state = (k.proc other).state :=
    fun other different => by rw [modify_other k change different]
  have queued : Holds k.ready.queue k.ready.count (runnables (k.modify caller change).proc) :=
    exact.unready (by simp [exact.executing executes]) (by rw [modify_self]; exact unready _) others
  have gone : ((k.modify caller change).proc caller).state ≠ .running := by
    rw [modify_self]
    exact stopped _
  exact exact.leaves executes queued rfl rfl gone others
    (update_same Proc.stage (stage _))

theorem Exact.yields (exact : Exact k) (env : Env) (executes : k.context cpu = some caller)
    (change : Proc → Proc) (state : ∀ p, (change p).state = .runnable)
    (stage : ∀ p, (change p).stage = p.stage) :
    ∃ ready reads, (k.modify caller change).enqueue env caller =
        .ok { k.modify caller change with ready := ready, reads := reads } ∧
      ready.count = k.ready.count + 1 ∧
      Exact (({ k.modify caller change with ready := ready, reads := reads }).sched cpu) := by
  have readied : Readied k.proc (k.modify caller change).proc caller :=
    Readied.update k.proc caller _ (state _) (stage _)
  have fresh : caller ∉ runnables k.proc := by
    intro member
    rw [mem_runnables] at member
    simp [exact.executing executes] at member
  obtain ⟨ready, reads, inserted, counted, holds⟩ :=
    enqueue_holds env caller (k.modify caller change) (runnables k.proc) exact.queued fresh
  refine ⟨ready, reads, inserted, counted, ?_⟩
  exact exact.leaves executes (holds.congr readied.runnables) rfl rfl (by simp [state])
    readied.others readied.stages

/-- The scheduler's side of a switch: the removed head is running on the processor
that was idle. -/
theorem Exact.enters (exact : Exact k) {head : Slot} (idle : k.context cpu = none)
    (runnable : (k.proc head).state = .runnable)
    (queued : Holds next.ready.queue next.ready.count (runnables k.proc \ {head}))
    (cpuProc : next.cpuProc = update k.cpuProc cpu (some head))
    (context : next.context = update k.context cpu (some head))
    (state : (next.proc head).state = .running)
    (others : ∀ other, other ≠ head → (next.proc other).state = (k.proc other).state)
    (stages : ∀ other, (next.proc other).stage = (k.proc other).stage) : Exact next := by
  apply exact.rebuild (exact.claims_kept (by simp [runnable]) others stages)
  · apply queued.congr
    intro other
    by_cases same : other = head
    · subst same
      simp [mem_runnables, state]
    · simp [mem_runnables, same, others other same]
  · rw [cpuProc, context, exact.named]
  · intro slot
    rw [context]
    by_cases same : slot = head
    · subst same
      simp only [state, true_iff]
      exact ⟨cpu, update_self ..⟩
    rw [others slot same, exact.running slot]
    constructor
    · rintro ⟨other, executed⟩
      have elsewhere : other ≠ cpu := by
        rintro rfl
        simp [idle] at executed
      exact ⟨other, by rw [update_of_ne elsewhere, executed]⟩
    · rintro ⟨other, executed⟩
      rcases update_cases id executed with ⟨_, head⟩ | ⟨_, executed⟩
      · exact absurd (Option.some.inj head).symm same
      · exact ⟨other, executed⟩
  · have unexecuted : ∀ other, k.context other ≠ some head := by
      intro other executed
      have running := exact.executing executed
      simp [runnable] at running
    intro left right slot first second
    rw [context] at first second
    rcases update_cases id first with ⟨here, entered⟩ | ⟨_, first⟩
    · rcases update_cases id second with ⟨also, _⟩ | ⟨_, second⟩
      · rw [here, also]
      · exact absurd (second.trans entered.symm) (unexecuted right)
    · rcases update_cases id second with ⟨_, entered⟩ | ⟨_, second⟩
      · exact absurd (first.trans entered.symm) (unexecuted left)
      · exact exact.single left right slot first second

/-- What a resumed process does first changes neither states nor stages. -/
theorem Exact.resumed (exact : Exact k) (slot : Slot) : Exact (k.resumed slot) := by
  unfold Kernel.resumed
  cases (k.proc slot).resume with
  | forkret => exact exact
  | sleep => exact exact.modify slot _ (fun _ => rfl) (fun _ => rfl)
  | yieldFork | yieldTrap => exact exact.congr rfl rfl rfl (fun _ => rfl) (fun _ => rfl)

/-- The time of the first scheduling is kept once it is recorded, and otherwise taken from
a clock reading of the dispatch. -/
def Stamped (env : Env) (before after : UInt64) (reads later : Nat) : Prop :=
  before ≠ 0 ∧ after = before ∨
    before = 0 ∧ ∃ reading, reads ≤ reading ∧ reading ≤ later ∧ after = env.tick reading

/-- The one record and the variables that a dispatch changes before the switch. -/
theorem startRunning_eq (env : Env) (cpu : Fin cpus) (slot : Slot) (k : Kernel cpus) :
    ∃ firstsch reads, (k.reads ≤ reads ∧
        Stamped env (k.proc slot).firstsch firstsch k.reads reads) ∧
      k.startRunning env cpu slot =
      { k with
        proc := update k.proc slot
          { k.proc slot with state := .running, firstsch := firstsch }
        ready := (k.ready.remove env.config env.tick k.proc k.reads).1
        reads := reads
        cpuProc := update k.cpuProc cpu (some slot)
        context := update k.context cpu (some slot) } := by
  have forward := ReadyQueue.remove_forward env.config env.tick k.proc k.ready k.reads
  unfold startRunning
  simp only [Kernel.modify, update_self]
  split
  · rename_i unscheduled
    refine ⟨env.tick (k.ready.remove env.config env.tick k.proc k.reads).2,
      (k.ready.remove env.config env.tick k.proc k.reads).2 + 1, ?_, ?_⟩
    · exact ⟨Nat.le_succ_of_le forward, .inr ⟨unscheduled, _, forward, Nat.le_succ _, rfl⟩⟩
    · simp only [update_idem]
  · rename_i scheduled
    exact ⟨(k.proc slot).firstsch, _, ⟨forward, .inl ⟨scheduled, rfl⟩⟩, rfl⟩

section

variable (exact : Exact k)
include exact

theorem Exact.head (positive : 0 < k.ready.count) :
    ∃ head, k.ready.queue 0 = some head ∧ (k.proc head).state = .runnable := by
  obtain ⟨head, member, stored⟩ := exact.queued.filled 0 positive
  exact ⟨head, stored, member⟩

theorem Exact.dispatch (env : Env) {head : Slot} (idle : k.context cpu = none)
    (positive : 0 < k.ready.count) (first : k.ready.queue 0 = some head) :
    Exact (k.dispatch env cpu head) := by
  obtain ⟨slot, stored, runnable⟩ := exact.head positive
  obtain rfl : head = slot := Option.some.inj (first.symm.trans stored)
  have removed := (ReadyQueue.remove_holds env.config env.tick k.proc k.ready k.reads
    (runnables k.proc) exact.queued positive head first).2
  obtain ⟨firstsch, reads, _, started⟩ := startRunning_eq env cpu head k
  rw [Kernel.dispatch, started]
  apply Exact.resumed
  refine exact.enters idle runnable removed rfl rfl ?_ ?_ ?_
  · simp only [update_self]
  · intro other different
    simp only [update_of_ne different]
  · exact update_same Proc.stage (by rfl)

/-- On an idle processor `proc` is null, so the frozen threshold build faults where it
would read the threshold of `proc`, and in every other case the test passes. -/
theorem dispatchTest_eq (env : Env) (idle : k.context cpu = none) (head : Slot) :
    k.dispatchTest env cpu head =
      if env.config = .pt ∧ k.frozen = true then .error .nullProc else .ok true := by
  have unnamed : k.current cpu = .error .nullProc := by
    simp only [Kernel.current, exact.named, idle]
  unfold dispatchTest
  cases env.config with
  | edf => rfl
  | pt =>
    by_cases frozen : k.frozen = true
    · simp only [frozen, unnamed, and_self, if_true]
      rfl
    · simp only [frozen]
      rfl

theorem Exact.countSwitch (head : Slot) : Exact (k.countSwitch head) :=
  exact.modify head _ (fun _ => rfl) (fun _ => rfl)

/-- One scheduler iteration that finds an entry on an idle processor. -/
theorem scheduler_eq (env : Env) {head : Slot} (idle : k.context cpu = none)
    (positive : 0 < k.ready.count) (first : k.ready.queue 0 = some head) :
    k.scheduler env cpu =
      if env.config = .pt ∧ k.frozen = true then .error .nullProc
      else .ok ((k.countSwitch head).dispatch env cpu head) := by
  have nonempty : k.ready.itr_q ≠ -1 := (ReadyQueue.nonempty_iff k.ready).mpr positive
  have tested : (k.countSwitch head).dispatchTest env cpu head =
      if env.config = .pt ∧ k.frozen = true then .error .nullProc else .ok true :=
    dispatchTest_eq (exact.countSwitch head) env idle head
  rw [scheduler, if_pos nonempty, first]
  simp only [tested]
  by_cases gated : env.config = .pt ∧ k.frozen = true
  · rw [if_pos gated, if_pos gated]
    rfl
  · rw [if_neg gated, if_neg gated]
    rfl

/-- One scheduler iteration on an idle processor rests or dispatches the head. -/
theorem scheduler_rule {post : Kernel cpus → Prop} {faults : Fault → Prop} {env : Env}
    (idle : k.context cpu = none) (null : faults .nullProc) (rests : post k)
    (dispatches : ∀ head, 0 < k.ready.count → k.ready.queue 0 = some head →
      (k.proc head).state = .runnable → post ((k.countSwitch head).dispatch env cpu head)) :
    Ends post faults (k.scheduler env cpu) := by
  by_cases positive : 0 < k.ready.count
  · obtain ⟨head, first, runnable⟩ := exact.head positive
    rw [scheduler_eq exact env idle positive first]
    split
    · exact null
    · exact dispatches head positive first runnable
  · have empty : ¬ k.ready.itr_q ≠ -1 :=
      fun nonempty => positive ((ReadyQueue.nonempty_iff k.ready).mp nonempty)
    rw [scheduler, if_neg empty]
    exact rests

theorem scheduler_ends (env : Env) (idle : k.context cpu = none) :
    Ends Exact NoOverrun (k.scheduler env cpu) :=
  scheduler_rule exact idle (by simp [NoOverrun]) exact fun head positive first _ =>
    (exact.countSwitch head).dispatch env idle positive first

theorem yield_ends (env : Env) (executes : k.context cpu = some caller) (resume : Resume) :
    Ends Exact NoOverrun (k.yield env cpu resume) := by
  refine yield_rule (exact.current executes) (by simp [NoOverrun])
    (exact.congr rfl rfl rfl (fun _ => rfl) (fun _ => rfl)) ?_
  obtain ⟨ready, reads, inserted, _, kept⟩ :=
    exact.yields env executes (fun p => { p with state := .runnable, resume := resume })
      (fun _ => rfl) (fun _ => rfl)
  rw [inserted]
  exact kept

theorem Exact.sleepOn (executes : k.context cpu = some caller) (chan : Addr) :
    Exact (k.sleepOn cpu caller chan) :=
  exact.stops executes _ (fun _ => by simp) (fun _ => by simp) (fun _ => rfl)

theorem exit_ends (env : Env) (memory : Nat → UInt32) (executes : k.context cpu = some caller) :
    Ends Exact NoOverrun (k.exit env memory cpu) := by
  rw [exit, exact.current executes]
  simp only [bind, Except.bind]
  split
  · simp [Ends, NoOverrun]
  apply Ends.bind (wakeup1_ends exact env memory _)
  intro woken parentWoken
  have loop : Ends (Woken woken) NoOverrun (slots.foldlM (reparentOne env memory caller) woken) := by
    apply Ends.foldlM _ _ (Woken.refl parentWoken.exact)
    intro state slot _ soFar
    exact (reparentOne_ends soFar.exact env memory caller slot).imp (fun next => soFar.trans)
  apply Ends.bind loop
  intro passed reparented
  have still : passed.context cpu = some caller := by
    rw [reparented.context, parentWoken.context, executes]
  exact reparented.exact.stops still _ (fun _ => by simp) (fun _ => by simp) (fun _ => rfl)

end

variable {child : Slot}

/-- Freeing a zombie child leaves the queue and the processors alone. -/
theorem Exact.reaps (exact : Exact k) (zombie : (k.proc child).state = .zombie) :
    Exact (k.modify child freed) := by
  have others : ∀ other, other ≠ child →
      ((k.modify child freed).proc other).state = (k.proc other).state :=
    fun other different => by rw [modify_other k freed different]
  refine exact.keep (exact.unready (by simp [zombie]) (by simp [freed]) others) rfl rfl ?_
    (exact.claims_kept (by simp [zombie]) others (update_same Proc.stage (by rfl)))
  intro other
  by_cases same : other = child
  · subst same
    simp [zombie, freed]
  · rw [others other same]

theorem wait_ends (exact : Exact k) (executes : k.context cpu = some caller) :
    Ends (fun result => Exact result.1) NoOverrun (k.wait cpu) :=
  wait_rule (exact.current executes) (fun _ found => exact.reaps (zombieChild_some found).2)
    (fun _ _ => exact) fun _ => exact.sleepOn executes (.proc caller)

theorem setStage_state (k : Kernel cpus) (slot : Slot) (stage : Stage) (other : Slot) :
    ((k.setStage slot stage).proc other).state = (k.proc other).state :=
  update_same Proc.state (by rfl) other

theorem setStage_self (k : Kernel cpus) (slot : Slot) (stage : Stage) :
    ((k.setStage slot stage).proc slot).stage = stage := by
  rw [setStage, modify_self]

theorem setStage_other (k : Kernel cpus) {other : Slot} (stage : Stage) (different : other ≠ slot) :
    (k.setStage slot stage).proc other = k.proc other :=
  modify_other k _ different

theorem Exact.setStage (exact : Exact k) (slot : Slot) (stage : Stage)
    (claims : ∀ child, stage.child = some child → (k.proc slot).stage.child = some child) :
    Exact (k.setStage slot stage) := by
  refine exact.keep ?_ rfl rfl ?_ ?_
  · apply exact.queued.congr
    intro other
    simp only [mem_runnables, setStage_state]
  · intro other
    rw [setStage_state]
  intro other child staged
  have before : (k.proc other).stage.child = some child := by
    rcases update_cases (fun p : Proc => p.stage.child) staged with ⟨rfl, now⟩ | ⟨_, already⟩
    · exact claims child now
    · exact already
  exact ⟨before, (setStage_state k slot stage child).trans (exact.embryos other child before)⟩

/-- A slot found by `allocproc` was unused and is now an embryo; every other record
is untouched. -/
theorem allocproc_some {claimed : Kernel cpus} (found : k.allocproc = (some child, claimed)) :
    (k.proc child).state = .unused ∧
      claimed = { k.modify child (fun p => { p with state := .embryo, pid := k.nextpid }) with
        nextpid := k.nextpid + 1 } := by
  unfold allocproc at found
  cases searched : slots.find? (fun slot => decide ((k.proc slot).state = .unused)) with
  | none => simp [searched] at found
  | some slot =>
    rw [searched] at found
    simp only [Prod.mk.injEq, Option.some.injEq] at found
    obtain ⟨rfl, rfl⟩ := found
    have unused := List.find?_some searched
    simp only [decide_eq_true_eq] at unused
    exact ⟨unused, rfl⟩

section

variable (exact : Exact k)
include exact

/-- A free slot becomes the embryo of a process that had claimed none. -/
theorem Exact.claims (unused : (k.proc child).state = .unused) (ready : next.ready = k.ready)
    (cpuProc : next.cpuProc = k.cpuProc) (context : next.context = k.context)
    (embryo : (next.proc child).state = .embryo)
    (others : ∀ other, other ≠ child → (next.proc other).state = (k.proc other).state)
    (claimed : (next.proc caller).stage.child = some child)
    (stages : ∀ other, other ≠ caller → (next.proc other).stage = (k.proc other).stage) :
    Exact next := by
  have unclaimed : ∀ slot, (k.proc slot).stage.child ≠ some child := by
    intro slot staged
    have before := exact.embryos slot child staged
    simp [unused] at before
  refine ⟨?_, ?_, ?_, ?_, ?_, ?_⟩
  · rw [ready]
    exact exact.unready (by simp [unused]) (by simp [embryo]) others
  · rw [cpuProc, context, exact.named]
  · intro slot
    rw [context, ← exact.running slot]
    by_cases same : slot = child
    · subst same
      simp [unused, embryo]
    · rw [others slot same]
  · rw [context]
    exact exact.single
  · intro slot staged holds
    by_cases same : slot = caller
    · subst same
      rw [claimed] at holds
      exact Option.some.inj holds ▸ embryo
    rw [stages slot same] at holds
    have different : staged ≠ child := by
      rintro rfl
      exact unclaimed slot holds
    exact (others staged different).trans (exact.embryos slot staged holds)
  · intro slot other staged left right
    by_cases first : slot = caller
    · by_cases second : other = caller
      · rw [first, second]
      · rw [first, claimed] at left
        rw [stages other second, ← left] at right
        exact absurd right (unclaimed other)
    rw [stages slot first] at left
    by_cases second : other = caller
    · rw [second, claimed] at right
      rw [← right] at left
      exact absurd left (unclaimed slot)
    · rw [stages other second] at right
      exact exact.owners slot other staged left right

/-- The embryo of a fork in progress changes state and its owner gives it up. -/
theorem Exact.settles (owner : (k.proc caller).stage.child = some child)
    (queued : Holds next.ready.queue next.ready.count (runnables next.proc))
    (cpuProc : next.cpuProc = k.cpuProc) (context : next.context = k.context)
    (stopped : (next.proc child).state ≠ .running)
    (others : ∀ other, other ≠ child → (next.proc other).state = (k.proc other).state)
    (released : (next.proc caller).stage.child = none)
    (stages : ∀ other, other ≠ caller → (next.proc other).stage = (k.proc other).stage) :
    Exact next := by
  have embryo := exact.embryos caller child owner
  refine exact.keep queued cpuProc context ?_ ?_
  · intro slot
    by_cases same : slot = child
    · subst same
      simp [stopped, embryo]
    · rw [others slot same]
  intro slot staged holds
  have elsewhere : slot ≠ caller := by
    rintro rfl
    simp [released] at holds
  rw [stages slot elsewhere] at holds
  have different : staged ≠ child := by
    rintro rfl
    exact elsewhere (exact.owners slot caller staged holds owner)
  exact ⟨holds, (others staged different).trans (exact.embryos slot staged holds)⟩

theorem forkClaim_ends (executes : k.context cpu = some caller) :
    Ends Exact NoOverrun (k.forkClaim cpu) := by
  refine forkClaim_rule (exact.current executes) exact fun child unused => ?_
  have claimedChild : Stage.child (.claimed child) = some child := rfl
  refine exact.claims unused rfl rfl rfl ?_ ?_ ((congrArg Stage.child
    (setStage_self _ caller (.claimed child))).trans claimedChild) ?_
  · rw [setStage_state]
    simp only [Kernel.claimed, modify_self]
  · intro other different
    rw [setStage_state]
    simp only [Kernel.claimed, modify_other k _ different]
  · intro other different
    rw [setStage_other _ _ different]
    exact update_same Proc.stage (by rfl) other

theorem Exact.releases (owner : (k.proc caller).stage.child = some child) :
    Exact ((k.release child).setStage caller .idle) := by
  have embryo := exact.embryos caller child owner
  have others : ∀ other, other ≠ child →
      (((k.release child).setStage caller .idle).proc other).state = (k.proc other).state := by
    intro other different
    rw [setStage_state, release, modify_other k _ different]
  have unused : (((k.release child).setStage caller .idle).proc child).state = .unused := by
    rw [setStage_state, release, modify_self]
  refine exact.settles owner ?_ rfl rfl ?_ others ?_ ?_
  · exact exact.unready (by simp [embryo]) (by simp [unused]) others
  · simp [unused]
  · rw [setStage_self]
    rfl
  · intro other different
    rw [setStage_other _ _ different]
    exact update_same Proc.stage (by rfl) other

theorem Exact.prepares (env : Env) (owner : (k.proc caller).stage.child = some child)
    (apart : child ≠ caller) :
    Exact ((k.allocprocSetup env child).setStage caller (.prepared child)) := by
  have states : ∀ other, ((k.allocprocSetup env child).proc other).state =
      (k.proc other).state :=
    update_same Proc.state (by rfl)
  have elsewhere : ∀ other, other ≠ child →
      (k.allocprocSetup env child).proc other = k.proc other :=
    fun other different => update_of_ne different _ _
  have cleared : ((k.allocprocSetup env child).proc child).stage = .idle := by
    simp only [allocprocSetup, modify_self]
  have prepared : Exact (k.allocprocSetup env child) := by
    refine exact.keep ?_ rfl rfl ?_ ?_
    · apply exact.queued.congr
      intro other
      rw [mem_runnables, mem_runnables, states]
    · intro other
      rw [states]
    intro other staged holds
    have different : other ≠ child := by
      rintro rfl
      simp [cleared, Stage.child] at holds
    rw [elsewhere other different] at holds
    exact ⟨holds, (states staged).trans (exact.embryos other staged holds)⟩
  apply prepared.setStage
  intro other same
  rw [elsewhere caller apart.symm, owner]
  exact same

theorem Exact.apart (running : (k.proc caller).state = .running)
    (owner : (k.proc caller).stage.child = some child) : child ≠ caller := by
  rintro rfl
  cases running.symm.trans (exact.embryos _ _ owner)

theorem Exact.copies (owner : (k.proc caller).stage.child = some child) :
    Exact ((k.modify child (fun p => { p with parent := some caller })).setStage caller
      (.copied child)) := by
  have recorded : Exact (k.modify child (fun p => { p with parent := some caller })) :=
    exact.modify child _ (fun _ => rfl) (fun _ => rfl)
  apply recorded.setStage
  intro other same
  exact (congrArg Stage.child (update_same Proc.stage (by rfl) caller)).trans (owner.trans same)

theorem Exact.births (env : Env) (owner : (k.proc caller).stage.child = some child)
    (ready : next.ready = k.ready) (cpuProc : next.cpuProc = k.cpuProc)
    (context : next.context = k.context)
    (readied : Readied (k.setStage caller .idle).proc next.proc child) :
    Ends Exact NoOverrun (next.enqueue env child) := by
  have embryo := exact.embryos caller child owner
  have fresh : child ∉ runnables (k.setStage caller .idle).proc := by
    rw [mem_runnables, setStage_state, embryo]
    simp
  have queued : Holds next.ready.queue next.ready.count
      (runnables (k.setStage caller .idle).proc) := by
    rw [ready]
    apply exact.queued.congr
    intro other
    rw [mem_runnables, mem_runnables, setStage_state]
  obtain ⟨after, reads, inserted, _, holds⟩ := enqueue_holds env child next _ queued fresh
  rw [inserted]
  refine exact.settles owner (holds.congr readied.runnables) cpuProc context ?_ ?_ ?_ ?_
  · simp [readied.state]
  · intro other different
    exact (readied.others other different).trans (setStage_state ..)
  · rw [readied.stages, setStage_self]
    rfl
  · intro other different
    rw [readied.stages, setStage_other k _ different]

theorem Exact.postpones (owner : (k.proc caller).stage.child = some child)
    (ready : next.ready = k.ready) (cpuProc : next.cpuProc = k.cpuProc)
    (context : next.context = k.context) (state : (next.proc child).state = .waiting)
    (others : ∀ other, other ≠ child →
      (next.proc other).state = ((k.setStage caller .idle).proc other).state)
    (stages : ∀ other, (next.proc other).stage = ((k.setStage caller .idle).proc other).stage) :
    Exact next := by
  have embryo := exact.embryos caller child owner
  have apart : ∀ other, other ≠ child → (next.proc other).state = (k.proc other).state :=
    fun other different => (others other different).trans (setStage_state ..)
  refine exact.settles owner ?_ cpuProc context ?_ apart ?_ ?_
  · rw [ready]
    exact exact.unready (by simp [embryo]) (by simp [state]) apart
  · simp [state]
  · rw [stages, setStage_self]
    rfl
  · intro other different
    rw [stages, setStage_other k _ different]

theorem forkInsert_ends (env : Env) (executes : k.context cpu = some caller)
    (owner : (k.proc caller).stage.child = some child) (d c p o : UInt32) :
    Ends Exact NoOverrun (k.forkInsert env cpu child d c p o) := by
  rw [forkInsert, exact.current executes]
  simp only [bind, Except.bind]
  cases env.config with
  | edf => exact exact.births env owner rfl rfl rfl (Readied.update _ child _ rfl rfl)
  | pt =>
    simp only
    split
    · rw [modify_modify]
      refine exact.postpones owner rfl rfl rfl ?_ ?_ (update_same Proc.stage rfl)
      · rw [modify_self]
      · intro other different
        rw [modify_other _ _ different]
    · simp only [modify_modify]
      exact exact.births env owner rfl rfl rfl (Readied.update _ child _ rfl rfl)

end

theorem zero_allocproc : (zero cpus).allocproc = (some 0,
    { (zero cpus).modify 0 (fun p => { p with state := .embryo, pid := 1 }) with nextpid := 2 }) :=
  rfl

theorem userinit_other (env : Env) (different : slot ≠ 0) :
    ((zero cpus).userinit env).proc slot = Proc.zero := by
  simp only [userinit, zero_allocproc, userinitInsert, userinitMark, userinitPrepare,
    allocprocSetup, modify_other _ _ different]
  rfl

/-- What the record of every slot is when the kernel starts. -/
structure Initial (p : Proc) : Prop where
  state : p.state = .unused ∨ p.state = .runnable
  parent : p.parent = none
  stage : p.stage = .idle
  pid : p.pid ≠ -1
  killed : p.killed = false
  arrtime : p.arrtime = 0

/-- `userinit` leaves the records like this, whether it has used them or not. -/
theorem userinit_initial (env : Env) (slot : Slot) :
    Initial (((zero cpus).userinit env).proc slot) := by
  by_cases same : slot = 0
  · subst same
    exact ⟨.inr rfl, rfl, rfl, (by decide : (1 : Int32) ≠ -1), rfl, rfl⟩
  · rw [userinit_other env same]
    exact ⟨.inl rfl, rfl, rfl, by decide, rfl, rfl⟩

/-- The state `userinit` leaves: one runnable process, alone in the queue. -/
theorem userinit_exact (env : Env) : Exact ((zero cpus).userinit env) := by
  have first : (((zero cpus).userinit env).proc 0).state = .runnable := rfl
  have stages : ∀ slot, (((zero cpus).userinit env).proc slot).stage = .idle :=
    fun slot => (userinit_initial env slot).stage
  refine ⟨?_, rfl, ?_, ?_, ?_, ?_⟩
  · have single : Holds ((zero cpus).userinit env).ready.queue 1 {0} :=
      Holds.singleton _ 0 rfl
    apply single.congr
    intro slot
    by_cases same : slot = 0
    · subst same
      simp [mem_runnables, first]
    · simp [mem_runnables, same, userinit_other env same, Proc.zero]
  · intro slot
    have idle : ∀ cpu, ((zero cpus).userinit env).context cpu = none := fun _ => rfl
    simp only [idle, reduceCtorEq, exists_false, iff_false]
    by_cases same : slot = 0
    · subst same
      simp [first]
    · simp [userinit_other env same, Proc.zero]
  · intro cpu other slot executed
    have idle : ((zero cpus).userinit env).context cpu = none := rfl
    simp [idle] at executed
  · intro slot child claimed
    simp [stages, Stage.child] at claimed
  · intro slot other child claimed
    simp [stages, Stage.child] at claimed

/-- Every section that control can enter keeps the invariant, whatever its
arguments, and none of them stores past the queue. -/
theorem execute_ends (exact : Exact k) (env : Env) (action : Action cpus)
    (enabled : k.Enabled action) : Ends Exact NoOverrun (k.execute env action) := by
  cases action with
  | forkClaim cpu =>
    obtain ⟨caller, executes, _⟩ := enabled
    exact forkClaim_ends exact executes
  | forkNoStack cpu child | forkNoMemory cpu child =>
    obtain ⟨caller, executes, stage⟩ := enabled
    simp only [execute, forkNoStack, forkNoMemory, exact.current executes]
    exact exact.releases (stage ▸ rfl)
  | forkSetup cpu child =>
    obtain ⟨caller, executes, stage⟩ := enabled
    have owner : (k.proc caller).stage.child = some child := stage ▸ rfl
    rw [execute, forkSetup, exact.current executes]
    exact exact.prepares env owner (exact.apart (exact.executing executes) owner)
  | forkCopy cpu child =>
    obtain ⟨caller, executes, stage⟩ := enabled
    rw [execute, forkCopy, exact.current executes]
    exact exact.copies (stage ▸ rfl)
  | forkInsert cpu child d c p o =>
    obtain ⟨caller, executes, stage⟩ := enabled
    exact forkInsert_ends exact env executes (stage ▸ rfl) d c p o
  | yield cpu resume =>
    obtain ⟨caller, executes⟩ := Option.isSome_iff_exists.mp enabled
    exact yield_ends exact env executes resume
  | sleep cpu chan =>
    obtain ⟨caller, executes, _⟩ := enabled
    have named : k.cpuProc cpu = some caller := by rw [exact.named, executes]
    simp only [execute, sleep, named]
    exact exact.sleepOn executes chan
  | wakeup chan memory =>
    exact (wakeup1_ends exact env memory chan).imp (fun _ woken => woken.exact)
  | kill cpu pid => exact (kill_ends exact env pid).map
  | freeze cpu f =>
    obtain ⟨caller, executes, _⟩ := enabled
    rw [execute, freeze, exact.current executes]
    cases f with
    | true => exact exact.congr rfl rfl rfl (fun _ => rfl) (fun _ => rfl)
    | false =>
      have cleared : Exact { k with frozen := false } :=
        exact.congr rfl rfl rfl (fun _ => rfl) (fun _ => rfl)
      exact cleared.setStage caller .unfreezing (fun child claimed => by
        simp [Stage.child] at claimed)
  | unfreeze cpu =>
    obtain ⟨caller, executes, _⟩ := enabled
    rw [execute, unfreeze, exact.current executes]
    have loop : Ends (Woken k) NoOverrun (slots.foldlM (unfreezeOne env) k) := by
      apply Ends.foldlM _ _ (Woken.refl exact)
      intro state slot _ soFar
      exact (unfreezeOne_ends soFar.exact env slot).imp (fun next => soFar.trans)
    apply Ends.bind loop
    intro scanned woken
    exact woken.exact.setStage caller .idle (fun child claimed => by simp [Stage.child] at claimed)
  | exit cpu memory =>
    obtain ⟨caller, executes, _⟩ := enabled
    exact exit_ends exact env memory executes
  | wait cpu =>
    obtain ⟨caller, executes, _⟩ := enabled
    exact (wait_ends exact executes).map
  | scheduler cpu => exact scheduler_ends exact env enabled

theorem Reachable.exact {env : Env} (reachable : Reachable env k) : Exact k := by
  induction reachable with
  | start => exact userinit_exact env
  | step _ action enabled executed ih =>
    exact (execute_ends ih env action enabled).value executed

theorem Exact.queued_iff (exact : Exact k) (slot : Slot) :
    k.ready.Queued slot ↔ (k.proc slot).state = .runnable := by
  constructor
  · rintro ⟨index, below, stored⟩
    obtain ⟨found, member, cell⟩ := exact.queued.filled index below
    rw [stored] at cell
    exact Option.some.inj cell ▸ member
  · intro runnable
    exact exact.queued.complete slot runnable

/-- In every reachable state the counted cells of the ready queue hold the runnable
processes and nothing else, none twice; a process is running exactly when it is the
current process of exactly one processor; the queue fits its array, and no section
that can run next stores past it. -/
theorem ready_queue_exact (env : Env) (k : Kernel cpus) (reachable : Reachable env k) :
    (∀ index, index < k.ready.count → ∃ slot, k.ready.queue index = some slot ∧
      (k.proc slot).state = .runnable) ∧
    (∀ slot, (k.proc slot).state = .runnable ↔ k.ready.Queued slot) ∧
    (∀ left right, left < k.ready.count → right < k.ready.count →
      k.ready.queue left = k.ready.queue right → left = right) ∧
    (∀ slot, (k.proc slot).state = .running ↔ ∃! cpu, k.cpuProc cpu = some slot) ∧
    k.ready.count ≤ NPROC ∧
    ∀ action, k.Enabled action → k.execute env action ≠ .error .overrun := by
  have exact := reachable.exact
  have filled : ∀ index, index < k.ready.count → ∃ slot, k.ready.queue index = some slot ∧
      (k.proc slot).state = .runnable := by
    intro index below
    obtain ⟨slot, member, stored⟩ := exact.queued.filled index below
    exact ⟨slot, stored, member⟩
  refine ⟨filled, ?_, ?_, ?_, ?_, ?_⟩
  · intro slot
    constructor
    · intro runnable
      exact exact.queued.complete slot runnable
    · rintro ⟨index, below, stored⟩
      obtain ⟨found, cell, runnable⟩ := filled index below
      rw [stored] at cell
      exact Option.some.inj cell ▸ runnable
  · intro left right belowLeft belowRight same
    obtain ⟨slot, cell, _⟩ := filled left belowLeft
    exact exact.queued.distinct left right slot belowLeft belowRight cell (same ▸ cell)
  · intro slot
    rw [exact.running slot, exact.named]
    constructor
    · rintro ⟨cpu, executes⟩
      exact ⟨cpu, executes, fun other executed => exact.single other cpu slot executed executes⟩
    · rintro ⟨cpu, executes, _⟩
      exact ⟨cpu, executes⟩
  · simpa only [Fintype.card_fin] using exact.queued.count_le
  · intro action enabled failed
    exact (execute_ends exact env action enabled).fault failed rfl

/-- In the state that `userinit` leaves on one processor of the threshold build, the
first process is queued. -/
theorem ready_queue_exact_start :
    ((zero 1).userinit ⟨.pt, fun _ => 0⟩).ready.Queued 0 :=
  ((ready_queue_exact ⟨.pt, fun _ => 0⟩ _ Reachable.start).2.1 0).mp rfl

end Kernel

end RtXv6
