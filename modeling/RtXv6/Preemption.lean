import RtXv6.DispatchOrder
import RtXv6.ReadyExactness

/-!
# Preemption thresholds on one processor

The threshold build preempts a process only through the flag `interrupt`: `wakeup1`
raises it, and the end of `trap` yields when it finds it raised. A return to user
mode respects the running process's threshold when no ready process has a larger
priority. Two things are needed for that: whenever a ready process exceeds the
threshold the flag must be up, and the yield must look at a ready process of maximal
priority.

`fork`, `kill` and `freeze(0)` make processes ready without raising the flag, and
`allocproc` lowers it. `trap` therefore returns to a process below the priority of a
child it has just created. The law below names what a run must respect for every
return from a device interrupt to keep the discipline.
-/

namespace RtXv6

open Segments Outcome DispatchOrder PointUpdates

namespace Kernel

/-- The end of `trap` after the work of a device interrupt, which is a sequence of
wakeups. A killed process in user mode goes on to `exit`; a raised flag is lowered
and answered by `yield`. The second result is the process that `trap` returns to in
user mode. -/
def trapEnd (env : Env) (user : Bool) (k : Kernel 1) : Except Fault (Kernel 1 × Option Slot) :=
  match k.cpuProc 0 with
  | none => .ok (k, none)
  | some caller =>
    if (k.proc caller).killed ∧ user then .ok (k, none)
    else if (k.proc caller).state = .running ∧ k.interrupt then do
      let next ← { k with interrupt := false }.yield env 0 (.yieldTrap user)
      .ok (next, if user then next.context 0 else none)
    else .ok (k, if user then some caller else none)

/-- The process that a dispatch returns to in user mode: one that `trap` had made
yield there. Interrupts stay off from the switch to the return; a killed process
exits instead. -/
def resumesUser (k : Kernel 1) : Option Slot :=
  match k.context 0 with
  | none => none
  | some slot =>
    if (k.proc slot).resume = .yieldTrap true ∧ ¬ (k.proc slot).killed then some slot else none

end Kernel

/-- A section of `proc.c`, or the end of a trap that interrupted user or kernel
code. -/
inductive Event where
  | run (action : Action 1)
  | trapEnd (user : Bool)

variable {middle : Kernel 1} {returned : Option Slot} {before after : Table}

namespace Kernel

/-- The section is a bare `yield`. -/
def yieldsOnly : Action 1 → Bool
  | .yield _ _ => true
  | _ => false

/-- User code runs between system calls only. In this build only `trap` yields. -/
def Occurs (k : Kernel 1) : Event → Prop
  | .run action => k.Enabled action ∧ yieldsOnly action = false
  | .trapEnd user => user = true → k.At 0 .idle

instance (k : Kernel 1) (event : Event) : Decidable (k.Occurs event) :=
  match event with
  | .run action => inferInstanceAs (Decidable (k.Enabled action ∧ yieldsOnly action = false))
  | .trapEnd user => inferInstanceAs (Decidable (user = true → k.At 0 .idle))

/-- The state after an event, and the process in user mode that a device interrupt's
trap returned to with it. -/
def perform (env : Env) (k : Kernel 1) : Event → Except Fault (Kernel 1 × Option Slot)
  | .run action => do
    let next ← k.execute env action
    match action with
    | .scheduler _ => .ok (next, next.resumesUser)
    | _ => .ok (next, none)
  | .trapEnd user => k.trapEnd env user

/-- The states of the runs on one processor whose events all meet a condition. -/
inductive Guarded (env : Env) (meets : Kernel 1 → Event → Prop) : Kernel 1 → Prop
  | start : Guarded env meets ((zero 1).userinit env)
  | step {k next : Kernel 1} {returned : Option Slot} (before : Guarded env meets k)
      (event : Event) (occurs : k.Occurs event) (met : meets k event)
      (performed : k.perform env event = .ok (next, returned)) : Guarded env meets next

/-- No ready process has a priority above the threshold of `slot`. -/
def Disciplined (k : Kernel 1) (slot : Slot) : Prop :=
  ∀ other, k.ready.Queued other → (k.proc other).P ≤ (k.proc slot).O

/-- What an event must find. A new process's threshold is at least its priority. A
process that `fork`, `kill` or `freeze(0)` makes ready while no preemption is pending
does not exceed the running process's threshold. `allocproc` does not drop a pending
preemption that is due. A dispatch and the test of a yield find a process of maximal
priority first in the queue. -/
def Respects (env : Env) (k : Kernel 1) : Event → Prop
  | .run (.forkSetup _ _) =>
    k.interrupt = true → ∀ caller, k.context 0 = some caller → k.Disciplined caller
  | .run (.forkInsert _ _ _ _ p o) =>
    p ≤ o ∧ (k.frozen = true ∨ k.interrupt = true ∨
      ∀ caller, k.context 0 = some caller → p ≤ (k.proc caller).O)
  | .run (.kill _ pid) =>
    k.interrupt = true ∨ ∀ caller slot, k.context 0 = some caller → (k.proc slot).pid = pid →
      (k.proc slot).state = .sleeping → (k.proc slot).P ≤ (k.proc caller).O
  | .run (.unfreeze _) =>
    k.interrupt = true ∨ ∀ caller slot, k.context 0 = some caller →
      (k.proc slot).state = .waiting → (k.proc slot).P ≤ (k.proc caller).O
  | .run (.scheduler _) =>
    k.ready.itr_q ≠ -1 → ServesFirst .pt env.tick k.proc k.ready
  | .trapEnd _ =>
    k.interrupt = true → k.ready.itr_q ≠ -1 → ServesFirst .pt env.tick k.proc k.ready
  | _ => True

/-- The invariant of the runs that respect the thresholds: a preemption is pending
whenever a ready process exceeds the running one's threshold. -/
structure Poised (k : Kernel 1) : Prop where
  exact : Exact k
  bounded : ∀ slot, (k.proc slot).P ≤ (k.proc slot).O
  pending : ∀ caller, k.context 0 = some caller → k.interrupt = true ∨ k.Disciplined caller

variable {k : Kernel 1}

/-- In an exact state the discipline speaks of the runnable processes. -/
theorem Exact.disciplined_iff (exact : Exact k) (slot : Slot) :
    k.Disciplined slot ↔
      ∀ other, (k.proc other).state = .runnable → (k.proc other).P ≤ (k.proc slot).O := by
  simp only [Disciplined, exact.queued_iff]

variable {next : Kernel 1}

theorem Poised.of_idle (exact : Exact next)
    (bounded : ∀ slot, (next.proc slot).P ≤ (next.proc slot).O) (idle : next.context 0 = none) :
    Poised next where
  exact := exact
  bounded := bounded
  pending := by
    intro caller executes
    rw [idle] at executes
    cases executes

/-- A section that leaves the processor with its process keeps the invariant when the
flag stays up, and when each process that is newly ready without it stays below the
threshold. -/
theorem Poised.advance (poised : Poised k) (exact : Exact next)
    (bounded : ∀ slot, (next.proc slot).P ≤ (next.proc slot).O)
    (context : next.context = k.context)
    (threshold : ∀ caller, k.context 0 = some caller → (next.proc caller).O = (k.proc caller).O)
    (raised : k.interrupt = true → next.interrupt = true)
    (ready : next.interrupt = true ∨ ∀ caller slot, k.context 0 = some caller →
      (next.proc slot).state = .runnable →
        ((k.proc slot).state = .runnable ∧ (next.proc slot).P = (k.proc slot).P) ∨
          (next.proc slot).P ≤ (k.proc caller).O) : Poised next where
  exact := exact
  bounded := bounded
  pending := by
    intro caller executes
    rw [context] at executes
    rcases ready with up | low
    · exact .inl up
    rcases poised.pending caller executes with up | disciplined
    · exact .inl (raised up)
    right
    rw [poised.exact.disciplined_iff] at disciplined
    rw [exact.disciplined_iff]
    intro slot runnable
    rw [threshold caller executes]
    rcases low caller slot executes runnable with ⟨before, same⟩ | below
    · rw [same]
      exact disciplined slot before
    · exact below

/-- Priorities and thresholds are the same in two tables. -/
def SamePriorities (before after : Table) : Prop :=
  ∀ slot, (after slot).P = (before slot).P ∧ (after slot).O = (before slot).O

theorem SamePriorities.refl (table : Table) : SamePriorities table table :=
  fun _ => ⟨rfl, rfl⟩

theorem SamePriorities.trans {middle : Table} (first : SamePriorities before middle)
    (second : SamePriorities middle after) : SamePriorities before after :=
  fun slot => ⟨(second slot).1.trans (first slot).1, (second slot).2.trans (first slot).2⟩

/-- A replaced record keeps all priorities when it keeps its own. -/
theorem SamePriorities.update (table : Table) (slot : Slot) (record : Proc)
    (priority : record.P = (table slot).P) (threshold : record.O = (table slot).O) :
    SamePriorities table (Function.update table slot record) :=
  fun other => ⟨update_same Proc.P priority other,
    update_same Proc.O threshold other⟩

theorem SamePriorities.bounded (same : SamePriorities before after)
    (bounded : ∀ slot, (before slot).P ≤ (before slot).O) :
    ∀ slot, (after slot).P ≤ (after slot).O := by
  intro slot
  rw [(same slot).1, (same slot).2]
  exact bounded slot

theorem enqueue_frame (env : Env) (slot : Slot) (k : Kernel 1) :
    Returns (fun next => next.proc = k.proc ∧ next.context = k.context ∧
      next.interrupt = k.interrupt) (k.enqueue env slot) := by
  unfold enqueue
  split
  · trivial
  · exact ⟨rfl, rfl, rfl⟩

/-- What a scan may do: it keeps priorities and the processor, and either changes
nothing or raises the flag. -/
structure Signals (k next : Kernel 1) : Prop where
  priorities : SamePriorities k.proc next.proc
  context : next.context = k.context
  signal : next = k ∨ next.interrupt = true

theorem Signals.trans (first : Signals k middle) (second : Signals middle next) :
    Signals k next where
  priorities := first.priorities.trans second.priorities
  context := second.context.trans first.context
  signal := by
    rcases second.signal with rfl | up
    · exact first.signal
    · exact .inr up

/-- In the threshold build a wakeup that wakes a process raises the flag. -/
theorem wakeup1_signals (tick : Nat → UInt64) (k : Kernel 1) (memory : Nat → UInt32) (chan : Addr) :
    Returns (Signals k) (k.wakeup1 ⟨.pt, tick⟩ memory chan) := by
  have rests : ∀ k, Signals k k := fun k => ⟨SamePriorities.refl k.proc, rfl, .inl rfl⟩
  refine .foldlM_related rests .trans _ k fun state slot => ?_
  refine wakeOne_rule (fun _ => rests state) fun _ => ?_
  refine (enqueue_frame ⟨.pt, tick⟩ slot _).imp ?_
  rintro next ⟨records, context, _⟩
  refine ⟨(fun edf => by cases edf), ?_, context, .inr rfl⟩
  simp only [records]
  exact SamePriorities.update state.proc slot _ (by rfl) (by rfl)

/-- After a switch to the scheduler the processor executes no process. -/
theorem sched_context {cpus : Nat} (cpu : Fin cpus) (k : Kernel cpus) :
    (k.sched cpu).context cpu = none :=
  Function.update_self ..

/-- `exit` keeps priorities and leaves the processor in its scheduler. -/
theorem exit_idle (tick : Nat → UInt64) (k : Kernel 1) (memory : Nat → UInt32) :
    Returns (fun next => SamePriorities k.proc next.proc ∧ next.context 0 = none)
      (k.exit ⟨.pt, tick⟩ memory 0) := by
  have reparented : ∀ (parent : Slot) (start : Kernel 1),
      Returns (fun next => SamePriorities start.proc next.proc)
        (slots.foldlM (reparentOne ⟨.pt, tick⟩ memory parent) start) := by
    intro parent start
    refine Ends.foldlM _ _ (SamePriorities.refl start.proc) ?_
    intro state slot _ soFar
    have passed : SamePriorities start.proc (state.passed slot).proc :=
      soFar.trans (SamePriorities.update state.proc slot _ (by rfl) (by rfl))
    exact reparentOne_rule (fun _ => soFar) (fun _ _ => passed) fun _ _ =>
      (wakeup1_signals tick _ memory _).imp fun next signals => passed.trans signals.priorities
  unfold exit Kernel.current
  split
  · trivial
  next caller _ =>
  simp only [bind, Except.bind]
  split
  · trivial
  apply Ends.bind (wakeup1_signals tick k memory _)
  intro woken signals
  apply Ends.bind (reparented caller woken)
  intro passed same
  have stopped : SamePriorities passed.proc
      (passed.modify caller (fun p => { p with state := .zombie })).proc :=
    SamePriorities.update passed.proc caller _ (by rfl) (by rfl)
  exact ⟨signals.priorities.trans (same.trans stopped), sched_context 0 _⟩

/-- What sections that make only chosen processes ready leave alone. -/
structure Readies (k next : Kernel 1) (chosen : Slot → Prop) : Prop where
  priorities : SamePriorities k.proc next.proc
  context : next.context = k.context
  interrupt : next.interrupt = k.interrupt
  ready : ∀ slot, (next.proc slot).state = .runnable →
    (k.proc slot).state = .runnable ∨ chosen slot
  waiting : ∀ slot, (next.proc slot).state = .waiting → (k.proc slot).state = .waiting

theorem Readies.refl (k : Kernel 1) (chosen : Slot → Prop) : Readies k k chosen :=
  ⟨SamePriorities.refl k.proc, rfl, rfl, fun _ => .inl, fun _ waiting => waiting⟩

variable {chosen : Slot → Prop}

theorem Readies.trans (first : Readies k middle chosen) (second : Readies middle next chosen) :
    Readies k next chosen where
  priorities := first.priorities.trans second.priorities
  context := second.context.trans first.context
  interrupt := second.interrupt.trans first.interrupt
  ready := by
    intro slot runnable
    rcases second.ready slot runnable with before | now
    · exact first.ready slot before
    · exact .inr now
  waiting := fun slot waiting => first.waiting slot (second.waiting slot waiting)

/-- A changed record with its priorities kept. It must be chosen if it is now
ready. -/
theorem Readies.modify (k : Kernel 1) (slot : Slot) (change : Proc → Proc) (chosen : Slot → Prop)
    (ready : ∀ p, (change p).state = .runnable → p.state = .runnable ∨ chosen slot)
    (waiting : ∀ p, (change p).state = .waiting → p.state = .waiting)
    (same : ∀ p, (change p).P = p.P ∧ (change p).O = p.O) :
    Readies k (k.modify slot change) chosen where
  priorities := SamePriorities.update k.proc slot _ (same _).1 (same _).2
  context := rfl
  interrupt := rfl
  ready := by
    intro other runnable
    rcases update_cases Proc.state runnable with ⟨rfl, now⟩ | ⟨_, already⟩
    · exact ready _ now
    · exact .inl already
  waiting := by
    intro other waits
    rcases update_cases Proc.state waits with ⟨rfl, now⟩ | ⟨_, already⟩
    · exact waiting _ now
    · exact already

theorem Readies.setStage (k : Kernel 1) (slot : Slot) (stage : Stage) (chosen : Slot → Prop) :
    Readies k (k.setStage slot stage) chosen :=
  Readies.modify k slot _ chosen (fun _ => .inl) (fun _ => id) fun _ => ⟨rfl, rfl⟩

theorem Readies.enqueue (env : Env) (slot : Slot) (readies : Readies k middle chosen) :
    Returns (fun next => Readies k next chosen) (middle.enqueue env slot) := by
  apply (enqueue_frame env slot middle).mono _ (fun _ _ => trivial)
  rintro next ⟨records, context, interrupt⟩
  refine readies.trans ⟨?_, context, interrupt, ?_, ?_⟩
  · intro other
    rw [records]
    exact ⟨rfl, rfl⟩
  · intro other runnable
    rw [records] at runnable
    exact .inl runnable
  · intro other waiting
    rwa [records] at waiting

/-- `kill` makes at most a sleeping process with the given number ready. -/
theorem kill_readies (env : Env) (k : Kernel 1) (pid : Int32) :
    Returns (fun result => Readies k result.1 (fun slot => (k.proc slot).pid = pid ∧
      (k.proc slot).state = .sleeping)) (k.kill env pid) := by
  have marked : ∀ slot, Readies k (k.marked slot)
      (fun slot => (k.proc slot).pid = pid ∧ (k.proc slot).state = .sleeping) :=
    fun slot => Readies.modify k slot _ _ (fun _ => .inl) (fun _ => id) fun _ => ⟨rfl, rfl⟩
  refine kill_rule (fun _ => .refl k _) (fun slot _ => marked slot) fun slot found asleep => ?_
  have numbered := List.find?_some found
  simp only [decide_eq_true_eq] at numbered
  exact Readies.enqueue env slot ((marked slot).trans (Readies.modify _ slot _ _
    (fun _ _ => .inr ⟨numbered, asleep⟩) (fun _ waiting => by simp at waiting) fun _ => ⟨rfl, rfl⟩))

theorem unfreeze_readies (env : Env) (k : Kernel 1) :
    Returns (fun next => Readies k next (fun slot => (k.proc slot).state = .waiting))
      (slots.foldlM (unfreezeOne env) k) := by
  refine Ends.foldlM _ _ (Readies.refl k _) ?_
  intro state slot _ soFar
  unfold unfreezeOne
  split
  · next waits =>
    have chosen : (k.proc slot).state = .waiting := soFar.waiting slot waits
    exact Readies.enqueue env slot (soFar.trans (Readies.modify state slot _ _
      (fun _ _ => .inr chosen) (fun _ waiting => by simp at waiting) fun _ => ⟨rfl, rfl⟩))
  · exact soFar

/-- A section that makes only chosen processes ready keeps the invariant when a
preemption is pending or these stay below the threshold. -/
theorem Poised.readies (poised : Poised k) (exact : Exact next) (readies : Readies k next chosen)
    (low : k.interrupt = true ∨ ∀ caller slot, k.context 0 = some caller → chosen slot →
      (k.proc slot).P ≤ (k.proc caller).O) : Poised next := by
  refine poised.advance exact (readies.priorities.bounded poised.bounded) readies.context
    (fun caller _ => (readies.priorities caller).2) ?_ ?_
  · intro up
    rw [readies.interrupt, up]
  rcases low with up | low
  · left
    rw [readies.interrupt, up]
  right
  intro caller slot executes runnable
  rcases readies.ready slot runnable with before | now
  · exact .inl ⟨before, (readies.priorities slot).1⟩
  right
  rw [(readies.priorities slot).1]
  exact low caller slot executes now

theorem Poised.quiet (poised : Poised k) (exact : Exact next)
    (readies : Readies k next (fun _ => False)) : Poised next :=
  poised.readies exact readies (.inr (fun _ _ _ none => none.elim))

theorem Poised.leaves (poised : Poised k) (exact : Exact next)
    (priorities : SamePriorities k.proc next.proc) (idle : next.context 0 = none) : Poised next :=
  Poised.of_idle exact (priorities.bounded poised.bounded) idle

theorem dispatch_frame (env : Env) (head : Slot) (k : Kernel 1) :
    SamePriorities k.proc (k.dispatch env 0 head).proc ∧
      (k.dispatch env 0 head).context 0 = some head ∧
      ∀ slot, ((k.dispatch env 0 head).proc slot).state = .runnable →
        slot ≠ head ∧ (k.proc slot).state = .runnable := by
  have resumes : ∀ (start : Kernel 1), SamePriorities start.proc (start.resumed head).proc ∧
      (start.resumed head).context = start.context ∧
      ∀ slot, ((start.resumed head).proc slot).state = (start.proc slot).state := by
    intro start
    unfold Kernel.resumed
    cases (start.proc head).resume with
    | sleep =>
      exact ⟨SamePriorities.update start.proc head _ (by rfl) (by rfl), rfl,
        update_same Proc.state (by rfl)⟩
    | forkret | yieldFork | yieldTrap => exact ⟨SamePriorities.refl _, rfl, fun _ => rfl⟩
  obtain ⟨firstsch, reads, _, started⟩ := startRunning_eq env 0 head k
  obtain ⟨priorities, context, states⟩ := resumes (k.startRunning env 0 head)
  rw [Kernel.dispatch]
  refine ⟨SamePriorities.trans ?_ priorities, ?_, ?_⟩
  · rw [started]
    exact SamePriorities.update k.proc head _ (by rfl) (by rfl)
  · rw [context, started]
    simp only [Function.update_self]
  · intro slot runnable
    rw [states, started] at runnable
    exact of_update Proc.state (by simp) runnable

variable {tick : Nat → UInt64}

/-- A scheduler iteration that finds a maximal process first keeps the invariant: the
rest of the queue stays below the dispatched process's priority, hence below its
threshold. -/
theorem Poised.scheduler (poised : Poised k) (idle : k.context 0 = none)
    (serves : k.ready.itr_q ≠ -1 → ServesFirst .pt tick k.proc k.ready)
    (executed : k.scheduler ⟨.pt, tick⟩ 0 = .ok next) :
    Poised next ∧ ∀ slot, next.context 0 = some slot → next.Disciplined slot := by
  have exact : Exact next := (scheduler_ends poised.exact ⟨.pt, tick⟩ idle).value executed
  by_cases nonempty : k.ready.itr_q ≠ -1
  · have positive := (ReadyQueue.nonempty_iff k.ready).mp nonempty
    obtain ⟨head, first, precedes⟩ := serves nonempty
    rw [scheduler_eq poised.exact ⟨.pt, tick⟩ idle positive first] at executed
    split at executed
    · cases executed
    obtain rfl := Except.ok.inj executed
    have counted : SamePriorities k.proc (k.countSwitch head).proc :=
      SamePriorities.update k.proc head _ (by rfl) (by rfl)
    obtain ⟨dispatched, executes, ready⟩ := dispatch_frame ⟨.pt, tick⟩ head (k.countSwitch head)
    have priorities := counted.trans dispatched
    have bounded := priorities.bounded poised.bounded
    have disciplined : ∀ caller, ((k.countSwitch head).dispatch ⟨.pt, tick⟩ 0 head).context 0 =
        some caller → ((k.countSwitch head).dispatch ⟨.pt, tick⟩ 0 head).Disciplined caller := by
      intro caller executing
      obtain rfl : head = caller := Option.some.inj (executes.symm.trans executing)
      rw [exact.disciplined_iff]
      intro slot runnable
      obtain ⟨_, stillReady⟩ := ready slot runnable
      have before : (k.proc slot).state = .runnable :=
        (update_same Proc.state (by rfl) slot).symm.trans stillReady
      have below : (k.proc slot).P ≤ (k.proc head).P :=
        precedes slot (poised.exact.queued.complete slot before)
      rw [(priorities slot).1]
      exact UInt32.le_trans below ((priorities head).1 ▸ bounded head)
    exact ⟨⟨exact, bounded, fun caller executing => .inr (disciplined caller executing)⟩,
      disciplined⟩
  · rw [Kernel.scheduler, if_neg nonempty] at executed
    obtain rfl := Except.ok.inj executed
    refine ⟨poised, ?_⟩
    intro slot executing
    rw [idle] at executing
    cases executing

variable {caller : Slot}

/-- The two ways a yield of the threshold build ends: the queue's first process exceeds
the caller's threshold and the processor is given up, or it does not and the flag is
lowered. -/
theorem yield_cases {resume : Resume} (exact : Exact k) (executes : k.context 0 = some caller)
    (yielded : k.yield ⟨.pt, tick⟩ 0 resume = .ok next) :
    (next.context 0 = none ∧ SamePriorities k.proc next.proc) ∨
      ∃ head, k.ready.queue 0 = some head ∧ (k.proc head).P ≤ (k.proc caller).O ∧
        next = { k with interrupt := false } := by
  rw [yield, exact.current executes] at yielded
  obtain ⟨found, named, afterwards⟩ := bind_ok yielded
  obtain rfl := Except.ok.inj named
  obtain ⟨switches, tested, rest⟩ := bind_ok afterwards
  unfold yieldTest at tested
  cases first : k.ready.queue 0 with
  | none => simp [first] at tested
  | some head =>
    simp only [first, Except.ok.injEq] at tested
    subst tested
    by_cases exceeds : (k.proc head).P > (k.proc caller).O
    · left
      simp only [exceeds, decide_true, if_true] at rest
      obtain ⟨entered, inserted, switched⟩ := bind_ok rest
      obtain ⟨records, _⟩ := (enqueue_frame ⟨.pt, tick⟩ caller _).value inserted
      obtain rfl := Except.ok.inj switched
      refine ⟨sched_context 0 entered, ?_⟩
      have kept : (entered.sched 0).proc = entered.proc := rfl
      rw [kept, records]
      exact SamePriorities.update k.proc caller _ (by rfl) (by rfl)
    · right
      simp only [exceeds, decide_false] at rest
      exact ⟨head, rfl, UInt32.not_lt.mp exceeds, (Except.ok.inj rest).symm⟩

/-- The end of a trap keeps the invariant. A yield that stays has compared the
threshold with the maximal ready priority. -/
theorem Poised.trapEnd {user : Bool} (poised : Poised k)
    (serves : k.interrupt = true → k.ready.itr_q ≠ -1 → ServesFirst .pt tick k.proc k.ready)
    (performed : k.trapEnd ⟨.pt, tick⟩ user = .ok (next, returned)) :
    Poised next ∧ ∀ slot, returned = some slot → next.Disciplined slot := by
  unfold Kernel.trapEnd at performed
  cases named : k.cpuProc 0 with
  | none =>
    simp only [named, Except.ok.injEq, Prod.mk.injEq] at performed
    obtain ⟨rfl, rfl⟩ := performed
    exact ⟨poised, fun slot none => by cases none⟩
  | some caller =>
    have executes : k.context 0 = some caller := by rw [← poised.exact.named, named]
    simp only [named] at performed
    split at performed
    · simp only [Except.ok.injEq, Prod.mk.injEq] at performed
      obtain ⟨rfl, rfl⟩ := performed
      exact ⟨poised, fun slot none => by cases none⟩
    split at performed
    · next flagged =>
      obtain ⟨yielded, executed, rest⟩ := bind_ok performed
      simp only [Except.ok.injEq, Prod.mk.injEq] at rest
      obtain ⟨rfl, rfl⟩ := rest
      have lowered : Exact { k with interrupt := false } :=
        poised.exact.congr rfl rfl rfl (fun _ => rfl) (fun _ => rfl)
      have exact : Exact yielded :=
        (yield_ends lowered ⟨.pt, tick⟩ executes (.yieldTrap user)).value executed
      rcases yield_cases lowered executes executed with ⟨idle, same⟩ | ⟨head, first, low, rfl⟩
      · refine ⟨poised.leaves exact same idle, ?_⟩
        intro slot returns
        simp [idle] at returns
      have disciplined : k.Disciplined caller := by
        intro other queued
        have ⟨index, below, _⟩ := queued
        have nonempty : k.ready.itr_q ≠ -1 :=
          (ReadyQueue.nonempty_iff k.ready).mpr (by omega)
        obtain ⟨served, stored, precedes⟩ := serves flagged.2 nonempty
        obtain rfl : head = served := Option.some.inj (first.symm.trans stored)
        exact UInt32.le_trans (precedes other queued) low
      have pending : ∀ slot, k.context 0 = some slot → k.Disciplined slot := by
        intro slot executing
        exact Option.some.inj (executes.symm.trans executing) ▸ disciplined
      refine ⟨⟨exact, poised.bounded, fun slot executing => .inr (pending slot executing)⟩, ?_⟩
      intro slot returns
      split at returns
      · exact pending slot returns
      · cases returns
    · next unflagged =>
      simp only [Except.ok.injEq, Prod.mk.injEq] at performed
      obtain ⟨rfl, rfl⟩ := performed
      refine ⟨poised, ?_⟩
      intro slot returns
      have down : k.interrupt ≠ true :=
        fun up => unflagged ⟨poised.exact.executing executes, up⟩
      split at returns
      · obtain rfl := Option.some.inj returns
        exact (poised.pending caller executes).resolve_left down
      · cases returns

variable {child : Slot}

theorem Poised.forkSetup (poised : Poised k) (staged : k.At 0 (.claimed child))
    (due : k.interrupt = true → ∀ caller, k.context 0 = some caller → k.Disciplined caller)
    (exact : Exact next) (executed : k.forkSetup ⟨.pt, tick⟩ 0 child = .ok next) : Poised next := by
  obtain ⟨caller, executes, stage⟩ := staged
  have embryo : (k.proc child).state = .embryo :=
    poised.exact.embryos caller child (stage ▸ rfl)
  have apart : caller ≠ child := by
    rintro rfl
    simp [poised.exact.executing executes] at embryo
  have disciplined : k.Disciplined caller := by
    rcases poised.pending caller executes with up | disciplined
    · exact due up caller executes
    · exact disciplined
  rw [Kernel.forkSetup, poised.exact.current executes] at executed
  obtain rfl := Except.ok.inj executed
  have staged : SamePriorities (k.allocprocSetup ⟨.pt, tick⟩ child).proc
      ((k.allocprocSetup ⟨.pt, tick⟩ child).setStage caller (.prepared child)).proc :=
    SamePriorities.update _ caller _ (by rfl) (by rfl)
  have elsewhere : ∀ slot, slot ≠ child →
      (k.allocprocSetup ⟨.pt, tick⟩ child).proc slot = k.proc slot :=
    fun slot different => Function.update_of_ne different _ _
  have states : ∀ slot, (((k.allocprocSetup ⟨.pt, tick⟩ child).setStage caller
      (.prepared child)).proc slot).state = (k.proc slot).state := by
    intro slot
    rw [setStage_state]
    exact update_same Proc.state (by rfl) slot
  refine ⟨exact, staged.bounded ?_, ?_⟩
  · intro slot
    by_cases same : slot = child
    · subst same
      simp [allocprocSetup]
    · rw [elsewhere slot same]
      exact poised.bounded slot
  · intro other executing
    obtain rfl : caller = other := Option.some.inj (executes.symm.trans executing)
    right
    rw [poised.exact.disciplined_iff] at disciplined
    rw [exact.disciplined_iff]
    intro slot runnable
    rw [states] at runnable
    have different : slot ≠ child := by
      rintro rfl
      simp [embryo] at runnable
    rw [(staged slot).1, (staged caller).2, elsewhere slot different, elsewhere caller apart]
    exact disciplined slot runnable

/-- What the end of `fork` does: the child gets its priorities, and becomes ready
unless creation is frozen. -/
theorem forkInsert_frame (tick : Nat → UInt64) (exact : Exact k)
    (executes : k.context 0 = some caller) (d c p o : UInt32) :
    Returns (fun next => next.context = k.context ∧ next.interrupt = k.interrupt ∧
      (∀ slot, slot ≠ child → (next.proc slot).P = (k.proc slot).P ∧
        (next.proc slot).O = (k.proc slot).O ∧ (next.proc slot).state = (k.proc slot).state) ∧
      (next.proc child).P = p ∧ (next.proc child).O = o ∧
      ((next.proc child).state = .runnable → k.frozen = false))
      (k.forkInsert ⟨.pt, tick⟩ 0 child d c p o) := by
  have elsewhere : ∀ slot, ((k.setStage caller .idle).proc slot).P = (k.proc slot).P ∧
      ((k.setStage caller .idle).proc slot).O = (k.proc slot).O ∧
      ((k.setStage caller .idle).proc slot).state = (k.proc slot).state :=
    fun slot => ⟨update_same Proc.P (by rfl) slot,
      update_same Proc.O (by rfl) slot, setStage_state k caller .idle slot⟩
  rw [forkInsert, exact.current executes]
  simp only [bind, Except.bind]
  split
  · refine ⟨rfl, rfl, ?_, ?_, ?_, ?_⟩
    · intro slot different
      simp only [modify_other _ _ different]
      exact elsewhere slot
    · simp only [modify_self]
    · simp only [modify_self]
    · simp only [modify_self]
      intro waiting
      cases waiting
  next thawed =>
  apply (enqueue_frame ⟨.pt, tick⟩ child _).mono _ (fun _ _ => trivial)
  rintro next ⟨records, context, interrupt⟩
  refine ⟨context, interrupt, ?_, ?_, ?_, ?_⟩
  · intro slot different
    simp only [records, modify_other _ _ different]
    exact elsewhere slot
  · simp only [records, modify_self]
  · simp only [records, modify_self]
  · intro _
    exact Bool.eq_false_iff.mpr thawed

/-- The end of `fork` keeps the invariant when the child's threshold covers its
priority, and the child is held back, a preemption is pending, or the child does not
exceed the caller's threshold. -/
theorem Poised.forkInsert {d c p o : UInt32} (poised : Poised k) (staged : k.At 0 (.copied child))
    (covered : p ≤ o)
    (low : k.frozen = true ∨ k.interrupt = true ∨
      ∀ caller, k.context 0 = some caller → p ≤ (k.proc caller).O) (exact : Exact next)
    (executed : k.forkInsert ⟨.pt, tick⟩ 0 child d c p o = .ok next) : Poised next := by
  obtain ⟨caller, executes, stage⟩ := staged
  have embryo : (k.proc child).state = .embryo :=
    poised.exact.embryos caller child (stage ▸ rfl)
  have apart : ∀ slot, k.context 0 = some slot → slot ≠ child := by
    rintro slot executing rfl
    simp [poised.exact.executing executing] at embryo
  obtain ⟨context, interrupt, others, priority, threshold, thawed⟩ :=
    (forkInsert_frame tick poised.exact executes d c p o).value executed
  refine poised.advance exact ?_ context ?_ ?_ ?_
  · intro slot
    by_cases same : slot = child
    · subst same
      rw [priority, threshold]
      exact covered
    · rw [(others slot same).1, (others slot same).2.1]
      exact poised.bounded slot
  · intro slot executing
    exact (others slot (apart slot executing)).2.1
  · intro up
    rw [interrupt, up]
  rcases low with frozen | up | low
  · right
    intro slot other _ runnable
    have different : other ≠ child := by
      rintro rfl
      simp [thawed runnable] at frozen
    rw [(others other different).2.2] at runnable
    exact .inl ⟨runnable, (others other different).1⟩
  · left
    rw [interrupt, up]
  · right
    intro slot other executing runnable
    by_cases same : other = child
    · subst same
      rw [priority]
      exact .inr (low slot executing)
    · rw [(others other same).2.2] at runnable
      exact .inl ⟨runnable, (others other same).1⟩

/-- The state that `userinit` leaves has nothing pending. -/
theorem userinit_poised (tick : Nat → UInt64) : Poised ((zero 1).userinit ⟨.pt, tick⟩) := by
  apply Poised.of_idle (userinit_exact _)
  · intro slot
    by_cases same : slot = 0
    · subst same
      exact (by decide : (1 : UInt32) ≤ 1)
    · rw [userinit_other _ same]
      exact (by decide : (0 : UInt32) ≤ 0)
  · rfl

theorem Readies.release (k : Kernel 1) (slot : Slot) (chosen : Slot → Prop) :
    Readies k (k.release slot) chosen :=
  Readies.modify k slot _ chosen (fun _ unready => by cases unready)
    (fun _ unready => by cases unready) fun _ => ⟨rfl, rfl⟩

/-- The sections of `fork` before its end, other than the one that lowers the flag,
make nothing ready. -/
theorem forkClaim_readies (exact : Exact k) (executes : k.context 0 = some caller) :
    Returns (fun next => Readies k next (fun _ => False)) (k.forkClaim 0) := by
  refine forkClaim_rule (exact.current executes) (.refl k _) fun child _ => ?_
  have embryo := Readies.modify k child (fun p => { p with state := .embryo, pid := k.nextpid })
    (fun _ => False) (fun _ unready => by cases unready) (fun _ unready => by cases unready)
    fun _ => ⟨rfl, rfl⟩
  have numbered : Readies k (k.claimed child) (fun _ => False) :=
    ⟨embryo.priorities, rfl, rfl, embryo.ready, embryo.waiting⟩
  exact numbered.trans (Readies.setStage _ caller _ _)

theorem Poised.wait {result : Option Int32} (poised : Poised k)
    (executes : k.context 0 = some caller) (exact : Exact next)
    (executed : k.wait 0 = .ok (next, result)) : Poised next := by
  have ends : Returns (fun result => Exact result.1 → Poised result.1) (k.wait 0) :=
    wait_rule (poised.exact.current executes)
      (fun child _ exact => poised.quiet exact (Readies.modify k child freed _
        (fun _ unready => by cases unready) (fun _ unready => by cases unready)
        fun _ => ⟨rfl, rfl⟩))
      (fun _ _ _ => poised) fun _ exact => poised.leaves exact
        (SamePriorities.update k.proc caller _ (by rfl) (by rfl)) (sched_context 0 _)
  exact ends.value executed exact

theorem Poised.execute (poised : Poised k) (action : Action 1) (occurs : k.Enabled action)
    (other : yieldsOnly action = false) (respects : k.Respects ⟨.pt, tick⟩ (.run action))
    (executed : k.execute ⟨.pt, tick⟩ action = .ok next) : Poised next := by
  have settled : Exact next :=
    (execute_ends poised.exact ⟨.pt, tick⟩ action occurs).value executed
  have only : ∀ cpu : Fin 1, cpu = 0 := fun cpu => Subsingleton.elim cpu 0
  cases action with
  | forkClaim cpu =>
    obtain rfl := only cpu
    obtain ⟨caller, executes, _⟩ := occurs
    exact poised.quiet settled ((forkClaim_readies poised.exact executes).value executed)
  | forkNoStack cpu child | forkNoMemory cpu child =>
    obtain rfl := only cpu
    obtain ⟨caller, executes, _⟩ := occurs
    simp only [Kernel.execute, forkNoStack, forkNoMemory, poised.exact.current executes] at executed
    obtain rfl := Except.ok.inj executed
    exact poised.quiet settled ((Readies.release k child _).trans (Readies.setStage _ caller _ _))
  | forkSetup cpu child =>
    obtain rfl := only cpu
    exact poised.forkSetup occurs respects settled executed
  | forkCopy cpu child =>
    obtain rfl := only cpu
    obtain ⟨caller, executes, _⟩ := occurs
    rw [Kernel.execute, forkCopy, poised.exact.current executes] at executed
    obtain rfl := Except.ok.inj executed
    exact poised.quiet settled ((Readies.modify k child (fun p => { p with parent := some caller }) _
      (fun _ => .inl) (fun _ => id) fun _ => ⟨rfl, rfl⟩).trans (Readies.setStage _ caller _ _))
  | forkInsert cpu child d c p o =>
    obtain rfl := only cpu
    exact poised.forkInsert occurs respects.1 respects.2 settled executed
  | yield cpu resume => cases other
  | sleep cpu chan =>
    obtain rfl := only cpu
    obtain ⟨caller, executes, _⟩ := occurs
    have named : k.cpuProc 0 = some caller := by rw [poised.exact.named, executes]
    simp only [Kernel.execute, Kernel.sleep, named, Except.ok.injEq] at executed
    subst executed
    exact poised.leaves settled (SamePriorities.update k.proc caller _ (by rfl) (by rfl))
      (sched_context 0 _)
  | wakeup chan memory =>
    have signals := (wakeup1_signals tick k memory chan).value executed
    rcases signals.signal with rfl | up
    · exact poised
    · exact poised.advance settled (signals.priorities.bounded poised.bounded)
        signals.context (fun caller _ => (signals.priorities caller).2) (fun _ => up) (.inl up)
  | kill cpu pid =>
    obtain ⟨result, killed, rfl⟩ := map_ok executed
    exact poised.readies settled ((kill_readies ⟨.pt, tick⟩ k pid).value killed)
      (respects.imp_right (fun low caller slot executes chosen =>
        low caller slot executes chosen.1 chosen.2))
  | freeze cpu f =>
    obtain rfl := only cpu
    obtain ⟨caller, executes, _⟩ := occurs
    rw [Kernel.execute, Kernel.freeze, poised.exact.current executes] at executed
    cases f with
    | true =>
      obtain rfl := Except.ok.inj executed
      exact poised.quiet settled ⟨SamePriorities.refl _, rfl, rfl, fun _ => .inl,
        fun _ waiting => waiting⟩
    | false =>
      obtain rfl := Except.ok.inj executed
      have cleared : Readies k { k with frozen := false } (fun _ => False) :=
        ⟨SamePriorities.refl _, rfl, rfl, fun _ => .inl, fun _ waiting => waiting⟩
      exact poised.quiet settled (cleared.trans (Readies.setStage _ caller _ _))
  | unfreeze cpu =>
    obtain rfl := only cpu
    obtain ⟨caller, executes, _⟩ := occurs
    rw [Kernel.execute, Kernel.unfreeze, poised.exact.current executes] at executed
    obtain ⟨found, named, afterwards⟩ := bind_ok executed
    obtain rfl := Except.ok.inj named
    obtain ⟨scanned, scan, rfl⟩ := bind_ok_ok afterwards
    have readies := (unfreeze_readies ⟨.pt, tick⟩ k).value scan
    exact poised.readies settled (readies.trans (Readies.setStage _ caller _ _)) respects
  | exit cpu memory =>
    obtain rfl := only cpu
    obtain ⟨same, idle⟩ := (exit_idle tick k memory).value executed
    exact poised.leaves settled same idle
  | wait cpu =>
    obtain rfl := only cpu
    obtain ⟨caller, executes, _⟩ := occurs
    obtain ⟨⟨state, result⟩, waited, rfl⟩ := map_ok executed
    exact poised.wait executes settled waited
  | scheduler cpu =>
    obtain rfl := only cpu
    exact (poised.scheduler occurs respects executed).1

/-- Every event that respects the thresholds keeps the invariant, and a process that
it returns to in user mode is not below a ready one. -/
theorem Poised.perform (poised : Poised k) (event : Event) (occurs : k.Occurs event)
    (respects : k.Respects ⟨.pt, tick⟩ event)
    (performed : k.perform ⟨.pt, tick⟩ event = .ok (next, returned)) :
    Poised next ∧ ∀ slot, returned = some slot → next.Disciplined slot := by
  cases event with
  | trapEnd user => exact poised.trapEnd respects performed
  | run action =>
    obtain ⟨state, executed, rest⟩ := bind_ok performed
    have kept : Poised state := poised.execute action occurs.1 occurs.2 respects executed
    split at rest
    · next cpu =>
      obtain rfl : cpu = 0 := Subsingleton.elim cpu 0
      simp only [Except.ok.injEq, Prod.mk.injEq] at rest
      obtain ⟨rfl, rfl⟩ := rest
      refine ⟨kept, ?_⟩
      intro slot resumes
      unfold resumesUser at resumes
      split at resumes
      · cases resumes
      next dispatched executing =>
      split at resumes
      · obtain rfl := Option.some.inj resumes
        exact (poised.scheduler occurs.1 respects executed).2 dispatched executing
      · cases resumes
    · simp only [Except.ok.injEq, Prod.mk.injEq] at rest
      obtain ⟨rfl, rfl⟩ := rest
      exact ⟨kept, fun slot none => by cases none⟩

/-- The invariant holds throughout the runs that respect the thresholds. -/
theorem Guarded.poised (guarded : Guarded ⟨.pt, tick⟩ (Respects ⟨.pt, tick⟩) k) : Poised k := by
  induction guarded with
  | start => exact userinit_poised tick
  | step _ event occurs met performed ih =>
    exact (ih.perform event occurs met performed).1

/-- In every run whose events respect the thresholds, whenever `trap` returns to user
mode after a device interrupt, no ready process has a priority above the threshold of
the process it returns to. -/
theorem preemption_discipline (tick : Nat → UInt64) (k next : Kernel 1) (event : Event)
    (slot : Slot) (guarded : Guarded ⟨.pt, tick⟩ (Respects ⟨.pt, tick⟩) k) (occurs : k.Occurs event)
    (respects : k.Respects ⟨.pt, tick⟩ event)
    (performed : k.perform ⟨.pt, tick⟩ event = .ok (next, some slot)) :
    next.Disciplined slot :=
  (guarded.poised.perform event occurs respects performed).2 slot rfl

/-- Perform events one after the other. -/
def playEvents (env : Env) (k : Kernel 1) : List Event → Option (Kernel 1)
  | [] => some k
  | event :: rest =>
    if k.Occurs event then
      match k.perform env event with
      | .ok (next, _) => next.playEvents env rest
      | .error _ => none
    else none

theorem Guarded.play {env : Env} (guarded : Guarded env (fun _ _ => True) k) (events : List Event)
    (played : k.playEvents env events = some next) : Guarded env (fun _ _ => True) next := by
  induction events generalizing k with
  | nil =>
    obtain rfl : k = next := Option.some.inj played
    exact guarded
  | cons event rest ih =>
    by_cases occurs : k.Occurs event
    · rw [playEvents, if_pos occurs] at played
      cases performed : k.perform env event with
      | error fault => simp [performed] at played
      | ok result =>
        obtain ⟨state, returned⟩ := result
        rw [performed] at played
        exact ih (guarded.step event occurs trivial performed) played
    · rw [playEvents, if_neg occurs] at played
      simp at played

/-- The first process forks a child with priority and threshold five. -/
def silentFork : List Event :=
  [.run (.scheduler 0), .run (.forkClaim 0), .run (.forkSetup 0 1), .run (.forkCopy 0 1),
    .run (.forkInsert 0 1 100 10 5 5)]

/-- After that fork a device interrupt that wakes nobody returns to the first process,
whose threshold is one, although the child is ready. -/
theorem silent_fork_undisciplined :
    ∃ k next : Kernel 1, Guarded ⟨.pt, fun _ => 1⟩ (fun _ _ => True) k ∧ k.Occurs (.trapEnd true) ∧
      k.perform ⟨.pt, fun _ => 1⟩ (.trapEnd true) = .ok (next, some 0) ∧
      next.ready.Queued 1 ∧ (next.proc 0).O < (next.proc 1).P := by
  have passed : (((zero 1).userinit ⟨.pt, fun _ => 1⟩).playEvents ⟨.pt, fun _ => 1⟩
      silentFork).any (fun k => decide (k.cpuProc 0 = some 0 ∧ k.Occurs (.trapEnd true) ∧
        (k.proc 0).killed = false ∧ k.interrupt = false ∧ k.ready.queue 0 = some 1 ∧
        0 < k.ready.count ∧ (k.proc 0).O < (k.proc 1).P)) = true := by
    decide +kernel
  cases played : ((zero 1).userinit ⟨.pt, fun _ => 1⟩).playEvents ⟨.pt, fun _ => 1⟩ silentFork with
  | none => simp [played] at passed
  | some k =>
    rw [played] at passed
    simp only [Option.any_some, decide_eq_true_eq] at passed
    obtain ⟨named, occurs, alive, down, first, positive, exceeds⟩ := passed
    refine ⟨k, k, Guarded.start.play silentFork played, occurs, ?_, ⟨0, positive, first⟩, exceeds⟩
    simp [perform, Kernel.trapEnd, named, alive, down]

/-- The first dispatch and a device interrupt after it respect the thresholds. -/
theorem preemption_discipline_first :
    ∃ k : Kernel 1, k.context 0 = some 0 ∧ k.Disciplined 0 := by
  have first : ServesFirst .pt (fun _ => 1) ((zero 1).userinit ⟨.pt, fun _ => 1⟩).proc
      ((zero 1).userinit ⟨.pt, fun _ => 1⟩).ready := by
    refine ⟨0, rfl, ?_⟩
    rintro slot ⟨index, below, stored⟩
    obtain rfl : index = 0 := Nat.lt_one_iff.mp below
    obtain rfl : 0 = slot := Option.some.inj stored
    exact UInt32.le_refl _
  have guarded : Guarded ⟨.pt, fun _ => 1⟩ (Respects ⟨.pt, fun _ => 1⟩) _ :=
    Guarded.start.step (.run (.scheduler 0)) ⟨rfl, rfl⟩ (fun _ => first) rfl
  exact ⟨_, rfl, preemption_discipline (fun _ => 1) _ _ (.trapEnd true) 0 guarded
    (fun _ => ⟨0, rfl, rfl⟩) (fun up => by cases up) rfl⟩

end Kernel

end RtXv6
