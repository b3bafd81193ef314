import RtXv6.ReadyExactness

/-!
# Null pointers in the scheduler

A scheduler iteration dereferences two pointers that may be null: the first queue
cell, when the iterator claims an entry, and in the threshold build the variable
`proc`, when creation is frozen.

The second is null in every iteration, because the scheduler clears it after each
switch and each processor starts with it clear. The test is therefore safe exactly
when it is not reached.

The first is null only before the first insertion. Static memory makes the iterator
zero, which means one entry, and the other processors enter their schedulers before
`userinit` fills the cell. From `userinit` on the cell holds a runnable process
whenever the iterator says so.
-/

namespace RtXv6

open Segments Outcome

variable {cpus : Nat}

namespace Kernel

/-- In the threshold build, an iteration that finds the queue nonempty reads a field of
a null `proc` exactly when creation is frozen. -/
theorem gated_dispatch_safe_iff (tick : Nat → UInt64) (k : Kernel cpus)
    (reachable : Reachable ⟨.pt, tick⟩ k) (cpu : Fin cpus) (idle : k.context cpu = none)
    (nonempty : k.ready.itr_q ≠ -1) :
    k.scheduler ⟨.pt, tick⟩ cpu ≠ .error .nullProc ↔ k.frozen = false := by
  have positive := (ReadyQueue.nonempty_iff k.ready).mp nonempty
  obtain ⟨head, first, _⟩ := reachable.exact.head positive
  rw [scheduler_eq reachable.exact ⟨.pt, tick⟩ idle positive first]
  cases k.frozen with
  | true => simp
  | false => simp

/-- The state `userinit` leaves is not frozen. -/
theorem gated_dispatch_safe_start :
    ((zero 1).userinit ⟨.pt, fun _ => 0⟩).scheduler ⟨.pt, fun _ => 0⟩ 0 ≠ .error .nullProc :=
  (gated_dispatch_safe_iff (fun _ => 0) _ Reachable.start 0 rfl (by decide)).mpr rfl

/-- The first process forks a child, freezes creation and waits for the child. -/
def frozenWait : List (Action 1) :=
  [.scheduler 0, .forkClaim 0, .forkSetup 0 1, .forkCopy 0 1, .forkInsert 0 1 100 10 5 5,
    .freeze 0 true, .wait 0]

/-- A reachable state in which the idle processor's next iteration finds the child
ready and reads the threshold of a null `proc`. -/
theorem frozen_dispatch_null :
    ∃ k : Kernel 1, Reachable ⟨.pt, fun _ => 1⟩ k ∧ k.context 0 = none ∧ k.ready.itr_q ≠ -1 ∧
      k.scheduler ⟨.pt, fun _ => 1⟩ 0 = .error .nullProc := by
  obtain ⟨k, reachable, tested⟩ := Reachable.start.of_play frozenWait
    (fun k : Kernel 1 => decide (k.context 0 = none ∧ k.ready.itr_q ≠ -1 ∧ k.frozen = true))
    (by decide +kernel : (((zero 1).userinit ⟨.pt, fun _ => 1⟩).play ⟨.pt, fun _ => 1⟩
      frozenWait).any _ = true)
  simp only [decide_eq_true_eq] at tested
  obtain ⟨idle, nonempty, frozen⟩ := tested
  have positive := (ReadyQueue.nonempty_iff k.ready).mp nonempty
  obtain ⟨head, first, _⟩ := reachable.exact.head positive
  refine ⟨k, reachable, idle, nonempty, ?_⟩
  rw [scheduler_eq reachable.exact ⟨.pt, fun _ => 1⟩ idle positive first]
  simp [frozen]

end Kernel

/-- How far the first processor has come in `userinit`. -/
inductive BootPhase where
  | started
  | claimed (slot : Slot)
  | prepared (slot : Slot)
  | marked (slot : Slot)
  | done
  deriving DecidableEq, Repr

/-- A kernel that is starting: the shared state and the first processor's place. -/
structure Boot (others : Nat) where
  kernel : Kernel (others + 1)
  phase : BootPhase

namespace Boot

variable {others : Nat}

/-- A processor stands at the beginning of a scheduler iteration. The first one gets
there only after `userinit`. -/
def Schedules (boot : Boot others) (cpu : Fin (others + 1)) : Prop :=
  boot.kernel.context cpu = none ∧ (cpu = 0 → boot.phase = .done)

/-- The interleavings of the first processor's `userinit` with the scheduler
iterations of the processors that `startothers` has started, and with everything
that can happen afterwards. -/
inductive Reachable (env : Env) : Boot others → Prop
  | start : Reachable env ⟨Kernel.zero (others + 1), .started⟩
  | claim {k next : Kernel (others + 1)} {slot : Slot} (before : Reachable env ⟨k, .started⟩)
      (allocated : k.allocproc = (some slot, next)) : Reachable env ⟨next, .claimed slot⟩
  | prepare {k : Kernel (others + 1)} {slot : Slot} (before : Reachable env ⟨k, .claimed slot⟩) :
      Reachable env ⟨k.userinitPrepare env slot, .prepared slot⟩
  | mark {k : Kernel (others + 1)} {slot : Slot} (before : Reachable env ⟨k, .prepared slot⟩) :
      Reachable env ⟨k.userinitMark slot, .marked slot⟩
  | insert {k : Kernel (others + 1)} {slot : Slot} (before : Reachable env ⟨k, .marked slot⟩) :
      Reachable env ⟨k.userinitInsert env slot, .done⟩
  | scheduler {boot : Boot others} {next : Kernel (others + 1)} (before : Reachable env boot)
      (cpu : Fin (others + 1)) (schedules : boot.Schedules cpu)
      (executed : boot.kernel.scheduler env cpu = .ok next) : Reachable env ⟨next, boot.phase⟩
  | later {k next : Kernel (others + 1)} (before : Reachable env ⟨k, .done⟩)
      (action : Action (others + 1)) (enabled : k.Enabled action)
      (executed : k.execute env action = .ok next) : Reachable env ⟨next, .done⟩

/-- A nonempty queue starts with a runnable process that stands in the queue. -/
def HeadInserted (k : Kernel cpus) : Prop :=
  k.ready.itr_q ≠ -1 → ∃ head, k.ready.queue 0 = some head ∧ k.ready.Queued head ∧
    (k.proc head).state = .runnable

/-- What the shared state is at each phase: untouched by any scheduler until the
insertion, and afterwards a state of the running system. -/
def Shape (env : Env) (boot : Boot others) : Prop :=
  match boot.phase with
  | .started => boot.kernel = Kernel.zero (others + 1)
  | .claimed slot => (Kernel.zero (others + 1)).allocproc = (some slot, boot.kernel)
  | .prepared slot => ∃ claimed, (Kernel.zero (others + 1)).allocproc = (some slot, claimed) ∧
      boot.kernel = claimed.userinitPrepare env slot
  | .marked slot => ∃ claimed, (Kernel.zero (others + 1)).allocproc = (some slot, claimed) ∧
      boot.kernel = (claimed.userinitPrepare env slot).userinitMark slot
  | .done => Kernel.Reachable env boot.kernel

variable {env : Env} {boot : Boot others}

theorem Shape.untouched (shape : Shape env boot) (early : boot.phase ≠ .done) :
    boot.kernel.ready = ⟨fun _ => none, 0⟩ := by
  obtain ⟨kernel, phase⟩ := boot
  have kept : ∀ {slot : Slot} {claimed : Kernel (others + 1)},
      (Kernel.zero (others + 1)).allocproc = (some slot, claimed) →
      claimed.ready = ⟨fun _ => none, 0⟩ := by
    intro slot claimed allocated
    obtain ⟨_, rfl⟩ := Kernel.allocproc_some allocated
    rfl
  cases phase with
  | started =>
    obtain rfl : kernel = Kernel.zero (others + 1) := shape
    rfl
  | claimed slot => exact kept shape
  | prepared | marked =>
    obtain ⟨claimed, allocated, rfl⟩ := shape
    have before := kept allocated
    exact before
  | done => exact absurd rfl early

/-- Before the insertion every scheduler iteration follows the null first cell. -/
theorem Shape.early_fault (shape : Shape env boot) (early : boot.phase ≠ .done)
    (cpu : Fin (others + 1)) : boot.kernel.scheduler env cpu = .error .nullEntry := by
  have nonempty : boot.kernel.ready.itr_q ≠ -1 := by
    rw [shape.untouched early]
    decide
  have null : boot.kernel.ready.queue 0 = none := by
    rw [shape.untouched early]
  rw [Kernel.scheduler, if_pos nonempty, null]

theorem Reachable.shape (reachable : Reachable env boot) : Shape env boot := by
  induction reachable with
  | start => rfl
  | claim _ allocated ih =>
    obtain rfl := ih
    exact allocated
  | prepare _ ih => exact ⟨_, ih, rfl⟩
  | mark _ ih =>
    obtain ⟨claimed, allocated, rfl⟩ := ih
    exact ⟨claimed, allocated, rfl⟩
  | @insert k slot before ih =>
    obtain ⟨claimed, allocated, rfl⟩ := ih
    have whole : (Kernel.zero (others + 1)).userinit env =
        ((claimed.userinitPrepare env slot).userinitMark slot).userinitInsert env slot := by
      rw [Kernel.userinit, allocated]
    exact whole ▸ Kernel.Reachable.start
  | @scheduler boot next before cpu schedules executed ih =>
    by_cases running : boot.phase = .done
    · have settled : Kernel.Reachable env boot.kernel := by
        simpa only [Shape, running] using ih
      simpa only [Shape, running] using settled.step (.scheduler cpu) schedules.1 executed
    · rw [ih.early_fault running cpu] at executed
      cases executed
  | later _ action enabled executed ih =>
    exact Kernel.Reachable.step ih action enabled executed

/-- A boot without scheduler iterations leaves the state of `userinit`. -/
theorem Reachable.undisturbed (env : Env) :
    Reachable env (⟨(Kernel.zero (others + 1)).userinit env, .done⟩ : Boot others) :=
  have allocated : (Kernel.zero (others + 1)).allocproc =
      (some 0, (Kernel.zero (others + 1)).allocproc.2) := rfl
  (Reachable.start.claim allocated).prepare.mark.insert

/-- From the insertion on, a nonempty queue starts with an inserted process. -/
theorem Reachable.headInserted (reachable : Reachable env boot) (running : boot.phase = .done) :
    HeadInserted boot.kernel := by
  have settled : Kernel.Reachable env boot.kernel := by
    simpa only [Shape, running] using reachable.shape
  intro nonempty
  have positive := (ReadyQueue.nonempty_iff _).mp nonempty
  obtain ⟨head, first, runnable⟩ := settled.exact.head positive
  exact ⟨head, first, ⟨0, positive, first⟩, runnable⟩

/-- A processor about to iterate sees a queue whose nonemptiness is backed by an
inserted process that no processor has taken exactly when `userinit` has made its
insertion, and exactly then its iteration follows no null queue entry. -/
theorem boot_queue_safe_iff (env : Env) (boot : Boot others) (reachable : Reachable env boot)
    (cpu : Fin (others + 1)) (schedules : boot.Schedules cpu) :
    (HeadInserted boot.kernel ↔ boot.phase = .done) ∧
      (boot.kernel.scheduler env cpu ≠ .error .nullEntry ↔ boot.phase = .done) := by
  constructor
  · constructor
    · intro inserted
      by_contra early
      have queue := reachable.shape.untouched early
      obtain ⟨head, first, _⟩ := inserted (by rw [queue]; decide)
      rw [queue] at first
      cases first
    · exact reachable.headInserted
  · constructor
    · intro safe
      by_contra early
      exact safe (reachable.shape.early_fault early cpu)
    · intro running
      have settled : Kernel.Reachable env boot.kernel := by
        simpa only [Shape, running] using reachable.shape
      by_cases nonempty : boot.kernel.ready.itr_q ≠ -1
      · have positive := (ReadyQueue.nonempty_iff _).mp nonempty
        obtain ⟨head, first, _⟩ := reachable.headInserted running nonempty
        rw [Kernel.scheduler_eq settled.exact env schedules.1 positive first]
        split <;> simp
      · rw [Kernel.scheduler, if_neg nonempty]
        simp

/-- With two processors, the second one iterates safely once `userinit` is through. -/
theorem boot_queue_safe_second :
    HeadInserted ((Kernel.zero 2).userinit ⟨.pt, fun _ => 0⟩) :=
  (boot_queue_safe_iff ⟨.pt, fun _ => 0⟩
    (⟨(Kernel.zero 2).userinit ⟨.pt, fun _ => 0⟩, .done⟩ : Boot 1)
    (Reachable.undisturbed _) 1 ⟨rfl, fun _ => rfl⟩).1.mpr rfl

/-- With two processors, the second one enters its scheduler before `userinit` and
finds the static iterator claiming an entry in a null cell. -/
theorem early_scheduler_null :
    ∃ boot : Boot 1, Reachable ⟨.pt, fun _ => 0⟩ boot ∧ boot.Schedules 1 ∧
      boot.kernel.ready.itr_q ≠ -1 ∧ boot.kernel.ready.queue 0 = none ∧
      boot.kernel.scheduler ⟨.pt, fun _ => 0⟩ 1 = .error .nullEntry :=
  ⟨⟨Kernel.zero 2, .started⟩, Reachable.start, ⟨rfl, by decide⟩, by decide, rfl, rfl⟩

end Boot

end RtXv6
