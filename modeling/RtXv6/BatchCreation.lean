import RtXv6.RecordMoves

/-!
# Creation in batches

`freeze(1)` makes `fork` leave its children waiting outside the ready queue, and
`freeze(0)` clears the flag and then scans the table for them. The flag is stored without
the lock, so a child can be left waiting after a `freeze(0)` has cleared it for the last
time only if that call has not scanned yet: `fork` reads the flag in the section in which
it publishes the child.

The invariant names the call that is still to scan. A process between the store and the
scan is running or was preempted there, so no slot that is recycled in the meantime can
pass for one.
-/

namespace RtXv6.Kernel

open Function (forall_update_iff update_self update_of_ne)
open Segments PointUpdates

variable {cpus : Nat}

/-- A process waits only while creation is frozen or a `freeze(0)` is still to scan, and
only a process that runs or is ready is in the middle of that call. -/
structure Batched (k : Kernel cpus) : Prop where
  pending : k.frozen = false → ∀ slot, (k.proc slot).state = .waiting →
    ∃ caller, (k.proc caller).stage = .unfreezing
  active : ∀ slot, (k.proc slot).stage = .unfreezing →
    (k.proc slot).state = .running ∨ (k.proc slot).state = .runnable

variable {k : Kernel cpus} {slot : Slot}

/-- A process outside the states of an active one is not in the middle of `freeze(0)`. -/
theorem Batched.inactive (batched : Batched k) {state : ProcState}
    (here : (k.proc slot).state = state) (apart : state ≠ .running ∧ state ≠ .runnable) :
    (k.proc slot).stage ≠ .unfreezing := by
  intro unfreezing
  rcases batched.active slot unfreezing with running | runnable
  · exact apart.1 (here.symm.trans running)
  · exact apart.2 (here.symm.trans runnable)

variable {next : Kernel cpus} {record : Proc}

section

variable (batched : Batched k) (proc : next.proc = Function.update k.proc slot record)
  (frozen : next.frozen = k.frozen)
  (waits : record.state = .waiting → (k.proc slot).state = .waiting ∨ k.frozen = true)
include batched proc frozen waits

/-- What a changed record has to satisfy for the invariant to go on: a new wait is covered
by the flag, no call in progress is lost, and it stays active. -/
theorem Batched.update (stays : (k.proc slot).stage = .unfreezing → record.stage = .unfreezing)
    (active : record.stage = .unfreezing → record.state = .running ∨ record.state = .runnable) :
    Batched next where
  pending := by
    intro clear other waiting
    rw [frozen] at clear
    have before : (k.proc other).state = .waiting := by
      rw [proc] at waiting
      rcases update_cases Proc.state waiting with ⟨rfl, now⟩ | ⟨_, already⟩
      · exact (waits now).resolve_right (by simp [clear])
      · exact already
    obtain ⟨caller, unfreezing⟩ := batched.pending clear other before
    refine ⟨caller, ?_⟩
    rw [proc]
    by_cases same : caller = slot
    · subst same
      rw [update_self]
      exact stays unfreezing
    · rwa [update_of_ne same]
  active := by
    rw [proc]
    exact (forall_update_iff k.proc fun _ p => p.stage = .unfreezing →
      p.state = .running ∨ p.state = .runnable).mpr ⟨active, fun other _ => batched.active other⟩

theorem Batched.update_state (stage : record.stage = (k.proc slot).stage)
    (active : (k.proc slot).stage = .unfreezing →
      record.state = .running ∨ record.state = .runnable) : Batched next :=
  batched.update proc frozen waits stage.trans
    (fun unfreezing => active (stage.symm.trans unfreezing))

/-- A changed record whose old and new stages are outside `freeze(0)`. -/
theorem Batched.update_outside (before : (k.proc slot).stage ≠ .unfreezing)
    (after : record.stage ≠ .unfreezing) : Batched next :=
  batched.update proc frozen waits (fun unfreezing => absurd unfreezing before)
    (fun unfreezing => absurd unfreezing after)

end

variable {env : Env} {actor : Option Slot}

theorem Batched.touch (batched : Batched k) (touches : Touch env k actor slot record)
    (proc : next.proc = Function.update k.proc slot record) (frozen : next.frozen = k.frozen) :
    Batched next := by
  cases touches with
  | claim before | abandon before | reap before =>
    have outside := batched.inactive before (by decide)
    exact batched.update_outside proc frozen (fun waiting => by cases waiting) outside outside
  | prepare embryo P O =>
    have outside := batched.inactive embryo (by decide)
    exact batched.update_outside proc frozen .inl outside (fun stage => by cases stage)
  | adopt | mark => exact batched.update_state proc frozen .inl rfl (batched.active slot)
  | start | wake | rouse | release | preempt =>
    exact batched.update_state proc frozen (fun waiting => by cases waiting) rfl (fun _ => .inr rfl)
  | hold held embryo D C P O =>
    have outside := batched.inactive embryo (by decide)
    exact batched.update_outside proc frozen (fun _ => .inr held) outside outside
  | claimed acts before | prepared acts child before | copied acts child before =>
    refine batched.update_outside proc frozen .inl ?_ (fun stage => by cases stage)
    rw [before]
    exact fun stage => by cases stage
  | settled acts forking =>
    exact batched.update_outside proc frozen .inl forking (fun stage => by cases stage)
  | thawed acts scanned =>
    -- The call in progress ends here, and nobody is left for it to release.
    have states : ∀ other, (next.proc other).state = (k.proc other).state := by
      rw [proc]
      exact update_same Proc.state rfl
    refine ⟨fun _ other waiting => absurd ((states other).symm.trans waiting) (scanned other), ?_⟩
    intro other unfreezing
    rw [states]
    rw [proc] at unfreezing
    exact batched.active other (of_update Proc.stage (fun stage => by cases stage) unfreezing).2
  | sleep acts running idle | exit acts running idle =>
    have outside : (k.proc slot).stage ≠ .unfreezing := by
      rw [idle]
      exact fun stage => by cases stage
    exact batched.update_outside proc frozen (fun waiting => by cases waiting) outside outside

theorem Batched.move (batched : Batched k) (move : Move env actor k next) : Batched next := by
  cases move with
  | touch slot record touches proc frozen reads => exact batched.touch touches proc frozen
  | aside proc frozen reads =>
    refine ⟨?_, ?_⟩
    · rw [proc, frozen]
      exact batched.pending
    · rw [proc]
      exact batched.active
  | freeze proc frozen reads =>
    refine ⟨fun clear => ?_, ?_⟩
    · rw [frozen] at clear
      cases clear
    · rw [proc]
      exact batched.active
  | thaw caller acts running proc frozen reads =>
    refine ⟨fun _ _ _ => ⟨caller, by rw [proc, update_self]⟩, ?_⟩
    rw [proc]
    exact (forall_update_iff k.proc fun _ p => p.stage = .unfreezing →
      p.state = .running ∨ p.state = .runnable).mpr
      ⟨fun _ => .inl running, fun slot _ => batched.active slot⟩

theorem Batched.moves (batched : Batched k) (moves : Moves env actor k next) : Batched next := by
  induction moves with
  | refl => exact batched
  | tail _ move ih => exact ih.move move

theorem Batched.dispatched {head : Slot} (batched : Batched k)
    (dispatched : Dispatched env k next head) : Batched next := by
  obtain ⟨ctxswt, firstsch, chan, _, proc⟩ := dispatched.proc
  exact batched.update_state proc dispatched.frozen (fun waiting => by cases waiting) rfl
    (fun _ => .inl rfl)

/-- In every reachable state a waiting process has a release to come. -/
theorem Reachable.batched (reachable : Reachable env k) : Batched k := by
  induction reachable with
  | start =>
    refine ⟨fun _ slot waiting => ?_, fun slot unfreezing => ?_⟩
    · rcases (userinit_initial env slot).state with state | state
      · cases state.symm.trans waiting
      · cases state.symm.trans waiting
    · cases (userinit_initial env slot).stage.symm.trans unfreezing
  | step before action enabled executed ih =>
    rcases before.moves enabled executed with moves | ⟨head, dispatched⟩
    · exact ih.moves moves
    · exact ih.dispatched dispatched

/-- A process that waits or is ready to run. -/
def Parked (p : Proc) : Prop := p.state = .waiting ∨ p.state = .runnable

/-- No change of a record takes a process out of waiting other than into the ready ones. -/
theorem Touch.parked (touches : Touch env k actor slot record) (parked : Parked (k.proc slot)) :
    Parked record := by
  have elsewhere : ∀ {state : ProcState}, (k.proc slot).state = state →
      state ≠ .waiting ∧ state ≠ .runnable → Parked record := by
    intro state here apart
    rcases parked with waiting | runnable
    · exact absurd (here.symm.trans waiting) apart.1
    · exact absurd (here.symm.trans runnable) apart.2
  cases touches with
  | claim unused pid => exact elsewhere unused (by decide)
  | prepare | adopt | claimed | prepared | copied | settled | thawed | mark => exact parked
  | abandon embryo => exact elsewhere embryo (by decide)
  | start | wake | rouse | release | preempt => exact .inr rfl
  | hold frozen embryo D C P O => exact .inl rfl
  | sleep acts running | exit acts running => exact elsewhere running (by decide)
  | reap zombie => exact elsewhere zombie (by decide)

/-- Between dispatches a process that waits does nothing but become ready. -/
theorem Moves.parked (moves : Moves env actor k next) (parked : Parked (k.proc slot)) :
    Parked (next.proc slot) :=
  moves.keeps Touch.parked (fun _ _ => id) parked

theorem Reachable.released (reachable : Reachable env k) {action : Action cpus}
    (enabled : k.Enabled action) (executed : k.execute env action = .ok next)
    (waiting : (k.proc slot).state = .waiting) (left : (next.proc slot).state ≠ .waiting) :
    (next.proc slot).state = .runnable := by
  rcases reachable.moves enabled executed with moves | ⟨head, dispatched⟩
  · exact (moves.parked (.inl waiting)).resolve_left left
  obtain ⟨ctxswt, firstsch, chan, _, proc⟩ := dispatched.proc
  have apart : slot ≠ head := by
    rintro rfl
    have runnable := dispatched.runnable
    rw [waiting] at runnable
    cases runnable
  rw [proc, update_of_ne apart] at left
  exact absurd waiting left

theorem Exact.queued_once (exact : Exact k) (runnable : (k.proc slot).state = .runnable) :
    ∃! index, index < k.ready.count ∧ k.ready.queue index = some slot := by
  obtain ⟨index, bound, stored⟩ := exact.queued.complete slot runnable
  refine ⟨index, ⟨bound, stored⟩, ?_⟩
  rintro other ⟨otherBound, otherStored⟩
  exact exact.queued.distinct other index slot otherBound bound otherStored stored

/-- Batch creation strands no process: whatever the sections of any number of processes
are and however they interleave, nobody waits while creation is not frozen and no
`freeze(0)` is between its store and the end of its scan; and a section that ends a wait
leaves the process runnable with exactly one entry in the ready queue. -/
theorem batch_creation_strands_none (tick : Nat → UInt64) (k : Kernel cpus)
    (reachable : Reachable ⟨.pt, tick⟩ k) :
    (k.frozen = false → (∀ slot, (k.proc slot).stage ≠ .unfreezing) →
        ∀ slot, (k.proc slot).state ≠ .waiting) ∧
      ∀ action next slot, k.Enabled action → k.execute ⟨.pt, tick⟩ action = .ok next →
        (k.proc slot).state = .waiting → (next.proc slot).state ≠ .waiting →
        (next.proc slot).state = .runnable ∧
          ∃! index, index < next.ready.count ∧ next.ready.queue index = some slot := by
  constructor
  · intro clear none slot waiting
    obtain ⟨caller, unfreezing⟩ := reachable.batched.pending clear slot waiting
    exact none caller unfreezing
  · intro action next slot enabled executed waiting left
    have runnable := reachable.released enabled executed waiting left
    exact ⟨runnable, (reachable.step action enabled executed).exact.queued_once runnable⟩

/-- The first process freezes creation, forks a child and clears the flag. -/
def frozenFork : List (Action 1) :=
  [.scheduler 0, .freeze 0 true, .forkClaim 0, .forkSetup 0 1, .forkCopy 0 1,
    .forkInsert 0 1 100 10 5 5, .freeze 0 false]

/-- The scan that follows releases the child into the queue. -/
theorem batch_creation_releases_child :
    ∃ k next : Kernel 1, Reachable ⟨.pt, fun _ => 1⟩ k ∧ k.frozen = false ∧
      (k.proc 1).state = .waiting ∧ (next.proc 1).state = .runnable ∧
      ∃! index, index < next.ready.count ∧ next.ready.queue index = some 1 := by
  obtain ⟨k, reachable, tested⟩ := Reachable.start.of_play frozenFork
    (fun k : Kernel 1 => decide (k.frozen = false ∧ (k.proc 1).state = .waiting ∧
      k.Enabled (.unfreeze 0)) && (k.execute ⟨.pt, fun _ => 1⟩ (.unfreeze 0)).toOption.any
        (fun next : Kernel 1 => decide ((next.proc 1).state ≠ .waiting)))
    (by decide +kernel : (((zero 1).userinit ⟨.pt, fun _ => 1⟩).play ⟨.pt, fun _ => 1⟩
      frozenFork).any _ = true)
  rw [Bool.and_eq_true, decide_eq_true_eq] at tested
  obtain ⟨⟨clear, waiting, enabled⟩, left⟩ := tested
  cases executed : k.execute ⟨.pt, fun _ => 1⟩ (.unfreeze 0) with
  | error fault =>
    rw [executed] at left
    cases left
  | ok next =>
    rw [executed] at left
    have free : (next.proc 1).state ≠ .waiting := of_decide_eq_true left
    have released := (batch_creation_strands_none (fun _ => 1) k reachable).2 (.unfreeze 0) next 1
      enabled executed waiting free
    exact ⟨k, next, reachable, clear, waiting, released⟩

end RtXv6.Kernel
