import Mathlib.Logic.Relation
import RtXv6.Lifetimes

/-!
# The changes of process records

Every section of `proc.c` changes the process table one record at a time, and there are
few kinds of change. Each kind is listed once, with what holds of the record and of the
kernel when it is made; a section is then a sequence of such changes, apart from the
scheduler's iteration, which is at most one dispatch. An invariant of the records has to
be checked for each kind of change and not for each section.

A process changes its own stage and gives its own processor up. The process whose kernel
stack executes a section is therefore part of the description: to every other process it
does nothing of that sort.
-/

namespace RtXv6

open Function (update update_self update_of_ne update_idem update_eq_self update_comm)

namespace Kernel

open Outcome PointUpdates

variable {cpus : Nat}

/-- What a section executed by `actor` can make of the record in a slot. -/
inductive Touch (env : Env) (k : Kernel cpus) (actor : Option Slot) (slot : Slot) : Proc → Prop
  /-- The locked section of `allocproc`. -/
  | claim (unused : (k.proc slot).state = .unused) (pid : Int32) :
      Touch env k actor slot { k.proc slot with state := .embryo, pid := pid }
  /-- The rest of `allocproc`. -/
  | prepare (embryo : (k.proc slot).state = .embryo) (P O : UInt32) :
      Touch env k actor slot
        { k.proc slot with
          D := 0, C := 0, ctxswt := 0, arrtime := 0, firstsch := 0, P := P, O := O,
          stage := .idle, resume := .forkret }
  /-- A failed `fork`. -/
  | abandon (embryo : (k.proc slot).state = .embryo) :
      Touch env k actor slot { k.proc slot with state := .unused }
  /-- A new parent, in `fork` or when the old one exits. -/
  | adopt (parent : Option Slot) : Touch env k actor slot { k.proc slot with parent := parent }
  /-- The end of `fork`. -/
  | start (caller : Slot) (copied : (k.proc caller).stage = .copied slot)
      (embryo : (k.proc slot).state = .embryo) (D C P O : UInt32) :
      Touch env k actor slot
        { k.proc slot with
          state := .runnable, D := D, C := C, P := P, O := O, ctxswt := 0,
          arrtime := env.tick k.reads }
  /-- The end of `fork` while creation is frozen. -/
  | hold (frozen : k.frozen = true) (embryo : (k.proc slot).state = .embryo) (D C P O : UInt32) :
      Touch env k actor slot
        { k.proc slot with state := .waiting, D := D, C := C, P := P, O := O, ctxswt := 0 }
  /-- `fork` has claimed a slot. -/
  | claimed (acts : actor = some slot) (idle : (k.proc slot).stage = .idle) (child : Slot) :
      Touch env k actor slot { k.proc slot with stage := .claimed child }
  /-- `fork` has cleared the child's scheduling fields. -/
  | prepared (acts : actor = some slot) (child : Slot)
      (claimed : (k.proc slot).stage = .claimed child) (fresh : (k.proc child).firstsch = 0) :
      Touch env k actor slot { k.proc slot with stage := .prepared child }
  /-- `fork` has copied the address space. -/
  | copied (acts : actor = some slot) (child : Slot)
      (prepared : (k.proc slot).stage = .prepared child) :
      Touch env k actor slot { k.proc slot with stage := .copied child }
  /-- `fork` is over. -/
  | settled (acts : actor = some slot) (forking : (k.proc slot).stage ≠ .unfreezing) :
      Touch env k actor slot { k.proc slot with stage := .idle }
  /-- The scan of `freeze(0)` is over, and nobody waits. -/
  | thawed (acts : actor = some slot) (scanned : ∀ other, (k.proc other).state ≠ .waiting) :
      Touch env k actor slot { k.proc slot with stage := .idle }
  /-- `wakeup1`. -/
  | wake (sleeping : (k.proc slot).state = .sleeping) :
      Touch env k actor slot
        { k.proc slot with
          state := .runnable, chan := .word 0, arrtime := env.tick k.reads, firstsch := 0,
          ctxswt := 0 }
  /-- The mark that `kill` leaves. -/
  | mark : Touch env k actor slot { k.proc slot with killed := true }
  /-- `kill` wakes a sleeper. -/
  | rouse (sleeping : (k.proc slot).state = .sleeping) :
      Touch env k actor slot { k.proc slot with state := .runnable }
  /-- The scan of `freeze(0)`. -/
  | release (waiting : (k.proc slot).state = .waiting) :
      Touch env k actor slot { k.proc slot with state := .runnable }
  /-- `yield`. -/
  | preempt (acts : actor = some slot) (running : (k.proc slot).state = .running)
      (resume : Resume) :
      Touch env k actor slot { k.proc slot with state := .runnable, resume := resume }
  /-- `sleep`, and the sleep of `wait`. -/
  | sleep (acts : actor = some slot) (running : (k.proc slot).state = .running)
      (idle : (k.proc slot).stage = .idle) (chan : Addr) :
      Touch env k actor slot
        { k.proc slot with chan := chan, state := .sleeping, resume := .sleep }
  /-- `exit`. -/
  | exit (acts : actor = some slot) (running : (k.proc slot).state = .running)
      (idle : (k.proc slot).stage = .idle) :
      Touch env k actor slot { k.proc slot with state := .zombie }
  /-- `wait` frees a zombie. -/
  | reap (zombie : (k.proc slot).state = .zombie) :
      Touch env k actor slot (freed (k.proc slot))

/-- One change by `actor`: of a record, of neither a record nor the flag, or of the flag by
`freeze`. The clock is read forwards. -/
inductive Move (env : Env) (actor : Option Slot) (k next : Kernel cpus) : Prop
  | touch (slot : Slot) (record : Proc) (touches : Touch env k actor slot record)
      (proc : next.proc = update k.proc slot record) (frozen : next.frozen = k.frozen)
      (reads : k.reads ≤ next.reads)
  | aside (proc : next.proc = k.proc) (frozen : next.frozen = k.frozen)
      (reads : k.reads ≤ next.reads)
  | freeze (proc : next.proc = k.proc) (frozen : next.frozen = true)
      (reads : k.reads ≤ next.reads)
  | thaw (caller : Slot) (acts : actor = some caller)
      (running : (k.proc caller).state = .running)
      (proc : next.proc =
        update k.proc caller { k.proc caller with stage := .unfreezing })
      (frozen : next.frozen = false) (reads : k.reads ≤ next.reads)

/-- The changes of one section. -/
abbrev Moves (env : Env) (actor : Option Slot) : Kernel cpus → Kernel cpus → Prop :=
  Relation.ReflTransGen (Move env actor)

variable {env : Env} {actor : Option Slot} {k next middle : Kernel cpus} {record : Proc}

theorem Moves.refl : Moves env actor k k :=
  Relation.ReflTransGen.refl

theorem Moves.modify (moves : Moves env actor k middle) (slot : Slot)
    (touches : Touch env middle actor slot record)
    (proc : next.proc = update middle.proc slot record) (frozen : next.frozen = middle.frozen)
    (reads : middle.reads ≤ next.reads) : Moves env actor k next :=
  moves.tail (.touch slot record touches proc frozen reads)

theorem Moves.touch (moves : Moves env actor k middle) (slot : Slot)
    (touches : Touch env middle actor slot record) :
    Moves env actor k { middle with proc := update middle.proc slot record } :=
  moves.modify slot touches rfl rfl (Nat.le_refl _)

theorem Moves.aside (moves : Moves env actor k middle) (proc : next.proc = middle.proc)
    (frozen : next.frozen = middle.frozen) (reads : middle.reads ≤ next.reads) :
    Moves env actor k next :=
  moves.tail (.aside proc frozen reads)

/-- What every change of a record keeps, whatever the stage, holds after a section. -/
theorem Moves.keeps {slot : Slot} {holds : Proc → Prop} (moves : Moves env actor k next)
    (touched : ∀ {k : Kernel cpus} {record}, Touch env k actor slot record →
      holds (k.proc slot) → holds record)
    (staged : ∀ p stage, holds p → holds { p with stage := stage }) (before : holds (k.proc slot)) :
    holds (next.proc slot) := by
  induction moves with
  | refl => exact before
  | tail _ move ih =>
    cases move with
    | touch each record touches proc frozen reads =>
      rw [proc]
      by_cases same : slot = each
      · subst same
        rw [update_self]
        exact touched touches ih
      · rwa [update_of_ne same]
    | aside proc | freeze proc => rwa [proc]
    | thaw caller acts running proc frozen reads =>
      rw [proc]
      by_cases same : slot = caller
      · subst same
        rw [update_self]
        exact staged _ _ ih
      · rwa [update_of_ne same]

theorem Moves.enqueue (moves : Moves env actor k next) (slot : Slot) :
    Returns (Moves env actor k) (next.enqueue env slot) := by
  unfold Kernel.enqueue
  split
  · trivial
  · rename_i ready reads inserted
    exact moves.aside rfl rfl (ReadyQueue.insert_forward _ _ _ _ _ _ inserted)

section

variable (env : Env) (actor : Option Slot) (memory : Nat → UInt32)

theorem wakeOne_moves (chan : Addr) (k : Kernel cpus) (slot : Slot) :
    Returns (Moves env actor k) (k.wakeOne env memory chan slot) := by
  refine wakeOne_rule (fun _ => .refl) fun hears => ?_
  have woken : Moves env actor k (k.awoken env slot) :=
    Moves.refl.modify slot (.wake hears.1) rfl rfl (Nat.le_succ _)
  exact (woken.enqueue slot).imp fun next moves =>
    ⟨fun _ => moves, moves.aside rfl rfl (Nat.le_refl _)⟩

theorem wakeup1_moves (chan : Addr) (k : Kernel cpus) :
    Returns (Moves env actor k) (k.wakeup1 env memory chan) :=
  .foldlM_related (fun _ => .refl) .trans _ k (wakeOne_moves env actor memory chan)

theorem reparentOne_moves (parent : Slot) (k : Kernel cpus) (slot : Slot) :
    Returns (Moves env actor k) (k.reparentOne env memory parent slot) := by
  have passed : Moves env actor k (k.passed slot) :=
    Moves.refl.touch slot (.adopt k.initproc)
  exact reparentOne_rule (fun _ => .refl) (fun _ _ => passed) fun _ _ =>
    (wakeup1_moves env actor memory _ _).imp (fun _ => passed.trans)

end

variable {cpu : Fin cpus} {caller : Slot}

theorem exit_moves (exact : Exact k) (env : Env) (memory : Nat → UInt32)
    (executes : k.context cpu = some caller) (idle : (k.proc caller).stage = .idle) :
    Returns (Moves env (some caller) k) (k.exit env memory cpu) := by
  rw [exit, exact.current executes]
  simp only [bind, Except.bind]
  split
  · trivial
  have wakes : Returns (fun state => Woken k state ∧ Moves env (some caller) k state)
      (k.wakeup1 env memory (parentChan (k.proc caller).parent)) :=
    ((wakeup1_ends exact env memory _).mono (fun _ woken => woken) (fun _ _ => trivial)).and
      (wakeup1_moves env (some caller) memory _ k)
  apply Ends.bind wakes
  intro middle reached
  have loop : Returns (fun state => Woken k state ∧ Moves env (some caller) k state)
      (slots.foldlM (reparentOne env memory caller) middle) := by
    refine Ends.foldlM slots middle reached ?_
    rintro state slot _ ⟨soFar, moves⟩
    have keeps := (reparentOne_ends soFar.exact env memory caller slot).mono
      (fun _ => soFar.trans) (fun _ _ => trivial)
    exact keeps.and ((reparentOne_moves env (some caller) memory caller state slot).imp
      (fun _ => moves.trans))
  apply Ends.bind loop
  rintro last ⟨woken, moves⟩
  have running : (last.proc caller).state = .running :=
    woken.running caller (exact.executing executes)
  have still : (last.proc caller).stage = .idle := (woken.stages caller).trans idle
  exact moves.modify caller (.exit rfl running still) rfl rfl (Nat.le_refl _)

theorem unfreezeOne_moves (env : Env) (actor : Option Slot) (k : Kernel cpus) (slot : Slot) :
    Returns (Moves env actor k) (k.unfreezeOne env slot) := by
  by_cases waiting : (k.proc slot).state = .waiting
  · rw [unfreezeOne, if_pos waiting]
    refine Moves.enqueue ?_ slot
    exact Moves.refl.touch slot (.release waiting)
  · rw [unfreezeOne, if_neg waiting]
    exact .refl

/-- An iteration of the scan of `freeze(0)` leaves its process not waiting, and starts no
wait. -/
theorem unfreezeOne_waiting (env : Env) (k : Kernel cpus) (slot : Slot) :
    Returns (fun next => ∀ other, (next.proc other).state = .waiting →
        other ≠ slot ∧ (k.proc other).state = .waiting) (k.unfreezeOne env slot) := by
  by_cases waiting : (k.proc slot).state = .waiting
  · rw [unfreezeOne, if_pos waiting]
    unfold Kernel.enqueue
    split
    · trivial
    intro other still
    exact of_update Proc.state (by simp) still
  · rw [unfreezeOne, if_neg waiting]
    intro other still
    refine ⟨?_, still⟩
    rintro rfl
    exact waiting still

theorem unfreeze_scan (env : Env) (actor : Option Slot) (k : Kernel cpus) :
    Returns (fun next => Moves env actor k next ∧ ∀ slot, (next.proc slot).state ≠ .waiting)
      (slots.foldlM (unfreezeOne env) k) := by
  have moves : Returns (Moves env actor k) (slots.foldlM (unfreezeOne env) k) :=
    .foldlM_related (fun _ => .refl) .trans _ k (unfreezeOne_moves env actor)
  have visited : ∀ slot, Returns (fun next => (next.proc slot).state ≠ .waiting)
      (slots.foldlM (unfreezeOne env) k) := by
    intro slot
    refine Ends.foldlM_visit (fun _ => True) (List.mem_finRange slot) k trivial ?_ ?_ ?_
    · intro state each _
      exact (unfreezeOne_waiting env state each).imp (fun _ _ => trivial)
    · intro state _
      exact (unfreezeOne_waiting env state slot).imp
        (fun _ leaves still => (leaves slot still).1 rfl)
    · intro state each _ left
      exact (unfreezeOne_waiting env state each).imp
        (fun _ leaves still => left (leaves slot still).2)
  cases scanned : slots.foldlM (unfreezeOne env) k with
  | error fault => trivial
  | ok next => exact ⟨moves.value scanned, fun slot => (visited slot).value scanned⟩

theorem kill_moves (env : Env) (actor : Option Slot) (k : Kernel cpus) (pid : Int32) :
    Returns (fun result => Moves env actor k result.1) (k.kill env pid) := by
  have marked : ∀ slot, Moves env actor k (k.marked slot) :=
    fun slot => Moves.refl.touch slot .mark
  refine kill_rule (fun _ => .refl) (fun slot _ => marked slot) fun slot _ asleep => ?_
  refine Moves.enqueue ((marked slot).touch slot (.rouse ?_)) slot
  rw [Kernel.marked, modify_self, asleep]

section

variable (exact : Exact k) (env : Env) (executes : k.context cpu = some caller)
include exact executes

theorem yield_moves (resume : Resume) :
    Returns (Moves env (some caller) k) (k.yield env cpu resume) := by
  have moved : Moves env (some caller) k
      (k.modify caller (fun p => { p with state := .runnable, resume := resume })) :=
    Moves.refl.touch caller (.preempt rfl (exact.executing executes) resume)
  exact yield_rule (exact.current executes) trivial (Moves.refl.aside rfl rfl (Nat.le_refl _))
    ((moved.enqueue caller).imp fun next moves => moves.aside rfl rfl (Nat.le_refl _))

variable (idle : (k.proc caller).stage = .idle)
include idle

theorem sleepOn_moves (chan : Addr) : Moves env (some caller) k (k.sleepOn cpu caller chan) :=
  Moves.refl.modify caller (.sleep rfl (exact.executing executes) idle chan) rfl rfl
    (Nat.le_refl _)

theorem wait_moves :
    Returns (fun result => Moves env (some caller) k result.1) (k.wait cpu) :=
  wait_rule (exact.current executes) (fun child found =>
      Moves.refl.touch child (.reap (zombieChild_some found).2))
    (fun _ _ => .refl) fun _ => sleepOn_moves exact env executes idle _

theorem forkClaim_moves : Returns (Moves env (some caller) k) (k.forkClaim cpu) := by
  refine forkClaim_rule (exact.current executes) .refl fun child unused => ?_
  have embryo : Moves env (some caller) k (k.claimed child) :=
    Moves.refl.modify child (.claim unused k.nextpid) rfl rfl (Nat.le_refl _)
  refine embryo.touch caller (.claimed rfl ?_ child)
  exact (update_same Proc.stage (by rfl) caller).trans idle

end

variable {child : Slot}

theorem release_moves (exact : Exact k) (env : Env)
    (owner : (k.proc caller).stage.child = some child) :
    Moves env (some caller) k ((k.release child).setStage caller .idle) := by
  have released : Moves env (some caller) k (k.release child) :=
    Moves.refl.touch child (.abandon (exact.embryos caller child owner))
  refine released.touch caller (.settled rfl ?_)
  intro unfreezing
  have kept : ((k.release child).proc caller).stage = _ := update_same Proc.stage (by rfl) caller
  rw [kept.symm.trans unfreezing] at owner
  cases owner

theorem forkSetup_moves (exact : Exact k) (env : Env) (running : (k.proc caller).state = .running)
    (claimed : (k.proc caller).stage = .claimed child) :
    Moves env (some caller) k ((k.allocprocSetup env child).setStage caller (.prepared child)) := by
  have owner : (k.proc caller).stage.child = some child := by rw [claimed]; rfl
  have embryo := exact.embryos caller child owner
  have apart := (exact.apart running owner).symm
  have cleared : Moves env (some caller) k (k.allocprocSetup env child) :=
    Moves.refl.modify child (.prepare embryo _ _) rfl rfl (Nat.le_refl _)
  refine cleared.touch caller (.prepared rfl child ?_ ?_)
  · exact (congrArg Proc.stage (update_of_ne apart _ _)).trans claimed
  · simp only [allocprocSetup, modify_self]

theorem forkCopy_moves (env : Env) (prepared : (k.proc caller).stage = .prepared child) :
    Moves env (some caller) k
      ((k.modify child (fun p => { p with parent := some caller })).setStage caller
        (.copied child)) := by
  have adopted : Moves env (some caller) k
      (k.modify child (fun p => { p with parent := some caller })) :=
    Moves.refl.touch child (.adopt (some caller))
  refine adopted.touch caller (.copied rfl child ?_)
  exact (update_same Proc.stage (by rfl) caller).trans prepared

theorem births_moves (apart : caller ≠ child) (copied : (k.proc caller).stage = .copied child)
    (touches : Touch env k (some caller) child record)
    (proc : next.proc = update (k.setStage caller .idle).proc child record)
    (frozen : next.frozen = k.frozen) (reads : k.reads ≤ next.reads) :
    Moves env (some caller) k next := by
  have born : Moves env (some caller) k { k with proc := update k.proc child record } :=
    Moves.refl.touch child touches
  have kept : update k.proc child record caller = k.proc caller :=
    update_of_ne apart _ _
  refine born.modify caller (.settled rfl ?_) ?_ frozen reads
  · intro unfreezing
    have before := (congrArg Proc.stage kept).symm.trans unfreezing
    rw [copied] at before
    cases before
  · simp only [kept]
    rw [proc, update_comm apart.symm]
    rfl

theorem forkInsert_moves (exact : Exact k) (env : Env) (executes : k.context cpu = some caller)
    (copied : (k.proc caller).stage = .copied child) (d c p o : UInt32) :
    Returns (Moves env (some caller) k) (k.forkInsert env cpu child d c p o) := by
  have owner : (k.proc caller).stage.child = some child := by rw [copied]; rfl
  have embryo := exact.embryos caller child owner
  have apart := (exact.apart (exact.executing executes) owner).symm
  have same : (k.setStage caller .idle).proc child = k.proc child :=
    setStage_other k .idle apart.symm
  have births : ∀ (next : Kernel cpus) {record : Proc}, Touch env k (some caller) child record →
      next.proc = update (k.setStage caller .idle).proc child record →
      next.frozen = k.frozen → k.reads ≤ next.reads → Moves env (some caller) k next :=
    fun next _ touches proc frozen reads => births_moves apart copied touches proc frozen reads
  rw [forkInsert, exact.current executes]
  simp only [bind, Except.bind]
  split
  · refine Moves.enqueue (births _
      (.start caller copied embryo d c (k.proc child).P (k.proc child).O) ?_ ?_ ?_) child
    · simp only [Kernel.modify, same]
      rfl
    · rfl
    · exact Nat.le_succ _
  split
  · rename_i frozen
    have held : k.frozen = true := frozen
    refine births _ (.hold held embryo d c p o) ?_ ?_ ?_
    · simp only [Kernel.modify, update_self, update_idem, same]
    · rfl
    · exact Nat.le_refl _
  · refine Moves.enqueue (births _ (.start caller copied embryo d c p o) ?_ ?_ ?_) child
    · simp only [Kernel.modify, update_self, update_idem, same]
      rfl
    · rfl
    · exact Nat.le_succ _

/-- What an iteration of the scheduler that finds an entry does. -/
structure Dispatched (env : Env) (k next : Kernel cpus) (head : Slot) : Prop where
  runnable : (k.proc head).state = .runnable
  proc : ∃ ctxswt firstsch chan, Stamped env (k.proc head).firstsch firstsch k.reads next.reads ∧
    next.proc = update k.proc head { k.proc head with
      state := .running, ctxswt := ctxswt, firstsch := firstsch, chan := chan }
  frozen : next.frozen = k.frozen
  reads : k.reads ≤ next.reads

theorem dispatch_dispatched {head : Slot} (runnable : (k.proc head).state = .runnable) (env : Env)
    (cpu : Fin cpus) : Dispatched env k ((k.countSwitch head).dispatch env cpu head) head := by
  obtain ⟨firstsch, reads, ⟨forward, stamped⟩, started⟩ :=
    startRunning_eq env cpu head (k.countSwitch head)
  simp only [countSwitch, modify_self] at stamped
  have resumes : ∀ entered : Kernel cpus, (entered.resumed head).frozen = entered.frozen ∧
      (entered.resumed head).reads = entered.reads ∧
      ∃ chan, (entered.resumed head).proc =
        update entered.proc head { entered.proc head with chan := chan } := by
    intro entered
    have untouched : entered.proc = update entered.proc head
        { entered.proc head with chan := (entered.proc head).chan } :=
      (update_eq_self head entered.proc).symm
    unfold resumed
    cases (entered.proc head).resume with
    | forkret | yieldFork | yieldTrap => exact ⟨rfl, rfl, _, untouched⟩
    | sleep => exact ⟨rfl, rfl, _, rfl⟩
  obtain ⟨frozen, clock, chan, proc⟩ := resumes ((k.countSwitch head).startRunning env cpu head)
  rw [started] at frozen clock proc
  rw [dispatch, started]
  refine ⟨runnable, ⟨(k.proc head).ctxswt + 1, firstsch, chan, ?_, ?_⟩, frozen, ?_⟩
  · rw [clock]
    exact stamped
  · rw [proc]
    simp only [countSwitch, Kernel.modify, update_self, update_idem]
  · rw [clock]
    exact forward

/-- One iteration of the scheduler does nothing or dispatches the head. -/
theorem scheduler_dispatched (exact : Exact k) (env : Env) (idle : k.context cpu = none) :
    Returns (fun next => next = k ∨ ∃ head, Dispatched env k next head) (k.scheduler env cpu) :=
  scheduler_rule exact idle trivial (.inl rfl) fun head _ _ runnable =>
    .inr ⟨head, dispatch_dispatched runnable env cpu⟩

end Kernel

/-- The processor that executes a section. An interrupt handler's `wakeup` acts for no
process. -/
def Action.cpu {cpus : Nat} : Action cpus → Option (Fin cpus)
  | .forkClaim cpu => some cpu
  | .forkNoStack cpu _ => some cpu
  | .forkSetup cpu _ => some cpu
  | .forkNoMemory cpu _ => some cpu
  | .forkCopy cpu _ => some cpu
  | .forkInsert cpu _ _ _ _ _ => some cpu
  | .yield cpu _ => some cpu
  | .sleep cpu _ => some cpu
  | .wakeup _ _ => none
  | .kill cpu _ => some cpu
  | .freeze cpu _ => some cpu
  | .unfreeze cpu => some cpu
  | .exit cpu _ => some cpu
  | .wait cpu => some cpu
  | .scheduler cpu => some cpu

namespace Kernel

open Outcome

variable {cpus : Nat} {k next : Kernel cpus}

/-- The process whose kernel stack executes a section. -/
def actor (k : Kernel cpus) (action : Action cpus) : Option Slot := action.cpu.bind k.context

/-- Every section that control can enter is a sequence of changes by its actor, or a
dispatch. -/
theorem execute_moves (exact : Exact k) (env : Env) (action : Action cpus)
    (enabled : k.Enabled action) :
    Returns (fun next => Moves env (k.actor action) k next ∨ ∃ head, Dispatched env k next head)
      (k.execute env action) := by
  have acts : ∀ {cpu caller} {ends : Except Fault (Kernel cpus)}, action.cpu = some cpu →
      k.context cpu = some caller → Returns (Moves env (some caller) k) ends →
      Returns (fun next => Moves env (k.actor action) k next ∨ ∃ head, Dispatched env k next head)
        ends := by
    intro cpu caller ends processor executes moves
    have actor : k.actor action = some caller := by
      rw [Kernel.actor, processor, Option.bind_some, executes]
    rw [actor]
    exact moves.imp (fun _ => .inl)
  cases action with
  | forkClaim cpu =>
    obtain ⟨caller, executes, idle⟩ := enabled
    exact acts rfl executes (forkClaim_moves exact env executes idle)
  | forkNoStack cpu child | forkNoMemory cpu child =>
    obtain ⟨caller, executes, stage⟩ := enabled
    refine acts rfl executes ?_
    simp only [execute, forkNoStack, forkNoMemory, exact.current executes]
    exact release_moves exact env (by rw [stage]; rfl)
  | forkSetup cpu child =>
    obtain ⟨caller, executes, claimed⟩ := enabled
    refine acts rfl executes ?_
    rw [execute, forkSetup, exact.current executes]
    exact forkSetup_moves exact env (exact.executing executes) claimed
  | forkCopy cpu child =>
    obtain ⟨caller, executes, prepared⟩ := enabled
    refine acts rfl executes ?_
    rw [execute, forkCopy, exact.current executes]
    exact forkCopy_moves env prepared
  | forkInsert cpu child d c p o =>
    obtain ⟨caller, executes, copied⟩ := enabled
    exact acts rfl executes (forkInsert_moves exact env executes copied d c p o)
  | yield cpu resume =>
    obtain ⟨caller, executes⟩ := Option.isSome_iff_exists.mp enabled
    exact acts rfl executes (yield_moves exact env executes resume)
  | sleep cpu chan =>
    obtain ⟨caller, executes, idle⟩ := enabled
    refine acts rfl executes ?_
    have named : k.cpuProc cpu = some caller := by rw [exact.named, executes]
    simp only [execute, sleep, named]
    exact sleepOn_moves exact env executes idle chan
  | wakeup chan memory =>
    exact (wakeup1_moves env none memory chan k).imp (fun _ => .inl)
  | kill cpu pid =>
    obtain ⟨caller, executes, _⟩ := enabled
    exact acts rfl executes (Ends.map (kill_moves env (some caller) k pid))
  | freeze cpu f =>
    obtain ⟨caller, executes, _⟩ := enabled
    refine acts rfl executes ?_
    rw [execute, freeze, exact.current executes]
    cases f with
    | true => exact .single (.freeze rfl rfl (Nat.le_refl _))
    | false =>
      exact .single (.thaw caller rfl (exact.executing executes) rfl rfl (Nat.le_refl _))
  | unfreeze cpu =>
    obtain ⟨caller, executes, _⟩ := enabled
    refine acts rfl executes ?_
    rw [execute, unfreeze, exact.current executes]
    apply Ends.bind (unfreeze_scan env (some caller) k)
    rintro scanned ⟨moves, nobody⟩
    exact moves.touch caller (.thawed rfl nobody)
  | exit cpu memory =>
    obtain ⟨caller, executes, idle⟩ := enabled
    exact acts rfl executes (exit_moves exact env memory executes idle)
  | wait cpu =>
    obtain ⟨caller, executes, idle⟩ := enabled
    exact acts rfl executes (Ends.map (wait_moves exact env executes idle))
  | scheduler cpu =>
    refine (scheduler_dispatched exact env enabled).imp ?_
    rintro next (rfl | dispatched)
    · exact .inl .refl
    · exact .inr dispatched

/-- A section of a reachable state is a sequence of changes, or a dispatch. -/
theorem Reachable.moves {env : Env} (reachable : Reachable env k) {action : Action cpus}
    (enabled : k.Enabled action) (executed : k.execute env action = .ok next) :
    Moves env (k.actor action) k next ∨ ∃ head, Dispatched env k next head :=
  (execute_moves reachable.exact env action enabled).value executed

variable {env : Env} {slot : Slot} {p : Proc}

end Kernel

end RtXv6
