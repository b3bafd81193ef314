import RtXv6.ReadyExactness

/-!
# What the sections do to the lives of processes

A process is created in a free slot, exists until it exits, and stays a zombie until
its parent frees the slot. Most sections only move existing processes between
sleeping, waiting, runnable and running. The rest do that too, after one change of
their own: a slot is claimed or given back, a child gets its parent or starts, a
process goes to sleep, is marked as killed, exits or is freed.

The effect of every section is stated here once, for the parts of a record that
concern the life of its process.
-/

namespace RtXv6.Kernel

open Function (update_self update_of_ne update_idem update_comm)
open Outcome PointUpdates

variable {cpus : Nat}

/-- The states of a process that exists and has not exited. -/
def Live (state : ProcState) : Prop :=
  state = .sleeping ∨ state = .runnable ∨ state = .running ∨ state = .waiting

instance live_decidable (state : ProcState) : Decidable (Live state) :=
  inferInstanceAs (Decidable (state = .sleeping ∨ state = .runnable ∨ state = .running ∨
    state = .waiting))

/-- A record keeps its process number and its mark, and no `fork` gets past copying. -/
structure Kept (p q : Proc) : Prop where
  pid : q.pid = p.pid
  killed : q.killed = p.killed
  copied : ∀ child, q.stage = .copied child → p.stage = .copied child

theorem Kept.refl (p : Proc) : Kept p p := ⟨rfl, rfl, fun _ => id⟩

variable {p q : Proc}

theorem Kept.trans {r : Proc} (first : Kept p q) (second : Kept q r) : Kept p r :=
  ⟨second.pid.trans first.pid, second.killed.trans first.killed,
    fun child copied => first.copied child (second.copied child copied)⟩

/-- A process stays where it is, or moves on as one that exists does without going to
sleep. -/
def Drifts (p q : Proc) : Prop :=
  q.state = p.state ∧ q.chan = p.chan ∨
    Live p.state ∧ (q.state = .runnable ∨ q.state = .running)

theorem Drifts.refl (p : Proc) : Drifts p p := .inl ⟨rfl, rfl⟩

theorem Drifts.trans {r : Proc} (first : Drifts p q) (second : Drifts q r) : Drifts p r := by
  rcases second with ⟨state, chan⟩ | ⟨live, moved⟩
  · rcases first with ⟨earlier, before⟩ | ⟨live, moved⟩
    · exact .inl ⟨state.trans earlier, chan.trans before⟩
    · exact .inr ⟨live, by rwa [state]⟩
  · rcases first with ⟨earlier, _⟩ | ⟨before, _⟩
    · exact .inr ⟨earlier ▸ live, moved⟩
    · exact .inr ⟨before, moved⟩

theorem Drifts.live (drifts : Drifts p q) : Live q.state ↔ Live p.state := by
  rcases drifts with ⟨state, _⟩ | ⟨live, moved⟩
  · rw [state]
  · refine ⟨fun _ => live, fun _ => ?_⟩
    rcases moved with state | state <;> rw [state] <;> decide

theorem Drifts.state_iff (drifts : Drifts p q) {state : ProcState} (apart : ¬ Live state) :
    q.state = state ↔ p.state = state := by
  rcases drifts with ⟨same, _⟩ | ⟨live, moved⟩
  · rw [same]
  constructor
  · rintro rfl
    rcases moved with moved | moved <;> rw [moved] at apart <;> exact absurd (by decide) apart
  · rintro rfl
    exact absurd live apart

theorem Drifts.sleeping (drifts : Drifts p q) (sleeping : q.state = .sleeping) :
    p.state = .sleeping ∧ q.chan = p.chan := by
  rcases drifts with ⟨state, chan⟩ | ⟨_, moved⟩
  · exact ⟨state ▸ sleeping, chan⟩
  · rw [sleeping] at moved
    rcases moved with moved | moved <;> cases moved

/-- Every process drifts and keeps its parent. -/
structure Quiet (k next : Kernel cpus) : Prop where
  kept : ∀ slot, Kept (k.proc slot) (next.proc slot)
  drifts : ∀ slot, Drifts (k.proc slot) (next.proc slot)
  parent : ∀ slot, (next.proc slot).parent = (k.proc slot).parent
  nextpid : next.nextpid = k.nextpid
  initproc : next.initproc = k.initproc

theorem Quiet.refl (k : Kernel cpus) : Quiet k k :=
  ⟨fun _ => Kept.refl _, fun _ => Drifts.refl _, fun _ => rfl, rfl, rfl⟩

variable {k next : Kernel cpus} {middle : Kernel cpus}

theorem Quiet.trans (first : Quiet k middle) (second : Quiet middle next) :
    Quiet k next where
  kept := fun slot => (first.kept slot).trans (second.kept slot)
  drifts := fun slot => (first.drifts slot).trans (second.drifts slot)
  parent := fun slot => (second.parent slot).trans (first.parent slot)
  nextpid := second.nextpid.trans first.nextpid
  initproc := second.initproc.trans first.initproc

theorem Quiet.congr (quiet : Quiet k middle) (proc : next.proc = middle.proc)
    (nextpid : next.nextpid = middle.nextpid) (initproc : next.initproc = middle.initproc) :
    Quiet k next := by
  refine ⟨?_, ?_, ?_, nextpid.trans quiet.nextpid, initproc.trans quiet.initproc⟩
  · rw [proc]
    exact quiet.kept
  · rw [proc]
    exact quiet.drifts
  · rw [proc]
    exact quiet.parent

/-- A relation that relates a changed record to the old one relates the tables. -/
theorem modify_related (relation : Proc → Proc → Prop) (refl : ∀ p, relation p p) (k : Kernel cpus)
    (slot : Slot) (change : Proc → Proc) (here : relation (k.proc slot) (change (k.proc slot)))
    (other : Slot) : relation (k.proc other) ((k.modify slot change).proc other) := by
  by_cases same : other = slot
  · subst same
    rwa [modify_self]
  · rw [modify_other k change same]
    exact refl _

variable {change : Proc → Proc}

/-- Two changes that do not see each other may be made in either order. -/
theorem modify_comm (k : Kernel cpus) (first second : Slot) {other : Proc → Proc}
    (commute : ∀ p, other (change p) = change (other p)) :
    (k.modify first change).modify second other = (k.modify second other).modify first change := by
  have tables : Function.update (Function.update k.proc first (change (k.proc first))) second
      (other (Function.update k.proc first (change (k.proc first)) second)) =
      Function.update (Function.update k.proc second (other (k.proc second))) first
        (change (Function.update k.proc second (other (k.proc second)) first)) := by
    by_cases same : first = second
    · subst same
      rw [update_self, update_self, update_idem, update_idem, commute]
    · rw [update_of_ne (Ne.symm same), update_of_ne same, update_comm same]
  unfold Kernel.modify
  simp only [tables]

theorem Quiet.modify (k : Kernel cpus) (slot : Slot) (change : Proc → Proc)
    (kept : Kept (k.proc slot) (change (k.proc slot)))
    (drifts : Drifts (k.proc slot) (change (k.proc slot)))
    (parent : (change (k.proc slot)).parent = (k.proc slot).parent) :
    Quiet k (k.modify slot change) :=
  ⟨modify_related Kept Kept.refl k slot change kept,
    modify_related Drifts Drifts.refl k slot change drifts,
    update_same Proc.parent parent, rfl, rfl⟩

variable {slot : Slot} {record : Proc}

theorem Quiet.update (proc : next.proc = Function.update k.proc slot record)
    (kept : Kept (k.proc slot) record) (drifts : Drifts (k.proc slot) record)
    (parent : record.parent = (k.proc slot).parent) (nextpid : next.nextpid = k.nextpid)
    (initproc : next.initproc = k.initproc) : Quiet k next :=
  (Quiet.modify k slot (fun _ => record) kept drifts parent).congr proc nextpid initproc

/-- Another replacement of the same record is quiet if its result is. -/
theorem Quiet.instead (proc : next.proc = Function.update k.proc slot record)
    (kept : Kept (change (k.proc slot)) record) (drifts : Drifts (change (k.proc slot)) record)
    (parent : record.parent = (change (k.proc slot)).parent) (nextpid : next.nextpid = k.nextpid)
    (initproc : next.initproc = k.initproc) : Quiet (k.modify slot change) next := by
  have again : next.proc = Function.update (k.modify slot change).proc slot record := by
    rw [proc, Kernel.modify, update_idem]
  refine Quiet.update again ?_ ?_ ?_ nextpid initproc
  · rwa [modify_self]
  · rwa [modify_self]
  · rwa [modify_self]

theorem Quiet.setStage (k : Kernel cpus) (slot : Slot) (stage : Stage)
    (early : ∀ child, stage ≠ .copied child) : Quiet k (k.setStage slot stage) :=
  Quiet.modify k slot _ ⟨rfl, rfl, fun child copied => absurd copied (early child)⟩
    (.inl ⟨rfl, rfl⟩) rfl

theorem Quiet.enqueue (quiet : Quiet k next) (env : Env) (slot : Slot) :
    Returns (Quiet k) (next.enqueue env slot) := by
  unfold Kernel.enqueue
  split
  · trivial
  · exact quiet.congr rfl rfl rfl

/-- The process sleeps until one of its children exits. -/
def Awaits (k : Kernel cpus) (slot : Slot) : Prop :=
  (k.proc slot).state = .sleeping ∧ (k.proc slot).chan = .proc slot

theorem Quiet.awaits (quiet : Quiet k next) (awaits : Awaits next slot) : Awaits k slot := by
  obtain ⟨before, chan⟩ := (quiet.drifts slot).sleeping awaits.1
  exact ⟨before, chan ▸ awaits.2⟩

section

variable (env : Env)

section

variable (memory : Nat → UInt32)

theorem wakeOne_quiet (chan : Addr) (k : Kernel cpus) (slot : Slot) :
    Returns (Quiet k) (k.wakeOne env memory chan slot) := by
  refine wakeOne_rule (fun _ => .refl k) fun hears => ?_
  have woken : Quiet k (k.awoken env slot) :=
    (Quiet.modify k slot (Proc.woken _) ⟨rfl, rfl, fun _ => id⟩
      (.inr ⟨.inl hears.1, .inl rfl⟩) rfl).congr rfl rfl rfl
  exact (woken.enqueue env slot).imp fun _ quiet => ⟨fun _ => quiet, quiet.congr rfl rfl rfl⟩

/-- The iteration of `wakeup1` at a process that awaits its children. -/
theorem wakeOne_awaits (k : Kernel cpus) (slot : Slot) :
    Returns (fun next => ¬ Awaits next slot) (k.wakeOne env memory (.proc slot) slot) := by
  refine wakeOne_rule (fun deaf awaits => deaf ⟨awaits.1, by rw [awaits.2]⟩) fun _ => ?_
  refine ((Quiet.refl _).enqueue env slot).imp fun next quiet => ?_
  have woken : ¬ Awaits next slot := by
    intro still
    have state := (quiet.awaits still).1
    simp only [awoken, modify_self] at state
    cases state
  exact ⟨fun _ => woken, woken⟩

theorem wakeup1_quiet (chan : Addr) (k : Kernel cpus) :
    Returns (Quiet k) (k.wakeup1 env memory chan) :=
  .foldlM_related .refl .trans _ k (wakeOne_quiet env memory chan)

/-- A process that awaits its children wakes up when `wakeup1` is called for it. -/
theorem wakeup1_awaits (k : Kernel cpus) (slot : Slot) :
    Returns (fun next => ¬ Awaits next slot) (k.wakeup1 env memory (.proc slot)) := by
  apply Ends.foldlM_visit (fun _ => True) (List.mem_finRange slot) k trivial
  · intro state each _
    exact (wakeOne_quiet env memory _ state each).imp (fun _ _ => trivial)
  · intro state _
    exact wakeOne_awaits env memory state slot
  · intro state each _ awake
    exact (wakeOne_quiet env memory _ state each).imp
      (fun _ quiet still => awake (quiet.awaits still))

end

theorem unfreezeOne_quiet (k : Kernel cpus) (slot : Slot) :
    Returns (Quiet k) (k.unfreezeOne env slot) := by
  by_cases waiting : (k.proc slot).state = .waiting
  · rw [unfreezeOne, if_pos waiting]
    have started : Quiet k (k.modify slot (fun p => { p with state := .runnable })) :=
      Quiet.modify k slot _ ⟨rfl, rfl, fun _ => id⟩
        (.inr ⟨.inr (.inr (.inr waiting)), .inl rfl⟩) rfl
    exact started.enqueue env slot
  · rw [unfreezeOne, if_neg waiting]
    exact Quiet.refl k

end

/-- The children of an exiting process are passed to `initproc`, and every process
drifts. -/
structure Passes (k next : Kernel cpus) (caller : Slot) : Prop where
  kept : ∀ slot, Kept (k.proc slot) (next.proc slot)
  drifts : ∀ slot, Drifts (k.proc slot) (next.proc slot)
  parent : ∀ slot, (next.proc slot).parent = (k.proc slot).parent ∨
    (k.proc slot).parent = some caller ∧ (next.proc slot).parent = k.initproc
  nextpid : next.nextpid = k.nextpid
  initproc : next.initproc = k.initproc

theorem Passes.of_quiet (quiet : Quiet k next) (caller : Slot) : Passes k next caller :=
  ⟨quiet.kept, quiet.drifts, fun slot => .inl (quiet.parent slot), quiet.nextpid, quiet.initproc⟩

variable {caller : Slot}

theorem Passes.trans (first : Passes k middle caller) (second : Passes middle next caller) :
    Passes k next caller where
  kept := fun slot => (first.kept slot).trans (second.kept slot)
  drifts := fun slot => (first.drifts slot).trans (second.drifts slot)
  parent := by
    intro slot
    rcases second.parent slot with same | ⟨child, passed⟩
    · rw [same]
      exact first.parent slot
    rcases first.parent slot with before | ⟨already, _⟩
    · exact .inr ⟨before ▸ child, passed.trans first.initproc⟩
    · exact .inr ⟨already, passed.trans first.initproc⟩
  nextpid := second.nextpid.trans first.nextpid
  initproc := second.initproc.trans first.initproc

theorem Passes.awaits (passes : Passes k next caller) (awaits : Awaits next slot) :
    Awaits k slot := by
  obtain ⟨before, chan⟩ := (passes.drifts slot).sleeping awaits.1
  exact ⟨before, chan ▸ awaits.2⟩

theorem Passes.child (k : Kernel cpus) (child : (k.proc slot).parent = some caller) :
    Passes k (k.passed slot) caller where
  kept := modify_related Kept Kept.refl k slot _ ⟨rfl, rfl, fun _ => id⟩
  drifts := modify_related Drifts Drifts.refl k slot _ (.inl ⟨rfl, rfl⟩)
  parent := modify_related (fun p q => q.parent = p.parent ∨
    p.parent = some caller ∧ q.parent = k.initproc) (fun _ => .inl rfl) k slot _ (.inr ⟨child, rfl⟩)
  nextpid := rfl
  initproc := rfl

theorem reparentOne_passes (env : Env) (memory : Nat → UInt32) (caller : Slot) (k : Kernel cpus)
    (slot : Slot) :
    Returns (fun next => Passes k next caller) (k.reparentOne env memory caller slot) := by
  refine reparentOne_rule (fun _ => .of_quiet (.refl k) caller)
    (fun child _ => .child k child) fun child _ => ?_
  exact (wakeup1_quiet env memory _ _).imp
    (fun _ quiet => (Passes.child k child).trans (.of_quiet quiet caller))

variable {root : Slot}

/-- The iteration of the loop of `exit` at a child: its parent is `initproc`, which does
not sleep on if the child is a zombie. -/
theorem reparentOne_child (env : Env) (memory : Nat → UInt32) (initproc : k.initproc = some root)
    (other : root ≠ caller) (slot : Slot) :
    Returns (fun next => (next.proc slot).parent ≠ some caller)
      (k.reparentOne env memory caller slot) := by
  have passed : ((k.passed slot).proc slot).parent ≠ some caller := by
    rw [Kernel.passed, modify_self, initproc]
    exact fun same => other (Option.some.inj same)
  refine reparentOne_rule id (fun _ _ => passed) fun _ _ => ?_
  exact (wakeup1_quiet env memory _ _).imp (fun _ quiet => by rw [quiet.parent]; exact passed)

/-- An iteration of the loop of `exit` that passes a zombie wakes `initproc`. -/
theorem reparentOne_zombie (env : Env) (memory : Nat → UInt32) {zombie : Slot}
    (initproc : k.initproc = some root) (exited : (k.proc zombie).state = .zombie)
    (caller slot : Slot) :
    Returns (fun next => (next.proc zombie).parent = (k.proc zombie).parent ∨ ¬ Awaits next root)
      (k.reparentOne env memory caller slot) := by
  have untouched : zombie ≠ slot → (k.passed slot).proc zombie = k.proc zombie := modify_other k _
  refine reparentOne_rule (fun _ => .inl rfl) (fun _ alive => .inl ?_) fun _ _ => ?_
  · rw [untouched (fun same => alive (same ▸ exited))]
  by_cases same : zombie = slot
  · rw [initproc]
    exact (wakeup1_awaits env memory _ root).imp (fun _ awake => .inr awake)
  · refine (wakeup1_quiet env memory _ _).imp (fun next quiet => .inl ?_)
    rw [quiet.parent, untouched same]

/-- What `exit` leaves: the caller is a zombie, its children belong to `initproc`, and
neither its parent nor an `initproc` that got a zombie sleeps on. -/
structure Exited (k next : Kernel cpus) (caller : Slot) : Prop where
  kept : ∀ slot, Kept (k.proc slot) (next.proc slot)
  drifts : ∀ slot, slot ≠ caller → Drifts (k.proc slot) (next.proc slot)
  zombie : (next.proc caller).state = .zombie
  parent : ∀ slot, (next.proc slot).parent =
    if (k.proc slot).parent = some caller then k.initproc else (k.proc slot).parent
  woken : ∀ slot, (k.proc caller).parent = some slot → ¬ Awaits next slot
  passed : ∀ slot root, (k.proc slot).parent = some caller → (k.proc slot).state = .zombie →
    k.initproc = some root → ¬ Awaits next root
  nextpid : next.nextpid = k.nextpid
  initproc : next.initproc = k.initproc

theorem reparent_passes (env : Env) (memory : Nat → UInt32) (initproc : k.initproc = some root)
    (other : root ≠ caller) :
    Returns (fun next => Passes k next caller ∧
        (∀ slot, (next.proc slot).parent ≠ some caller) ∧
        ∀ slot, (k.proc slot).parent = some caller → (k.proc slot).state = .zombie →
          ¬ Awaits next root)
      (slots.foldlM (reparentOne env memory caller) k) := by
  have keeps : ∀ state each, Passes k state caller →
      Returns (fun next => Passes k next caller) (state.reparentOne env memory caller each) := by
    intro state each soFar
    exact (reparentOne_passes env memory caller state each).imp (fun _ => soFar.trans)
  have start : Passes k k caller := Passes.of_quiet (Quiet.refl k) caller
  have left : ∀ slot, Returns (fun next => (next.proc slot).parent ≠ some caller)
      (slots.foldlM (reparentOne env memory caller) k) := by
    intro slot
    apply Ends.foldlM_visit (fun state => Passes k state caller) (List.mem_finRange slot) k start keeps
    · intro state soFar
      exact reparentOne_child env memory (soFar.initproc.trans initproc) other slot
    intro state each soFar gone
    refine (reparentOne_passes env memory caller state each).imp (fun next passes => ?_)
    rcases passes.parent slot with same | ⟨child, _⟩
    · rwa [same]
    · exact absurd child gone
  have wakes : ∀ slot, (k.proc slot).parent = some caller → (k.proc slot).state = .zombie →
      Returns (fun next => Passes k next caller ∧
          ((next.proc slot).parent = some caller ∨ ¬ Awaits next root))
        (slots.foldlM (reparentOne env memory caller) k) := by
    intro slot child zombie
    apply Ends.foldlM _ _ ⟨start, .inl child⟩
    rintro state each _ ⟨soFar, either⟩
    have exited : (state.proc slot).state = .zombie :=
      ((soFar.drifts slot).state_iff (by decide)).mpr zombie
    have now := reparentOne_zombie env memory (soFar.initproc.trans initproc) exited caller each
    refine ((reparentOne_passes env memory caller state each).and now).imp
      (fun next both => ⟨soFar.trans both.1, ?_⟩)
    rcases either with still | awake
    · rcases both.2 with same | woken
      · exact .inl (same.trans still)
      · exact .inr woken
    · exact .inr fun awaits => awake (both.1.awaits awaits)
  cases ran : slots.foldlM (reparentOne env memory caller) k with
  | error fault => trivial
  | ok next =>
    have loop : Returns (fun next => Passes k next caller)
        (slots.foldlM (reparentOne env memory caller) k) :=
      Ends.foldlM _ _ start (fun state each _ soFar => keeps state each soFar)
    have passes : Passes k next caller := loop.value ran
    refine ⟨passes, fun slot => (left slot).value ran, fun slot child zombie => ?_⟩
    rcases ((wakes slot child zombie).value ran).2 with still | awake
    · exact absurd still ((left slot).value ran)
    · exact awake

variable {cpu : Fin cpus}

theorem exit_exited (env : Env) (memory : Nat → UInt32) (current : k.current cpu = .ok caller)
    (initproc : k.initproc = some root) :
    Returns (fun next => root ≠ caller ∧ Exited k next caller) (k.exit env memory cpu) := by
  rw [exit, current]
  simp only [bind, Except.bind]
  split
  · trivial
  rename_i other
  have different : root ≠ caller := by
    rintro rfl
    exact other initproc
  have woken : ∀ slot, (k.proc caller).parent = some slot →
      Returns (fun next => ¬ Awaits next slot)
        (k.wakeup1 env memory (parentChan (k.proc caller).parent)) := by
    intro slot parent
    rw [parent]
    exact wakeup1_awaits env memory k slot
  cases first : k.wakeup1 env memory (parentChan (k.proc caller).parent) with
  | error fault => trivial
  | ok middle =>
    have quiet : Quiet k middle := (wakeup1_quiet env memory _ k).value first
    apply Ends.bind (reparent_passes env memory (quiet.initproc.trans initproc) different)
    rintro last ⟨passes, left, roots⟩
    have earlier : ∀ slot, Awaits ((last.modify caller (fun p => { p with state := .zombie })).sched
        cpu) slot → Awaits last slot := by
      intro slot awaits
      have apart := (of_update Proc.state (by simp) awaits.1).1
      have untouched := modify_other last (fun p => { p with state := .zombie }) apart
      unfold Awaits at awaits ⊢
      rw [← untouched]
      exact awaits
    refine ⟨different, ?_, ?_, ?_, ?_, ?_, ?_, ?_, ?_⟩
    · intro slot
      have kept := (quiet.kept slot).trans (passes.kept slot)
      refine kept.trans ?_
      exact modify_related Kept Kept.refl last caller (fun p => { p with state := .zombie })
        ⟨rfl, rfl, fun _ => id⟩ slot
    · intro slot apart
      have untouched := modify_other last (fun p => { p with state := .zombie }) apart
      have drifts := (quiet.drifts slot).trans (passes.drifts slot)
      rw [← untouched] at drifts
      exact drifts
    · simp only [sched, modify_self]
    · intro slot
      have kept : (((last.modify caller (fun p => { p with state := .zombie })).sched cpu).proc
          slot).parent = (last.proc slot).parent :=
        update_same Proc.parent (by rfl) slot
      rw [kept]
      rcases passes.parent slot with same | ⟨child, passed⟩
      · have before : (last.proc slot).parent = (k.proc slot).parent :=
          same.trans (quiet.parent slot)
        rw [before, if_neg (before ▸ left slot)]
      · rw [passed, quiet.initproc, if_pos (quiet.parent slot ▸ child)]
    · intro slot parent awaits
      exact (woken slot parent).value first (passes.awaits (earlier slot awaits))
    · intro slot other child zombie initial awaits
      obtain rfl : other = root := Option.some.inj (initial.symm.trans initproc)
      exact roots slot ((quiet.parent slot).trans child)
        (((quiet.drifts slot).state_iff (by decide)).mpr zombie) (earlier other awaits)
    · exact passes.nextpid.trans quiet.nextpid
    · exact passes.initproc.trans quiet.initproc

theorem zombieChild_none (absent : k.zombieChild caller = none) (child : Slot)
    (parent : (k.proc child).parent = some caller) : (k.proc child).state ≠ .zombie := by
  intro zombie
  have missed := List.find?_eq_none.mp absent child (List.mem_finRange child)
  simp only [decide_eq_true_eq] at missed
  exact missed ⟨parent, zombie⟩

theorem kill_quiet (env : Env) (k : Kernel cpus) (pid : Int32) :
    Returns (fun result : Kernel cpus × Int32 => k.carrier pid = none ∧ result = (k, -1) ∨
        ∃ slot, k.carrier pid = some slot ∧ result.2 = 0 ∧
          Quiet (k.modify slot (fun p => { p with killed := true })) result.1)
      (k.kill env pid) := by
  refine kill_rule (fun missing => .inl ⟨missing, rfl⟩)
    (fun slot found => .inr ⟨slot, found, rfl, .refl _⟩) fun slot found asleep => ?_
  have started := Quiet.modify (k.marked slot) slot (fun p => { p with state := .runnable })
    ⟨rfl, rfl, fun _ => id⟩ (.inr ⟨.inl ?_, .inl rfl⟩) rfl
  · exact (started.enqueue env slot).imp fun next quiet => .inr ⟨slot, found, rfl, quiet⟩
  · rw [Kernel.marked, modify_self, asleep]

theorem yield_quiet (exact : Exact k) (env : Env) (executes : k.context cpu = some caller)
    (resume : Resume) : Returns (Quiet k) (k.yield env cpu resume) := by
  have moved := Quiet.modify k caller (fun p => { p with state := .runnable, resume := resume })
    ⟨rfl, rfl, fun _ => id⟩
    (.inr ⟨.inr (.inr (.inl (exact.executing executes))), .inl rfl⟩) rfl
  exact yield_rule (exact.current executes) trivial ((Quiet.refl k).congr rfl rfl rfl)
    ((moved.enqueue env caller).imp fun next quiet => quiet.congr rfl rfl rfl)

theorem resumed_quiet (running : (k.proc slot).state = .running) : Quiet k (k.resumed slot) := by
  unfold resumed
  cases (k.proc slot).resume with
  | forkret => exact Quiet.refl k
  | sleep =>
    exact Quiet.modify k slot _ ⟨rfl, rfl, fun _ => id⟩
      (.inr ⟨.inr (.inr (.inl running)), .inr running⟩) rfl
  | yieldFork | yieldTrap => exact (Quiet.refl k).congr rfl rfl rfl

theorem dispatch_quiet {head : Slot} (runnable : (k.proc head).state = .runnable) (env : Env)
    (cpu : Fin cpus) : Quiet k (k.dispatch env cpu head) := by
  obtain ⟨firstsch, reads, _, started⟩ := startRunning_eq env cpu head k
  have entered : Quiet k (k.startRunning env cpu head) := by
    have moved := Quiet.modify k head
      (fun p => { p with state := .running, firstsch := firstsch })
      ⟨rfl, rfl, fun _ => id⟩ (.inr ⟨.inr (.inl runnable), .inr rfl⟩) rfl
    rw [started]
    exact moved.congr rfl rfl rfl
  refine entered.trans (resumed_quiet ?_)
  rw [started]
  simp only [update_self]

theorem scheduler_quiet (exact : Exact k) (env : Env) (idle : k.context cpu = none) :
    Returns (Quiet k) (k.scheduler env cpu) := by
  refine scheduler_rule exact idle trivial (.refl k) fun head _ _ runnable => ?_
  have counted : Quiet k (k.countSwitch head) :=
    Quiet.modify k head _ ⟨rfl, rfl, fun _ => id⟩ (.inl ⟨rfl, rfl⟩) rfl
  refine counted.trans (dispatch_quiet ?_ env cpu)
  rw [countSwitch, modify_self]
  exact runnable

theorem sleepOn_quiet (k : Kernel cpus) (cpu : Fin cpus) (caller : Slot) (chan : Addr) :
    Quiet (k.modify caller (fun p => { p with state := .sleeping, chan := chan }))
      (k.sleepOn cpu caller chan) :=
  Quiet.instead rfl ⟨rfl, rfl, fun _ => id⟩ (.inl ⟨rfl, rfl⟩) rfl rfl rfl

theorem forkInsert_quiet (env : Env) (current : k.current cpu = .ok caller) (child : Slot)
    (d c p o : UInt32) :
    Returns (fun next => ∃ state, (state = .runnable ∨ state = .waiting) ∧
        Quiet (k.modify child (fun q => { q with state := state })) next)
      (k.forkInsert env cpu child d c p o) := by
  -- The stage of the caller and the state of the child are recorded in either order.
  have commute : ∀ state : ProcState, (k.setStage caller .idle).modify child
      (fun q => { q with state := state }) =
        (k.modify child (fun q => { q with state := state })).setStage caller .idle :=
    fun state => modify_comm k caller child (fun _ => rfl)
  have started : ∀ (state : ProcState) {next : Kernel cpus},
      Quiet ((k.setStage caller .idle).modify child (fun q => { q with state := state })) next →
      Quiet (k.modify child (fun q => { q with state := state })) next := by
    intro state next quiet
    rw [commute] at quiet
    exact (Quiet.setStage _ caller .idle (fun _ equal => by cases equal)).trans quiet
  rw [forkInsert, current]
  simp only [bind, Except.bind]
  split
  · refine (Quiet.enqueue (started .runnable ?_) env child).imp
      (fun next quiet => ⟨.runnable, .inl rfl, quiet⟩)
    exact Quiet.instead rfl ⟨rfl, rfl, fun _ => id⟩ (.inl ⟨rfl, rfl⟩) rfl rfl rfl
  split
  · refine ⟨.waiting, .inr rfl, started .waiting ?_⟩
    rw [modify_modify]
    exact Quiet.instead rfl ⟨rfl, rfl, fun _ => id⟩ (.inl ⟨rfl, rfl⟩) rfl rfl rfl
  refine (Quiet.enqueue (started .runnable ?_) env child).imp
    (fun next quiet => ⟨.runnable, .inl rfl, quiet⟩)
  simp only [modify_modify]
  exact Quiet.instead rfl ⟨rfl, rfl, fun _ => id⟩ (.inl ⟨rfl, rfl⟩) rfl rfl rfl

/-- What a section does to the lives of the processes. -/
def Effect (k next : Kernel cpus) : Action cpus → Prop
  | .forkClaim _ => Quiet k next ∨ ∃ child, (k.proc child).state = .unused ∧
      Quiet { k.modify child (fun p => { p with state := .embryo, pid := k.nextpid }) with
        nextpid := k.nextpid + 1 } next
  | .forkNoStack _ child => Quiet (k.release child) next
  | .forkSetup _ _ => Quiet k next
  | .forkNoMemory _ child => Quiet (k.release child) next
  | .forkCopy cpu child => ∃ caller, k.context cpu = some caller ∧
      next = (k.modify child (fun p => { p with parent := some caller })).setStage caller
        (.copied child)
  | .forkInsert _ child _ _ _ _ => ∃ state, (state = .runnable ∨ state = .waiting) ∧
      Quiet (k.modify child (fun p => { p with state := state })) next
  | .yield _ _ => Quiet k next
  | .sleep cpu chan => ∃ caller, k.context cpu = some caller ∧
      Quiet (k.modify caller (fun p => { p with state := .sleeping, chan := chan })) next
  | .wakeup _ _ => Quiet k next
  | .kill _ pid => next = k ∨ ∃ slot, k.carrier pid = some slot ∧
      Quiet (k.modify slot (fun p => { p with killed := true })) next
  | .freeze _ _ => Quiet k next
  | .unfreeze _ => Quiet k next
  | .exit cpu _ => ∃ caller, k.context cpu = some caller ∧ k.initproc ≠ some caller ∧
      Exited k next caller
  | .wait cpu => ∃ caller, k.context cpu = some caller ∧
      ((∃ child, k.zombieChild caller = some child ∧ next = k.modify child freed) ∨
        k.zombieChild caller = none ∧ (next = k ∨ Quiet (k.modify caller
          (fun p => { p with state := .sleeping, chan := .proc caller })) next))
  | .scheduler _ => Quiet k next

theorem execute_effect (exact : Exact k) (env : Env) (root : ∃ slot, k.initproc = some slot)
    (action : Action cpus) (enabled : k.Enabled action) :
    Returns (fun next => Effect k next action) (k.execute env action) := by
  cases action with
  | forkClaim cpu =>
    obtain ⟨caller, executes, _⟩ := enabled
    refine forkClaim_rule (exact.current executes) (.inl (.refl k)) fun child unused => ?_
    refine .inr ⟨child, unused, ?_⟩
    exact Quiet.setStage _ caller (.claimed child) (fun _ equal => by cases equal)
  | forkNoStack cpu child | forkNoMemory cpu child =>
    obtain ⟨caller, executes, _⟩ := enabled
    simp only [execute, forkNoStack, forkNoMemory, exact.current executes]
    exact Quiet.setStage _ caller .idle (fun _ equal => by cases equal)
  | forkSetup cpu child =>
    obtain ⟨caller, executes, _⟩ := enabled
    rw [execute, forkSetup, exact.current executes]
    have prepared : Quiet k (k.allocprocSetup env child) :=
      Quiet.update rfl ⟨rfl, rfl, fun _ copied => by cases copied⟩ (.inl ⟨rfl, rfl⟩) rfl rfl rfl
    exact prepared.trans (Quiet.setStage _ caller (.prepared child) (fun _ equal => by cases equal))
  | forkCopy cpu child =>
    obtain ⟨caller, executes, _⟩ := enabled
    rw [execute, forkCopy, exact.current executes]
    exact ⟨caller, executes, rfl⟩
  | forkInsert cpu child d c p o =>
    obtain ⟨caller, executes, _⟩ := enabled
    exact forkInsert_quiet env (exact.current executes) child d c p o
  | yield cpu resume =>
    obtain ⟨caller, executes⟩ := Option.isSome_iff_exists.mp enabled
    exact yield_quiet exact env executes resume
  | sleep cpu chan =>
    obtain ⟨caller, executes, _⟩ := enabled
    have named : k.cpuProc cpu = some caller := by rw [exact.named, executes]
    simp only [execute, sleep, named]
    exact ⟨caller, executes, sleepOn_quiet k cpu caller chan⟩
  | wakeup chan memory => exact wakeup1_quiet env memory chan k
  | kill cpu pid =>
    refine Ends.map ((kill_quiet env k pid).imp ?_)
    rintro result (⟨_, rfl⟩ | ⟨slot, found, _, quiet⟩)
    · exact .inl rfl
    · exact .inr ⟨slot, found, quiet⟩
  | freeze cpu f =>
    obtain ⟨caller, executes, _⟩ := enabled
    rw [execute, freeze, exact.current executes]
    cases f with
    | true => exact (Quiet.refl k).congr rfl rfl rfl
    | false =>
      have cleared : Quiet k { k with frozen := false } := (Quiet.refl k).congr rfl rfl rfl
      exact cleared.trans (Quiet.setStage _ caller .unfreezing (fun _ equal => by cases equal))
  | unfreeze cpu =>
    obtain ⟨caller, executes, _⟩ := enabled
    rw [execute, unfreeze, exact.current executes]
    apply Ends.bind (.foldlM_related .refl .trans _ k (unfreezeOne_quiet env))
    intro scanned quiet
    exact quiet.trans (Quiet.setStage _ caller .idle (fun _ equal => by cases equal))
  | exit cpu memory =>
    obtain ⟨caller, executes, _⟩ := enabled
    obtain ⟨slot, initproc⟩ := root
    refine (exit_exited env memory (exact.current executes) initproc).imp ?_
    rintro next ⟨other, exited⟩
    exact ⟨caller, executes, fun same => other (Option.some.inj (initproc.symm.trans same)), exited⟩
  | wait cpu =>
    obtain ⟨caller, executes, _⟩ := enabled
    exact .map (wait_rule (exact.current executes)
      (fun child found => ⟨caller, executes, .inl ⟨child, found, rfl⟩⟩)
      (fun absent _ => ⟨caller, executes, .inr ⟨absent, .inl rfl⟩⟩)
      fun absent => ⟨caller, executes, .inr ⟨absent, .inr (sleepOn_quiet k cpu caller _)⟩⟩)
  | scheduler cpu => exact scheduler_quiet exact env enabled

variable {action : Action cpus}

theorem Effect.initproc (effect : Effect k next action) : next.initproc = k.initproc := by
  cases action with
  | forkClaim cpu =>
    rcases effect with quiet | ⟨child, _, quiet⟩
    · exact quiet.initproc
    · exact quiet.initproc
  | forkNoStack | forkNoMemory | forkSetup | yield | wakeup | freeze | unfreeze | scheduler =>
    exact (Quiet.initproc effect :)
  | forkCopy cpu child =>
    obtain ⟨caller, _, rfl⟩ := effect
    rfl
  | forkInsert | sleep =>
    obtain ⟨_, _, quiet⟩ := effect
    exact quiet.initproc
  | kill cpu pid =>
    rcases effect with rfl | ⟨slot, _, quiet⟩
    · rfl
    · exact quiet.initproc
  | exit cpu memory =>
    obtain ⟨caller, _, _, exited⟩ := effect
    exact exited.initproc
  | wait cpu =>
    obtain ⟨caller, _, ⟨child, _, rfl⟩ | ⟨_, rfl | quiet⟩⟩ := effect
    · rfl
    · rfl
    · exact quiet.initproc

/-- A run whose sections all meet a condition, with the sections that it has executed and
the states they started from, the latest first. -/
inductive Run (env : Env) (meets : Kernel cpus → Action cpus → Prop) :
    Kernel cpus → List (Kernel cpus × Action cpus) → Prop
  | start : Run env meets ((zero cpus).userinit env) []
  | step {k next : Kernel cpus} {history : List (Kernel cpus × Action cpus)}
      (before : Run env meets k history) (action : Action cpus) (enabled : k.Enabled action)
      (met : meets k action) (executed : k.execute env action = .ok next) :
      Run env meets next ((k, action) :: history)

variable {env : Env}

theorem Run.reachable {meets : Kernel cpus → Action cpus → Prop}
    {history : List (Kernel cpus × Action cpus)} (run : Run env meets k history) :
    Reachable env k := by
  induction run with
  | start => exact .start
  | step _ action enabled _ executed ih =>
    exact ih.step action enabled executed

theorem Reachable.initproc (reachable : Reachable env k) : k.initproc = some 0 := by
  induction reachable with
  | start => rfl
  | step before action enabled executed ih =>
    have effect := (execute_effect before.exact env ⟨0, ih⟩ action enabled).value executed
    exact effect.initproc.trans ih

theorem Reachable.effect (reachable : Reachable env k) (enabled : k.Enabled action)
    (executed : k.execute env action = .ok next) : Effect k next action :=
  (execute_effect reachable.exact env ⟨0, reachable.initproc⟩ action enabled).value executed

end RtXv6.Kernel
