import RtXv6.Outcome
import RtXv6.ReadyQueue

/-!
# The process table

The routines of `proc.c` as functions on an explicit kernel state. A section under
`ptable.lock` is one function; the stores that `fork` and `freeze` make between
their sections are functions of their own, so that every interleaving of sections
is a sequence of these functions.

A context switch ends a section on the process side and the scheduler's clearing of
`proc` belongs to it, because the lock is held across the switch. Likewise a
dispatch includes the first statements of the process it resumes. A processor runs
either its scheduler or one process's kernel stack; which of the two is recorded
apart from the per-processor variable `proc`, which is only a variable.

Reading a field through a null pointer, storing past the queue's array and a kernel
panic end a run with a fault.

The sections that branch have a rule each. It lists the branches with what has been tested
in each, and leaves what has to hold of the state that the branch returns or of the
computation it ends with.
-/

namespace RtXv6

open Outcome
open Function (update update_self)

/-- What stays fixed during a run: the configuration and the successive results of
`tick()`. -/
structure Env where
  config : Config
  tick : Nat → UInt64

/-- How a section can go wrong: a field read through a null `proc`, a null queue
entry dereferenced, a store past the last queue cell, or a panic. -/
inductive Fault where
  | nullProc
  | nullEntry
  | overrun
  | panic (message : String)
  deriving DecidableEq, Repr

/-- The state shared by the processors. `cpuProc` is the per-processor variable
`proc`; `context` is the process on whose stack the processor executes, absent in
the scheduler loop. `reads` counts the clock readings so far. -/
structure Kernel (cpus : Nat) where
  proc : Table
  ready : ReadyQueue
  frozen : Bool
  interrupt : Bool
  nextpid : Int32
  initproc : Option Slot
  cpuProc : Fin cpus → Option Slot
  context : Fin cpus → Option Slot
  reads : Nat

variable {cpus : Nat}

/-- A record after its process has been woken. -/
def Proc.woken (now : UInt64) (p : Proc) : Proc :=
  { p with state := .runnable, chan := .word 0, arrtime := now, firstsch := 0, ctxswt := 0 }

namespace Kernel

/-- Update one process record. -/
def modify (k : Kernel cpus) (slot : Slot) (change : Proc → Proc) : Kernel cpus :=
  { k with proc := update k.proc slot (change (k.proc slot)) }

/-- The slots in table order, as every scan visits them. -/
def slots : List Slot := List.finRange NPROC

/-- The value of `proc` where a field of it is read. -/
def current (k : Kernel cpus) (cpu : Fin cpus) : Except Fault Slot :=
  match k.cpuProc cpu with
  | none => .error .nullProc
  | some slot => .ok slot

/-- Insert a process into the ready queue. -/
def enqueue (env : Env) (slot : Slot) (k : Kernel cpus) : Except Fault (Kernel cpus) :=
  match k.ready.insert env.config env.tick k.proc slot k.reads with
  | none => .error .overrun
  | some (ready, reads) => .ok { k with ready := ready, reads := reads }

/-- The switch from a process to its processor's scheduler, up to the scheduler's
release of the lock. -/
def sched (cpu : Fin cpus) (k : Kernel cpus) : Kernel cpus :=
  { k with
    cpuProc := update k.cpuProc cpu none
    context := update k.context cpu none }

/-- The locked section of `allocproc`: the first unused slot becomes an embryo with
the next process number. -/
def allocproc (k : Kernel cpus) : Option Slot × Kernel cpus :=
  match slots.find? (fun slot => (k.proc slot).state = .unused) with
  | none => (none, k)
  | some slot =>
    (some slot,
      { k.modify slot (fun p => { p with state := .embryo, pid := k.nextpid }) with
        nextpid := k.nextpid + 1 })

/-- The rest of a successful `allocproc`: a kernel stack that starts in `forkret`,
zeroed scheduling fields and a cleared preemption request. -/
def allocprocSetup (env : Env) (slot : Slot) (k : Kernel cpus) : Kernel cpus :=
  { k.modify slot (fun p =>
      { p with
        D := 0
        C := 0
        ctxswt := 0
        arrtime := 0
        firstsch := 0
        P := match env.config with
          | .edf => p.P
          | .pt => 0
        O := match env.config with
          | .edf => p.O
          | .pt => 0
        stage := .idle
        resume := .forkret }) with
    interrupt := false }

/-- A failed allocation of the child's stack or memory gives the slot back. -/
def release (slot : Slot) (k : Kernel cpus) : Kernel cpus :=
  k.modify slot (fun p => { p with state := .unused })

/-- The stage of the process a processor executes. -/
def setStage (slot : Slot) (stage : Stage) (k : Kernel cpus) : Kernel cpus :=
  k.modify slot (fun p => { p with stage := stage })

/-- `fork` up to the end of `allocproc`'s locked section. -/
def forkClaim (cpu : Fin cpus) (k : Kernel cpus) : Except Fault (Kernel cpus) := do
  let caller ← k.current cpu
  match k.allocproc with
  | (none, _) => .ok k
  | (some child, claimed) => .ok (claimed.setStage caller (.claimed child))

/-- `fork` when `kalloc` has no page for the kernel stack. -/
def forkNoStack (cpu : Fin cpus) (child : Slot) (k : Kernel cpus) : Except Fault (Kernel cpus) := do
  let caller ← k.current cpu
  .ok ((k.release child).setStage caller .idle)

/-- `fork` through the unlocked rest of `allocproc`. -/
def forkSetup (env : Env) (cpu : Fin cpus) (child : Slot) (k : Kernel cpus) :
    Except Fault (Kernel cpus) := do
  let caller ← k.current cpu
  .ok ((k.allocprocSetup env child).setStage caller (.prepared child))

/-- `fork` when `copyuvm` runs out of memory. -/
def forkNoMemory (cpu : Fin cpus) (child : Slot) (k : Kernel cpus) :
    Except Fault (Kernel cpus) := do
  let caller ← k.current cpu
  .ok ((k.release child).setStage caller .idle)

/-- `fork` after `copyuvm`: the child's parent is recorded. -/
def forkCopy (cpu : Fin cpus) (child : Slot) (k : Kernel cpus) : Except Fault (Kernel cpus) := do
  let caller ← k.current cpu
  .ok ((k.modify child (fun p => { p with parent := some caller })).setStage caller
    (.copied child))

/-- The locked end of `fork`. In the threshold build a child created while creation
is frozen waits outside the queue. -/
def forkInsert (env : Env) (cpu : Fin cpus) (child : Slot) (d c p o : UInt32)
    (k : Kernel cpus) : Except Fault (Kernel cpus) := do
  let caller ← k.current cpu
  let k := k.setStage caller .idle
  match env.config with
  | .edf =>
    let now := env.tick k.reads
    let k := { k.modify child (fun q =>
      { q with state := .runnable, D := d, C := c, arrtime := now, ctxswt := 0 }) with
        reads := k.reads + 1 }
    k.enqueue env child
  | .pt =>
    let k := k.modify child (fun q =>
      { q with state := .runnable, D := d, C := c, P := p, O := o, ctxswt := 0 })
    if k.frozen then .ok (k.modify child (fun q => { q with state := .waiting }))
    else
      let now := env.tick k.reads
      let k := { k.modify child (fun q => { q with arrtime := now }) with reads := k.reads + 1 }
      k.enqueue env child

/-- One iteration of the loop of `wakeup1`: a sleeper is woken when its channel and
the given one point to equal words. -/
def wakeOne (env : Env) (memory : Nat → UInt32) (chan : Addr) (k : Kernel cpus) (slot : Slot) :
    Except Fault (Kernel cpus) :=
  if (k.proc slot).state = .sleeping ∧
      env.config.firstWord k.proc memory (k.proc slot).chan =
        env.config.firstWord k.proc memory chan then do
    let now := env.tick k.reads
    let k := { k.modify slot (fun p =>
      { p with state := .runnable, chan := .word 0, arrtime := now, firstsch := 0, ctxswt := 0 })
        with reads := k.reads + 1 }
    let k ← k.enqueue env slot
    match env.config with
    | .edf => .ok k
    | .pt => .ok { k with interrupt := true }
  else .ok k

/-- `wakeup1(chan)`. -/
def wakeup1 (env : Env) (memory : Nat → UInt32) (chan : Addr) (k : Kernel cpus) :
    Except Fault (Kernel cpus) :=
  slots.foldlM (wakeOne env memory chan) k

/-- The channel a parent waits on. -/
def parentChan : Option Slot → Addr
  | none => .word 0
  | some slot => .proc slot

/-- One iteration of `exit`'s loop: a child is passed to `initproc`, which is woken
when the child is a zombie. -/
def reparentOne (env : Env) (memory : Nat → UInt32) (parent : Slot) (k : Kernel cpus)
    (slot : Slot) : Except Fault (Kernel cpus) :=
  if (k.proc slot).parent = some parent then
    let k := k.modify slot (fun p => { p with parent := k.initproc })
    if (k.proc slot).state = .zombie then k.wakeup1 env memory (parentChan k.initproc) else .ok k
  else .ok k

/-- The locked section of `exit`, with the test that precedes it. -/
def exit (env : Env) (memory : Nat → UInt32) (cpu : Fin cpus) (k : Kernel cpus) :
    Except Fault (Kernel cpus) := do
  let caller ← k.current cpu
  if k.initproc = some caller then .error (.panic "init exiting")
  else
    let k ← k.wakeup1 env memory (parentChan (k.proc caller).parent)
    let k ← slots.foldlM (reparentOne env memory caller) k
    .ok ((k.modify caller (fun p => { p with state := .zombie })).sched cpu)

/-- The common part of `sleep` and of `wait`'s sleep: record the channel and
switch. -/
def sleepOn (cpu : Fin cpus) (caller : Slot) (chan : Addr) (k : Kernel cpus) : Kernel cpus :=
  (k.modify caller (fun p => { p with chan := chan, state := .sleeping, resume := .sleep })).sched cpu

/-- The section of `sleep(chan, lk)` under `ptable.lock`. -/
def sleep (cpu : Fin cpus) (chan : Addr) (k : Kernel cpus) : Except Fault (Kernel cpus) :=
  match k.cpuProc cpu with
  | none => .error (.panic "sleep")
  | some caller => .ok (k.sleepOn cpu caller chan)

/-- The record of a child that `wait` has freed. -/
def freed (p : Proc) : Proc :=
  { p with state := .unused, pid := 0, parent := none, killed := false }

/-- One pass of `wait`'s loop: free the first zombie child and return its number,
return -1 without children or when killed, or sleep on the caller's own record. A
pass that sleeps returns nothing. -/
def wait (cpu : Fin cpus) (k : Kernel cpus) : Except Fault (Kernel cpus × Option Int32) := do
  let caller ← k.current cpu
  match slots.find? (fun slot => (k.proc slot).parent = some caller ∧
      (k.proc slot).state = .zombie) with
  | some child =>
    .ok (k.modify child freed, some (k.proc child).pid)
  | none =>
    if (∀ slot, (k.proc slot).parent ≠ some caller) ∨ (k.proc caller).killed then
      .ok (k, some (-1))
    else .ok (k.sleepOn cpu caller (.proc caller), none)

/-- Whether `yield` gives the processor up. The threshold build does so only for a
queue head whose priority exceeds the caller's threshold; it reads the head cell even
when the queue is empty. -/
def yieldTest (env : Env) (caller : Slot) (k : Kernel cpus) : Except Fault Bool :=
  match env.config with
  | .edf => .ok true
  | .pt =>
    match k.ready.queue 0 with
    | none => .error .nullEntry
    | some head => .ok (decide ((k.proc head).P > (k.proc caller).O))

/-- `yield()`. -/
def yield (env : Env) (cpu : Fin cpus) (resume : Resume) (k : Kernel cpus) :
    Except Fault (Kernel cpus) := do
  let caller ← k.current cpu
  if ← k.yieldTest env caller then
    let k := k.modify caller (fun p => { p with state := .runnable, resume := resume })
    let k ← k.enqueue env caller
    .ok (k.sched cpu)
  else .ok { k with interrupt := false }

/-- `kill(pid)`. -/
def kill (env : Env) (pid : Int32) (k : Kernel cpus) : Except Fault (Kernel cpus × Int32) :=
  match slots.find? (fun slot => (k.proc slot).pid = pid) with
  | none => .ok (k, -1)
  | some slot =>
    let k := k.modify slot (fun p => { p with killed := true })
    if (k.proc slot).state = .sleeping then do
      let k := k.modify slot (fun p => { p with state := .runnable })
      let k ← k.enqueue env slot
      .ok (k, 0)
    else .ok (k, 0)

/-- The stores of `freeze(f)` to the flag. Clearing it is followed by a scan. -/
def freeze (cpu : Fin cpus) (f : Bool) (k : Kernel cpus) : Except Fault (Kernel cpus) := do
  let caller ← k.current cpu
  if f then .ok { k with frozen := true }
  else .ok ({ k with frozen := false }.setStage caller .unfreezing)

/-- One iteration of the locked scan of `freeze(0)`. -/
def unfreezeOne (env : Env) (k : Kernel cpus) (slot : Slot) : Except Fault (Kernel cpus) :=
  if (k.proc slot).state = .waiting then
    (k.modify slot (fun p => { p with state := .runnable })).enqueue env slot
  else .ok k

/-- The locked scan of `freeze(0)`. -/
def unfreeze (env : Env) (cpu : Fin cpus) (k : Kernel cpus) : Except Fault (Kernel cpus) := do
  let caller ← k.current cpu
  let k ← slots.foldlM (unfreezeOne env) k
  .ok (k.setStage caller .idle)

/-- What a resumed process does before it releases the lock. -/
def resumed (slot : Slot) (k : Kernel cpus) : Kernel cpus :=
  match (k.proc slot).resume with
  | .forkret => k
  | .sleep => k.modify slot (fun p => { p with chan := .word 0 })
  | .yieldFork => { k with interrupt := false }
  | .yieldTrap _ => { k with interrupt := false }

/-- The dispatch of the process taken from cell zero, up to the switch. -/
def startRunning (env : Env) (cpu : Fin cpus) (slot : Slot) (k : Kernel cpus) : Kernel cpus :=
  let removed := k.ready.remove env.config env.tick k.proc k.reads
  let k := { k with
    ready := removed.1
    reads := removed.2
    cpuProc := update k.cpuProc cpu (some slot) }
  let k := k.modify slot (fun p => { p with state := .running })
  let k :=
    if (k.proc slot).firstsch = 0 then
      { k.modify slot (fun p => { p with firstsch := env.tick k.reads }) with
        reads := k.reads + 1 }
    else k
  { k with context := update k.context cpu (some slot) }

/-- The dispatch of the process taken from cell zero. -/
def dispatch (env : Env) (cpu : Fin cpus) (slot : Slot) (k : Kernel cpus) : Kernel cpus :=
  (k.startRunning env cpu slot).resumed slot

/-- `ptable.queue[0]->ctxswt++`. -/
def countSwitch (head : Slot) (k : Kernel cpus) : Kernel cpus :=
  k.modify head (fun p => { p with ctxswt := p.ctxswt + 1 })

/-- Whether the scheduler dispatches the head of the queue. With creation frozen the
threshold build compares it with the threshold of `proc`. -/
def dispatchTest (env : Env) (cpu : Fin cpus) (head : Slot) (k : Kernel cpus) :
    Except Fault Bool :=
  match env.config with
  | .edf => .ok true
  | .pt =>
    if k.frozen then do
      let shown ← k.current cpu
      .ok (decide ((k.proc head).P > (k.proc shown).O))
    else .ok true

/-- One iteration of `scheduler()`. -/
def scheduler (env : Env) (cpu : Fin cpus) (k : Kernel cpus) : Except Fault (Kernel cpus) :=
  if k.ready.itr_q ≠ -1 then
    match k.ready.queue 0 with
    | none => .error .nullEntry
    | some head => do
      let k := k.countSwitch head
      if ← k.dispatchTest env cpu head then .ok (k.dispatch env cpu head) else .ok k
  else .ok k

section Rules

variable {k : Kernel cpus} {env : Env} {memory : Nat → UInt32} {post : Kernel cpus → Prop}
  {faults : Fault → Prop} {slot caller : Slot} {cpu : Fin cpus}

/-- The test of `wakeup1`: the process sleeps and its channel's word is that of `chan`. -/
def Hears (env : Env) (memory : Nat → UInt32) (chan : Addr) (k : Kernel cpus) (slot : Slot) :
    Prop :=
  (k.proc slot).state = .sleeping ∧
    env.config.firstWord k.proc memory (k.proc slot).chan = env.config.firstWord k.proc memory chan

/-- The state in which `wakeup1` inserts a process. -/
def awoken (env : Env) (slot : Slot) (k : Kernel cpus) : Kernel cpus :=
  { k.modify slot (Proc.woken (env.tick k.reads)) with reads := k.reads + 1 }

theorem wakeOne_rule {chan : Addr} (passes : ¬ k.Hears env memory chan slot → post k)
    (wakes : k.Hears env memory chan slot → Ends (fun next => (env.config = .edf → post next) ∧
      post { next with interrupt := true }) faults ((k.awoken env slot).enqueue env slot)) :
    Ends post faults (k.wakeOne env memory chan slot) := by
  unfold wakeOne
  split
  · next found =>
    apply Ends.bind (wakes found)
    intro next both
    cases config : env.config with
    | edf => exact both.1 config
    | pt => exact both.2
  · next other => exact passes other

/-- A child of an exiting process now belongs to `initproc`. -/
def passed (slot : Slot) (k : Kernel cpus) : Kernel cpus :=
  k.modify slot (fun p => { p with parent := k.initproc })

theorem reparentOne_rule {parent : Slot} (other : (k.proc slot).parent ≠ some parent → post k)
    (alive : (k.proc slot).parent = some parent → (k.proc slot).state ≠ .zombie →
      post (k.passed slot))
    (zombie : (k.proc slot).parent = some parent → (k.proc slot).state = .zombie →
      Ends post faults ((k.passed slot).wakeup1 env memory (parentChan k.initproc))) :
    Ends post faults (k.reparentOne env memory parent slot) := by
  have kept : ((k.passed slot).proc slot).state = (k.proc slot).state := by
    simp only [passed, modify, update_self]
  unfold reparentOne
  split
  · next child =>
    change Ends post faults (if ((k.passed slot).proc slot).state = .zombie then _ else _)
    split
    · next exited => exact zombie child (kept.symm.trans exited)
    · next living => exact alive child fun exited => living (kept.trans exited)
  · next unrelated => exact other unrelated

/-- The slot that `kill` finds. -/
def carrier (k : Kernel cpus) (pid : Int32) : Option Slot :=
  slots.find? (fun slot => (k.proc slot).pid = pid)

/-- The mark that `kill` leaves. -/
def marked (slot : Slot) (k : Kernel cpus) : Kernel cpus :=
  k.modify slot (fun p => { p with killed := true })

theorem kill_rule {post : Kernel cpus × Int32 → Prop} {pid : Int32}
    (absent : k.carrier pid = none → post (k, -1))
    (awake : ∀ slot, k.carrier pid = some slot → post (k.marked slot, 0))
    (asleep : ∀ slot, k.carrier pid = some slot → (k.proc slot).state = .sleeping →
      Ends (fun next => post (next, 0)) faults (((k.marked slot).modify slot
        (fun p => { p with state := .runnable })).enqueue env slot)) :
    Ends post faults (k.kill env pid) := by
  unfold kill
  split
  · next missing => exact absent missing
  next slot found =>
  have kept : ((k.marked slot).proc slot).state = (k.proc slot).state := by
    simp only [marked, modify, update_self]
  change Ends post faults (if ((k.marked slot).proc slot).state = .sleeping then _ else _)
  split
  · next sleeps => exact Ends.bind (asleep slot found (kept.symm.trans sleeps)) fun _ ends => ends
  · exact awake slot found

theorem yield_rule {resume : Resume} (current : k.current cpu = .ok caller)
    (null : faults .nullEntry) (stays : post { k with interrupt := false })
    (switches : Ends (fun next => post (next.sched cpu)) faults ((k.modify caller
      (fun p => { p with state := .runnable, resume := resume })).enqueue env caller)) :
    Ends post faults (k.yield env cpu resume) := by
  have tested : Ends (fun _ => True) faults (k.yieldTest env caller) := by
    unfold yieldTest
    split
    · trivial
    split
    · exact null
    · trivial
  rw [yield, current]
  apply Ends.bind tested
  intro switch _
  cases switch with
  | true => exact Ends.bind switches fun _ ends => ends
  | false => exact stays

/-- The child that `wait` finds. -/
def zombieChild (k : Kernel cpus) (caller : Slot) : Option Slot :=
  slots.find? (fun slot => (k.proc slot).parent = some caller ∧ (k.proc slot).state = .zombie)

theorem zombieChild_some {child : Slot} (found : k.zombieChild caller = some child) :
    (k.proc child).parent = some caller ∧ (k.proc child).state = .zombie := by
  have chosen := List.find?_some found
  simpa only [decide_eq_true_eq] using chosen

theorem wait_rule {post : Kernel cpus × Option Int32 → Prop} (current : k.current cpu = .ok caller)
    (reaps : ∀ child, k.zombieChild caller = some child →
      post (k.modify child freed, some (k.proc child).pid))
    (returns : k.zombieChild caller = none → (∀ slot, (k.proc slot).parent ≠ some caller) ∨
      (k.proc caller).killed = true → post (k, some (-1)))
    (sleeps : k.zombieChild caller = none → post (k.sleepOn cpu caller (.proc caller), none)) :
    Ends post faults (k.wait cpu) := by
  rw [wait, current]
  simp only [bind, Except.bind]
  split
  · next child found => exact reaps child found
  next absent =>
  split
  · next reason => exact returns absent reason
  · exact sleeps absent

/-- A free slot has become an embryo. -/
def claimed (child : Slot) (k : Kernel cpus) : Kernel cpus :=
  { k.modify child (fun p => { p with state := .embryo, pid := k.nextpid }) with
    nextpid := k.nextpid + 1 }

theorem forkClaim_rule (current : k.current cpu = .ok caller) (full : post k)
    (claims : ∀ child, (k.proc child).state = .unused →
      post ((k.claimed child).setStage caller (.claimed child))) :
    Ends post faults (k.forkClaim cpu) := by
  rw [forkClaim, current]
  simp only [bind, Except.bind, allocproc]
  cases searched : slots.find? (fun slot => decide ((k.proc slot).state = .unused)) with
  | none => exact full
  | some child =>
    have unused := List.find?_some searched
    simp only [decide_eq_true_eq] at unused
    exact claims child unused

end Rules

end Kernel

/-- A machine with one processor has a processor. -/
instance uniprocessor_neZero : NeZero (1 : Nat) := ⟨Nat.one_ne_zero⟩

/-- The sections, with the processor that executes each and its arguments. A wakeup
also comes from interrupt handlers, on any processor. -/
inductive Action (cpus : Nat) where
  | forkClaim (cpu : Fin cpus)
  | forkNoStack (cpu : Fin cpus) (child : Slot)
  | forkSetup (cpu : Fin cpus) (child : Slot)
  | forkNoMemory (cpu : Fin cpus) (child : Slot)
  | forkCopy (cpu : Fin cpus) (child : Slot)
  | forkInsert (cpu : Fin cpus) (child : Slot) (d c p o : UInt32)
  | yield (cpu : Fin cpus) (resume : Resume)
  | sleep (cpu : Fin cpus) (chan : Addr)
  | wakeup (chan : Addr) (memory : Nat → UInt32)
  | kill (cpu : Fin cpus) (pid : Int32)
  | freeze (cpu : Fin cpus) (f : Bool)
  | unfreeze (cpu : Fin cpus)
  | exit (cpu : Fin cpus) (memory : Nat → UInt32)
  | wait (cpu : Fin cpus)
  | scheduler (cpu : Fin cpus)

variable {k next : Kernel cpus} {env : Env}

namespace Kernel

/-- The processor executes a process that is at the given stage. -/
def At (k : Kernel cpus) (cpu : Fin cpus) (stage : Stage) : Prop :=
  ∃ slot, k.context cpu = some slot ∧ (k.proc slot).stage = stage

instance (k : Kernel cpus) (cpu : Fin cpus) (stage : Stage) : Decidable (k.At cpu stage) :=
  inferInstanceAs (Decidable (∃ slot, k.context cpu = some slot ∧ (k.proc slot).stage = stage))

/-- When control can stand at the beginning of a section. A process in the middle of
`fork` or `freeze` goes on with it, but an interrupt may make it yield at any stage. -/
def Enabled (k : Kernel cpus) : Action cpus → Prop
  | .forkClaim cpu => k.At cpu .idle
  | .forkNoStack cpu child => k.At cpu (.claimed child)
  | .forkSetup cpu child => k.At cpu (.claimed child)
  | .forkNoMemory cpu child => k.At cpu (.prepared child)
  | .forkCopy cpu child => k.At cpu (.prepared child)
  | .forkInsert cpu child _ _ _ _ => k.At cpu (.copied child)
  | .yield cpu _ => (k.context cpu).isSome
  | .sleep cpu _ => k.At cpu .idle
  | .wakeup _ _ => True
  | .kill cpu _ => k.At cpu .idle
  | .freeze cpu _ => k.At cpu .idle
  | .unfreeze cpu => k.At cpu .unfreezing
  | .exit cpu _ => k.At cpu .idle
  | .wait cpu => k.At cpu .idle
  | .scheduler cpu => k.context cpu = none

instance (k : Kernel cpus) (action : Action cpus) : Decidable (k.Enabled action) :=
  match action with
  | .forkClaim cpu => inferInstanceAs (Decidable (k.At cpu .idle))
  | .forkNoStack cpu child => inferInstanceAs (Decidable (k.At cpu (.claimed child)))
  | .forkSetup cpu child => inferInstanceAs (Decidable (k.At cpu (.claimed child)))
  | .forkNoMemory cpu child => inferInstanceAs (Decidable (k.At cpu (.prepared child)))
  | .forkCopy cpu child => inferInstanceAs (Decidable (k.At cpu (.prepared child)))
  | .forkInsert cpu child _ _ _ _ => inferInstanceAs (Decidable (k.At cpu (.copied child)))
  | .yield cpu _ => inferInstanceAs (Decidable ((k.context cpu).isSome = true))
  | .sleep cpu _ => inferInstanceAs (Decidable (k.At cpu .idle))
  | .wakeup _ _ => inferInstanceAs (Decidable True)
  | .kill cpu _ => inferInstanceAs (Decidable (k.At cpu .idle))
  | .freeze cpu _ => inferInstanceAs (Decidable (k.At cpu .idle))
  | .unfreeze cpu => inferInstanceAs (Decidable (k.At cpu .unfreezing))
  | .exit cpu _ => inferInstanceAs (Decidable (k.At cpu .idle))
  | .wait cpu => inferInstanceAs (Decidable (k.At cpu .idle))
  | .scheduler cpu => inferInstanceAs (Decidable (k.context cpu = none))

/-- Execute a section. -/
def execute (env : Env) (k : Kernel cpus) : Action cpus → Except Fault (Kernel cpus)
  | .forkClaim cpu => k.forkClaim cpu
  | .forkNoStack cpu child => k.forkNoStack cpu child
  | .forkSetup cpu child => k.forkSetup env cpu child
  | .forkNoMemory cpu child => k.forkNoMemory cpu child
  | .forkCopy cpu child => k.forkCopy cpu child
  | .forkInsert cpu child d c p o => k.forkInsert env cpu child d c p o
  | .yield cpu resume => k.yield env cpu resume
  | .sleep cpu chan => k.sleep cpu chan
  | .wakeup chan memory => k.wakeup1 env memory chan
  | .kill _ pid => (k.kill env pid).map Prod.fst
  | .freeze cpu f => k.freeze cpu f
  | .unfreeze cpu => k.unfreeze env cpu
  | .exit cpu memory => k.exit env memory cpu
  | .wait cpu => (k.wait cpu).map Prod.fst
  | .scheduler cpu => k.scheduler env cpu

/-- Zeroed static memory, with every processor about to enter its scheduler. -/
def zero (cpus : Nat) : Kernel cpus :=
  { proc := fun _ => Proc.zero
    ready := ⟨fun _ => none, 0⟩
    frozen := false
    interrupt := false
    nextpid := 1
    initproc := none
    cpuProc := fun _ => none
    context := fun _ => none
    reads := 0 }

/-- `userinit` up to the record's page table and trap frame: the new process is
`initproc`. -/
def userinitPrepare (env : Env) (slot : Slot) (k : Kernel cpus) : Kernel cpus :=
  { k.allocprocSetup env slot with initproc := some slot }

/-- The store `p->state = RUNNABLE` of `userinit`, made without the lock. -/
def userinitMark (slot : Slot) (k : Kernel cpus) : Kernel cpus :=
  k.modify slot (fun p => { p with state := .runnable })

/-- The locked end of `userinit`: the queue is reset to the single entry `p`. -/
def userinitInsert (env : Env) (slot : Slot) (k : Kernel cpus) : Kernel cpus :=
  { k.modify slot (fun p =>
      { p with
        D := 100
        C := 100
        P := match env.config with
          | .edf => p.P
          | .pt => 1
        O := match env.config with
          | .edf => p.O
          | .pt => 1 }) with
    frozen := match env.config with
      | .edf => k.frozen
      | .pt => false
    ready := ⟨update k.ready.queue 0 (some slot), 0⟩ }

/-- `userinit()` without interference. It runs in the static state, whose first slot
is free. -/
def userinit (env : Env) (k : Kernel cpus) : Kernel cpus :=
  match k.allocproc with
  | (none, _) => k
  | (some slot, claimed) =>
    ((claimed.userinitPrepare env slot).userinitMark slot).userinitInsert env slot

/-- The states of all runs from the one `userinit` leaves, in any interleaving of
the processors and with any arguments. -/
inductive Reachable (env : Env) : Kernel cpus → Prop
  | start : Reachable env ((zero cpus).userinit env)
  | step {k next : Kernel cpus} (before : Reachable env k) (action : Action cpus)
      (enabled : k.Enabled action) (executed : k.execute env action = .ok next) :
      Reachable env next

/-- Execute sections one after the other, each from a state that enables it. -/
def play (env : Env) (k : Kernel cpus) : List (Action cpus) → Option (Kernel cpus)
  | [] => some k
  | action :: rest =>
    if k.Enabled action then
      match k.execute env action with
      | .ok next => next.play env rest
      | .error _ => none
    else none

theorem play_keeps {holds : Kernel cpus → Prop} {actions : List (Action cpus)}
    (keeps : ∀ action ∈ actions, ∀ k next, holds k → k.Enabled action →
      k.execute env action = .ok next → holds next) (before : holds k)
    (played : k.play env actions = some next) : holds next := by
  induction actions generalizing k with
  | nil =>
    obtain rfl : k = next := Option.some.inj played
    exact before
  | cons action rest ih =>
    by_cases enabled : k.Enabled action
    · rw [Kernel.play, if_pos enabled] at played
      cases executed : k.execute env action with
      | error fault => simp [executed] at played
      | ok middle =>
        rw [executed] at played
        exact ih (fun other member => keeps other (List.mem_cons_of_mem _ member))
          (keeps action List.mem_cons_self k middle before enabled executed) played
    · rw [Kernel.play, if_neg enabled] at played
      simp at played

theorem Reachable.play (reachable : Reachable env k) (actions : List (Action cpus))
    (played : k.play env actions = some next) : Reachable env next :=
  play_keeps (fun action _ _ _ before => before.step action) reachable played

theorem Reachable.of_play (reachable : Reachable env k) (actions : List (Action cpus))
    (test : Kernel cpus → Bool) (passed : (k.play env actions).any test = true) :
    ∃ next, Reachable env next ∧ test next = true := by
  cases played : k.play env actions with
  | none => simp [played] at passed
  | some next =>
    rw [played] at passed
    exact ⟨next, reachable.play actions played, passed⟩

end Kernel

end RtXv6
