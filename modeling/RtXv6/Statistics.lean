import RtXv6.RecordMoves

/-!
# Timing samples

`print(2)` appends a sample of the calling process to `statistic` through `getData`, which
takes no lock and runs with interrupts enabled. Its statements are therefore steps of
their own, with the sections of all processors in between, and a process in the middle of
the routine may be preempted at any of them. `print(1)` prints the samples and every
other flag discards them.

A sample holds the time at which the process was released, the time of its first
scheduling since then and the time of the call. The call also starts the next job: it
clears the scheduling time, for the next dispatch to record, and takes a new release time.
-/

namespace RtXv6

/-- The number of samples that are kept. -/
abbrev TAM : Nat := 50000

/-- `struct statistic`. The deadline build has no threshold and no priority field, and
stores neither. -/
structure Statistic where
  O : UInt32
  P : UInt32
  arrtime : UInt64
  firstsch : UInt64
  finish : UInt64
  D : UInt32
  C : UInt32
  ctxswt : UInt32
  pid : Int32
  deriving DecidableEq, Repr

/-- An entry of zeroed static memory. -/
def Statistic.zero : Statistic :=
  { O := 0, P := 0, arrtime := 0, firstsch := 0, finish := 0, D := 0, C := 0, ctxswt := 0,
    pid := 0 }

/-- The statement of `getData` that comes next. A constructor with a field's name stores that
field of the sample, and the others change the process record or the iterator. -/
inductive Line where
  | P
  | O
  | firstsch
  | clearFirstsch
  | arrtime
  | renewArrtime
  | finish
  | pid
  | C
  | D
  | ctxswt
  | clearCtxswt
  | itr_s
  deriving DecidableEq, Repr

/-- The statement after another one, absent at the end of the routine. -/
def Line.next : Line → Option Line
  | .P => some .O
  | .O => some .firstsch
  | .firstsch => some .clearFirstsch
  | .clearFirstsch => some .arrtime
  | .arrtime => some .renewArrtime
  | .renewArrtime => some .finish
  | .finish => some .pid
  | .pid => some .C
  | .C => some .D
  | .D => some .ctxswt
  | .ctxswt => some .clearCtxswt
  | .clearCtxswt => some .itr_s
  | .itr_s => none

/-- The first statement of the build. -/
def Line.first : Config → Line
  | .edf => .firstsch
  | .pt => .P

/-- The kernel with the samples. A cell past the last one of the array is memory of
something else. `recording` says which statement of `getData` a process is at. -/
structure Monitor (cpus : Nat) where
  kernel : Kernel cpus
  statistic : Nat → Statistic
  itr_s : UInt32
  recording : Slot → Option Line

/-- The steps: a section of some processor, a call of `print`, or the next statement of the
`getData` that a processor is in. -/
inductive Activity (cpus : Nat) where
  | act (action : Action cpus)
  | print (cpu : Fin cpus) (flag : Int32)
  | getData (cpu : Fin cpus)

/-- A `yield` on behalf of interrupted kernel code. -/
def Action.interrupts {cpus : Nat} : Action cpus → Bool
  | .yield _ (.yieldTrap false) => true
  | _ => false

namespace Monitor

variable {cpus : Nat}

/-- The entry that `itr_s` points to. -/
def cell (m : Monitor cpus) : Statistic := m.statistic m.itr_s.toNat

/-- A store to a field of the entry that `itr_s` points to. -/
def store (change : Statistic → Statistic) (m : Monitor cpus) : Monitor cpus :=
  { m with statistic := Function.update m.statistic m.itr_s.toNat (change m.cell) }

/-- A store to the process record. -/
def record (p : Slot) (change : Proc → Proc) (m : Monitor cpus) : Monitor cpus :=
  { m with kernel := m.kernel.modify p change }

/-- `tick()` has been called. -/
def ticked (m : Monitor cpus) : Monitor cpus :=
  { m with kernel := { m.kernel with reads := m.kernel.reads + 1 } }

/-- The value that `tick()` returns. -/
def now (env : Env) (m : Monitor cpus) : UInt64 := env.tick m.kernel.reads

/-- A statement of `getData(p)`. -/
def perform (env : Env) (p : Slot) (m : Monitor cpus) : Line → Monitor cpus
  | .P => m.store (fun s => { s with P := (m.kernel.proc p).P })
  | .O => m.store (fun s => { s with O := (m.kernel.proc p).O })
  | .firstsch => m.store (fun s => { s with firstsch := (m.kernel.proc p).firstsch })
  | .clearFirstsch => m.record p (fun q => { q with firstsch := 0 })
  | .arrtime => m.store (fun s => { s with arrtime := (m.kernel.proc p).arrtime })
  | .renewArrtime => (m.record p (fun q => { q with arrtime := m.now env })).ticked
  | .finish => (m.store (fun s => { s with finish := m.now env })).ticked
  | .pid => m.store (fun s => { s with pid := (m.kernel.proc p).pid })
  | .C => m.store (fun s => { s with C := (m.kernel.proc p).C })
  | .D => m.store (fun s => { s with D := (m.kernel.proc p).D })
  | .ctxswt => m.store (fun s => { s with ctxswt := (m.kernel.proc p).ctxswt })
  | .clearCtxswt => m.record p (fun q => { q with ctxswt := 0 })
  | .itr_s => { m with itr_s := m.itr_s + 1 }

/-- The process goes on to the given statement, or leaves the routine. -/
def goTo (p : Slot) (line : Option Line) (m : Monitor cpus) : Monitor cpus :=
  { m with recording := Function.update m.recording p line }

/-- The test at the beginning of `getData(p)`. A full array ignores the sample. -/
def getData (env : Env) (p : Slot) (m : Monitor cpus) : Monitor cpus :=
  if m.itr_s.toNat > TAM - 1 then m else m.goTo p (some (.first env.config))

/-- `print(flag)` up to that test. Printing the samples changes none of them. -/
def print (env : Env) (p : Slot) (flag : Int32) (m : Monitor cpus) : Monitor cpus :=
  if flag = 2 then m.getData env p
  else if flag = 1 then m
  else { m with itr_s := 0 }

/-- What `print(1)` prints of a sample behind its fields: the latency, the response time and
whether the deadline was missed. -/
def row (s : Statistic) : UInt64 × UInt64 × Bool :=
  (s.firstsch - s.arrtime, s.finish - s.arrtime, decide (s.finish - s.arrtime > s.D.toUInt64))

/-- The samples that `print(1)` prints, each with the numbers computed from it. Those of
priority zero are skipped. -/
def report (m : Monitor cpus) : List (Statistic × UInt64 × UInt64 × Bool) :=
  (((List.range m.itr_s.toNat).map m.statistic).filter (fun s => s.P ≠ 0)).map
    (fun s => (s, row s))

/-- When a step can be next. A process in the middle of `getData` executes no section of its
own, but an interrupt may make it yield. -/
def Enabled (m : Monitor cpus) : Activity cpus → Prop
  | .act action => m.kernel.Enabled action ∧
      ∀ p, m.kernel.actor action = some p → m.recording p = none ∨ action.interrupts = true
  | .print cpu _ => m.kernel.At cpu .idle ∧
      ∀ p, m.kernel.context cpu = some p → m.recording p = none
  | .getData cpu => ∃ p, m.kernel.context cpu = some p ∧ m.recording p ≠ none

instance enabled_decidable (m : Monitor cpus) (event : Activity cpus) :
    Decidable (m.Enabled event) :=
  match event with
  | .act action => inferInstanceAs (Decidable (m.kernel.Enabled action ∧
      ∀ p, m.kernel.actor action = some p → m.recording p = none ∨ action.interrupts = true))
  | .print cpu _ => inferInstanceAs (Decidable (m.kernel.At cpu .idle ∧
      ∀ p, m.kernel.context cpu = some p → m.recording p = none))
  | .getData cpu => inferInstanceAs (Decidable (∃ p, m.kernel.context cpu = some p ∧
      m.recording p ≠ none))

/-- The next statement of the `getData` that a processor is in. -/
def advance (env : Env) (cpu : Fin cpus) (m : Monitor cpus) : Monitor cpus :=
  match m.kernel.context cpu with
  | none => m
  | some p =>
    match m.recording p with
    | none => m
    | some line => (m.perform env p line).goTo p line.next

/-- Execute a step. -/
def execute (env : Env) (m : Monitor cpus) : Activity cpus → Except Fault (Monitor cpus)
  | .act action => (m.kernel.execute env action).map (fun k => { m with kernel := k })
  | .print cpu flag => (m.kernel.current cpu).map (fun p => m.print env p flag)
  | .getData cpu => .ok (m.advance env cpu)

/-- No samples when `userinit` is done. -/
def start (cpus : Nat) (env : Env) : Monitor cpus :=
  { kernel := (Kernel.zero cpus).userinit env
    statistic := fun _ => .zero
    itr_s := 0
    recording := fun _ => none }

/-- The states of all runs whose steps meet a condition, in any interleaving. -/
inductive Runs (env : Env) (meets : Monitor cpus → Activity cpus → Prop) : Monitor cpus → Prop
  | start : Runs env meets (start cpus env)
  | step {m next : Monitor cpus} (before : Runs env meets m) (event : Activity cpus)
      (enabled : m.Enabled event) (met : meets m event) (executed : m.execute env event = .ok next) :
      Runs env meets next

section Play

variable {env : Env} {meets : Monitor cpus → Activity cpus → Prop}
  [permitted : ∀ m event, Decidable (meets m event)]

/-- Execute steps one after the other, each from a state that enables it and in which it
meets the condition. -/
def play (env : Env) (meets : Monitor cpus → Activity cpus → Prop)
    [permitted : ∀ m event, Decidable (meets m event)] (m : Monitor cpus) :
    List (Activity cpus) → Option (Monitor cpus)
  | [] => some m
  | event :: rest =>
    if m.Enabled event ∧ meets m event then
      match m.execute env event with
      | .ok next => next.play env meets rest
      | .error _ => none
    else none

theorem Runs.play {m next : Monitor cpus} (runs : Runs env meets m) (events : List (Activity cpus))
    (played : m.play env meets events = some next) : Runs env meets next := by
  induction events generalizing m with
  | nil =>
    obtain rfl : m = next := Option.some.inj played
    exact runs
  | cons event rest ih =>
    by_cases possible : m.Enabled event ∧ meets m event
    · rw [Monitor.play, if_pos possible] at played
      cases executed : m.execute env event with
      | error fault => simp [executed] at played
      | ok middle =>
        rw [executed] at played
        exact ih (runs.step event possible.1 possible.2 executed) played
    · rw [Monitor.play, if_neg possible] at played
      simp at played

theorem Runs.of_play {m : Monitor cpus} (runs : Runs env meets m) (events : List (Activity cpus))
    (test : Monitor cpus → Bool) (passed : (m.play env meets events).any test = true) :
    ∃ next, Runs env meets next ∧ test next = true := by
  cases played : m.play env meets events with
  | none => simp [played] at passed
  | some next =>
    rw [played] at passed
    exact ⟨next, runs.play events played, passed⟩

end Play

end Monitor

end RtXv6
