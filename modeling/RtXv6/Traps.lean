import RtXv6.Process

/-!
# The trap handler

`trap` of trap.c: which vectors return to the process and which ones end it. Other processes run
at the same time, and while the handler has yielded. All they can do to the process is to mark it
as killed: the mark is cleared by `wait` alone, in the record of a process that has exited.
-/

namespace RtXv6.Trap

def T_PGFLT : Nat := 14
def T_IRQ0 : Nat := 32
def T_SYSCALL : Nat := 64
def IRQ_TIMER : Nat := 0
def IRQ_KBD : Nat := 1
def IRQ_COM1 : Nat := 4
def IRQ_IDE : Nat := 14
def IRQ_SPURIOUS : Nat := 31
def DPL_USER : Nat := 3

/-- The fields of `struct trapframe` that the handler tests. -/
structure Trapframe where
  trapno : Nat
  cs : Nat

/-- What the handler meets: whether the build has `RT`, the flag `interrupt`, the system call
(no process comes back from `exit`) and what has happened to the process before each step. -/
structure World where
  rt : Bool
  interrupt : Bool
  syscall : Proc → Option Proc
  meanwhile : Nat → Proc → Proc
  kept : ∀ step p, p.killed = true → (meanwhile step p).killed = true

/-- How the handler ends: `fault` is a read of `proc->killed` without a process. -/
inductive Ending where
  | returned (proc : Option Proc)
  | exit (p : Proc)
  | panic
  | fault

/-- The vectors with a `case` of their own. The device cases serve the device; the last one, 14,
updates the clock. -/
def cases : List Nat :=
  [T_IRQ0 + IRQ_TIMER, T_IRQ0 + IRQ_IDE, T_IRQ0 + IRQ_IDE + 1, T_IRQ0 + IRQ_KBD,
    T_IRQ0 + IRQ_COM1, T_IRQ0 + 7, T_IRQ0 + IRQ_SPURIOUS, 14]

/-- `if(proc->killed && applies) exit();`, and what follows it. -/
def exitIfKilled (p : Proc) (applies : Bool) (rest : Ending) : Ending :=
  if p.killed && applies then .exit p else rest

/-- What follows the `switch`: two tests of `killed` around the yield. -/
def afterSwitch (w : World) (proc : Option Proc) (tf : Trapframe) : Ending :=
  match proc.map (w.meanwhile 1) with
  | none => .returned none
  | some p =>
    let user := tf.cs &&& 3 == DPL_USER
    exitIfKilled p user <|
      let p := w.meanwhile 2 p
      let wanted := if w.rt then w.interrupt else tf.trapno == T_IRQ0 + IRQ_TIMER
      let p := if p.state = .running ∧ wanted = true then w.meanwhile 3 p else p
      exitIfKilled p user (.returned (some p))

/-- `trap`. -/
def trap (w : World) (proc : Option Proc) (tf : Trapframe) : Ending :=
  if tf.trapno = T_SYSCALL then
    match proc.map (w.meanwhile 0) with
    | none => .fault
    | some p =>
      exitIfKilled p true <|
        match w.syscall p with
        | none => .exit p
        | some p => exitIfKilled p true (.returned (some p))
  else if tf.trapno ∈ cases then afterSwitch w proc tf
  else if proc.isNone ∨ tf.cs &&& 3 = 0 then .panic
  else afterSwitch w (proc.map fun p => { p with killed := true }) tf

/-- Whatever happens meanwhile, the handler returns to a process only if it was not marked at the
last test and the trap was a system call or an interrupt; after an exception it exits. -/
def Guarded (p : Proc) (tf : Trapframe) : Prop :=
  ∀ w : World, (∀ proc, trap w (some p) tf = .returned proc → ∃ last, proc = some last ∧
      last.killed = false ∧ (tf.trapno = T_SYSCALL ∨ T_IRQ0 ≤ tf.trapno)) ∧
    (tf.trapno < T_IRQ0 → ∃ last, trap w (some p) tf = .exit last ∧ last.killed = true)

variable {w : World} {p : Proc} {tf : Trapframe}

/-- The handler goes on after a test that the process passed. -/
theorem exitIfKilled_returned {rest : Ending} {proc : Option Proc}
    (returned : exitIfKilled p true rest = .returned proc) :
    p.killed = false ∧ rest = .returned proc := by
  cases killed : p.killed with
  | false => simpa [exitIfKilled, killed] using returned
  | true => simp [exitIfKilled, killed] at returned

variable (user : tf.cs &&& 3 = DPL_USER)
include user

/-- A marked process exits at the first test behind the `switch`. -/
theorem afterSwitch_killed (killed : p.killed = true) :
    afterSwitch w (some p) tf = .exit (w.meanwhile 1 p) := by
  simp [afterSwitch, exitIfKilled, w.kept 1 p killed, user]

/-- The end of the handler returns to a process that passed the last test. -/
theorem afterSwitch_returned {proc : Option Proc}
    (returned : afterSwitch w (some p) tf = .returned proc) :
    ∃ last, proc = some last ∧ last.killed = false := by
  simp only [afterSwitch, Option.map_some, user, beq_self_eq_true] at returned
  obtain ⟨clear, same⟩ := exitIfKilled_returned (exitIfKilled_returned returned).2
  exact ⟨_, (Ending.returned.inj same).symm, clear⟩

/-- The handler returns to a process that passed the last test. -/
theorem trap_returned {proc : Option Proc} (returned : trap w (some p) tf = .returned proc) :
    ∃ last, proc = some last ∧ last.killed = false := by
  rw [trap] at returned
  split at returned
  · have served := (exitIfKilled_returned returned).2
    split at served
    · cases served
    · obtain ⟨clear, same⟩ := exitIfKilled_returned served
      exact ⟨_, (Ending.returned.inj same).symm, clear⟩
  split at returned
  · exact afterSwitch_returned user returned
  split at returned
  · cases returned
  · exact afterSwitch_returned user returned

/-- The vector of a page fault is taken for an interrupt: of the exceptions, it alone does not
mark the process. -/
theorem trap_guarded_iff : Guarded p tf ↔ tf.trapno ≠ T_PGFLT ∨ p.killed = true := by
  constructor
  · intro guarded
    by_contra! faulty
    have missed := (guarded ⟨false, false, some, fun _ p => p, fun _ _ => id⟩).2
    simp [trap, afterSwitch, exitIfKilled, cases, faulty, T_PGFLT, T_SYSCALL, T_IRQ0] at missed
  intro either w
  by_cases above : T_IRQ0 ≤ tf.trapno
  · refine ⟨fun proc returned => ?_, fun exception => absurd above (Nat.not_le.mpr exception)⟩
    obtain ⟨last, same, clear⟩ := trap_returned user returned
    exact ⟨last, same, clear, .inr above⟩
  have call : tf.trapno ≠ T_SYSCALL := by
    intro call
    exact above (by rw [call]; decide)
  obtain ⟨q, killed, same⟩ : ∃ q : Proc, q.killed = true ∧
      trap w (some p) tf = afterSwitch w (some q) tf := by
    by_cases fault : tf.trapno = T_PGFLT
    · refine ⟨p, either.resolve_left (fun other => other fault), ?_⟩
      simp [trap, fault, cases, T_PGFLT, T_SYSCALL]
    refine ⟨{ p with killed := true }, rfl, ?_⟩
    have default : tf.trapno ∉ cases := by
      simp [cases, T_IRQ0, T_PGFLT] at above fault ⊢
      omega
    simp [trap, call, default, user, DPL_USER]
  rw [same, afterSwitch_killed user killed]
  exact ⟨fun _ returned => (by cases returned), fun _ => ⟨_, rfl, w.kept 1 q killed⟩⟩

omit user

/-- A general protection fault ends a process. -/
theorem trap_guarded_protection : Guarded Proc.zero ⟨13, 35⟩ :=
  (trap_guarded_iff (by decide)).mpr (by decide)

/-- A page fault returns to the instruction that caused it. -/
theorem trap_page_fault :
    trap ⟨false, false, some, fun _ p => p, fun _ _ => id⟩ (some Proc.zero) ⟨T_PGFLT, 35⟩ =
      .returned (some Proc.zero) ∧ T_PGFLT < T_IRQ0 :=
  ⟨rfl, by decide⟩

end RtXv6.Trap
