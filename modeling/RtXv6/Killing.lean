import RtXv6.Lifetimes

/-!
# Which processes `kill` reaches

`kill` compares process numbers without looking at the states of the slots. A freed slot
carries the number zero, and a slot that a failed `fork` gave back carries the number of
the process that was never created; and `fork` does not clear the mark of the slot it
takes. If `kill` always finds a slot that holds a process, the marks stay with the
processes they were made for.
-/

namespace RtXv6.Kernel

open Outcome

variable {cpus : Nat}

/-- The slot that `kill` finds is neither free nor claimed by a `fork` in progress. -/
def Hits (k : Kernel cpus) : Action cpus → Prop
  | .kill _ pid => ∀ slot, k.carrier pid = some slot →
      (k.proc slot).state ≠ .unused ∧ (k.proc slot).state ≠ .embryo
  | _ => True

/-- No slot without a process is marked. -/
def Clean (k : Kernel cpus) : Prop :=
  ∀ slot, (k.proc slot).state = .unused ∨ (k.proc slot).state = .embryo →
    (k.proc slot).killed = false

variable {k next : Kernel cpus}

theorem Clean.quiet (clean : Clean k) (quiet : Quiet k next) : Clean next := by
  intro slot vacant
  rw [(quiet.kept slot).killed]
  apply clean slot
  rwa [(quiet.drifts slot).state_iff (by decide), (quiet.drifts slot).state_iff (by decide)] at vacant

theorem Clean.modify (clean : Clean k) (slot : Slot) (change : Proc → Proc)
    (here : (change (k.proc slot)).state = .unused ∨ (change (k.proc slot)).state = .embryo →
      (change (k.proc slot)).killed = false) : Clean (k.modify slot change) :=
  (Function.forall_update_iff k.proc fun _ p => p.state = .unused ∨ p.state = .embryo →
    p.killed = false).mpr ⟨here, fun other _ => clean other⟩

/-- Every section keeps the free slots unmarked as long as `kill` hits a process. -/
theorem Clean.step (clean : Clean k) (exact : Exact k) {action : Action cpus}
    (enabled : k.Enabled action) (hits : Hits k action) (effect : Effect k next action) :
    Clean next := by
  cases action with
  | forkClaim cpu =>
    rcases effect with quiet | ⟨child, unused, quiet⟩
    · exact clean.quiet quiet
    refine Clean.quiet ?_ quiet
    exact clean.modify child (fun p => { p with state := .embryo, pid := k.nextpid })
      (fun _ => clean child (.inl unused))
  | forkNoStack cpu child | forkNoMemory cpu child =>
    obtain ⟨caller, _, stage⟩ := enabled
    have embryo := exact.embryos caller child (by rw [stage]; rfl)
    exact (clean.modify child _ (fun _ => clean child (.inr embryo))).quiet effect
  | forkSetup | yield | wakeup | freeze | unfreeze | scheduler => exact clean.quiet effect
  | forkCopy cpu child =>
    obtain ⟨caller, _, rfl⟩ := effect
    have recorded : Clean (k.modify child (fun p => { p with parent := some caller })) :=
      clean.modify child _ (fun vacant => clean child vacant)
    exact recorded.modify caller _ (fun vacant => recorded caller vacant)
  | forkInsert cpu child d c p o =>
    obtain ⟨state, started, quiet⟩ := effect
    refine (clean.modify child _ ?_).quiet quiet
    rintro (vacant | vacant) <;> rcases started with rfl | rfl <;> cases vacant
  | sleep cpu chan =>
    obtain ⟨caller, _, quiet⟩ := effect
    refine (clean.modify caller _ ?_).quiet quiet
    rintro (vacant | vacant) <;> cases vacant
  | kill cpu pid =>
    rcases effect with rfl | ⟨slot, found, quiet⟩
    · exact clean
    refine (clean.modify slot _ ?_).quiet quiet
    obtain ⟨notUnused, notEmbryo⟩ := hits slot found
    rintro (vacant | vacant)
    · exact absurd vacant notUnused
    · exact absurd vacant notEmbryo
  | exit cpu memory =>
    obtain ⟨caller, _, _, exited⟩ := effect
    intro slot vacant
    have other : slot ≠ caller := by
      rintro rfl
      rw [exited.zombie] at vacant
      rcases vacant with vacant | vacant <;> cases vacant
    have drifts := exited.drifts slot other
    rw [(exited.kept slot).killed]
    apply clean slot
    rwa [drifts.state_iff (by decide), drifts.state_iff (by decide)] at vacant
  | wait cpu =>
    obtain ⟨caller, _, ⟨child, _, rfl⟩ | ⟨_, rfl | quiet⟩⟩ := effect
    · exact clean.modify child freed (fun _ => rfl)
    · exact clean
    · refine (clean.modify caller _ ?_).quiet quiet
      rintro (vacant | vacant) <;> cases vacant

theorem userinit_clean (env : Env) : Clean ((zero cpus).userinit env) :=
  fun slot _ => (userinit_initial env slot).killed

theorem Run.clean {env : Env} {history : List (Kernel cpus × Action cpus)}
    (run : Run env Hits k history) : Clean k := by
  induction run with
  | start => exact userinit_clean env
  | step before action enabled hits executed ih =>
    exact ih.step before.reachable.exact enabled hits (before.reachable.effect enabled executed)

/-- Along every run in which each `kill` finds a slot that is neither free nor claimed, a
`kill` that returns zero found a process with its number, it marks no slot but that of a
process with its number, and every child that `fork` creates starts unmarked. -/
theorem kill_reaches_live (env : Env) (k : Kernel cpus)
    (history : List (Kernel cpus × Action cpus)) (run : Run env Hits k history) :
    (∀ cpu pid next result, Hits k (.kill cpu pid) → k.kill env pid = .ok (next, result) →
      (result = 0 → ∃ slot, (k.proc slot).state ≠ .unused ∧ (k.proc slot).pid = pid) ∧
      ∀ slot, (next.proc slot).killed ≠ (k.proc slot).killed →
        (k.proc slot).state ≠ .unused ∧ (k.proc slot).pid = pid) ∧
    ∀ cpu child d c p o next, k.Enabled (.forkInsert cpu child d c p o) →
      k.forkInsert env cpu child d c p o = .ok next → (next.proc child).killed = false := by
  constructor
  · intro cpu pid next result hits killed
    rcases (kill_quiet env k pid).value killed with ⟨_, same⟩ | ⟨slot, found, _, quiet⟩
    · obtain ⟨rfl, rfl⟩ := Prod.mk.inj same
      exact ⟨fun zero => absurd zero (by decide), fun slot marked => absurd rfl marked⟩
    have carries : (k.proc slot).pid = pid := by
      simpa only [decide_eq_true_eq] using List.find?_some found
    have process := (hits slot found).1
    refine ⟨fun _ => ⟨slot, process, carries⟩, ?_⟩
    intro other marked
    have same : other = slot := by
      by_contra different
      rw [(quiet.kept other).killed, modify_other k _ different] at marked
      exact marked rfl
    exact same ▸ ⟨process, carries⟩
  · intro cpu child d c p o next enabled executed
    obtain ⟨caller, executes, stage⟩ := enabled
    have exact := run.reachable.exact
    have embryo := exact.embryos caller child (by rw [stage]; rfl)
    obtain ⟨state, _, quiet⟩ :=
      (forkInsert_quiet env (exact.current executes) child d c p o).value executed
    rw [(quiet.kept child).killed, modify_self]
    exact run.clean child (.inr embryo)

/-- The first process runs, and `kill` of its own number finds it. -/
theorem kill_reaches_live_first :
    ∃ (k : Kernel 1) (history : List (Kernel 1 × Action 1)) (slot : Slot),
      Run ⟨.edf, fun _ => 1⟩ Hits k history ∧ (k.proc slot).state ≠ .unused ∧
        (k.proc slot).pid = 1 := by
  have run : Run ⟨.edf, fun _ => 1⟩ Hits _ _ :=
    Run.start.step (.scheduler (0 : Fin 1)) rfl trivial rfl
  have found : Hits ((((zero 1).userinit ⟨.edf, fun _ => 1⟩).countSwitch 0).dispatch
      ⟨.edf, fun _ => 1⟩ 0 0) (.kill 0 1) := by
    intro slot carries
    obtain rfl : 0 = slot := Option.some.inj (Eq.trans (by decide +kernel) carries)
    decide +kernel
  obtain ⟨slot, process, carries⟩ :=
    ((kill_reaches_live ⟨.edf, fun _ => 1⟩ _ _ run).1 0 1 _ 0 found rfl).1 rfl
  exact ⟨_, _, slot, run, process, carries⟩

/-- The first process calls `kill(0)` and forks. -/
def killedBirth : List (Action 1) :=
  [.kill 0 0, .forkClaim 0, .forkSetup 0 1, .forkCopy 0 1, .forkInsert 0 1 100 10 5 5]

/-- `kill(0)` returns zero although no process has the number zero: it marks a free slot,
and the child that the next `fork` creates there starts marked. -/
theorem kill_marks_free_slot :
    ∃ k marked born : Kernel 1, Reachable ⟨.edf, fun _ => 1⟩ k ∧
      k.kill ⟨.edf, fun _ => 1⟩ 0 = .ok (marked, 0) ∧
      (∀ slot, (k.proc slot).state ≠ .unused → (k.proc slot).pid ≠ 0) ∧
      (marked.proc 1).killed ≠ (k.proc 1).killed ∧ (k.proc 1).state = .unused ∧
      k.play ⟨.edf, fun _ => 1⟩ killedBirth = some born ∧ (born.proc 1).state = .runnable ∧
      (born.proc 1).parent = some 0 ∧ (born.proc 1).killed = true := by
  have reachable : Reachable ⟨.edf, fun _ => 1⟩ _ :=
    Reachable.start.step (.scheduler (0 : Fin 1)) rfl rfl
  have born : ((((((zero 1).userinit ⟨.edf, fun _ => 1⟩).countSwitch 0).dispatch
      ⟨.edf, fun _ => 1⟩ 0 0).play ⟨.edf, fun _ => 1⟩ killedBirth).any (fun next => decide
        ((next.proc 1).state = .runnable ∧ (next.proc 1).parent = some 0 ∧
          (next.proc 1).killed = true))) = true := by
    decide +kernel
  obtain ⟨next, played, tested⟩ := (Option.any_eq_true _ _).mp born
  refine ⟨_, _, _, reachable, rfl, ?_, ?_, ?_, played, of_decide_eq_true tested⟩
  all_goals decide +kernel

end RtXv6.Kernel
