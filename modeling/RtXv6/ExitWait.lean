import RtXv6.Lifetimes

/-!
# Exit and wait

Every process but the first has a parent that can wait for it: `exit` passes the
children of the exiting process to `initproc`, which never exits. A parent that sleeps in
`wait` has no zombie child, because `exit` wakes the parent before it makes the caller a
zombie, and both happen in one section. A zombie is freed by exactly one `wait`, so the
exits of a slot and the times it has been freed differ by whether it holds a zombie.

A process number of -1 cannot be told from the failure of `wait`. The counter of process
numbers wraps, so the claim about the result of `wait` needs that it has not come round
to -1.
-/

namespace RtXv6.Kernel

open Outcome PointUpdates

variable {cpus : Nat}

/-- Every caller of `sleep` but `wait` passes the address of a word outside the process
table. -/
def Outside : Action cpus → Prop
  | .sleep _ chan => ∃ address, chan = .word address
  | _ => True

/-- The next process number is not the one that `wait` returns when it fails. -/
def Numbered (k : Kernel cpus) : Action cpus → Prop
  | .forkClaim _ => k.nextpid ≠ -1
  | _ => True

/-- Parents exist, every process but the first has one, and none of them sleeps on a
zombie. -/
structure Family (k : Kernel cpus) : Prop where
  root : ∃ slot, k.initproc = some slot ∧ Live (k.proc slot).state ∧ (k.proc slot).parent = none
  proper : ∀ slot, (k.proc slot).parent ≠ some slot
  parents : ∀ slot parent, (k.proc slot).parent = some parent → Live (k.proc parent).state
  children : ∀ slot, k.initproc ≠ some slot → (k.proc slot).state ≠ .unused →
    (k.proc slot).state ≠ .embryo → ∃ parent, (k.proc slot).parent = some parent
  copied : ∀ slot child, (k.proc slot).stage = .copied child → (k.proc child).parent = some slot
  awake : ∀ slot, Awaits k slot → ∀ child, (k.proc child).parent = some slot →
    (k.proc child).state ≠ .zombie
  numbers : ∀ slot, (k.proc slot).state ≠ .unused → (k.proc slot).pid ≠ -1

variable {k : Kernel cpus} {slot : Slot}

theorem Family.not_parent (family : Family k) (gone : ¬ Live (k.proc slot).state) (child : Slot) :
    (k.proc child).parent ≠ some slot :=
  fun parent => gone (family.parents child slot parent)

variable {next : Kernel cpus}

theorem Family.quiet (family : Family k) (quiet : Quiet k next) : Family next := by
  refine ⟨?_, ?_, ?_, ?_, ?_, ?_, ?_⟩
  · obtain ⟨slot, initproc, live, orphan⟩ := family.root
    exact ⟨slot, quiet.initproc.trans initproc, (quiet.drifts slot).live.mpr live,
      (quiet.parent slot).trans orphan⟩
  · intro slot
    rw [quiet.parent]
    exact family.proper slot
  · intro slot parent child
    rw [quiet.parent] at child
    exact (quiet.drifts parent).live.mpr (family.parents slot parent child)
  · intro slot other used started
    rw [quiet.initproc] at other
    rw [Ne, (quiet.drifts slot).state_iff (by decide)] at used started
    rw [quiet.parent]
    exact family.children slot other used started
  · intro slot child copied
    rw [quiet.parent]
    exact family.copied slot child ((quiet.kept slot).copied child copied)
  · intro slot awaits child parent
    rw [quiet.parent] at parent
    rw [Ne, (quiet.drifts child).state_iff (by decide)]
    exact family.awake slot (quiet.awaits awaits) child parent
  · intro slot used
    rw [Ne, (quiet.drifts slot).state_iff (by decide)] at used
    rw [(quiet.kept slot).pid]
    exact family.numbers slot used

variable {change : Proc → Proc}

/-- A change of one record that leaves its process existing or not, no zombie and not
waiting for children keeps the family. -/
theorem Family.modify (family : Family k) (proc : next.proc = (k.modify slot change).proc)
    (initproc : next.initproc = k.initproc)
    (live : Live (k.proc slot).state → Live (change (k.proc slot)).state)
    (parent : (change (k.proc slot)).parent = (k.proc slot).parent)
    (stage : (change (k.proc slot)).stage = (k.proc slot).stage)
    (started : (change (k.proc slot)).state ≠ .unused → (change (k.proc slot)).state ≠ .embryo →
      (k.proc slot).state ≠ .unused ∧ (k.proc slot).state ≠ .embryo ∨
        ∃ parent, (k.proc slot).parent = some parent)
    (exited : (change (k.proc slot)).state = .zombie → (k.proc slot).state = .zombie)
    (asleep : (change (k.proc slot)).state = .sleeping →
      (change (k.proc slot)).chan = .proc slot → ∀ child, (k.proc child).parent = some slot →
        (k.proc child).state ≠ .zombie)
    (number : (change (k.proc slot)).state ≠ .unused → (change (k.proc slot)).pid ≠ -1) :
    Family next := by
  have here : next.proc slot = change (k.proc slot) := by rw [proc, modify_self]
  have there : ∀ other, other ≠ slot → next.proc other = k.proc other := by
    intro other different
    rw [proc, modify_other k change different]
  have parents : ∀ other, (next.proc other).parent = (k.proc other).parent := by
    intro other
    rw [proc]
    exact update_same Proc.parent parent other
  have lives : ∀ other, Live (k.proc other).state → Live (next.proc other).state := by
    rw [proc]
    exact (Function.forall_update_iff k.proc fun other p =>
      Live (k.proc other).state → Live p.state).mpr ⟨live, fun _ _ => id⟩
  refine ⟨?_, ?_, ?_, ?_, ?_, ?_, ?_⟩
  · obtain ⟨first, initial, before, orphan⟩ := family.root
    exact ⟨first, initproc.trans initial, lives first before, (parents first).trans orphan⟩
  · intro other
    rw [parents]
    exact family.proper other
  · intro other parent child
    rw [parents] at child
    exact lives parent (family.parents other parent child)
  · intro other notRoot used begun
    rw [initproc] at notRoot
    rw [parents]
    by_cases same : other = slot
    · subst same
      rw [here] at used begun
      rcases started used begun with ⟨before, earlier⟩ | found
      · exact family.children other notRoot before earlier
      · exact found
    · rw [there other same] at used begun
      exact family.children other notRoot used begun
  · intro other child copied
    rw [proc] at copied
    rw [parents]
    exact family.copied other child ((update_same Proc.stage stage other).symm.trans copied)
  · intro other awaits child belongs zombie
    rw [parents] at belongs
    have before : (k.proc child).state = .zombie := by
      rw [proc] at zombie
      rcases update_cases Proc.state zombie with ⟨rfl, now⟩ | ⟨_, already⟩
      · exact exited now
      · exact already
    by_cases same : other = slot
    · subst same
      unfold Awaits at awaits
      rw [here] at awaits
      exact asleep awaits.1 awaits.2 child belongs before
    · unfold Awaits at awaits
      rw [there other same] at awaits
      exact family.awake other awaits child belongs before
  · rw [proc]
    exact (Function.forall_update_iff k.proc fun _ p => p.state ≠ .unused → p.pid ≠ -1).mpr
      ⟨number, fun other _ => family.numbers other⟩

variable {caller : Slot}

variable {action : Action cpus} {child : Slot}

section

variable (family : Family k)
include family

theorem Family.adopts (exact : Exact k) (owner : (k.proc caller).stage.child = some child)
    (running : (k.proc caller).state = .running) (initproc : next.initproc = k.initproc)
    (state : ∀ slot, (next.proc slot).state = (k.proc slot).state)
    (chan : ∀ slot, (next.proc slot).chan = (k.proc slot).chan)
    (pid : ∀ slot, (next.proc slot).pid = (k.proc slot).pid)
    (adopted : (next.proc child).parent = some caller)
    (parent : ∀ slot, slot ≠ child → (next.proc slot).parent = (k.proc slot).parent)
    (copied : (next.proc caller).stage = .copied child)
    (stage : ∀ slot, slot ≠ caller → (next.proc slot).stage = (k.proc slot).stage) :
    Family next := by
  have embryo := exact.embryos caller child owner
  refine ⟨?_, ?_, ?_, ?_, ?_, ?_, ?_⟩
  · obtain ⟨slot, initial, live, orphan⟩ := family.root
    have different : slot ≠ child := by
      rintro rfl
      rw [embryo] at live
      revert live
      decide
    exact ⟨slot, initproc.trans initial, by rwa [state], (parent slot different).trans orphan⟩
  · intro slot
    by_cases same : slot = child
    · subst same
      rw [adopted]
      rintro loop
      obtain rfl := Option.some.inj loop
      rw [running] at embryo
      cases embryo
    · rw [parent slot same]
      exact family.proper slot
  · intro slot other belongs
    rw [state]
    by_cases same : slot = child
    · subst same
      obtain rfl : caller = other := Option.some.inj (adopted.symm.trans belongs)
      exact .inr (.inr (.inl running))
    · rw [parent slot same] at belongs
      exact family.parents slot other belongs
  · intro slot other used begun
    rw [state] at used begun
    have different : slot ≠ child := by
      rintro rfl
      exact begun embryo
    rw [parent slot different]
    exact family.children slot (initproc ▸ other) used begun
  · intro slot other staged
    by_cases same : slot = caller
    · subst same
      obtain rfl : child = other := Stage.copied.inj (copied.symm.trans staged)
      exact adopted
    rw [stage slot same] at staged
    have different : other ≠ child := by
      rintro rfl
      exact same (exact.owners slot caller other (by rw [staged]; rfl) owner)
    rw [parent other different]
    exact family.copied slot other staged
  · intro slot awaits other belongs
    unfold Awaits at awaits
    rw [state, chan] at awaits
    rw [state]
    by_cases same : other = child
    · rw [same, embryo]
      decide
    · rw [parent other same] at belongs
      exact family.awake slot awaits other belongs
  · intro slot used
    rw [pid]
    rw [state] at used
    exact family.numbers slot used

theorem Family.exits (idle : (k.proc caller).stage = .idle)
    (running : (k.proc caller).state = .running) (other : k.initproc ≠ some caller)
    (exited : Exited k next caller) : Family next := by
  obtain ⟨root, initproc, live, orphan⟩ := family.root
  have apart : root ≠ caller := by
    rintro rfl
    exact other initproc
  have rootLive : Live (next.proc root).state := (exited.drifts root apart).live.mpr live
  have parents : ∀ slot parent, (next.proc slot).parent = some parent →
      parent = root ∧ (k.proc slot).parent = some caller ∨
        parent ≠ caller ∧ (k.proc slot).parent = some parent := by
    intro slot parent belongs
    rw [exited.parent] at belongs
    by_cases child : (k.proc slot).parent = some caller
    · rw [if_pos child, initproc] at belongs
      exact .inl ⟨(Option.some.inj belongs).symm, child⟩
    rw [if_neg child] at belongs
    refine .inr ⟨?_, belongs⟩
    rintro rfl
    exact child belongs
  have zombies : ∀ slot, slot ≠ caller → (next.proc slot).state = .zombie →
      (k.proc slot).state = .zombie := by
    intro slot different zombie
    exact ((exited.drifts slot different).state_iff (by decide)).mp zombie
  have rootOrphan : (next.proc root).parent = none := by
    rw [exited.parent, if_neg (by rw [orphan]; exact fun same => by cases same), orphan]
  refine ⟨⟨root, exited.initproc.trans initproc, rootLive, rootOrphan⟩, ?_, ?_, ?_, ?_, ?_, ?_⟩
  · intro slot loop
    rcases parents slot slot loop with ⟨rfl, _⟩ | ⟨_, before⟩
    · rw [rootOrphan] at loop
      cases loop
    · exact family.proper slot before
  · intro slot parent belongs
    rcases parents slot parent belongs with ⟨rfl, _⟩ | ⟨different, before⟩
    · exact rootLive
    · exact (exited.drifts parent different).live.mpr (family.parents slot parent before)
  · intro slot notRoot used begun
    rw [exited.initproc] at notRoot
    rw [exited.parent]
    by_cases child : (k.proc slot).parent = some caller
    · exact ⟨root, by rw [if_pos child, initproc]⟩
    rw [if_neg child]
    by_cases same : slot = caller
    · subst same
      exact family.children slot notRoot (by rw [running]; decide) (by rw [running]; decide)
    have drifts := exited.drifts slot same
    rw [Ne, drifts.state_iff (by decide)] at used begun
    exact family.children slot notRoot used begun
  · intro slot child copied
    have before := (exited.kept slot).copied child copied
    have different : slot ≠ caller := by
      rintro rfl
      rw [idle] at before
      cases before
    have parent := family.copied slot child before
    have notCaller : (k.proc child).parent ≠ some caller := by
      rw [parent]
      exact fun same => different (Option.some.inj same)
    rw [exited.parent, if_neg notCaller, parent]
  · intro slot awaits child belongs zombie
    by_cases same : child = caller
    · subst same
      -- The caller is the new zombie, and its parent has been woken.
      rcases parents child slot belongs with ⟨_, loop⟩ | ⟨_, before⟩
      · exact absurd loop (family.proper child)
      · exact exited.woken slot before awaits
    have before := zombies child same zombie
    rcases parents child slot belongs with ⟨rfl, passed⟩ | ⟨different, parent⟩
    · exact exited.passed child slot passed before initproc awaits
    have drifts := exited.drifts slot different
    obtain ⟨sleeping, chan⟩ := drifts.sleeping awaits.1
    exact family.awake slot ⟨sleeping, chan ▸ awaits.2⟩ child parent before
  · intro slot used
    rw [(exited.kept slot).pid]
    by_cases same : slot = caller
    · subst same
      exact family.numbers slot (by rw [running]; decide)
    · rw [Ne, (exited.drifts slot same).state_iff (by decide)] at used
      exact family.numbers slot used

theorem Family.frees (exact : Exact k) (zombie : (k.proc child).state = .zombie) :
    Family (k.modify child freed) := by
  have gone : ¬ Live (k.proc child).state := by
    rw [zombie]
    decide
  have here : (k.modify child freed).proc child = freed (k.proc child) := modify_self k child freed
  have there : ∀ other, other ≠ child → (k.modify child freed).proc other = k.proc other :=
    fun other different => modify_other k freed different
  have parents : ∀ slot parent, ((k.modify child freed).proc slot).parent = some parent →
      slot ≠ child ∧ parent ≠ child ∧ (k.proc slot).parent = some parent := by
    intro slot parent belongs
    obtain ⟨different, before⟩ := of_update Proc.parent (by simp [freed]) belongs
    refine ⟨different, ?_, before⟩
    rintro rfl
    exact family.not_parent gone slot before
  have apart : ∀ slot, ((k.modify child freed).proc slot).state ≠ .unused → slot ≠ child := by
    rintro slot used rfl
    rw [here] at used
    exact used rfl
  refine ⟨?_, ?_, ?_, ?_, ?_, ?_, ?_⟩
  · obtain ⟨root, initproc, live, orphan⟩ := family.root
    have different : root ≠ child := by
      rintro rfl
      exact gone live
    exact ⟨root, initproc, by rwa [there root different], by rwa [there root different]⟩
  · intro slot loop
    exact family.proper slot (parents slot slot loop).2.2
  · intro slot parent belongs
    obtain ⟨_, different, before⟩ := parents slot parent belongs
    rw [there parent different]
    exact family.parents slot parent before
  · intro slot notRoot used begun
    have same := there slot (apart slot used)
    rw [same] at used begun ⊢
    exact family.children slot notRoot used begun
  · intro slot other copied
    have before := (update_same Proc.stage (by rfl) slot).symm.trans copied
    have embryo := exact.embryos slot other (by rw [before]; rfl)
    have different : other ≠ child := by
      rintro rfl
      rw [zombie] at embryo
      cases embryo
    rw [there other different]
    exact family.copied slot other before
  · intro slot awaits other belongs
    obtain ⟨notFreed, different, before⟩ := parents other slot belongs
    unfold Awaits at awaits
    rw [there slot different] at awaits
    rw [there other notFreed]
    exact family.awake slot awaits other before
  · intro slot used
    have same := there slot (apart slot used)
    rw [same] at used ⊢
    exact family.numbers slot used

/-- A slot that held no process and will not start one may change freely. -/
theorem Family.vacates (proc : next.proc = (k.modify slot change).proc)
    (initproc : next.initproc = k.initproc)
    (before : (k.proc slot).state = .unused ∨ (k.proc slot).state = .embryo)
    (after : (change (k.proc slot)).state = .unused ∨ (change (k.proc slot)).state = .embryo)
    (parent : (change (k.proc slot)).parent = (k.proc slot).parent)
    (stage : (change (k.proc slot)).stage = (k.proc slot).stage)
    (number : (change (k.proc slot)).state ≠ .unused → (change (k.proc slot)).pid ≠ -1) :
    Family next := by
  refine family.modify proc initproc ?_ parent stage ?_ ?_ ?_ number
  · intro live
    rcases before with before | before <;> rw [before] at live <;> exact absurd live (by decide)
  · intro used begun
    rcases after with after | after
    · exact absurd after used
    · exact absurd after begun
  · intro zombie
    rw [zombie] at after
    rcases after with after | after <;> cases after
  · intro sleeping
    rw [sleeping] at after
    rcases after with after | after <;> cases after

theorem Family.sleeps (running : (k.proc caller).state = .running) (chan : Addr)
    (childless : chan = .proc caller → ∀ child, (k.proc child).parent = some caller →
      (k.proc child).state ≠ .zombie) :
    Family (k.modify caller (fun p => { p with state := .sleeping, chan := chan })) := by
  have used : (k.proc caller).state ≠ .unused := by
    rw [running]
    decide
  refine family.modify rfl rfl ?_ rfl rfl ?_ ?_ ?_ ?_
  · exact fun _ => .inl rfl
  · exact fun _ _ => .inl ⟨used, by rw [running]; decide⟩
  · exact fun zombie => by cases zombie
  · exact fun _ same => childless same
  · exact fun _ => family.numbers caller used

theorem Family.step (exact : Exact k) (enabled : k.Enabled action) (outside : Outside action)
    (numbered : Numbered k action) (effect : Effect k next action) : Family next := by
  cases action with
  | forkClaim cpu =>
    rcases effect with quiet | ⟨child, unused, quiet⟩
    · exact family.quiet quiet
    have claimed : Family (k.modify child
        (fun p => { p with state := .embryo, pid := k.nextpid })) :=
      family.vacates rfl rfl (.inl unused) (.inr rfl) rfl rfl (fun _ => numbered)
    have counted : Family { k.modify child
        (fun p => { p with state := .embryo, pid := k.nextpid }) with nextpid := k.nextpid + 1 } :=
      ⟨claimed.root, claimed.proper, claimed.parents, claimed.children, claimed.copied,
        claimed.awake, claimed.numbers⟩
    exact counted.quiet quiet
  | forkNoStack cpu child | forkNoMemory cpu child =>
    obtain ⟨caller, _, stage⟩ := enabled
    have embryo := exact.embryos caller child (by rw [stage]; rfl)
    exact (family.vacates rfl rfl (.inr embryo) (.inl rfl) rfl rfl
      (fun used => absurd rfl used)).quiet effect
  | forkSetup | yield | wakeup | freeze | unfreeze | scheduler => exact family.quiet effect
  | forkCopy cpu child =>
    obtain ⟨caller, executes, rfl⟩ := effect
    obtain ⟨other, also, stage⟩ := enabled
    obtain rfl : caller = other := Option.some.inj (executes.symm.trans also)
    have owner : (k.proc caller).stage.child = some child := by
      rw [stage]
      rfl
    have running := exact.executing executes
    have apart := exact.apart running owner
    have field : ∀ {β : Type} (part : Proc → β),
        (∀ p parent, part { p with parent := parent } = part p) →
        (∀ p staged, part { p with stage := staged } = part p) → ∀ slot,
        part (((k.modify child (fun p => { p with parent := some caller })).setStage caller
          (.copied child)).proc slot) = part (k.proc slot) := by
      intro β part first second slot
      exact (update_same part (second _ (.copied child)) slot).trans
        (update_same part (first _ (some caller)) slot)
    refine family.adopts exact owner running rfl (field Proc.state (fun _ _ => rfl) (fun _ _ => rfl))
      (field Proc.chan (fun _ _ => rfl) (fun _ _ => rfl))
      (field Proc.pid (fun _ _ => rfl) (fun _ _ => rfl)) ?_ ?_ (setStage_self ..) ?_
    · rw [setStage_other _ _ apart, modify_self]
    · intro slot different
      refine (update_same Proc.parent (by rfl) slot).trans ?_
      rw [modify_other k _ different]
    · intro slot different
      rw [setStage_other _ _ different]
      exact update_same Proc.stage (by rfl) slot
  | forkInsert cpu child d c p o =>
    obtain ⟨caller, _, stage⟩ := enabled
    obtain ⟨state, started, quiet⟩ := effect
    have embryo := exact.embryos caller child (by rw [stage]; rfl)
    refine (family.modify rfl rfl ?_ rfl rfl ?_ ?_ ?_ ?_).quiet quiet
    · intro live
      rw [embryo] at live
      exact absurd live (by decide)
    · exact fun _ _ => .inr ⟨caller, family.copied caller child stage⟩
    · rintro zombie
      rcases started with rfl | rfl <;> cases zombie
    · rintro sleeping
      rcases started with rfl | rfl <;> cases sleeping
    · exact fun _ => family.numbers child (by rw [embryo]; decide)
  | sleep cpu chan =>
    obtain ⟨caller, executes, quiet⟩ := effect
    obtain ⟨address, rfl⟩ := outside
    exact (family.sleeps (exact.executing executes) _ (fun same => by cases same)).quiet quiet
  | kill cpu pid =>
    rcases effect with rfl | ⟨slot, _, quiet⟩
    · exact family
    refine (family.modify rfl rfl ?_ rfl rfl ?_ ?_ ?_ ?_).quiet quiet
    · exact fun live => live
    · exact fun used begun => .inl ⟨used, begun⟩
    · exact fun zombie => zombie
    · exact fun sleeping chan => family.awake slot ⟨sleeping, chan⟩
    · exact fun used => family.numbers slot used
  | exit cpu memory =>
    obtain ⟨caller, executes, other, exited⟩ := effect
    obtain ⟨same, also, idle⟩ := enabled
    obtain rfl : caller = same := Option.some.inj (executes.symm.trans also)
    exact family.exits idle (exact.executing executes) other exited
  | wait cpu =>
    obtain ⟨caller, executes, ⟨child, found, rfl⟩ | ⟨absent, rfl | quiet⟩⟩ := effect
    · exact family.frees exact (zombieChild_some found).2
    · exact family
    · exact (family.sleeps (exact.executing executes) _
        (fun _ child parent => zombieChild_none absent child parent)).quiet quiet

end

theorem userinit_family (env : Env) : Family ((zero cpus).userinit env) := by
  have orphans : ∀ slot, (((zero cpus).userinit env).proc slot).parent = none :=
    fun slot => (userinit_initial env slot).parent
  refine ⟨⟨0, rfl, .inr (.inl rfl), rfl⟩, ?_, ?_, ?_, ?_, ?_, ?_⟩
  · intro slot
    rw [orphans]
    exact fun same => by cases same
  · intro slot parent belongs
    rw [orphans] at belongs
    cases belongs
  · intro slot other used
    have different : slot ≠ 0 := by
      rintro rfl
      exact other rfl
    rw [userinit_other env different] at used
    exact absurd rfl used
  · intro slot child copied
    cases (userinit_initial env slot).stage.symm.trans copied
  · intro slot _ child belongs
    rw [orphans] at belongs
    cases belongs
  · exact fun slot _ => (userinit_initial env slot).pid

variable {history : List (Kernel cpus × Action cpus)} {env : Env}

theorem Run.family (run : Run env (fun k action => Outside action ∧ Numbered k action) k history) :
    Family k := by
  induction run with
  | start => exact userinit_family env
  | step before action enabled met executed ih =>
    exact ih.step before.reachable.exact enabled met.1 met.2
      (before.reachable.effect enabled executed)

/-- The section is an `exit` of the process in a slot. -/
def exitOf (slot : Slot) (step : Kernel cpus × Action cpus) : Bool :=
  match step.2 with
  | .exit cpu _ => step.1.context cpu = some slot
  | _ => false

/-- The section is a `wait` that frees a slot. -/
def reapOf (slot : Slot) (step : Kernel cpus × Action cpus) : Bool :=
  match step.2 with
  | .wait cpu => (step.1.context cpu).bind step.1.zombieChild = some slot
  | _ => false

/-- One if a slot holds a zombie. -/
def zombies (k : Kernel cpus) (slot : Slot) : Nat :=
  if (k.proc slot).state = .zombie then 1 else 0

theorem Quiet.zombies (quiet : Quiet k next) (slot : Slot) :
    next.zombies slot = k.zombies slot := by
  have states : (next.proc slot).state = .zombie ↔ (k.proc slot).state = .zombie :=
    (quiet.drifts slot).state_iff (by decide)
  simp only [Kernel.zombies, states]

/-- A change of one record that makes no zombie and takes none away. -/
theorem modify_zombies (k : Kernel cpus) {changed : Slot}
    (before : (k.proc changed).state ≠ .zombie) (after : (change (k.proc changed)).state ≠ .zombie)
    (slot : Slot) :
    (k.modify changed change).zombies slot = k.zombies slot := by
  unfold zombies
  by_cases same : slot = changed
  · subst same
    rw [modify_self, if_neg before, if_neg after]
  · rw [modify_other k change same]

/-- A zombie appears by an `exit` of its slot and disappears by a `wait` that frees it. -/
theorem Effect.balance (exact : Exact k) (enabled : k.Enabled action)
    (effect : Effect k next action) (slot : Slot) :
    next.zombies slot + (reapOf slot (k, action)).toNat =
      k.zombies slot + (exitOf slot (k, action)).toNat := by
  cases action with
  | forkClaim cpu =>
    rcases effect with quiet | ⟨child, unused, quiet⟩
    · exact quiet.zombies slot
    have claimed : (k.modify child (fun p =>
        { p with state := .embryo, pid := k.nextpid })).zombies slot = k.zombies slot :=
      modify_zombies k (by rw [unused]; decide) (by simp) slot
    exact (quiet.zombies slot).trans claimed
  | forkNoStack cpu child | forkNoMemory cpu child =>
    obtain ⟨caller, _, stage⟩ := enabled
    have embryo := exact.embryos caller child (by rw [stage]; rfl)
    have quiet : Quiet (k.release child) next := effect
    exact (quiet.zombies slot).trans (modify_zombies k (by rw [embryo]; decide) (by simp) slot)
  | forkSetup | yield | wakeup | freeze | unfreeze | scheduler => exact Quiet.zombies effect slot
  | forkCopy cpu child =>
    obtain ⟨caller, _, rfl⟩ := effect
    have states : (((k.modify child (fun p => { p with parent := some caller })).setStage caller
        (.copied child)).proc slot).state = (k.proc slot).state :=
      (setStage_state ..).trans (update_same Proc.state (by rfl) slot)
    simp only [zombies, states, reapOf, exitOf]
  | forkInsert cpu child d c p o =>
    obtain ⟨caller, _, stage⟩ := enabled
    obtain ⟨state, started, quiet⟩ := effect
    have embryo := exact.embryos caller child (by rw [stage]; rfl)
    refine (quiet.zombies slot).trans (modify_zombies k (by rw [embryo]; decide) ?_ slot)
    rcases started with rfl | rfl <;> simp
  | sleep cpu chan =>
    obtain ⟨caller, executes, quiet⟩ := effect
    exact (quiet.zombies slot).trans
      (modify_zombies k (by rw [exact.executing executes]; decide) (by simp) slot)
  | kill cpu pid =>
    rcases effect with rfl | ⟨killed, _, quiet⟩
    · rfl
    have states : ((k.modify killed (fun p => { p with killed := true })).proc slot).state =
        (k.proc slot).state := update_same Proc.state (by rfl) slot
    refine (quiet.zombies slot).trans ?_
    simp only [zombies, states]
    rfl
  | exit cpu memory =>
    obtain ⟨caller, executes, _, exited⟩ := effect
    by_cases same : slot = caller
    · subst same
      have running := exact.executing executes
      simp [zombies, reapOf, exitOf, executes, exited.zombie, running]
    · have states : (next.proc slot).state = .zombie ↔ (k.proc slot).state = .zombie :=
        (exited.drifts slot same).state_iff (by decide)
      simp [zombies, reapOf, exitOf, executes, states, Ne.symm same]
  | wait cpu =>
    obtain ⟨caller, executes, ⟨child, found, rfl⟩ | ⟨absent, rfl | quiet⟩⟩ := effect
    · by_cases same : slot = child
      · subst same
        simp [zombies, reapOf, exitOf, executes, found, (zombieChild_some found).2, freed]
      · simp [zombies, reapOf, exitOf, executes, found, modify_other k freed same, Ne.symm same]
    · simp [reapOf, exitOf, executes, absent]
    · have kept := (quiet.zombies slot).trans
        (modify_zombies k (by rw [exact.executing executes]; decide) (by simp) slot)
      simp [reapOf, exitOf, executes, absent, kept]

/-- The exits of a slot and the times it has been freed differ by whether it holds a
zombie. -/
theorem Run.balance {meets : Kernel cpus → Action cpus → Prop} (run : Run env meets k history)
    (slot : Slot) :
    history.countP (exitOf slot) = history.countP (reapOf slot) + k.zombies slot := by
  induction run with
  | start =>
    have initial : Initial (((zero cpus).userinit env).proc slot) := userinit_initial env slot
    rcases initial.state with state | state <;> simp [zombies, state]
  | @step k next history before action enabled _ executed ih =>
    have balance := (before.reachable.effect enabled executed).balance before.reachable.exact
      enabled slot
    simp only [List.countP_cons, Bool.toNat, cond_eq_ite] at *
    omega

theorem wait_cases {cpu : Fin cpus} (current : k.current cpu = .ok caller) :
    Returns (fun result => (∃ child, k.zombieChild caller = some child ∧
        result.1 = k.modify child freed ∧ result.2 = some (k.proc child).pid) ∨
      (result.2 = some (-1) ∧
        ((∀ slot, (k.proc slot).parent ≠ some caller) ∨ (k.proc caller).killed = true)) ∨
      result.2 = none) (k.wait cpu) :=
  wait_rule current (fun child found => .inl ⟨child, found, rfl, rfl⟩)
    (fun _ reason => .inr (.inl ⟨rfl, reason⟩)) fun _ => .inr (.inr rfl)

/-- In every run in which no `fork` hands out the number -1: every process but the first
that has started has a parent that has neither exited nor been freed; no process sleeps in
`wait` while it has a zombie child; a `wait` that returns a process number frees exactly
one slot, that of a zombie child with this number; the exits of a slot and the times it
has been freed differ by whether it holds a zombie; and a `wait` of an unmarked process
returns -1 only if the process has no child. -/
theorem exit_wait_reaping (env : Env) (k : Kernel cpus) (history : List (Kernel cpus × Action cpus))
    (run : Run env (fun k action => Outside action ∧ Numbered k action) k history) :
    (∀ slot, k.initproc ≠ some slot → (k.proc slot).state ≠ .unused →
      (k.proc slot).state ≠ .embryo → ∃ parent, (k.proc slot).parent = some parent ∧
        (k.proc parent).state ≠ .unused ∧ (k.proc parent).state ≠ .zombie) ∧
    (∀ slot, Awaits k slot → ∀ child, (k.proc child).parent = some slot →
      (k.proc child).state ≠ .zombie) ∧
    (∀ cpu caller next pid, k.context cpu = some caller → k.wait cpu = .ok (next, some pid) →
      pid ≠ -1 → ∃ child, (k.proc child).state = .zombie ∧ (k.proc child).parent = some caller ∧
        (k.proc child).pid = pid ∧ (next.proc child).state = .unused ∧
        ∀ other, other ≠ child → next.proc other = k.proc other) ∧
    (∀ slot, history.countP (exitOf slot) =
      history.countP (reapOf slot) + if (k.proc slot).state = .zombie then 1 else 0) ∧
    ∀ cpu caller next, k.context cpu = some caller → k.wait cpu = .ok (next, some (-1)) →
      (k.proc caller).killed = false → ∀ slot, (k.proc slot).parent ≠ some caller := by
  have family := run.family
  have exact := run.reachable.exact
  refine ⟨?_, family.awake, ?_, run.balance, ?_⟩
  · intro slot other used begun
    obtain ⟨parent, belongs⟩ := family.children slot other used begun
    have live := family.parents slot parent belongs
    refine ⟨parent, belongs, ?_, ?_⟩
    · intro unused
      rw [unused] at live
      exact absurd live (by decide)
    · intro zombie
      rw [zombie] at live
      exact absurd live (by decide)
  · intro cpu caller next pid executes waited proper
    rcases (wait_cases (exact.current executes)).value waited with
      ⟨child, found, rfl, result⟩ | ⟨result, _⟩ | result
    · obtain ⟨parent, zombie⟩ := zombieChild_some found
      refine ⟨child, zombie, parent, (Option.some.inj result).symm, ?_, ?_⟩
      · rw [modify_self]
        rfl
      · exact fun other different => modify_other k freed different
    · exact absurd (Option.some.inj result) proper
    · cases result
  · intro cpu caller next executes waited unmarked
    rcases (wait_cases (exact.current executes)).value waited with
      ⟨child, found, _, result⟩ | ⟨_, childless | marked⟩ | result
    · have zombie := (zombieChild_some found).2
      refine absurd (Option.some.inj result).symm (family.numbers child ?_)
      rw [zombie]
      decide
    · exact childless
    · rw [unmarked] at marked
      cases marked
    · cases result

/-- The first process runs alone, and its `wait` returns -1. -/
theorem exit_wait_reaping_first :
    ∃ (k : Kernel 1) (history : List (Kernel 1 × Action 1)),
      Run ⟨.edf, fun _ => 1⟩ (fun k action => Outside action ∧ Numbered k action) k history ∧
      k.wait 0 = .ok (k, some (-1)) ∧ ∀ slot, (k.proc slot).parent ≠ some 0 := by
  have run : Run ⟨.edf, fun _ => 1⟩ (fun k action => Outside action ∧ Numbered k action) _ _ :=
    Run.start.step (.scheduler (0 : Fin 1)) rfl ⟨trivial, trivial⟩ rfl
  exact ⟨_, _, run, rfl, (exit_wait_reaping ⟨.edf, fun _ => 1⟩ _ _ run).2.2.2.2 0 0 _ rfl rfl rfl⟩

section Wrap

/-- The build and the clock of the run below. -/
def wrapEnv : Env := ⟨.edf, fun _ => 0⟩

/-- The states that one processor reaches there. -/
def Wraps (k : Kernel 1) : Prop :=
  ∃ history, Run wrapEnv (fun _ action => Outside action) k history

theorem Wraps.step {k next : Kernel 1} (run : Wraps k) (action : Action 1)
    (enabled : k.Enabled action) (outside : Outside action)
    (executed : k.execute wrapEnv action = .ok next) : Wraps next := by
  obtain ⟨history, run⟩ := run
  exact ⟨_, run.step action enabled outside executed⟩

/-- The first process runs. -/
def started : Kernel 1 := (((zero 1).userinit wrapEnv).countSwitch 0).dispatch wrapEnv 0 0

/-- Forks have failed for want of a stack, the last of them with a process number. -/
def failing (pid nextpid : Int32) : Kernel 1 :=
  { started.modify 1 (fun p => { p with pid }) with nextpid }

/-- The next fork has taken a slot. -/
def claiming (pid nextpid : Int32) : Kernel 1 :=
  { (failing pid nextpid).modify 1 (fun p => { p with state := .embryo, pid := nextpid }) with
    nextpid := nextpid + 1 }.setStage 0 (.claimed 1)

theorem claiming_fails (pid nextpid : Int32) :
    (claiming pid nextpid).execute wrapEnv (.forkNoStack 0 1) =
      .ok (failing nextpid (nextpid + 1)) := by
  have apart : (0 : Slot) ≠ 1 := by decide
  have idle : Stage.idle = (started.proc 0).stage := rfl
  have unused : ProcState.unused = (started.proc 1).state := rfl
  have procs : (((claiming pid nextpid).release 1).setStage 0 .idle).proc =
      (failing nextpid (nextpid + 1)).proc := by
    funext slot
    by_cases first : slot = 0
    · rw [first]
      simp [claiming, release, setStage, failing, Kernel.modify, apart, idle]
    by_cases second : slot = 1
    · rw [second]
      simp [claiming, release, setStage, failing, Kernel.modify, apart.symm, unused]
    · simp [claiming, release, setStage, failing, Kernel.modify, first, second]
  exact congrArg (fun proc => Except.ok { failing nextpid (nextpid + 1) with proc }) procs

theorem failing_run (count : Nat) : ∃ pid, Wraps (failing pid (Int32.ofNat (count + 2))) ∧
    (0 < count → pid = Int32.ofNat (count + 1)) := by
  induction count with
  | zero =>
    have first : failing 0 (Int32.ofNat 2) = started :=
      congrArg (fun proc => { started with proc }) (Function.update_eq_self 1 started.proc)
    refine ⟨0, ?_, fun positive => absurd positive (Nat.lt_irrefl 0)⟩
    rw [first]
    exact ⟨_, Run.start.step (.scheduler 0) rfl trivial rfl⟩
  | succ count ih =>
    obtain ⟨pid, run, _⟩ := ih
    have claims : Wraps (claiming pid (Int32.ofNat (count + 2))) :=
      run.step (.forkClaim 0) ⟨0, rfl, rfl⟩ trivial rfl
    have fails := claims.step (.forkNoStack 0 1) ⟨0, rfl, rfl⟩ trivial (claiming_fails _ _)
    have number : Int32.ofNat (count + 1 + 2) = Int32.ofNat (count + 2) + 1 :=
      Int32.ofNat_add (count + 2) 1
    rw [← number] at fails
    exact ⟨_, fails, fun _ => rfl⟩

/-- A fork succeeds, and the child exits while its parent waits. -/
def parting : List (Action 1) :=
  [.forkClaim 0, .forkSetup 0 1, .forkCopy 0 1, .forkInsert 0 1 0 0 0 0, .wait 0, .scheduler 0,
    .exit 0 (fun _ => 0), .scheduler 0]

/-- After 2^32 - 3 forks without a stack the next child has the process number -1, and the `wait`
of its unmarked parent returns -1 although it has a child. -/
theorem wait_returns_minus_one :
    ∃ (k next : Kernel 1) (history : List (Kernel 1 × Action 1)) (child : Slot),
      Run wrapEnv (fun _ action => Outside action) k history ∧ k.context 0 = some 0 ∧
      k.wait 0 = .ok (next, some (-1)) ∧ (k.proc 0).killed = false ∧
      (k.proc child).parent = some 0 := by
  have ends : ((failing (-2) (-1)).play wrapEnv parting).any (fun k => decide (k.context 0 = some 0 ∧
      (k.proc 0).killed = false ∧ (k.proc 1).parent = some 0) &&
        (k.wait 0).toOption.any fun result => decide (result.2 = some (-1))) = true := by
    decide +kernel
  obtain ⟨pid, run, last⟩ := failing_run 4294967293
  rw [last (by decide)] at run
  cases played : (failing (-2) (-1)).play wrapEnv parting with
  | none =>
    rw [played] at ends
    cases ends
  | some k =>
    rw [played, Option.any_some, Bool.and_eq_true, decide_eq_true_eq] at ends
    obtain ⟨⟨context, unmarked, parent⟩, waits⟩ := ends
    have outside : ∀ action ∈ parting, Outside action := by simp [parting, Outside]
    obtain ⟨history, reached⟩ : Wraps k := play_keeps
      (fun action member _ _ run enabled => run.step action enabled (outside action member)) run played
    cases waited : k.wait 0 with
    | error fault =>
      rw [waited] at waits
      cases waits
    | ok result =>
      rw [waited] at waits
      have number : result.2 = some (-1) := of_decide_eq_true waits
      refine ⟨k, result.1, history, 1, reached, context, ?_, unmarked, parent⟩
      rw [← number]
      exact waited

end Wrap

end RtXv6.Kernel
