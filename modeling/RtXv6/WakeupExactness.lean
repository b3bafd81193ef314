import RtXv6.Lifetimes

/-!
# Whom a wakeup wakes

`wakeup1(chan)` is meant to wake the processes that sleep on the pointer `chan`. Its test
compares the integers that the two channels point to, so a process that sleeps on another
channel is woken as well when that channel's first word happens to be the same. Each wakeup
resets the arrival time and the statistics of the process it wakes.

The scan changes one record after the other and the words it compares may be the first words
of records it has changed, so the comparison that decides about a slot is made in a state that
depends on the slots before it. Exactness of the whole scan is equivalent to a condition on
the state before it: no sleeper on another channel sees an equal word at its turn.
-/

namespace RtXv6

open Segments Outcome

variable {cpus : Nat}

namespace Kernel

/-- The process sleeps and the pointer it sleeps on is `chan`. -/
def SleepsOn (k : Kernel cpus) (chan : Addr) (slot : Slot) : Prop :=
  (k.proc slot).state = .sleeping ∧ (k.proc slot).chan = chan

instance sleepsOn_decidable (k : Kernel cpus) (chan : Addr) (slot : Slot) :
    Decidable (k.SleepsOn chan slot) :=
  inferInstanceAs (Decidable ((k.proc slot).state = .sleeping ∧ (k.proc slot).chan = chan))

/-- The processes of `who` have been woken and inserted into a queue of `members`; every other
process keeps its record and its place inside or outside the queue. -/
structure Wakes (env : Env) (k next : Kernel cpus) (members who : Set Slot) : Prop where
  woken : ∀ slot ∈ who, ∃ read, k.reads ≤ read ∧
    next.proc slot = (k.proc slot).woken (env.tick read)
  others : ∀ slot, slot ∉ who → next.proc slot = k.proc slot
  queued : Holds next.ready.queue next.ready.count (members ∪ who)
  reads : k.reads ≤ next.reads

/-- The integer behind a pointer when the scan comes to a slot, provided that it has so far
woken just the processes that sleep on `chan`. -/
def wordAt (env : Env) (memory : Nat → UInt32) (chan : Addr) (k : Kernel cpus) (slot : Slot)
    (address : Addr) : UInt32 :=
  env.config.firstWord
    (fun other =>
      if other.val < slot.val ∧ k.SleepsOn chan other then (k.proc other).woken 0 else k.proc other)
    memory address

/-- A sleeper on another channel sees another word. -/
def Apart (env : Env) (memory : Nat → UInt32) (chan : Addr) (k : Kernel cpus) (slot : Slot) :
    Prop :=
  (k.proc slot).state = .sleeping → (k.proc slot).chan ≠ chan →
    k.wordAt env memory chan slot (k.proc slot).chan ≠ k.wordAt env memory chan slot chan

instance apart_decidable (env : Env) (memory : Nat → UInt32) (chan : Addr) (k : Kernel cpus)
    (slot : Slot) : Decidable (k.Apart env memory chan slot) :=
  inferInstanceAs (Decidable ((k.proc slot).state = .sleeping → (k.proc slot).chan ≠ chan →
    k.wordAt env memory chan slot (k.proc slot).chan ≠ k.wordAt env memory chan slot chan))

variable {env : Env} {memory : Nat → UInt32} {chan : Addr}

variable {k : Kernel cpus} {members : Set Slot}

theorem Wakes.start (held : Holds k.ready.queue k.ready.count members) :
    Wakes env k k members ∅ where
  woken := fun _ member => False.elim member
  others := fun _ _ => rfl
  queued := by rwa [Set.union_empty]
  reads := Nat.le_refl _

variable {slot : Slot}

/-- The records a scan has woken so far have the first words that `wordAt` supposes. -/
theorem Wakes.firstWord {state : Kernel cpus}
    (wakes : Wakes env k state members {other | other.val < slot.val ∧ k.SleepsOn chan other})
    (address : Addr) :
    env.config.firstWord state.proc memory address = k.wordAt env memory chan slot address := by
  cases address with
  | word location => rfl
  | proc other =>
    simp only [wordAt, Config.firstWord]
    by_cases earlier : other.val < slot.val ∧ k.SleepsOn chan other
    · obtain ⟨read, _, record⟩ := wakes.woken other earlier
      rw [record, if_pos earlier]
      rfl
    · have same : state.proc other = k.proc other := wakes.others other earlier
      rw [same, if_neg earlier]

theorem enqueue_forward (env : Env) (slot : Slot) (k : Kernel cpus) :
    Returns (fun next => k.reads ≤ next.reads) (k.enqueue env slot) := by
  unfold enqueue
  split
  · trivial
  · next entered => exact ReadyQueue.insert_forward _ _ _ _ _ _ entered

theorem Wakes.wake {state : Kernel cpus} {who : Set Slot} (wakes : Wakes env k state members who)
    (fresh : slot ∉ members ∪ who) (hears : state.Hears env memory chan slot) :
    ∃ next, state.wakeOne env memory chan slot = .ok next ∧
      Wakes env k next members (insert slot who) := by
  have unwoken : slot ∉ who := fun member => fresh (.inr member)
  obtain ⟨ready, reads, inserted, _, holds⟩ := enqueue_holds env slot (state.awoken env slot)
    (members ∪ who) wakes.queued fresh
  have forward : state.reads + 1 ≤ reads := (enqueue_forward env slot _).value inserted
  have woke : Wakes env k { state.awoken env slot with ready := ready, reads := reads } members
      (insert slot who) := by
    refine ⟨?_, ?_, ?_, ?_⟩
    · intro other member
      by_cases same : other = slot
      · subst same
        refine ⟨state.reads, wakes.reads, ?_⟩
        simp only [awoken, modify_self, wakes.others other unwoken]
      · obtain ⟨read, later, record⟩ := wakes.woken other (member.resolve_left same)
        exact ⟨read, later, (modify_other state _ same).trans record⟩
    · intro other outside
      have different : other ≠ slot := fun same => outside (.inl same)
      exact (modify_other state _ different).trans
        (wakes.others other (fun member => outside (.inr member)))
    · rw [Set.union_insert]
      exact holds
    · exact wakes.reads.trans (Nat.le_of_succ_le forward)
  rw [wakeOne, if_pos ⟨hears.1, hears.2⟩]
  change ∃ next, ((state.awoken env slot).enqueue env slot >>= _) = .ok next ∧ _
  rw [inserted]
  cases env.config with
  | edf => exact ⟨_, rfl, woke⟩
  | pt => exact ⟨_, rfl, woke.woken, woke.others, woke.queued, woke.reads⟩

/-- The scan so far: exact as long as each visited slot was told apart, and otherwise some
process that should have gone on sleeping has been woken. -/
def Scanned (env : Env) (memory : Nat → UInt32) (chan : Addr) (k : Kernel cpus)
    (members : Set Slot) (bound : Nat) (state : Kernel cpus) : Prop :=
  ((∀ slot : Slot, slot.val < bound → k.Apart env memory chan slot) ∧
      Wakes env k state members {slot | slot.val < bound ∧ k.SleepsOn chan slot}) ∨
    ∃ slot, ¬ k.Apart env memory chan slot ∧ (state.proc slot).state ≠ .sleeping

theorem apart_below_succ
    (before : ∀ other : Slot, other.val < slot.val → k.Apart env memory chan other)
    (here : k.Apart env memory chan slot) :
    ∀ other : Slot, other.val < slot.val + 1 → k.Apart env memory chan other := by
  intro other below
  rcases Nat.lt_succ_iff_lt_or_eq.mp below with less | same
  · exact before other less
  · exact Fin.ext same ▸ here

theorem visited_succ (k : Kernel cpus) (chan : Addr) (slot : Slot) :
    {other : Slot | other.val < slot.val + 1 ∧ k.SleepsOn chan other} =
      if k.SleepsOn chan slot then
        insert slot {other : Slot | other.val < slot.val ∧ k.SleepsOn chan other}
      else {other : Slot | other.val < slot.val ∧ k.SleepsOn chan other} := by
  ext other
  by_cases same : other = slot
  · subst same
    by_cases sleeps : k.SleepsOn chan other <;> simp [sleeps]
  have different : other.val ≠ slot.val := fun equal => same (Fin.ext equal)
  have bound : other.val < slot.val + 1 ↔ other.val < slot.val := by omega
  by_cases sleeps : k.SleepsOn chan slot
  · simp only [if_pos sleeps, Set.mem_ofPred_eq, Set.mem_insert_iff, bound, same, false_or]
  · simp only [if_neg sleeps, Set.mem_ofPred_eq, bound]

section

variable {state : Kernel cpus} (asleep : ∀ slot ∈ members, (k.proc slot).state ≠ .sleeping)
include asleep

theorem Wakes.step (apart : ∀ other : Slot, other.val < slot.val → k.Apart env memory chan other)
    (wakes : Wakes env k state members {other | other.val < slot.val ∧ k.SleepsOn chan other}) :
    ∃ next, state.wakeOne env memory chan slot = .ok next ∧
      Scanned env memory chan k members (slot.val + 1) next := by
  have kept : state.proc slot = k.proc slot := by
    apply wakes.others
    rintro ⟨less, _⟩
    exact Nat.lt_irrefl _ less
  have word : ∀ address, env.config.firstWord state.proc memory address =
      k.wordAt env memory chan slot address := wakes.firstWord
  by_cases found : state.Hears env memory chan slot
  · have fresh : slot ∉ members ∪ {other | other.val < slot.val ∧ k.SleepsOn chan other} := by
      rintro (member | ⟨less, _⟩)
      · exact asleep slot member (kept ▸ found.1)
      · exact Nat.lt_irrefl _ less
    obtain ⟨next, executed, woke⟩ := wakes.wake fresh found
    refine ⟨next, executed, ?_⟩
    rw [Hears, kept, word, word] at found
    by_cases right : (k.proc slot).chan = chan
    · left
      refine ⟨apart_below_succ apart (fun _ wrong => absurd right wrong), ?_⟩
      rw [visited_succ, if_pos ⟨found.1, right⟩]
      exact woke
    right
    refine ⟨slot, fun told => told found.1 right found.2, ?_⟩
    obtain ⟨read, _, record⟩ := woke.woken slot (Set.mem_insert slot _)
    rw [record]
    exact ProcState.noConfusion
  · refine ⟨state, if_neg found, .inl ⟨apart_below_succ apart ?_, ?_⟩⟩
    · intro sleeping wrong equal
      rw [← word, ← word, ← kept] at equal
      exact found ⟨kept ▸ sleeping, equal⟩
    · have awake : ¬ k.SleepsOn chan slot := by
        rintro ⟨sleeping, right⟩
        exact found ⟨kept ▸ sleeping, by rw [kept, right]⟩
      rw [visited_succ, if_neg awake]
      exact wakes

theorem Scanned.step (scanned : Scanned env memory chan k members slot.val state) :
    Ends (Scanned env memory chan k members (slot.val + 1))
      (fun _ => ∃ slot, ¬ k.Apart env memory chan slot)
      (state.wakeOne env memory chan slot) := by
  rcases scanned with ⟨apart, wakes⟩ | ⟨bad, together, awake⟩
  · obtain ⟨next, executed, scanned⟩ := wakes.step asleep apart
    rw [executed]
    exact scanned
  · refine (wakeOne_quiet env memory chan state slot).mono ?_ (fun _ _ => ⟨bad, together⟩)
    intro next quiet
    exact .inr ⟨bad, together, fun sleeping => awake ((quiet.drifts bad).sleeping sleeping).1⟩

end

theorem wakeup1_scanned (env : Env) (memory : Nat → UInt32) (chan : Addr)
    (held : Holds k.ready.queue k.ready.count members)
    (asleep : ∀ slot ∈ members, (k.proc slot).state ≠ .sleeping) :
    Ends (Scanned env memory chan k members NPROC) (fun _ => ∃ slot, ¬ k.Apart env memory chan slot)
      (k.wakeup1 env memory chan) := by
  apply Ends.foldlM_finRange (fun bound state => Scanned env memory chan k members bound state)
  · left
    refine ⟨fun _ below => absurd below (Nat.not_lt_zero _), ?_⟩
    have nobody : {slot : Slot | slot.val < 0 ∧ k.SleepsOn chan slot} = ∅ :=
      Set.eq_empty_of_forall_notMem (fun _ visited => Nat.not_lt_zero _ visited.1)
    rw [nobody]
    exact .start held
  · intro slot state scanned
    exact scanned.step asleep

/-- A wakeup returns having woken exactly the processes that sleep on its channel, if and only
if no process sleeping on another channel sees an equal word when the scan comes to it. -/
theorem wakeup1_exact_iff (env : Env) (memory : Nat → UInt32) (chan : Addr) (k : Kernel cpus)
    (members : Set Slot) (held : Holds k.ready.queue k.ready.count members)
    (asleep : ∀ slot ∈ members, (k.proc slot).state ≠ .sleeping) :
    (∃ next, k.wakeup1 env memory chan = .ok next ∧
        Wakes env k next members {slot | k.SleepsOn chan slot}) ↔
      ∀ slot, k.Apart env memory chan slot := by
  have ends := wakeup1_scanned env memory chan held asleep
  have everyone : {slot : Slot | slot.val < NPROC ∧ k.SleepsOn chan slot} =
      {slot | k.SleepsOn chan slot} := by
    ext slot
    exact and_iff_right slot.isLt
  constructor
  · rintro ⟨next, executed, wakes⟩
    rcases ends.value executed with ⟨apart, _⟩ | ⟨bad, together, awake⟩
    · exact fun slot => apart slot slot.isLt
    exfalso
    rw [Apart] at together
    push Not at together
    obtain ⟨sleeping, wrong, _⟩ := together
    rw [wakes.others bad (fun sleeps => wrong sleeps.2)] at awake
    exact awake sleeping
  · intro apart
    cases executed : k.wakeup1 env memory chan with
    | error fault =>
      obtain ⟨slot, together⟩ := ends.fault executed
      exact absurd (apart slot) together
    | ok next =>
      refine ⟨next, rfl, ?_⟩
      rcases ends.value executed with ⟨_, wakes⟩ | ⟨bad, together, _⟩
      · rwa [everyone] at wakes
      · exact absurd (apart bad) together

/-- The first process runs and goes to sleep on the word at one address. -/
def sleepOnWord : List (Action 1) := [.scheduler 0, .sleep 0 (.word 1)]

/-- A wakeup on that word wakes it and nobody else. -/
theorem wakeup1_exact_sleepOnWord :
    ∃ k next : Kernel 1, Reachable ⟨.edf, fun _ => 1⟩ k ∧ k.SleepsOn (.word 1) 0 ∧
      k.wakeup1 ⟨.edf, fun _ => 1⟩ (fun _ => 0) (.word 1) = .ok next ∧
      Wakes ⟨.edf, fun _ => 1⟩ k next (runnables k.proc) {slot | k.SleepsOn (.word 1) slot} := by
  obtain ⟨k, reachable, tested⟩ := Reachable.start.of_play sleepOnWord
    (fun k : Kernel 1 => decide (k.SleepsOn (.word 1) 0 ∧
      ∀ slot, k.Apart ⟨.edf, fun _ => 1⟩ (fun _ => 0) (.word 1) slot))
    (by decide +kernel : (((zero 1).userinit ⟨.edf, fun _ => 1⟩).play ⟨.edf, fun _ => 1⟩
      sleepOnWord).any _ = true)
  obtain ⟨sleeps, apart⟩ := of_decide_eq_true tested
  have awake : ∀ slot ∈ runnables k.proc, (k.proc slot).state ≠ .sleeping := by
    intro slot runnable sleeping
    rw [mem_runnables.mp runnable] at sleeping
    cases sleeping
  obtain ⟨next, executed, wakes⟩ := (wakeup1_exact_iff ⟨.edf, fun _ => 1⟩ (fun _ => 0) (.word 1) k
    (runnables k.proc) reachable.exact.queued awake).mpr apart
  exact ⟨k, next, reachable, sleeps, executed, wakes⟩

/-- A wakeup on another word with the same contents wakes it too. -/
theorem wakeup1_wakes_other_channel :
    ∃ k next : Kernel 1, Reachable ⟨.edf, fun _ => 1⟩ k ∧ k.SleepsOn (.word 1) 0 ∧
      k.wakeup1 ⟨.edf, fun _ => 1⟩ (fun _ => 0) (.word 2) = .ok next ∧
      (next.proc 0).state = .runnable := by
  obtain ⟨k, reachable, tested⟩ := Reachable.start.of_play sleepOnWord
    (fun k : Kernel 1 => decide (k.SleepsOn (.word 1) 0) &&
      (k.wakeup1 ⟨.edf, fun _ => 1⟩ (fun _ => 0) (.word 2)).toOption.any
        (fun next : Kernel 1 => decide ((next.proc 0).state = .runnable)))
    (by decide +kernel : (((zero 1).userinit ⟨.edf, fun _ => 1⟩).play ⟨.edf, fun _ => 1⟩
      sleepOnWord).any _ = true)
  rw [Bool.and_eq_true, decide_eq_true_eq] at tested
  obtain ⟨sleeps, woken⟩ := tested
  cases executed : k.wakeup1 ⟨.edf, fun _ => 1⟩ (fun _ => 0) (.word 2) with
  | error fault =>
    rw [executed] at woken
    cases woken
  | ok next =>
    rw [executed] at woken
    exact ⟨k, next, reachable, sleeps, executed, of_decide_eq_true woken⟩

end Kernel

end RtXv6
