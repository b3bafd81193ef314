import RtXv6.PointUpdates
import RtXv6.Process

/-!
# Sleep and wakeup

Consumers hold a spin lock `lk`, test a condition, and call `sleep(chan, lk)` while it is
false; producers make it true under `lk` and call `wakeup(chan)`, before or after they
release `lk`. The steps are the single ones of the code: taking and releasing the two
locks, setting the fields of `sleep`, the switch to the scheduler and back, and each
iteration of the scan in `wakeup1`. A process table of any length is shared by any number
of consumers and producers, in any number of rounds.

`wakeup1` compares the words that the two channels point to; one iteration of its scan, with
the two reads of that comparison, is one step. Other code may change those words between the
iterations, and may wake a sleeper for its own reasons.
-/

namespace RtXv6

open Function (update update_self update_of_ne update_eq_self)

/-- Where a process is. `held` says that it still has `lk` while it wakes others up. -/
inductive SleepStage where
  | idle
  | testing
  | parking
  | dropping
  | marking
  | switching
  | away
  | returning
  | rejoining
  | consuming
  | producing
  | produced
  | waking (held : Bool)
  | scanning (held : Bool) (index : Nat)
  | scanned (held : Bool)
  | leaving
  deriving DecidableEq, Repr

namespace SleepStage

/-- A process at this point has `lk`. -/
def holdsLk : SleepStage → Bool
  | testing | parking | dropping | consuming | producing | produced | leaving => true
  | waking held | scanning held _ | scanned held => held
  | idle | marking | switching | away | returning | rejoining => false

/-- A process at this point has `ptable.lock`. -/
def holdsTable : SleepStage → Bool
  | dropping | marking | switching | returning | scanning _ _ | scanned _ => true
  | _ => false

/-- A consumer has found the condition false and still has `lk`. -/
def rejected : SleepStage → Bool
  | parking | dropping => true
  | _ => false

/-- A producer has made the condition true, and its wakeup is still to reach a slot. -/
def Covers : SleepStage → Nat → Prop
  | produced, _ => True
  | waking _, _ => True
  | scanning _ index, slot => index ≤ slot
  | _, _ => False

end SleepStage

/-- The fields of a process that `sleep` and `wakeup` use. -/
structure SleepProc (address : Type) where
  stage : SleepStage
  state : ProcState
  chan : Option address

/-- The two locks by their holders, the process table, the data that the condition is about,
and the words of memory. -/
structure SleepSystem (size : Nat) (data address : Type) where
  lk : Option (Fin size)
  table : Option (Fin size)
  proc : Fin size → SleepProc address
  value : data
  word : address → Int32

namespace SleepSystem

variable {size : Nat} {data address : Type}

/-- A process is at another point. -/
def move (s : SleepSystem size data address) (p : Fin size) (stage : SleepStage) :
    SleepSystem size data address :=
  { s with proc := update s.proc p { s.proc p with stage } }

/-- The iteration of `wakeup1` for one process. -/
def wakeOne (s : SleepSystem size data address) (chan : address) (q : Fin size) :
    SleepSystem size data address :=
  if (s.proc q).state = .sleeping ∧ (s.proc q).chan.map s.word = some (s.word chan) then
    { s with proc := update s.proc q { s.proc q with state := .runnable, chan := none } }
  else s

/-- One step of a process, or of the rest of the kernel. -/
inductive Step (holds : data → Prop) (chan : address) (s : SleepSystem size data address) :
    SleepSystem size data address → Prop
  | consumerAcquires (p) (stage : (s.proc p).stage = .idle) (free : s.lk = none) :
      Step holds chan s { s.move p .testing with lk := some p }
  | producerAcquires (p) (stage : (s.proc p).stage = .idle) (free : s.lk = none) :
      Step holds chan s { s.move p .producing with lk := some p }
  | rejects (p) (stage : (s.proc p).stage = .testing) (no : ¬ holds s.value) :
      Step holds chan s (s.move p .parking)
  | accepts (p) (stage : (s.proc p).stage = .testing) (yes : holds s.value) :
      Step holds chan s (s.move p .consuming)
  | consumes (p) (stage : (s.proc p).stage = .consuming) (value : data) :
      Step holds chan s { s.move p .leaving with value }
  | leaves (p) (stage : (s.proc p).stage = .leaving) :
      Step holds chan s { s.move p .idle with lk := none }
  | sleepAcquires (p) (stage : (s.proc p).stage = .parking) (free : s.table = none) :
      Step holds chan s { s.move p .dropping with table := some p }
  | sleepReleases (p) (stage : (s.proc p).stage = .dropping) :
      Step holds chan s { s.move p .marking with lk := none }
  | sleepMarks (p) (stage : (s.proc p).stage = .marking) :
      Step holds chan s { s with
        proc := update s.proc p
          { stage := .switching, state := .sleeping, chan := some chan } }
  | sched (p) (stage : (s.proc p).stage = .switching) :
      Step holds chan s { s.move p .away with table := none }
  | dispatches (p) (stage : (s.proc p).stage = .away) (ready : (s.proc p).state = .runnable)
      (free : s.table = none) :
      Step holds chan s { s with
        proc := update s.proc p { s.proc p with stage := .returning, state := .running }
        table := some p }
  | sleepReturns (p) (stage : (s.proc p).stage = .returning) :
      Step holds chan s { s with
        proc := update s.proc p { s.proc p with stage := .rejoining, chan := none }
        table := none }
  | sleepReacquires (p) (stage : (s.proc p).stage = .rejoining) (free : s.lk = none) :
      Step holds chan s { s.move p .testing with lk := some p }
  | produces (p) (stage : (s.proc p).stage = .producing) (value : data) (yes : holds value) :
      Step holds chan s { s.move p .produced with value }
  | wakesFirst (p) (stage : (s.proc p).stage = .produced) :
      Step holds chan s (s.move p (.waking true))
  | releasesFirst (p) (stage : (s.proc p).stage = .produced) :
      Step holds chan s { s.move p (.waking false) with lk := none }
  | wakeupAcquires (p) (held) (stage : (s.proc p).stage = .waking held) (free : s.table = none) :
      Step holds chan s { s.move p (.scanning held 0) with table := some p }
  | scans (p) (held) (q : Fin size) (stage : (s.proc p).stage = .scanning held q) :
      Step holds chan s ((s.wakeOne chan q).move p (.scanning held (q + 1)))
  | scanEnds (p) (held) (stage : (s.proc p).stage = .scanning held size) :
      Step holds chan s (s.move p (.scanned held))
  | wakeupReleases (p) (held) (stage : (s.proc p).stage = .scanned held) :
      Step holds chan s { s.move p (if held then .leaving else .idle) with table := none }
  | writes (word : address → Int32) : Step holds chan s { s with word }
  | rouses (p) (asleep : (s.proc p).state = .sleeping) (free : s.table = none) :
      Step holds chan s { s with
        proc := update s.proc p { s.proc p with state := .runnable } }

/-- Every process is about to begin. -/
structure Start (s : SleepSystem size data address) : Prop where
  lk : s.lk = none
  table : s.table = none
  idle : ∀ p, (s.proc p).stage = .idle ∧ (s.proc p).state = .running

/-- The states after any steps. -/
inductive Reachable (holds : data → Prop) (chan : address) : SleepSystem size data address → Prop
  | start {s : SleepSystem size data address} (start : s.Start) : Reachable holds chan s
  | step {s next : SleepSystem size data address} (before : Reachable holds chan s)
      (step : Step holds chan s next) : Reachable holds chan next

/-- A process sleeps on the channel, or is about to. -/
def Sleeps (chan : address) (proc : SleepProc address) : Prop :=
  proc.stage = .marking ∨ proc.state = .sleeping ∧ proc.chan = some chan

/-- Who has which lock, what consumers know about the condition, and that a wakeup is still to
come for the sleepers once it is true. -/
structure Inv (holds : data → Prop) (chan : address) (s : SleepSystem size data address) :
    Prop where
  lk : ∀ p, (s.proc p).stage.holdsLk = true → s.lk = some p
  table : ∀ p, (s.proc p).stage.holdsTable = true → s.table = some p
  rejected : ∀ p, (s.proc p).stage.rejected = true → ¬ holds s.value
  accepted : ∀ p, (s.proc p).stage = .consuming → holds s.value
  covered : ∀ c, Sleeps chan (s.proc c) → holds s.value → ∃ p, (s.proc p).stage.Covers c

section

variable {holds : data → Prop} {chan : address} {s : SleepSystem size data address}

/-- A step of a process with a lock: the other processes keep it, and the process has it
afterwards where it should. -/
structure Hands (before after : Option (Fin size)) (p : Fin size) (has : Bool) : Prop where
  others : ∀ q, q ≠ p → before = some q → after = some q
  self : has = true → after = some p

variable {holder : Option (Fin size)} {p : Fin size}

theorem Hands.keep {has : Bool} (had : has = true → holder = some p) : Hands holder holder p has :=
  ⟨fun _ _ same => same, had⟩

theorem Hands.without : Hands holder holder p false := Hands.keep fun has => by cases has

theorem Hands.acquire {has : Bool} (free : holder = none) : Hands holder (some p) p has := by
  refine ⟨?_, fun _ => rfl⟩
  intro q _ taken
  rw [free] at taken
  cases taken

theorem Hands.release (own : holder = some p) : Hands holder none p false := by
  refine ⟨?_, fun has => by cases has⟩
  intro q different taken
  rw [own] at taken
  exact absurd (Option.some.inj taken).symm different

/-- What the record of one process becomes, with the locks and the data. -/
structure Change (holds : data → Prop) (chan : address) (s : SleepSystem size data address)
    (p : Fin size) (now : SleepProc address) (lk table : Option (Fin size)) (value : data) :
    Prop where
  lk : Hands s.lk lk p now.stage.holdsLk
  table : Hands s.table table p now.stage.holdsTable
  rejected : now.stage.rejected = true → ¬ holds value
  accepted : now.stage = .consuming → holds value
  sleeps : Sleeps chan now → holds value → Sleeps chan (s.proc p)
  covers : ∀ c : Fin size, Sleeps chan (s.proc c) → (s.proc p).stage.Covers c →
    now.stage.Covers c
  value : value = s.value ∨
    s.lk = some p ∧ (holds value → holds s.value ∨ now.stage = .produced)

theorem Inv.change (inv : Inv holds chan s) {now : SleepProc address} {lk table : Option (Fin size)}
    {value : data} (change : Change holds chan s p now lk table value) (word : address → Int32) :
    Inv holds chan { lk, table, proc := update s.proc p now, value, word } := by
  have other : ∀ q, q ≠ p → update s.proc p now q = s.proc q :=
    fun q different => update_of_ne different _ _
  have data : ∀ q, q ≠ p → (s.proc q).stage.holdsLk = true → value = s.value := by
    intro q different has
    rcases change.value with same | ⟨own, _⟩
    · exact same
    · rw [inv.lk q has] at own
      exact absurd (Option.some.inj own) different
  constructor
  · intro q has
    by_cases same : q = p
    · subst same
      simp only [update_self] at has
      exact change.lk.self has
    · simp only [other q same] at has
      exact change.lk.others q same (inv.lk q has)
  · intro q has
    by_cases same : q = p
    · subst same
      simp only [update_self] at has
      exact change.table.self has
    · simp only [other q same] at has
      exact change.table.others q same (inv.table q has)
  · intro q found
    by_cases same : q = p
    · subst same
      simp only [update_self] at found
      exact change.rejected found
    simp only [other q same] at found
    have has : (s.proc q).stage.holdsLk = true := by
      cases stage : (s.proc q).stage <;> simp_all [SleepStage.rejected, SleepStage.holdsLk]
    rw [data q same has]
    exact inv.rejected q found
  · intro q found
    by_cases same : q = p
    · subst same
      simp only [update_self] at found
      exact change.accepted found
    · simp only [other q same] at found
      rw [data q same (by rw [found]; rfl)]
      exact inv.accepted q found
  · intro c sleeps yes
    have slept : Sleeps chan (s.proc c) := by
      by_cases same : c = p
      · subst same
        simp only [update_self] at sleeps
        exact change.sleeps sleeps yes
      · simp only [other c same] at sleeps
        exact sleeps
    have before : holds s.value ∨ now.stage = .produced := by
      rcases change.value with same | ⟨_, why⟩
      · rw [← same]
        exact .inl yes
      · exact why yes
    rcases before with held | made
    · obtain ⟨q, covers⟩ := inv.covered c slept held
      refine ⟨q, ?_⟩
      by_cases same : q = p
      · subst same
        simp only [update_self]
        exact change.covers c slept covers
      · simp only [other q same]
        exact covers
    · refine ⟨p, ?_⟩
      simp only [update_self, made]
      trivial

variable {stage before : SleepStage}

theorem covers_none (at_ : (s.proc p).stage = before) (none : ∀ c, ¬ before.Covers c) :
    ∀ c : Fin size, Sleeps chan (s.proc c) → (s.proc p).stage.Covers c → stage.Covers c := by
  intro c _ covers
  rw [at_] at covers
  exact absurd covers (none c)

/-- What a process at a point knows about the condition. -/
def Knows (condition : Prop) : SleepStage → Prop
  | .parking | .dropping | .marking => ¬ condition
  | .consuming => condition
  | _ => True

section

variable (inv : Inv holds chan s)
include inv

/-- A process moves on without a change of the data: it knows what its new point says, and its
wakeup, if it has one to do, is still to come. -/
theorem Inv.moves {lk table : Option (Fin size)} (lkHands : Hands s.lk lk p stage.holdsLk)
    (tableHands : Hands s.table table p stage.holdsTable) (knows : Knows (holds s.value) stage)
    (covers : ∀ c : Fin size, Sleeps chan (s.proc c) → (s.proc p).stage.Covers c → stage.Covers c) :
    Inv holds chan { s.move p stage with lk, table } := by
  refine inv.change ⟨lkHands, tableHands, ?_, ?_, ?_, covers, .inl rfl⟩ s.word
  · intro rejected
    cases stage with
    | parking | dropping => exact knows
    | _ => cases rejected
  · rintro rfl
    exact knows
  · rintro (rfl | asleep) yes
    · exact absurd yes knows
    · exact .inr asleep

theorem Inv.goes (at_ : (s.proc p).stage = before) (none : ∀ c, ¬ before.Covers c)
    {lk table : Option (Fin size)} (lkHands : Hands s.lk lk p stage.holdsLk)
    (tableHands : Hands s.table table p stage.holdsTable) (knows : Knows (holds s.value) stage) :
    Inv holds chan { s.move p stage with lk, table } :=
  inv.moves lkHands tableHands knows (covers_none at_ none)

theorem Inv.hasLk (at_ : (s.proc p).stage = stage) (has : stage.holdsLk = true) : s.lk = some p :=
  inv.lk p (by rw [at_]; exact has)

theorem Inv.hasTable (at_ : (s.proc p).stage = stage) (has : stage.holdsTable = true) :
    s.table = some p :=
  inv.table p (by rw [at_]; exact has)

/-- The iteration of `wakeup1` for a process, after which its wakeup has been done. -/
theorem Inv.scans {q : Fin size} {held : Bool} (stage : (s.proc p).stage = .scanning held q) :
    Inv holds chan ((s.wakeOne chan q).move p (.scanning held (q + 1))) := by
  have tableOwn := inv.hasTable stage rfl
  -- The record of `q` after the iteration: it does not sleep on the channel any longer.
  obtain ⟨now, woken, sameStage, awake, other⟩ : ∃ now,
      s.wakeOne chan q = { s with proc := update s.proc q now } ∧
        now.stage = (s.proc q).stage ∧ ¬ (now.state = .sleeping ∧ now.chan = some chan) ∧
        (now.state = .sleeping → now = s.proc q) := by
    unfold wakeOne
    by_cases matches_ : (s.proc q).state = .sleeping ∧
        (s.proc q).chan.map s.word = some (s.word chan)
    · refine ⟨{ s.proc q with state := .runnable, chan := none }, if_pos matches_, rfl, ?_, ?_⟩
      · rintro ⟨asleep, _⟩
        cases asleep
      · intro asleep
        cases asleep
    · refine ⟨s.proc q, ?_, rfl, ?_, fun _ => rfl⟩
      · rw [if_neg matches_, update_eq_self]
      · rintro ⟨asleep, same⟩
        exact matches_ ⟨asleep, by rw [same]; rfl⟩
  have middle : Inv holds chan (s.wakeOne chan q) := by
    rw [woken]
    refine inv.change ⟨Hands.keep ?_, Hands.keep ?_, ?_, ?_, ?_, ?_, .inl rfl⟩ s.word
    · rw [sameStage]
      exact inv.lk q
    · rw [sameStage]
      exact inv.table q
    · rw [sameStage]
      exact inv.rejected q
    · rw [sameStage]
      exact inv.accepted q
    · rintro (marks | asleep) _
      · rw [sameStage] at marks
        exact .inl marks
      · exact absurd asleep awake
    · intro c _ covers
      rw [sameStage]
      exact covers
  have stageNow : ∀ r, ((s.wakeOne chan q).proc r).stage = (s.proc r).stage := by
    rw [woken]
    exact PointUpdates.update_same SleepProc.stage sameStage
  have at_ : ((s.wakeOne chan q).proc p).stage = .scanning held q := (stageNow p).trans stage
  have gone : ¬ Sleeps chan ((s.wakeOne chan q).proc q) := by
    rintro (marks | asleep)
    · rw [stageNow] at marks
      have owner := inv.hasTable marks rfl
      rw [tableOwn] at owner
      cases owner
      rw [stage] at marks
      cases marks
    · rw [woken] at asleep
      simp only [update_self] at asleep
      exact awake asleep
  refine middle.moves (Hands.keep fun has => middle.hasLk at_ has)
    (Hands.keep fun has => middle.hasTable at_ has) trivial ?_
  intro c slept covers
  rw [at_] at covers
  have reached : (q : Nat) ≤ c := covers
  have different : c ≠ q := by
    rintro rfl
    exact gone slept
  have numbers : (c : Nat) ≠ q := fun equal => different (Fin.ext equal)
  show (q : Nat) + 1 ≤ c
  omega

theorem Inv.step {next : SleepSystem size data address} (step : Step holds chan s next) :
    Inv holds chan next := by
  cases step with
  | consumerAcquires p stage free | producerAcquires p stage free | sleepReacquires p stage free =>
    exact inv.goes stage (fun _ => id) (Hands.acquire free) Hands.without trivial
  | rejects p stage no =>
    exact inv.goes stage (fun _ => id) (Hands.keep fun _ => inv.hasLk stage rfl) Hands.without no
  | accepts p stage yes =>
    exact inv.goes stage (fun _ => id) (Hands.keep fun _ => inv.hasLk stage rfl) Hands.without yes
  | consumes p stage value =>
    have own := inv.hasLk stage rfl
    refine inv.change ⟨Hands.keep fun _ => own, Hands.without, fun found => (by cases found),
      fun found => (by cases found), ?_, covers_none stage fun _ => id,
      .inr ⟨own, fun _ => .inl (inv.accepted p stage)⟩⟩ s.word
    rintro (marks | asleep) _
    · cases marks
    · exact .inr asleep
  | leaves p stage =>
    exact inv.goes stage (fun _ => id) (Hands.release (inv.hasLk stage rfl)) Hands.without trivial
  | sleepAcquires p stage free =>
    have no := inv.rejected p (by rw [stage]; rfl)
    exact inv.goes stage (fun _ => id) (Hands.keep fun _ => inv.hasLk stage rfl)
      (Hands.acquire free) no
  | sleepReleases p stage =>
    have no := inv.rejected p (by rw [stage]; rfl)
    exact inv.goes stage (fun _ => id) (Hands.release (inv.hasLk stage rfl))
      (Hands.keep fun _ => inv.hasTable stage rfl) no
  | sleepMarks p stage =>
    exact inv.change ⟨Hands.without, Hands.keep fun _ => inv.hasTable stage rfl,
      fun found => (by cases found), fun found => (by cases found), fun _ _ => .inl stage,
      covers_none stage fun _ => id, .inl rfl⟩ s.word
  | sched p stage =>
    exact inv.goes stage (fun _ => id) Hands.without (Hands.release (inv.hasTable stage rfl)) trivial
  | dispatches p stage ready free =>
    refine inv.change ⟨Hands.without, Hands.acquire free, fun found => (by cases found),
      fun found => (by cases found), ?_, covers_none stage fun _ => id, .inl rfl⟩ s.word
    rintro (marks | ⟨asleep, _⟩) _
    · cases marks
    · cases asleep
  | sleepReturns p stage =>
    refine inv.change ⟨Hands.without, Hands.release (inv.hasTable stage rfl),
      fun found => (by cases found), fun found => (by cases found), ?_,
      covers_none stage fun _ => id, .inl rfl⟩ s.word
    rintro (marks | ⟨_, none⟩) _
    · cases marks
    · cases none
  | produces p stage value yes =>
    have own := inv.hasLk stage rfl
    refine inv.change ⟨Hands.keep fun _ => own, Hands.without, fun found => (by cases found),
      fun found => (by cases found), ?_, covers_none stage fun _ => id,
      .inr ⟨own, fun _ => .inr rfl⟩⟩ s.word
    rintro (marks | asleep) _
    · cases marks
    · exact .inr asleep
  | wakesFirst p stage =>
    exact inv.moves (Hands.keep fun _ => inv.hasLk stage rfl) Hands.without trivial
      fun _ _ _ => trivial
  | releasesFirst p stage =>
    exact inv.moves (Hands.release (inv.hasLk stage rfl)) Hands.without trivial
      fun _ _ _ => trivial
  | wakeupAcquires p held stage free =>
    exact inv.moves (Hands.keep fun has => inv.hasLk stage has) (Hands.acquire free) trivial
      fun c _ _ => Nat.zero_le c
  | scans p held q stage => exact inv.scans stage
  | scanEnds p held stage =>
    refine inv.moves (Hands.keep fun has => inv.hasLk stage has)
      (Hands.keep fun _ => inv.hasTable stage rfl) trivial ?_
    intro c _ covers
    rw [stage] at covers
    exact absurd c.isLt (Nat.not_lt.mpr covers)
  | wakeupReleases p held stage =>
    have free := Hands.release (inv.hasTable stage rfl)
    cases held with
    | true =>
      exact inv.goes stage (fun _ => id) (Hands.keep fun _ => inv.hasLk stage rfl) free trivial
    | false => exact inv.goes stage (fun _ => id) Hands.without free trivial
  | writes word => exact ⟨inv.lk, inv.table, inv.rejected, inv.accepted, inv.covered⟩
  | rouses p asleep free =>
    have change : Change holds chan s p { s.proc p with state := .runnable } s.lk s.table
        s.value := by
      refine ⟨Hands.keep (inv.lk p), Hands.keep (inv.table p), inv.rejected p,
        inv.accepted p, ?_, fun _ _ covers => covers, .inl rfl⟩
      rintro (marks | ⟨awake, _⟩) _
      · exact .inl marks
      · cases awake
    exact inv.change change s.word

end

theorem Reachable.inv (reachable : Reachable holds chan s) : Inv holds chan s := by
  induction reachable with
  | start start =>
    have idle : ∀ p, _ := fun p => (start.idle p).1
    refine ⟨?_, ?_, ?_, ?_, ?_⟩
    · intro p has
      rw [idle] at has
      cases has
    · intro p has
      rw [idle] at has
      cases has
    · intro p found
      rw [idle] at found
      cases found
    · intro p found
      rw [idle] at found
      cases found
    · rintro c (marks | ⟨asleep, _⟩)
      · rw [idle] at marks
        cases marks
      · rw [(start.idle c).2] at asleep
        cases asleep
  | step before step inv => exact inv.step step

/-- No wakeup is lost: while a process sleeps on the channel and the condition is true, a
producer that made it true has not reached the process with its wakeup yet. -/
theorem no_lost_wakeup (reachable : Reachable holds chan s) {c : Fin size}
    (asleep : (s.proc c).state = .sleeping) (on : (s.proc c).chan = some chan)
    (yes : holds s.value) : ∃ p, (s.proc p).stage.Covers c :=
  reachable.inv.covered c (.inr ⟨asleep, on⟩) yes

/-- A consumer went to sleep, and a producer has made the condition true and not yet called
`wakeup`. -/
theorem no_lost_wakeup_pending :
    ∃ s : SleepSystem 2 Bool Unit, Reachable (fun value => value = true) () s ∧
      (s.proc 0).state = .sleeping ∧ s.value = true ∧
      ∃ p, (s.proc p).stage.Covers (0 : Fin 2) := by
  let first : SleepSystem 2 Bool Unit :=
    { lk := none, table := none, proc := fun _ => ⟨.idle, .running, none⟩
      value := false, word := fun _ => 0 }
  have start : Reachable (fun value => value = true) () first :=
    .start ⟨rfl, rfl, fun _ => ⟨rfl, rfl⟩⟩
  have rejected := (start.step (.consumerAcquires 0 rfl rfl)).step
    (.rejects 0 rfl Bool.false_ne_true)
  have asleep := (((rejected.step (.sleepAcquires 0 rfl rfl)).step (.sleepReleases 0 rfl)).step
    (.sleepMarks 0 rfl)).step (.sched 0 rfl)
  have produced := (asleep.step (.producerAcquires 1 rfl rfl)).step (.produces 1 rfl true rfl)
  exact ⟨_, produced, rfl, rfl, no_lost_wakeup produced rfl rfl rfl⟩

end

end SleepSystem

end RtXv6
