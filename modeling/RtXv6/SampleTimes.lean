import RtXv6.Statistics

/-!
# The times of a sample

The release time of a process is zero or a clock reading, and its first scheduling time
is unset or a reading that is not earlier. Every change of a record keeps that, because
each place that stores a release time also clears the scheduling time or finds it
cleared, and a dispatch stores the latter only if it is unset.

`getData` copies both into the sample and then starts the next job. When it runs alone
and undisturbed, and finds both times set, the sample is in order. It finds the
scheduling time unset if no dispatch has come since the last sample, and the release time
unset if the process was created while creation was frozen, since the scan of `freeze(0)`
stores none.
-/

namespace RtXv6

open Function (update_self update_of_ne)
open PointUpdates

/-- The slot of a `fork` in progress whose scheduling fields have been cleared. -/
def Stage.cleared : Stage → Option Slot
  | .idle => none
  | .claimed _ => none
  | .prepared child => some child
  | .copied child => some child
  | .unfreezing => none

theorem Stage.child_of_cleared {stage : Stage} {child : Slot}
    (cleared : stage.cleared = some child) : stage.child = some child := by
  cases stage with
  | idle | claimed | unfreezing => cases cleared
  | prepared | copied => exact cleared

namespace Kernel

variable {cpus : Nat}

/-- The release time is unset, or a clock reading that comes before the one of the first
scheduling. -/
def Timed (env : Env) (reads : Nat) (p : Proc) : Prop :=
  p.arrtime = 0 ∨ ∃ release, release ≤ reads ∧ p.arrtime = env.tick release ∧
    (p.firstsch = 0 ∨ ∃ start, release ≤ start ∧ start ≤ reads ∧ p.firstsch = env.tick start)

variable {env : Env}

theorem Timed.mono {reads later : Nat} {p q : Proc} (timed : Timed env reads p)
    (passes : reads ≤ later) (arrtime : q.arrtime = p.arrtime) (firstsch : q.firstsch = p.firstsch) :
    Timed env later q := by
  unfold Timed
  rw [arrtime, firstsch]
  rcases timed with unset | ⟨release, bound, released, scheduled⟩
  · exact .inl unset
  refine .inr ⟨release, bound.trans passes, released, ?_⟩
  rcases scheduled with unset | ⟨start, order, within, taken⟩
  · exact .inl unset
  · exact .inr ⟨start, order, within.trans passes, taken⟩

theorem Timed.release {reads release : Nat} {p : Proc} (bound : release ≤ reads)
    (arrtime : p.arrtime = env.tick release) (firstsch : p.firstsch = 0) : Timed env reads p :=
  .inr ⟨release, bound, arrtime, .inl firstsch⟩

/-- Every record's times are in order, and a child that `fork` has set up was not scheduled
yet. -/
structure Clocked (env : Env) (k : Kernel cpus) : Prop where
  timed : ∀ slot, Timed env k.reads (k.proc slot)
  fresh : ∀ slot child, (k.proc slot).stage.cleared = some child → (k.proc child).firstsch = 0

variable {k next : Kernel cpus} {slot : Slot} {record : Proc}

section

variable (clocked : Clocked env k) (proc : next.proc = Function.update k.proc slot record)
  (reads : k.reads ≤ next.reads)
include clocked proc reads

theorem Clocked.update (timed : Timed env next.reads record)
    (firstsch : record.firstsch = (k.proc slot).firstsch ∨ record.firstsch = 0)
    (staged : ∀ child, record.stage.cleared = some child → (k.proc child).firstsch = 0) :
    Clocked env next where
  timed := by
    rw [proc]
    exact (Function.forall_update_iff k.proc fun _ => Timed env next.reads).mpr
      ⟨timed, fun other _ => (clocked.timed other).mono reads rfl rfl⟩
  fresh := by
    intro other child cleared
    have before : (k.proc child).firstsch = 0 := by
      rw [proc] at cleared
      rcases update_cases (fun p : Proc => p.stage.cleared) cleared with ⟨_, now⟩ | ⟨_, already⟩
      · exact staged child now
      · exact clocked.fresh other child already
    rw [proc]
    by_cases same : child = slot
    · subst same
      rw [update_self]
      rcases firstsch with kept | unset
      · exact kept.trans before
      · exact unset
    · rwa [update_of_ne same]

theorem Clocked.keep (arrtime : record.arrtime = (k.proc slot).arrtime)
    (firstsch : record.firstsch = (k.proc slot).firstsch)
    (stage : record.stage = (k.proc slot).stage) : Clocked env next :=
  clocked.update proc reads ((clocked.timed slot).mono reads arrtime firstsch) (.inl firstsch)
    (fun child cleared => clocked.fresh slot child (stage ▸ cleared))

end

variable {actor : Option Slot}

theorem Clocked.touch (clocked : Clocked env k) (touches : Touch env k actor slot record)
    (proc : next.proc = Function.update k.proc slot record) (reads : k.reads ≤ next.reads) :
    Clocked env next := by
  -- A new stage leaves the times of its process alone.
  have staged : ∀ {stage : Stage}, record = { k.proc slot with stage := stage } →
      (∀ child, stage.cleared = some child → (k.proc child).firstsch = 0) → Clocked env next := by
    rintro stage rfl fresh
    exact clocked.update proc reads ((clocked.timed slot).mono reads rfl rfl) (.inl rfl) fresh
  cases touches with
  | claim | abandon | adopt | hold | mark | rouse | release | preempt | sleep | exit | reap =>
    exact clocked.keep proc reads rfl rfl rfl
  | prepare embryo P O =>
    exact clocked.update proc reads (.inl rfl) (.inr rfl) (fun child cleared => by cases cleared)
  | start caller copied embryo D C P O =>
    have unset : (k.proc slot).firstsch = 0 :=
      clocked.fresh caller slot (congrArg Stage.cleared copied)
    exact clocked.update proc reads (Timed.release reads rfl unset) (.inl rfl)
      (fun child cleared => clocked.fresh slot child cleared)
  | claimed | settled | thawed => exact staged rfl (fun _ cleared => by cases cleared)
  | prepared acts child claimed fresh =>
    refine staged rfl ?_
    intro other cleared
    obtain rfl : child = other := Option.some.inj cleared
    exact fresh
  | copied acts child prepared =>
    refine staged rfl ?_
    intro other cleared
    obtain rfl : child = other := Option.some.inj cleared
    exact clocked.fresh slot child (congrArg Stage.cleared prepared)
  | wake sleeping =>
    exact clocked.update proc reads (Timed.release reads rfl rfl) (.inr rfl)
      (fun child cleared => clocked.fresh slot child cleared)

theorem Clocked.congr (clocked : Clocked env k) (proc : next.proc = k.proc)
    (reads : k.reads ≤ next.reads) : Clocked env next := by
  refine ⟨fun slot => ?_, ?_⟩
  · rw [proc]
    exact (clocked.timed slot).mono reads rfl rfl
  · rw [proc]
    exact clocked.fresh

theorem Clocked.moves (clocked : Clocked env k) (moves : Moves env actor k next) :
    Clocked env next := by
  induction moves with
  | refl => exact clocked
  | tail _ move ih =>
    cases move with
    | touch slot record touches proc frozen reads =>
      exact ih.touch touches proc reads
    | aside proc frozen reads | freeze proc frozen reads => exact ih.congr proc reads
    | thaw caller acts running proc frozen reads =>
      exact ih.update proc reads
        ((ih.timed caller).mono reads rfl rfl) (.inl rfl)
        (fun child cleared => by cases cleared)

theorem Clocked.dispatched {head : Slot} (exact : Exact k) (clocked : Clocked env k)
    (dispatched : Dispatched env k next head) : Clocked env next := by
  obtain ⟨ctxswt, firstsch, chan, stamped, proc⟩ := dispatched.proc
  have reads := dispatched.reads
  refine ⟨fun slot => ?_, fun slot child cleared => ?_⟩
  · rw [proc]
    by_cases same : slot = head
    · subst same
      rw [update_self]
      rcases stamped with ⟨_, kept⟩ | ⟨unset, start, after, within, taken⟩
      · exact (clocked.timed slot).mono reads rfl kept
      rcases clocked.timed slot with none | ⟨release, bound, released, _⟩
      · exact .inl none
      · exact .inr ⟨release, bound.trans reads, released,
          .inr ⟨start, bound.trans after, within, taken⟩⟩
    · rw [update_of_ne same]
      exact (clocked.timed slot).mono reads rfl rfl
  · -- The head is ready and so not the child of a `fork` in progress.
    have stage : (next.proc slot).stage = (k.proc slot).stage := by
      rw [proc]
      exact update_same Proc.stage (by rfl) slot
    rw [stage] at cleared
    have different : child ≠ head := by
      rintro rfl
      have embryo := exact.embryos slot child (Stage.child_of_cleared cleared)
      rw [dispatched.runnable] at embryo
      cases embryo
    rw [proc, update_of_ne different]
    exact clocked.fresh slot child cleared

/-- A running process that goes on running with its times. -/
def Undisturbed (p q : Proc) : Prop :=
  q.state = .running ∧ q.arrtime = p.arrtime ∧ q.firstsch = p.firstsch

theorem Touch.undisturbed (touches : Touch env k actor slot record) (apart : actor ≠ some slot)
    (running : (k.proc slot).state = .running) : Undisturbed (k.proc slot) record := by
  have elsewhere : ∀ {state : ProcState}, (k.proc slot).state = state → state ≠ .running →
      Undisturbed (k.proc slot) record :=
    fun here other => absurd (here.symm.trans running) other
  cases touches with
  | claim unused pid => exact elsewhere unused (by decide)
  | prepare embryo | abandon embryo | start caller copied embryo | hold frozen embryo =>
    exact elsewhere embryo (by decide)
  | adopt | mark => exact ⟨running, rfl, rfl⟩
  | claimed acts | prepared acts | copied acts | settled acts | thawed acts | preempt acts
  | sleep acts | exit acts => exact absurd acts apart
  | wake sleeping | rouse sleeping => exact elsewhere sleeping (by decide)
  | release waiting => exact elsewhere waiting (by decide)
  | reap zombie => exact elsewhere zombie (by decide)

/-- A section of another process leaves a running process running with its times. -/
theorem Moves.undisturbed (moves : Moves env actor k next) (apart : actor ≠ some slot)
    (running : (k.proc slot).state = .running) : Undisturbed (k.proc slot) (next.proc slot) := by
  refine moves.keeps ?_ (fun _ _ => id) ⟨running, rfl, rfl⟩
  intro state record touches before
  obtain ⟨still, arrtime, firstsch⟩ := touches.undisturbed apart before.1
  exact ⟨still, arrtime.trans before.2.1, firstsch.trans before.2.2⟩

theorem Moves.forward (moves : Moves env actor k next) : k.reads ≤ next.reads := by
  induction moves with
  | refl => exact Nat.le_refl _
  | tail _ move ih =>
    cases move with
    | touch slot record touches proc frozen reads | aside proc frozen reads
    | freeze proc frozen reads | thaw caller acts running proc frozen reads => exact ih.trans reads

end Kernel

namespace Monitor

open Kernel Outcome

variable {cpus : Nat}

/-- The times of a sample are clock readings in the order of release, first scheduling and
finish, and the first is not zero. -/
def Sampled (env : Env) (s : Statistic) : Prop :=
  ∃ release start finish, release ≤ start ∧ start ≤ finish ∧ env.tick release ≠ 0 ∧
    s.arrtime = env.tick release ∧ s.firstsch = env.tick start ∧ s.finish = env.tick finish

/-- Where the two readings of a job stand before each statement of `getData`: in the record
`q`, or already in the sample `s`. -/
def Noted (env : Env) (release start : Nat) (q : Proc) (s : Statistic) : Line → Prop
  | .P => q.arrtime = env.tick release ∧ q.firstsch = env.tick start
  | .O => q.arrtime = env.tick release ∧ q.firstsch = env.tick start
  | .firstsch => q.arrtime = env.tick release ∧ q.firstsch = env.tick start
  | .clearFirstsch => q.arrtime = env.tick release ∧ s.firstsch = env.tick start
  | .arrtime => q.firstsch = 0 ∧ q.arrtime = env.tick release ∧ s.firstsch = env.tick start
  | .renewArrtime => q.firstsch = 0 ∧ s.arrtime = env.tick release ∧ s.firstsch = env.tick start
  | .finish => s.arrtime = env.tick release ∧ s.firstsch = env.tick start
  | .pid => Sampled env s
  | .C => Sampled env s
  | .D => Sampled env s
  | .ctxswt => Sampled env s
  | .clearCtxswt => Sampled env s
  | .itr_s => Sampled env s

/-- Both readings of the job are known up to the present. -/
def Progress (env : Env) (m : Monitor cpus) (p : Slot) (line : Line) : Prop :=
  ∃ release start, release ≤ start ∧ start ≤ m.kernel.reads ∧ env.tick release ≠ 0 ∧
    Noted env release start (m.kernel.proc p) m.cell line

variable {env : Env} {line : Line}

theorem Noted.congr {release start : Nat} {q r : Proc} {s : Statistic}
    (noted : Noted env release start q s line) (arrtime : r.arrtime = q.arrtime)
    (firstsch : r.firstsch = q.firstsch) : Noted env release start r s line := by
  cases line <;> simp only [Noted, arrtime, firstsch] at noted ⊢ <;> exact noted

/-- The samples are in order and within the array, and at most one process is in `getData`,
running, with both readings of its job known. -/
structure Sound (env : Env) (m : Monitor cpus) : Prop where
  exact : Exact m.kernel
  clocked : Clocked env m.kernel
  bound : m.itr_s.toNat ≤ TAM
  samples : ∀ index, index < m.itr_s.toNat → Sampled env (m.statistic index)
  alone : ∀ p q line other, m.recording p = some line → m.recording q = some other → p = q
  inside : ∀ p line, m.recording p = some line →
    (m.kernel.proc p).state = .running ∧ m.itr_s.toNat < TAM ∧ Progress env m p line

/-- The condition on the steps. Nobody is preempted inside `getData`; a call of it starts and
the samples are discarded only while nobody is inside; and a process that asks for a sample
has been scheduled since its last one and has a release time. -/
def Orderly (m : Monitor cpus) : Activity cpus → Prop
  | .act action => ∀ p, m.kernel.actor action = some p → m.recording p = none
  | .print cpu flag => flag = 1 ∨ (∀ p, m.recording p = none) ∧
      (flag = 2 → ∀ p, m.kernel.context cpu = some p →
        (m.kernel.proc p).firstsch ≠ 0 ∧ (m.kernel.proc p).arrtime ≠ 0)
  | .getData _ => True

variable {m : Monitor cpus}

theorem Sound.act (sound : Sound env m) {action : Action cpus} (enabled : m.kernel.Enabled action)
    (orderly : m.Orderly (.act action)) {k : Kernel cpus}
    (executed : m.kernel.execute env action = .ok k) : Sound env { m with kernel := k } := by
  have exact : Exact k := (execute_ends sound.exact env action enabled).value executed
  have moved := (execute_moves sound.exact env action enabled).value executed
  have undisturbed : ∀ p line, m.recording p = some line →
      Undisturbed (m.kernel.proc p) (k.proc p) ∧ m.kernel.reads ≤ k.reads := by
    intro p line recording
    have running := (sound.inside p line recording).1
    rcases moved with moves | ⟨head, dispatched⟩
    · refine ⟨moves.undisturbed ?_ running, moves.forward⟩
      intro acts
      have outside := orderly p acts
      rw [recording] at outside
      cases outside
    obtain ⟨ctxswt, firstsch, chan, _, proc⟩ := dispatched.proc
    have apart : p ≠ head := by
      rintro rfl
      have runnable := dispatched.runnable
      rw [running] at runnable
      cases runnable
    rw [proc, update_of_ne apart]
    exact ⟨⟨running, rfl, rfl⟩, dispatched.reads⟩
  refine ⟨exact, ?_, sound.bound, sound.samples, sound.alone, ?_⟩
  · rcases moved with moves | ⟨head, dispatched⟩
    · exact sound.clocked.moves moves
    · exact sound.clocked.dispatched sound.exact dispatched
  · intro p line recording
    obtain ⟨⟨running, arrtime, firstsch⟩, forward⟩ := undisturbed p line recording
    obtain ⟨_, room, release, start, order, within, late, noted⟩ := sound.inside p line recording
    exact ⟨running, room, release, start, order, within.trans forward, late,
      noted.congr arrtime firstsch⟩

variable {p : Slot}

theorem Sound.readings (sound : Sound env m) (scheduled : (m.kernel.proc p).firstsch ≠ 0)
    (released : (m.kernel.proc p).arrtime ≠ 0) : Progress env m p (.first env.config) := by
  obtain ⟨release, _, arrtime, taken⟩ := (sound.clocked.timed p).resolve_left released
  obtain ⟨start, order, within, firstsch⟩ := taken.resolve_left scheduled
  refine ⟨release, start, order, within, arrtime ▸ released, ?_⟩
  cases env.config with
  | edf | pt => exact ⟨arrtime, firstsch⟩

theorem Sound.print (sound : Sound env m) {cpu : Fin cpus} {flag : Int32}
    (executes : m.kernel.context cpu = some p) (orderly : m.Orderly (.print cpu flag)) :
    Sound env (m.print env p flag) := by
  rcases orderly with rfl | ⟨nobody, ready⟩
  · exact sound
  have outside : ∀ q line, m.recording q ≠ some line := by
    intro q line recording
    rw [nobody q] at recording
    cases recording
  unfold Monitor.print
  split
  · rename_i sample
    unfold Monitor.getData
    split
    · exact sound
    rename_i room
    obtain ⟨scheduled, released⟩ := ready sample p executes
    have only : ∀ q line, (m.goTo p (some (.first env.config))).recording q = some line →
        q = p ∧ line = .first env.config := by
      intro q line recording
      rcases update_cases id recording with ⟨same, now⟩ | ⟨_, already⟩
      · exact ⟨same, (Option.some.inj now).symm⟩
      · exact absurd already (outside q line)
    refine ⟨sound.exact, sound.clocked, sound.bound, sound.samples, ?_, ?_⟩
    · intro q r line other first second
      rw [(only q line first).1, (only r other second).1]
    · intro q line recording
      obtain ⟨rfl, rfl⟩ := only q line recording
      simp only [TAM] at room
      refine ⟨sound.exact.executing executes, ?_, sound.readings scheduled released⟩
      simp only [goTo, TAM]
      omega
  · split
    · exact sound
    · refine ⟨sound.exact, sound.clocked, Nat.zero_le _, ?_, sound.alone, ?_⟩
      · intro index below
        cases below
      · intro q line recording
        exact absurd recording (outside q line)

@[simp] theorem store_cell (m : Monitor cpus) (change : Statistic → Statistic) :
    (m.store change).cell = change m.cell :=
  update_self ..

@[simp] theorem record_proc (m : Monitor cpus) (p : Slot) (change : Proc → Proc) :
    (m.record p change).kernel.proc p = change (m.kernel.proc p) :=
  modify_self ..

/-- What a statement of `getData(p)` leaves alone. -/
structure Framed (m next : Monitor cpus) (p : Slot) : Prop where
  recording : next.recording = m.recording
  statistic : ∀ index, index ≠ m.itr_s.toNat → next.statistic index = m.statistic index
  ready : next.kernel.ready = m.kernel.ready
  cpuProc : next.kernel.cpuProc = m.kernel.cpuProc
  context : next.kernel.context = m.kernel.context
  states : ∀ slot, (next.kernel.proc slot).state = (m.kernel.proc slot).state
  stages : ∀ slot, (next.kernel.proc slot).stage = (m.kernel.proc slot).stage

theorem Framed.store (m : Monitor cpus) (p : Slot) (change : Statistic → Statistic) :
    Framed m (m.store change) p :=
  ⟨rfl, fun _ other => update_of_ne other _ _, rfl, rfl, rfl, fun _ => rfl, fun _ => rfl⟩

theorem Framed.record (m : Monitor cpus) (p : Slot) (change : Proc → Proc)
    (state : ∀ q, (change q).state = q.state) (stage : ∀ q, (change q).stage = q.stage) :
    Framed m (m.record p change) p :=
  ⟨rfl, fun _ _ => rfl, rfl, rfl, rfl, update_same Proc.state (state _),
    update_same Proc.stage (stage _)⟩

theorem Framed.ticked {next : Monitor cpus} (framed : Framed m next p) : Framed m next.ticked p :=
  ⟨framed.recording, framed.statistic, framed.ready, framed.cpuProc, framed.context,
    framed.states, framed.stages⟩

theorem perform_framed (env : Env) (p : Slot) (m : Monitor cpus) (line : Line) :
    Framed m (m.perform env p line) p := by
  cases line <;> rw [Monitor.perform]
  case clearFirstsch => exact Framed.record m p _ (fun _ => rfl) (fun _ => rfl)
  case renewArrtime =>
    apply Framed.ticked
    exact Framed.record m p _ (fun _ => rfl) (fun _ => rfl)
  case finish => exact (Framed.store m p _).ticked
  case clearCtxswt => exact Framed.record m p _ (fun _ => rfl) (fun _ => rfl)
  case itr_s => exact ⟨rfl, fun _ _ => rfl, rfl, rfl, rfl, fun _ => rfl, fun _ => rfl⟩
  all_goals exact Framed.store m p _

/-- Every statement of `getData` keeps the times of the records in order. -/
theorem perform_clocked (clocked : Clocked env m.kernel) (progress : Progress env m p line) :
    Clocked env (m.perform env p line).kernel := by
  obtain ⟨release, start, _, _, _, noted⟩ := progress
  cases line with
  | P | O | firstsch | arrtime | pid | C | D | ctxswt | itr_s => exact clocked
  | clearFirstsch =>
    refine clocked.update rfl (Nat.le_refl _) ?_ (.inr rfl) (clocked.fresh p)
    rcases clocked.timed p with unset | ⟨release, bound, released, _⟩
    · exact .inl unset
    · exact Timed.release bound released rfl
  | renewArrtime =>
    exact clocked.update rfl (Nat.le_succ _) (Timed.release (Nat.le_succ _) rfl noted.1) (.inl rfl)
      (clocked.fresh p)
  | finish => exact clocked.congr rfl (Nat.le_succ _)
  | clearCtxswt => exact clocked.keep rfl (Nat.le_refl _) rfl rfl rfl

/-- The readings move with the statements from the record to the sample. -/
theorem Progress.perform {following : Line} (progress : Progress env m p line)
    (continues : line.next = some following) :
    Progress env (m.perform env p line) p following ∧
      (m.perform env p line).itr_s = m.itr_s := by
  obtain ⟨release, start, order, within, late, noted⟩ := progress
  -- The statements after the last time keep the three times of the sample.
  have kept : ∀ {change : Statistic → Statistic},
      (change m.cell).arrtime = m.cell.arrtime → (change m.cell).firstsch = m.cell.firstsch →
      (change m.cell).finish = m.cell.finish → Sampled env m.cell →
      Sampled env (m.store change).cell := by
    intro change arrtime firstsch finish sampled
    rw [store_cell, Sampled, arrtime, firstsch, finish]
    exact sampled
  cases line with
  | P | O | clearCtxswt =>
    obtain rfl := Option.some.inj continues
    exact ⟨⟨release, start, order, within, late, noted⟩, rfl⟩
  | firstsch =>
    obtain rfl := Option.some.inj continues
    refine ⟨⟨release, start, order, within, late, noted.1, ?_⟩, rfl⟩
    simp only [Monitor.perform, store_cell]
    exact noted.2
  | clearFirstsch =>
    obtain rfl := Option.some.inj continues
    refine ⟨⟨release, start, order, within, late, ?_, ?_, noted.2⟩, rfl⟩
    · simp only [Monitor.perform, record_proc]
    · simp only [Monitor.perform, record_proc]
      exact noted.1
  | arrtime =>
    obtain rfl := Option.some.inj continues
    refine ⟨⟨release, start, order, within, late, noted.1, ?_, ?_⟩, rfl⟩
    · simp only [Monitor.perform, store_cell]
      exact noted.2.1
    · simp only [Monitor.perform, store_cell]
      exact noted.2.2
  | renewArrtime =>
    obtain rfl := Option.some.inj continues
    exact ⟨⟨release, start, order, Nat.le_succ_of_le within, late, noted.2⟩, rfl⟩
  | finish =>
    obtain rfl := Option.some.inj continues
    refine ⟨⟨release, start, order, Nat.le_succ_of_le within, late, ?_⟩, rfl⟩
    have times : (m.perform env p .finish).cell = { m.cell with finish := m.now env } :=
      store_cell m (fun s => { s with finish := m.now env })
    rw [times]
    exact ⟨release, start, m.kernel.reads, order, within, late, noted.1, noted.2, rfl⟩
  | pid | C | D | ctxswt =>
    obtain rfl := Option.some.inj continues
    exact ⟨⟨release, start, order, within, late, kept rfl rfl rfl noted⟩, rfl⟩
  | itr_s => cases continues

theorem Sound.perform (sound : Sound env m) (recording : m.recording p = some line) :
    Sound env ((m.perform env p line).goTo p line.next) := by
  obtain ⟨running, room, progress⟩ := sound.inside p line recording
  have framed := perform_framed env p m line
  have exact : Exact (m.perform env p line).kernel :=
    sound.exact.congr framed.ready framed.cpuProc framed.context framed.states framed.stages
  have clocked := perform_clocked sound.clocked progress
  have only : ∀ q other, ((m.perform env p line).goTo p line.next).recording q = some other →
      q = p ∧ line.next = some other := by
    intro q other inside
    simp only [goTo, framed.recording] at inside
    rcases update_cases id inside with now | ⟨different, already⟩
    · exact now
    · exact absurd (sound.alone q p other line already recording) different
  have alone : ∀ q r first second,
      ((m.perform env p line).goTo p line.next).recording q = some first →
      ((m.perform env p line).goTo p line.next).recording r = some second → q = r := by
    intro q r first second left right
    rw [(only q first left).1, (only r second right).1]
  cases continues : line.next with
  | some following =>
    obtain ⟨further, itr_s⟩ := progress.perform continues
    rw [continues] at only alone
    refine ⟨exact, clocked, ?_, ?_, alone, ?_⟩
    · simp only [goTo, itr_s]
      exact sound.bound
    · intro index below
      simp only [goTo, itr_s] at below ⊢
      rw [framed.statistic index (Nat.ne_of_lt below)]
      exact sound.samples index below
    · intro q other inside
      obtain ⟨rfl, same⟩ := only q other inside
      obtain rfl := Option.some.inj same
      refine ⟨(framed.states q).trans running, ?_, further⟩
      simp only [goTo, itr_s]
      exact room
  | none =>
    obtain rfl : line = .itr_s := by
      cases line <;> first | rfl | cases continues
    obtain ⟨release, start, _, _, _, sampled⟩ := progress
    have counted : (m.itr_s + 1).toNat = m.itr_s.toNat + 1 := by
      simp only [TAM] at room
      rw [UInt32.toNat_add, UInt32.toNat_one]
      omega
    rw [continues] at only alone
    refine ⟨exact, clocked, ?_, ?_, alone, ?_⟩
    · simp only [goTo, Monitor.perform, counted]
      exact room
    · intro index below
      simp only [goTo, Monitor.perform, counted] at below ⊢
      rcases Nat.lt_succ_iff_lt_or_eq.mp below with earlier | rfl
      · exact sound.samples index earlier
      · exact sampled
    · intro q other inside
      cases (only q other inside).2

theorem Sound.advance (sound : Sound env m) {cpu : Fin cpus} (enabled : m.Enabled (.getData cpu)) :
    Sound env (m.advance env cpu) := by
  obtain ⟨p, executes, inside⟩ := enabled
  obtain ⟨line, recording⟩ := Option.ne_none_iff_exists'.mp inside
  simp only [Monitor.advance, executes, recording]
  exact sound.perform recording

theorem start_sound (env : Env) : Sound env (start cpus env) := by
  refine ⟨userinit_exact env, ⟨fun slot => .inl (userinit_initial env slot).arrtime, ?_⟩,
    Nat.zero_le _, ?_, ?_, ?_⟩
  · intro slot child cleared
    have stage : (((zero cpus).userinit env).proc slot).stage.cleared = some child := cleared
    rw [(userinit_initial env slot).stage] at stage
    cases stage
  · intro index below
    cases below
  · intro p q line other recording
    cases recording
  · intro p line recording
    cases recording

/-- In every run whose steps meet the condition the samples are in order. -/
theorem Runs.sound (runs : Runs env Orderly m) : Sound env m := by
  induction runs with
  | start => exact start_sound env
  | step _ event enabled met executed ih =>
    cases event with
    | act action =>
      obtain ⟨k, ran, rfl⟩ := map_ok executed
      exact ih.act enabled.1 met ran
    | print cpu flag =>
      obtain ⟨p, named, rfl⟩ := map_ok executed
      obtain ⟨slot, executes, _⟩ := enabled.1
      obtain rfl : slot = p :=
        Except.ok.inj ((ih.exact.current executes).symm.trans named)
      exact ih.print executes met
    | getData cpu =>
      obtain rfl := Except.ok.inj executed
      exact ih.advance enabled

theorem tick_le {tick : Nat → UInt64} (forward : ∀ reading, tick reading ≤ tick (reading + 1))
    {first second : Nat} (order : first ≤ second) : tick first ≤ tick second := by
  induction order with
  | refl => exact UInt64.le_refl _
  | step _ ih => exact UInt64.le_trans ih (forward _)

/-- Under a clock that goes forwards, in every run whose steps meet the condition: every
sample has its three times in order, with a release time that the clock returned and that is
not zero; the differences that `print(1)` prints do not wrap; and the samples, and whatever
`getData` stores, stay within the array. -/
theorem samples_in_order_of_orderly (tick : Nat → UInt64)
    (forward : ∀ reading, tick reading ≤ tick (reading + 1)) (m : Monitor cpus)
    (runs : Runs ⟨.pt, tick⟩ Orderly m) :
    (∀ index, index < m.itr_s.toNat →
        (m.statistic index).arrtime ≤ (m.statistic index).firstsch ∧
        (m.statistic index).firstsch ≤ (m.statistic index).finish ∧
        (m.statistic index).arrtime ≠ 0 ∧ ∃ release, (m.statistic index).arrtime = tick release) ∧
      (∀ entry ∈ m.report,
        entry.2.1.toNat + entry.1.arrtime.toNat = entry.1.firstsch.toNat ∧
        entry.2.2.1.toNat + entry.1.arrtime.toNat = entry.1.finish.toNat) ∧
      m.itr_s.toNat ≤ TAM ∧ ∀ p line, m.recording p = some line → m.itr_s.toNat < TAM := by
  have sound := runs.sound
  have ordered : ∀ index, index < m.itr_s.toNat →
      (m.statistic index).arrtime ≤ (m.statistic index).firstsch ∧
      (m.statistic index).firstsch ≤ (m.statistic index).finish ∧
      (m.statistic index).arrtime ≠ 0 ∧ ∃ release, (m.statistic index).arrtime = tick release := by
    intro index below
    obtain ⟨release, start, finish, first, second, late, arrtime, firstsch, finished⟩ :=
      sound.samples index below
    rw [arrtime, firstsch, finished]
    exact ⟨tick_le forward first, tick_le forward second, late, release, rfl⟩
  refine ⟨ordered, ?_, sound.bound, fun p line recording => (sound.inside p line recording).2.1⟩
  intro entry printed
  simp only [report, List.mem_map, List.mem_filter, List.mem_range] at printed
  obtain ⟨_, ⟨⟨index, below, rfl⟩, _⟩, rfl⟩ := printed
  obtain ⟨released, scheduled, _⟩ := ordered index below
  have latency := UInt64.toNat_sub_of_le _ _ released
  have response := UInt64.toNat_sub_of_le _ _ (UInt64.le_trans released scheduled)
  have first := UInt64.le_iff_toNat_le.mp released
  have second := UInt64.le_iff_toNat_le.mp scheduled
  simp only [row, latency, response]
  omega

instance orderly_decidable (m : Monitor cpus) (event : Activity cpus) :
    Decidable (m.Orderly event) :=
  match event with
  | .act action => inferInstanceAs (Decidable
      (∀ p, m.kernel.actor action = some p → m.recording p = none))
  | .print cpu flag => inferInstanceAs (Decidable (flag = 1 ∨ (∀ p, m.recording p = none) ∧
      (flag = 2 → ∀ p, m.kernel.context cpu = some p →
        (m.kernel.proc p).firstsch ≠ 0 ∧ (m.kernel.proc p).arrtime ≠ 0)))
  | .getData _ => inferInstanceAs (Decidable True)

/-- A call of `print(2)` and all statements of `getData`. -/
def sample : List (Activity 1) := .print 0 2 :: List.replicate 13 (.getData 0)

/-- The first process forks a child that preempts it and takes a sample. -/
def childSample : List (Activity 1) :=
  [.act (.scheduler 0), .act (.forkClaim 0), .act (.forkSetup 0 1), .act (.forkCopy 0 1),
    .act (.forkInsert 0 1 100 10 5 5), .act (.yield 0 (.yieldTrap true)), .act (.scheduler 0)] ++
    sample

/-- The sample of the child is in order. -/
theorem samples_in_order_child :
    ∃ m : Monitor 1, Runs ⟨.pt, fun _ => 1⟩ Orderly m ∧ 0 < m.itr_s.toNat ∧
      (m.statistic 0).arrtime ≤ (m.statistic 0).firstsch ∧
      (m.statistic 0).firstsch ≤ (m.statistic 0).finish ∧ (m.statistic 0).arrtime ≠ 0 := by
  obtain ⟨m, runs, tested⟩ := Runs.start.of_play childSample
    (fun m : Monitor 1 => decide (0 < m.itr_s.toNat))
    (by decide +kernel : ((start 1 ⟨.pt, fun _ => 1⟩).play ⟨.pt, fun _ => 1⟩ Orderly
      childSample).any _ = true)
  have sampled := of_decide_eq_true tested
  obtain ⟨first, second, late, _⟩ := (samples_in_order_of_orderly (fun _ => 1)
    (fun _ => UInt64.le_refl _) m runs).1 0 sampled
  exact ⟨m, runs, sampled, first, second, late⟩

/-- The first process takes two samples in a row. -/
def twoSamples : List (Activity 1) := .act (.scheduler 0) :: (sample ++ sample)

/-- The first process creates a child while creation is frozen, and the child takes a sample
after its release. -/
def frozenSample : List (Activity 1) :=
  [.act (.scheduler 0), .act (.freeze 0 true), .act (.forkClaim 0), .act (.forkSetup 0 1),
    .act (.forkCopy 0 1), .act (.forkInsert 0 1 100 10 5 5), .act (.freeze 0 false),
    .act (.unfreeze 0), .act (.yield 0 (.yieldTrap true)), .act (.scheduler 0)] ++ sample

/-- Of two samples in a row the second has no scheduling time, which is then before the
release, and a process created while creation was frozen has no release time, although the
clock never returns zero. -/
theorem samples_out_of_order :
    (∃ m : Monitor 1, Runs ⟨.pt, fun _ => 1⟩ (fun _ _ => True) m ∧ 1 < m.itr_s.toNat ∧
      (m.statistic 1).firstsch < (m.statistic 1).arrtime) ∧
    ∃ m : Monitor 1, Runs ⟨.pt, fun _ => 1⟩ (fun _ _ => True) m ∧ 0 < m.itr_s.toNat ∧
      (m.statistic 0).arrtime = 0 := by
  constructor
  · obtain ⟨m, runs, tested⟩ := Runs.start.of_play twoSamples
      (fun m : Monitor 1 => decide (1 < m.itr_s.toNat ∧
        (m.statistic 1).firstsch < (m.statistic 1).arrtime))
      (by decide +kernel : ((start 1 ⟨.pt, fun _ => 1⟩).play ⟨.pt, fun _ => 1⟩ (fun _ _ => True)
        twoSamples).any _ = true)
    exact ⟨m, runs, of_decide_eq_true tested⟩
  · obtain ⟨m, runs, tested⟩ := Runs.start.of_play frozenSample
      (fun m : Monitor 1 => decide (0 < m.itr_s.toNat ∧ (m.statistic 0).arrtime = 0))
      (by decide +kernel : ((start 1 ⟨.pt, fun _ => 1⟩).play ⟨.pt, fun _ => 1⟩ (fun _ _ => True)
        frozenSample).any _ = true)
    exact ⟨m, runs, of_decide_eq_true tested⟩

end Monitor

end RtXv6
