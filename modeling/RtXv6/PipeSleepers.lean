import RtXv6.PipeStream

/-!
# Sleepers of a pipe

A reader sleeps while the pipe is empty and open for writing, a writer while it is full
and open for reading. A section that changes this wakes the sleepers before it ends, with
one exception: a write that fills the pipe and then finds the read end closed, or its
process killed, returns without waking the readers.
-/

namespace RtXv6.PipeSystem

variable {process : Type}

/-- Processes sleep only while they have to. -/
structure Justified (s : PipeSystem process) : Prop where
  readers : ∀ p n, (s.proc p).sleeping = true → (s.proc p).task = .read n →
    s.pipe.nread = s.pipe.nwrite ∧ s.pipe.writeopen = true
  writers : ∀ p n left, (s.proc p).sleeping = true → (s.proc p).task = .write n left →
    s.pipe.IsFull ∧ s.pipe.readopen = true

/-- Some reader sleeps. -/
def ReaderSleeps (s : PipeSystem process) : Prop :=
  ∃ p n, (s.proc p).sleeping = true ∧ (s.proc p).task = .read n

/-- While a reader sleeps, a process that has been killed, or that writes to a pipe whose read
end is closed, has no more bytes to write than the pipe holds. -/
def Moderate (s : PipeSystem process) (p : process) (left : List UInt8) : Prop :=
  s.ReaderSleeps → (s.proc p).killed = true ∨ s.pipe.readopen = false → left.length ≤ PIPESIZE

/-- The sections of `pipewrite` that an event runs are moderate. -/
def Moderates (s : PipeSystem process) : PipeEvent process → Prop
  | .pipewrite p _ bytes => s.Moderate p bytes
  | .resume p => ∀ n left, (s.proc p).task = .write n left → s.Moderate p left
  | _ => True

section

variable {s next : PipeSystem process} {p : process}

/-- A wakeup leaves the processes that sleep on another word. -/
theorem sleeping_wakeup {value : UInt32} (sleeps : ((s.wakeup value).proc p).sleeping = true) :
    (s.proc p).sleeping = true ∧ (s.wakeup value).proc p = s.proc p ∧
      word s.pipe (s.proc p).task ≠ some value := by
  have entry : (s.wakeup value).proc p =
      if (s.proc p).sleeping = true ∧ word s.pipe (s.proc p).task = some value then
        { s.proc p with sleeping := false } else s.proc p := rfl
  by_cases woken : (s.proc p).sleeping = true ∧ word s.pipe (s.proc p).task = some value
  · rw [entry, if_pos woken] at sleeps
    cases sleeps
  · rw [entry, if_neg woken] at sleeps
    exact ⟨sleeps, entry.trans (if_neg woken), fun same => woken ⟨sleeps, same⟩⟩

theorem Justified.wakeReaders (writers : ∀ p n left, (s.proc p).sleeping = true →
    (s.proc p).task = .write n left → s.pipe.IsFull ∧ s.pipe.readopen = true) :
    (s.wakeup s.pipe.nread).Justified := by
  constructor
  · intro p n sleeps task
    obtain ⟨_, same, other⟩ := sleeping_wakeup sleeps
    rw [same] at task
    rw [task] at other
    exact absurd rfl other
  · intro p n left sleeps task
    obtain ⟨slept, same, _⟩ := sleeping_wakeup sleeps
    rw [same] at task
    exact writers p n left slept task

theorem Justified.wakeWriters (readers : ∀ p n, (s.proc p).sleeping = true →
    (s.proc p).task = .read n → s.pipe.nread = s.pipe.nwrite ∧ s.pipe.writeopen = true) :
    (s.wakeup s.pipe.nwrite).Justified := by
  constructor
  · intro p n sleeps task
    obtain ⟨slept, same, _⟩ := sleeping_wakeup sleeps
    rw [same] at task
    exact readers p n slept task
  · intro p n left sleeps task
    obtain ⟨_, same, other⟩ := sleeping_wakeup sleeps
    rw [same] at task
    rw [task] at other
    exact absurd rfl other

variable [DecidableEq process] {changed : PipeProc}

theorem Justified.update (justified : s.Justified)
    (reader : ∀ n, changed.sleeping = true → changed.task = .read n →
      s.pipe.nread = s.pipe.nwrite ∧ s.pipe.writeopen = true)
    (writer : ∀ n left, changed.sleeping = true → changed.task = .write n left →
      s.pipe.IsFull ∧ s.pipe.readopen = true) :
    ({ s with proc := Function.update s.proc p changed } : PipeSystem process).Justified := by
  constructor
  · exact (Function.forall_update_iff s.proc fun _ q => ∀ n, q.sleeping = true →
      q.task = .read n → s.pipe.nread = s.pipe.nwrite ∧ s.pipe.writeopen = true).mpr
      ⟨reader, fun q _ => justified.readers q⟩
  · exact (Function.forall_update_iff s.proc fun _ q => ∀ n left, q.sleeping = true →
      q.task = .write n left → s.pipe.IsFull ∧ s.pipe.readopen = true).mpr
      ⟨writer, fun q _ => justified.writers q⟩

theorem Justified.awake (justified : s.Justified) (awake : changed.sleeping = false) :
    ({ s with proc := Function.update s.proc p changed } : PipeSystem process).Justified := by
  apply justified.update
  · intro n sleeps
    rw [awake] at sleeps
    cases sleeps
  · intro n left sleeps
    rw [awake] at sleeps
    cases sleeps

variable {left : List UInt8}

theorem Justified.pipewrite (justified : s.Justified) (flows : s.Flows)
    (moderate : s.Moderate p left) (n : Int32) : (s.pipewrite p n left).Justified := by
  obtain ⟨written, result⟩ : ∃ written, written = writeLoop (s.proc p).killed left s.pipe :=
    ⟨_, rfl⟩
  have fills : Fills (s.proc p).killed left s.pipe written := by
    rw [result]
    exact writeLoop_fills _ _ flows.bound
  have writers : ∀ q m rest, ((s.stores written).proc q).sleeping = true →
      ((s.stores written).proc q).task = .write m rest →
      (s.stores written).pipe.IsFull ∧ (s.stores written).pipe.readopen = true := by
    intro q m rest sleeps task
    obtain ⟨full, opened⟩ := justified.writers q m rest sleeps task
    refine ⟨fills.full full, ?_⟩
    show written.pipe.readopen = true
    rw [fills.toPipe]
    exact opened
  unfold PipeSystem.pipewrite
  rw [← result]
  cases ending : written.ending with
  | done =>
    simp only [ending]
    exact (Justified.wakeReaders writers).awake rfl
  | refused =>
    simp only [ending]
    obtain ⟨remains, reason⟩ := fills.refused.mp ending
    have stored : (s.stores written).Justified := by
      refine ⟨?_, writers⟩
      intro q m sleeps task
      obtain ⟨empty, _⟩ := justified.readers q m sleeps task
      have more := fills.overflow empty remains
      have most := moderate ⟨q, m, sleeps, task⟩ reason.symm
      omega
    exact stored.awake rfl
  | full =>
    simp only [ending]
    have remains : written.left ≠ [] := by
      intro none
      rw [fills.done.mpr none] at ending
      cases ending
    refine (Justified.wakeReaders writers).update (fun m _ task => by cases task) ?_
    intro m rest _ _
    refine ⟨fills.stopped remains, ?_⟩
    show written.pipe.readopen = true
    rw [fills.toPipe]
    by_contra closed
    have refused := fills.refused.mpr ⟨remains, .inl (Bool.eq_false_of_not_eq_true closed)⟩
    rw [refused] at ending
    cases ending

theorem Justified.piperead (justified : s.Justified) (p : process) (n : Int32) :
    (s.piperead p n).Justified := by
  unfold PipeSystem.piperead
  by_cases waits : s.pipe.nread = s.pipe.nwrite ∧ s.pipe.writeopen = true
  · rw [if_pos waits]
    by_cases killed : (s.proc p).killed = true
    · rw [if_pos killed]
      exact justified.awake rfl
    · rw [if_neg killed]
      exact justified.update (fun _ _ _ => waits) fun m rest _ task => by cases task
  rw [if_neg waits]
  have readers : ∀ q m, (s.proc q).sleeping = true → (s.proc q).task = .read m →
      (readLoop n.toInt.toNat s.pipe).1.nread = (readLoop n.toInt.toNat s.pipe).1.nwrite ∧
        (readLoop n.toInt.toNat s.pipe).1.writeopen = true := by
    intro q m sleeps task
    exact absurd (justified.readers q m sleeps task) waits
  have woken : ((s.takes (readLoop n.toInt.toNat s.pipe)).wakeup
      (readLoop n.toInt.toNat s.pipe).1.nwrite).Justified := Justified.wakeWriters readers
  exact woken.awake rfl

theorem stranded (flows : s.Flows) (justified : s.Justified)
    (busy : ∀ n, (s.proc p).sleeping = true → (s.proc p).task ≠ .read n)
    (immoderate : ¬ s.Moderate p left) (n : Int32) : ¬ (s.pipewrite p n left).Justified := by
  unfold Moderate at immoderate
  push Not at immoderate
  obtain ⟨⟨q, m, sleeps, task⟩, reason, more⟩ := immoderate
  obtain ⟨written, result⟩ : ∃ written, written = writeLoop (s.proc p).killed left s.pipe :=
    ⟨_, rfl⟩
  have fills : Fills (s.proc p).killed left s.pipe written := by
    rw [result]
    exact writeLoop_fills _ _ flows.bound
  have empty := (justified.readers q m sleeps task).1
  have none := PipeBuffer.count_eq_zero_iff.mp empty
  have length := congrArg List.length fills.buffered
  rw [List.length_append, PipeBuffer.buffered_length, PipeBuffer.buffered_length, none] at length
  have remains : written.left ≠ [] := by
    intro all
    have split := fills.split
    rw [all, List.append_nil] at split
    have bound := fills.bound
    rw [← split] at more
    omega
  have ending := fills.refused.mpr ⟨remains, reason.symm⟩
  have other : q ≠ p := by
    rintro rfl
    exact busy m sleeps task
  have result : s.pipewrite p n left = (s.stores written).return_ p (-1) := by
    unfold PipeSystem.pipewrite
    rw [← result]
    simp only [ending]
  have entry : ((s.stores written).return_ p (-1)).proc q = s.proc q :=
    Function.update_of_ne other _ _
  rw [result]
  intro kept
  have still := (kept.readers q m (by rw [entry]; exact sleeps) (by rw [entry]; exact task)).1
  have emptied := PipeBuffer.count_eq_zero_iff.mp still
  have full := PipeBuffer.isFull_iff.mp (fills.stopped remains)
  have counts : ((s.stores written).return_ p (-1)).pipe.count = written.pipe.count := rfl
  rw [counts, full] at emptied
  cases emptied

theorem justified_take_iff (flows : s.Flows) (justified : s.Justified) {event : PipeEvent process}
    (enabled : s.Enabled event) : (s.take event).Justified ↔ s.Moderates event := by
  have section_iff : ∀ p n left, (∀ m, (s.proc p).sleeping = true → (s.proc p).task ≠ .read m) →
      ((s.pipewrite p n left).Justified ↔ s.Moderate p left) := by
    intro p n left busy
    constructor
    · intro kept
      by_contra immoderate
      exact stranded flows justified busy immoderate n kept
    · intro moderate
      exact justified.pipewrite flows moderate n
  cases event with
  | pipewrite p n bytes =>
    refine section_iff p n bytes fun m _ task => ?_
    rw [enabled.2.1] at task
    cases task
  | piperead p n => exact iff_of_true (justified.piperead p n) trivial
  | resume p =>
    show (s.resume p).Justified ↔ ∀ n left, (s.proc p).task = .write n left → s.Moderate p left
    have awake : ∀ m, (s.proc p).sleeping = true → (s.proc p).task ≠ .read m := by
      intro m sleeps
      rw [enabled.2] at sleeps
      cases sleeps
    unfold PipeSystem.resume
    cases task : (s.proc p).task with
    | none => exact iff_of_true justified fun n left other => by cases other
    | write n left =>
      refine (section_iff p n left awake).trans ⟨fun moderate m rest same => ?_, fun all => ?_⟩
      · cases same
        exact moderate
      · exact all n left rfl
    | read n => exact iff_of_true (justified.piperead p n) fun m rest other => by cases other
  | pipeclose writable =>
    refine iff_of_true ?_ trivial
    cases writable with
    | true =>
      exact Justified.wakeReaders fun p n left sleeps task => justified.writers p n left sleeps task
    | false =>
      exact Justified.wakeWriters fun p n sleeps task => justified.readers p n sleeps task
  | kill | wake => exact iff_of_true (justified.awake rfl) trivial

theorem Run.justified (run : Run Moderates s) : s.Justified := by
  induction run with
  | start fresh =>
    constructor
    · intro p n sleeps
      rw [(fresh.idle p).2] at sleeps
      cases sleeps
    · intro p n left sleeps
      rw [(fresh.idle p).2] at sleeps
      cases sleeps
  | event before event enabled moderate justified =>
    exact (justified_take_iff before.flows justified enabled).mpr moderate

/-- In every run whose writes are all moderate, no process sleeps without a reason; and the
next event keeps this exactly if its write is moderate. -/
theorem pipe_sleepers_justified_iff (run : Run Moderates s) :
    s.Justified ∧ ∀ event, s.Enabled event → ((s.take event).Justified ↔ s.Moderates event) :=
  ⟨run.justified, fun _ enabled => justified_take_iff run.flows run.justified enabled⟩

end

theorem pipe_sleepers_justified_reader :
    Run Moderates ((fresh : PipeSystem Bool).take (.piperead false 1)) ∧
      ((fresh.take (.piperead false 1) : PipeSystem Bool).proc false).sleeping = true ∧
      (fresh.take (.piperead false 1) : PipeSystem Bool).Justified := by
  have run : Run Moderates ((fresh : PipeSystem Bool).take (.piperead false 1)) :=
    .event (.start fresh_fresh) _ ⟨.inl rfl, rfl⟩ trivial
  exact ⟨run, by decide +kernel, (pipe_sleepers_justified_iff run).1⟩

/-- A writer has filled the pipe and sleeps; the reader empties it and sleeps; then the writer
is killed. -/
def beforeLoss : PipeSystem Bool :=
  ((((fresh.take (.pipewrite true 1025 (List.replicate 1025 7))).take
    (.piperead false 512)).take (.piperead false 512)).take (.kill true))

/-- The killed writer fills the pipe again and leaves the reader asleep. -/
theorem killed_writer_strands_reader : Reachable (beforeLoss.take (.resume true)) ∧
    ((beforeLoss.take (.resume true)).proc false).sleeping = true ∧
    ((beforeLoss.take (.resume true)).proc false).task = .read 512 ∧
    (beforeLoss.take (.resume true)).pipe.nread ≠ (beforeLoss.take (.resume true)).pipe.nwrite := by
  have written : Reachable (fresh.take (.pipewrite true 1025 (List.replicate 1025 7)) :
      PipeSystem Bool) := .event (.start fresh_fresh) _ ⟨.inl rfl, rfl, by decide +kernel⟩ trivial
  have emptied := Run.event written (.piperead false 512)
    ⟨.inl (by decide +kernel), by decide +kernel⟩ trivial
  have waiting := Run.event emptied (.piperead false 512)
    ⟨.inl (by decide +kernel), by decide +kernel⟩ trivial
  have killed := Run.event waiting (.kill true) trivial trivial
  exact ⟨.event killed (.resume true) ⟨.inl (by decide +kernel), by decide +kernel⟩ trivial,
    by decide +kernel, by decide +kernel, by decide +kernel⟩

end RtXv6.PipeSystem
