import RtXv6.Ide

/-!
# The drivers are interchangeable

The queue of `ide.c` holds the requests that have arrived and are not served, in the order of
arrival. While it is not empty, the device works on the command for its head, or has completed
it and raised an interrupt. Serving the head then has the effect of `iderw` of `memide.c`, so
the buffers and the disk are always those that `memide.c` would have after the requests served
so far.
-/

namespace RtXv6

open Function (update update_self update_of_ne)
open LinkedQueue
open List (mem_append mem_cons_self mem_singleton nodup_append)

namespace IdeCommand

/-- The device finds the drive and the sector of the buffer in the registers. -/
theorem make_decodes {b : Buf} (dev : b.dev = 1) (small : b.blockno.toNat < FSSIZE) :
    (make b).drive = 1 ∧ (make b).sector = b.blockno.toNat := by
  have bound : b.blockno.toNat < 1000 := small
  have one : b.dev.toNat = 1 := by
    rw [dev]
    rfl
  simp only [drive, sector, make, BSIZE, SECTOR_SIZE, one]
  omega

end IdeCommand

namespace Memide

variable {ι : Type} [DecidableEq ι]

theorem serve_concat {ids : List ι} {id : ι} {done : Buf} : ∀ {buf after : ι → Buf}
    {m next last : Memide}, serve ids buf m = .ok (after, next) →
    next.iderw (after id) = .ok (done, last) →
    serve (ids ++ [id]) buf m = .ok (update after id done, last) := by
  induction ids with
  | nil =>
    intro buf after m next last served call
    cases served
    simp only [List.nil_append, serve, call]
    rfl
  | cons first rest ih =>
    intro buf after m next last served call
    simp only [List.cons_append, serve] at served ⊢
    cases first_ : m.iderw (buf first) with
    | error halt =>
      rw [first_] at served
      cases served
    | ok result =>
      rw [first_] at served
      exact ih served call

theorem serve_disksize {ids : List ι} : ∀ {buf after : ι → Buf} {m next : Memide},
    serve ids buf m = .ok (after, next) → next.disksize = m.disksize := by
  induction ids with
  | nil =>
    intro buf after m next served
    cases served
    rfl
  | cons first rest ih =>
    intro buf after m next served
    simp only [serve] at served
    cases call : m.iderw (buf first) with
    | error halt =>
      rw [call] at served
      cases served
    | ok result =>
      rw [call] at served
      rw [ih served]
      unfold iderw at call
      split at call
      · cases call
      split at call
      · cases call
      split at call
      · cases call
      split at call
      · cases call
      split at call
      · cases call
        rfl
      · cases call
        rfl

theorem iderw_eq {b : Buf} {m : Memide} (busy : b.busy = true) (work : ¬ (b.valid ∧ ¬ b.dirty))
    (dev : b.dev = 1) (small : b.blockno.toNat < m.disksize) :
    m.iderw b = .ok
      ({ b with
          data := if b.dirty then b.data else m.memdisk b.blockno.toNat
          valid := true
          dirty := false },
        if b.dirty then { m with memdisk := update m.memdisk b.blockno.toNat b.data }
        else m) := by
  have inside : ¬ b.blockno.toNat ≥ m.disksize := Nat.not_le.mpr small
  obtain ⟨isBusy, valid, dirty, device, blockno, data⟩ := b
  simp only at busy work dev inside
  subst busy dev
  cases dirty with
  | true => simp [iderw, inside]
  | false =>
    have invalid : valid = false := by simpa using work
    simp [iderw, inside, invalid]

end Memide

namespace Ide

variable {ι : Type} [DecidableEq ι]

/-- The state in which the device has done what the head of the queue asks for. -/
def Completed (s : Ide ι) (id : ι) (m : Memide) : Prop :=
  if (s.buf id).dirty then
    s.disk 1 = update m.memdisk (s.buf id).blockno.toNat (s.buf id).data
  else s.disk 1 = m.memdisk ∧ s.register = m.memdisk (s.buf id).blockno.toNat

/-- What the device does for the queue. -/
def Works (s : Ide ι) (m : Memide) : List ι → Prop
  | [] => s.command = none ∧ s.raised = false ∧ s.disk 1 = m.memdisk
  | id :: _ =>
    (s.command = some (IdeCommand.make (s.buf id)) ∧ s.raised = false ∧ s.disk 1 = m.memdisk) ∨
      (s.command = none ∧ s.raised = true ∧ s.Completed id m)

/-- The requests in the queue, and those that have been served as `memide.c` serves them. -/
structure Inv (first s : Ide ι) (queue : List ι) : Prop where
  holds : Holds s.qnext s.idequeue queue
  arrived : s.arrived = s.served ++ queue
  distinct : s.arrived.Nodup
  havedisk1 : s.havedisk1 = true
  request : ∀ id, (s.buf id).busy = true ∧ (s.buf id).dev = 1 ∧ (s.buf id).blockno.toNat < FSSIZE
  calling : ∀ id, s.stage id = .calling ↔ id ∉ s.arrived
  done : ∀ id ∈ s.served, (s.buf id).valid = true ∧ (s.buf id).dirty = false ∧
    s.stage id ≠ .sleeping
  waiting : ∀ id ∈ queue, ¬ ((s.buf id).valid ∧ ¬ (s.buf id).dirty) ∧ s.stage id ≠ .returned
  memory : ∃ m, Memide.serve s.served first.buf ⟨FSSIZE, first.disk 1⟩ = .ok (s.buf, m) ∧
    s.Works m queue

namespace Inv

variable {first s : Ide ι} {queue rest : List ι} {id : ι}

theorem start (start : Start first) : Inv first first [] := by
  refine ⟨start.idequeue, ?_, ?_, start.havedisk1, ?_, ?_, ?_, ?_, ?_⟩
  · rw [start.arrived, start.served]
    rfl
  · rw [start.arrived]
    exact List.nodup_nil
  · exact fun id => ⟨start.busy id, start.dev id, start.blockno id⟩
  · intro id
    rw [start.arrived]
    exact ⟨fun _ => List.not_mem_nil, fun _ => start.stage id⟩
  · intro id member
    rw [start.served] at member
    cases member
  · intro id member
    cases member
  · refine ⟨⟨FSSIZE, first.disk 1⟩, ?_, start.command, start.raised, rfl⟩
    rw [start.served]
    rfl

section

variable (inv : Inv first s queue)
include inv

/-- Only the stage of a request changes, to one that it may have. -/
theorem restage {stage : IdeStage} (member : id ∈ s.arrived) (called : stage ≠ .calling)
    (awake : id ∈ s.served → stage ≠ .sleeping) (unfinished : id ∈ queue → stage ≠ .returned) :
    Inv first { s with stage := update s.stage id stage } queue := by
  refine { inv with calling := ?_, done := ?_, waiting := ?_ }
  · intro other
    by_cases same : other = id
    · subst same
      simp only [update_self]
      exact ⟨fun wrong => absurd wrong called, fun missing => absurd member missing⟩
    · simp only [update_of_ne same]
      exact inv.calling other
  · intro other inServed
    obtain ⟨valid, clean, notAsleep⟩ := inv.done other inServed
    refine ⟨valid, clean, ?_⟩
    by_cases same : other = id
    · subst same
      simp only [update_self]
      exact awake inServed
    · simp only [update_of_ne same]
      exact notAsleep
  · intro other inQueue
    obtain ⟨work, notBack⟩ := inv.waiting other inQueue
    refine ⟨work, ?_⟩
    by_cases same : other = id
    · subst same
      simp only [update_self]
      exact unfinished inQueue
    · simp only [update_of_ne same]
      exact notBack

theorem cases (called : s.stage id ≠ .calling) : id ∈ s.served ∨ id ∈ queue := by
  by_contra missing
  apply called
  rw [inv.calling, inv.arrived, mem_append]
  exact missing

theorem apart (inServed : id ∈ s.served) : id ∉ queue := by
  have distinct := inv.distinct
  rw [inv.arrived] at distinct
  exact fun inQueue => (nodup_append.mp distinct).2.2 id inServed id inQueue rfl

theorem waits (called : s.stage id ≠ .calling) : Inv first (s.wait id) queue := by
  have member : id ∈ s.arrived := by
    rw [inv.arrived, mem_append]
    exact inv.cases called
  refine inv.restage member ?_ ?_ ?_
  · split <;> decide
  · intro inServed
    obtain ⟨valid, clean, _⟩ := inv.done id inServed
    simp [valid, clean]
  · intro inQueue
    have work := (inv.waiting id inQueue).1
    simp only [work, ↓reduceIte]
    decide

theorem completes (active : s.command.isSome) : Inv first s.complete queue := by
  obtain ⟨m, served, works⟩ := inv.memory
  cases queue with
  | nil =>
    rw [works.1] at active
    cases active
  | cons id rest =>
    rcases works with ⟨command, raised, disk⟩ | ⟨none, _⟩
    · obtain ⟨_, dev, small⟩ := inv.request id
      obtain ⟨drive, sector⟩ := IdeCommand.make_decodes dev small
      cases dirty : (s.buf id).dirty with
      | true =>
        have write : (IdeCommand.make (s.buf id)).write = true := dirty
        have completed : s.complete = { s with
            command := none
            raised := true
            disk := update s.disk 1
              (update (s.disk 1) (s.buf id).blockno.toNat (s.buf id).data) } := by
          simp only [complete, command, write, ↓reduceIte, drive, sector]
          rfl
        rw [completed]
        refine { inv with memory := ⟨m, served, .inr ⟨rfl, rfl, ?_⟩⟩ }
        simp only [Completed, dirty, ↓reduceIte, update_self, disk]
      | false =>
        have write : (IdeCommand.make (s.buf id)).write = false := dirty
        have completed : s.complete = { s with
            command := none
            raised := true
            register := s.disk 1 (s.buf id).blockno.toNat } := by
          simp only [complete, command, write, Bool.false_eq_true, ↓reduceIte, drive, sector]
        rw [completed]
        refine { inv with memory := ⟨m, served, .inr ⟨rfl, rfl, ?_⟩⟩ }
        simp only [Completed, dirty, Bool.false_eq_true, ↓reduceIte, disk, and_self]
    · rw [none] at active
      cases active

end

omit [DecidableEq ι] in
theorem starts (small : (s.buf id).blockno.toNat < FSSIZE) (idle : s.command = none) :
    s.idestart id = .ok { s with command := some (IdeCommand.make (s.buf id)) } := by
  have inside : ¬ (s.buf id).blockno.toNat ≥ FSSIZE := Nat.not_le.mpr small
  have sectors : ¬ BSIZE / SECTOR_SIZE > 7 := by decide
  simp only [idestart, inside, ↓reduceIte, sectors, idle, Option.isSome_none, Bool.false_eq_true]

/-- A request enters the queue, and the disk is started for the first one. -/
theorem enters (inv : Inv first s queue) (calling : s.stage id = .calling)
    (work : ¬ ((s.buf id).valid ∧ ¬ (s.buf id).dirty)) :
    ∃ next, s.iderw id = .ok next ∧ Inv first next (queue ++ [id]) := by
  obtain ⟨busy, dev, small⟩ := inv.request id
  have missing : id ∉ s.arrived := (inv.calling id).mp calling
  have absent : id ∉ queue := by
    rw [inv.arrived, mem_append] at missing
    exact fun member => missing (.inr member)
  have distinct : queue.Nodup := by
    have all := inv.distinct
    rw [inv.arrived] at all
    exact (nodup_append.mp all).2.1
  have cleared : Holds (update s.qnext id none) s.idequeue queue := by
    refine inv.holds.congr ?_
    intro node member
    refine update_of_ne ?_ _ _
    rintro rfl
    exact absent member
  have length : queue.length < s.arrived.length + 1 := by
    rw [inv.arrived, List.length_append]
    omega
  obtain ⟨place, found, holds⟩ := cleared.append distinct absent (update_self ..) length
  generalize stored : storeAt (update s.qnext id none) s.idequeue id place = links at holds
  -- The request is in the queue, and the process has not slept yet.
  let entered : Ide ι :=
    { s with idequeue := links.1, qnext := links.2, arrived := s.arrived ++ [id] }
  have present : ¬ ((s.buf id).dev ≠ 0 ∧ (!s.havedisk1) = true) := by
    rw [inv.havedisk1]
    simp
  have runs : s.iderw id =
      (do
        let s ← if entered.idequeue = some id then idestart id entered else .ok entered
        return s.wait id) := by
    simp only [iderw, busy, Bool.not_true, Bool.false_eq_true, ↓reduceIte, work, present, found,
      stored, entered]
  have after : ∀ command m, Works { entered with command } m (queue ++ [id]) →
      Memide.serve s.served first.buf ⟨FSSIZE, first.disk 1⟩ = .ok (s.buf, m) →
      Inv first (({ entered with command } : Ide ι).wait id) (queue ++ [id]) := by
    intro command m works served
    refine ⟨holds, ?_, ?_, inv.havedisk1, inv.request, ?_, ?_, ?_, m, served, works⟩
    · simp only [wait, entered, inv.arrived, List.append_assoc]
    · simp only [wait, entered]
      exact nodup_append.mpr ⟨inv.distinct, List.nodup_singleton id, fun a old b new same =>
        missing (by rw [← mem_singleton.mp new, ← same]; exact old)⟩
    · intro other
      simp only [wait, entered, work, ↓reduceIte, mem_append, mem_singleton]
      by_cases same : other = id
      · subst same
        simp
      · simp only [update_of_ne same, same, or_false]
        exact inv.calling other
    · intro other inServed
      have different : other ≠ id := by
        rintro rfl
        exact missing (by rw [inv.arrived]; exact List.mem_append_left _ inServed)
      simp only [wait, entered, update_of_ne different]
      exact inv.done other inServed
    · intro other inQueue
      simp only [wait, entered, work, ↓reduceIte]
      by_cases same : other = id
      · subst same
        exact ⟨work, by simp⟩
      have old : other ∈ queue := by
        rcases mem_append.mp inQueue with old | new
        · exact old
        · exact absurd (mem_singleton.mp new) same
      simp only [update_of_ne same]
      exact inv.waiting other old
  obtain ⟨m, served, works⟩ := inv.memory
  cases queue with
  | nil =>
    have head : entered.idequeue = some id := holds.1
    have started : idestart id entered =
        .ok { entered with command := some (IdeCommand.make (s.buf id)) } := starts small works.1
    refine ⟨_, ?_, after (some (IdeCommand.make (s.buf id))) m
      (.inl ⟨rfl, works.2.1, works.2.2⟩) served⟩
    rw [runs, if_pos head, started]
    rfl
  | cons front rest =>
    have head : entered.idequeue ≠ some id := by
      have leads : entered.idequeue = some front := holds.1
      rw [leads]
      rintro same
      cases same
      exact absent mem_cons_self
    refine ⟨_, ?_, after s.command m works served⟩
    rw [runs, if_neg head]
    rfl

/-- Which flags the call at the head of the queue ends with, and what is in its buffer. -/
theorem serves (inv : Inv first s (id :: rest)) {m : Memide}
    (served : Memide.serve s.served first.buf ⟨FSSIZE, first.disk 1⟩ = .ok (s.buf, m))
    (completed : s.Completed id m) :
    ∃ last : Memide, Memide.serve (s.served ++ [id]) first.buf ⟨FSSIZE, first.disk 1⟩ =
        .ok (update s.buf id
          { s.buf id with
            data := if (s.buf id).dirty then (s.buf id).data else s.register
            valid := true
            dirty := false }, last) ∧
      s.disk 1 = last.memdisk := by
  obtain ⟨busy, dev, small⟩ := inv.request id
  have work := (inv.waiting id mem_cons_self).1
  have size : m.disksize = FSSIZE := Memide.serve_disksize served
  have call := Memide.iderw_eq busy work dev (by rw [size]; exact small)
  have all := Memide.serve_concat served call
  cases dirty : (s.buf id).dirty with
  | true =>
    simp only [Completed, dirty, ↓reduceIte] at completed
    simp only [dirty, ↓reduceIte] at all ⊢
    exact ⟨_, all, completed⟩
  | false =>
    simp only [Completed, dirty, Bool.false_eq_true, ↓reduceIte] at completed
    simp only [dirty, Bool.false_eq_true, ↓reduceIte] at all ⊢
    rw [completed.2]
    exact ⟨m, all, completed.1⟩

/-- The interrupt handler serves the head of the queue and starts the next request. -/
theorem interrupts (inv : Inv first s queue) (raised : s.raised = true) :
    ∃ next queue', s.ideintr = .ok next ∧ Inv first next queue' := by
  obtain ⟨m, served, works⟩ := inv.memory
  cases queue with
  | nil =>
    rw [works.2.1] at raised
    cases raised
  | cons id rest =>
    rcases works with ⟨_, lowered, _⟩ | ⟨idle, _, completed⟩
    · rw [lowered] at raised
      cases raised
    obtain ⟨head, tail⟩ := inv.holds
    obtain ⟨last, all, disk⟩ := inv.serves served completed
    generalize newBuf : update s.buf id
      { s.buf id with
        data := if (s.buf id).dirty then (s.buf id).data else s.register
        valid := true
        dirty := false } = buf at all
    have distinct := inv.distinct
    rw [inv.arrived] at distinct
    have absent : id ∉ rest := (List.nodup_cons.mp (nodup_append.mp distinct).2.1).1
    have own : buf id = { s.buf id with
        data := if (s.buf id).dirty then (s.buf id).data else s.register
        valid := true
        dirty := false } := by
      rw [← newBuf, update_self]
    have others : ∀ other, other ≠ id → buf other = s.buf other := by
      intro other different
      rw [← newBuf, update_of_ne different]
    -- The head has left the queue, and its process is awake.
    let after : Ide ι :=
      { s with raised := false, idequeue := s.qnext id, buf, served := s.served ++ [id] }
    have kept : ∀ command, Works { after.wakeup id with command } last rest →
        Inv first { after.wakeup id with command } rest := by
      intro command works
      refine ⟨tail, ?_, inv.distinct, inv.havedisk1, ?_, ?_, ?_, ?_, last, all, works⟩
      · simp only [wakeup, after, inv.arrived, List.append_assoc, List.singleton_append]
      · intro other
        by_cases same : other = id
        · subst same
          simp only [wakeup, after, own]
          exact inv.request other
        · simp only [wakeup, after, others other same]
          exact inv.request other
      · intro other
        simp only [wakeup, after]
        rw [← inv.calling other]
        constructor
        · intro now
          split at now
          · cases now
          · exact now
        · intro before
          rw [if_neg fun asleep => by rw [before] at asleep; cases asleep.1]
          exact before
      · intro other inServed
        simp only [wakeup, after] at inServed ⊢
        rcases mem_append.mp inServed with old | new
        · have different : other ≠ id := by
            rintro rfl
            exact inv.apart old mem_cons_self
          obtain ⟨valid, clean, awake⟩ := inv.done other old
          rw [others other different]
          refine ⟨valid, clean, ?_⟩
          split
          · decide
          · exact awake
        · rw [mem_singleton.mp new]
          refine ⟨by rw [own], by rw [own], ?_⟩
          split
          · decide
          · rename_i different
            exact fun asleep => different ⟨asleep, rfl, rfl, rfl⟩
      · intro other inRest
        have different : other ≠ id := by
          rintro rfl
          exact absent inRest
        obtain ⟨work, notBack⟩ := inv.waiting other (List.mem_cons_of_mem id inRest)
        simp only [wakeup, after, others other different]
        refine ⟨work, ?_⟩
        split
        · decide
        · exact notBack
    cases rest with
    | nil =>
      have empty : s.qnext id = none := tail
      refine ⟨_, [], ?_, kept s.command ⟨idle, rfl, disk⟩⟩
      simp only [ideintr, head, newBuf, wakeup, empty, after]
    | cons next rest =>
      have leads : s.qnext id = some next := tail.1
      have small : ((after.wakeup id).buf next).blockno.toNat < FSSIZE := by
        have different : next ≠ id := by
          rintro rfl
          exact absent mem_cons_self
        simp only [wakeup, after, others next different]
        exact (inv.request next).2.2
      have started : idestart next (after.wakeup id) = .ok { after.wakeup id with
          command := some (IdeCommand.make ((after.wakeup id).buf next)) } := starts small idle
      refine ⟨_, next :: rest, ?_, kept (some (IdeCommand.make ((after.wakeup id).buf next)))
        (.inl ⟨rfl, rfl, disk⟩)⟩
      rw [← started]
      simp only [ideintr, head, newBuf, wakeup, leads, after]

/-- Which steps can fail: a call for a buffer that is valid and clean. -/
theorem step (inv : Inv first s queue) {event : IdeEvent ι} (enabled : s.Enabled event) :
    (∃ next queue', s.take event = .ok next ∧ Inv first next queue') ∨
      ∃ id, event = .iderw id ∧ s.take event = .error (.panic "iderw: nothing to do") ∧
        (s.buf id).valid ∧ ¬ (s.buf id).dirty := by
  cases event with
  | iderw id =>
    by_cases work : (s.buf id).valid ∧ ¬ (s.buf id).dirty
    · refine .inr ⟨id, rfl, ?_, work⟩
      simp only [take, iderw, (inv.request id).1, Bool.not_true, Bool.false_eq_true, ↓reduceIte, work,
        not_false_eq_true, and_self]
    · obtain ⟨next, ran, after⟩ := inv.enters enabled work
      exact .inl ⟨next, _, ran, after⟩
  | resume id =>
    have woken : s.stage id = .woken := enabled
    exact .inl ⟨_, queue, rfl, inv.waits (by rw [woken]; decide)⟩
  | complete => exact .inl ⟨_, queue, rfl, inv.completes enabled⟩
  | ideintr =>
    obtain ⟨next, queue', ran, after⟩ := inv.interrupts enabled
    exact .inl ⟨next, queue', ran, after⟩
  | wake id =>
    have asleep : s.stage id = .sleeping := enabled
    have called : s.stage id ≠ .calling := by
      rw [asleep]
      decide
    have member : id ∈ s.arrived := by
      rw [inv.arrived, mem_append]
      exact inv.cases called
    exact .inl ⟨_, queue, rfl, inv.restage member (by decide) (fun _ => by decide)
      fun _ => by decide⟩

end Inv

theorem Run.inv {first s : Ide ι} (run : Run first s) : ∃ queue, Inv first s queue := by
  induction run with
  | start start => exact ⟨[], .start start⟩
  | step before enabled takes ih =>
    obtain ⟨queue, inv⟩ := ih
    rcases inv.step enabled with ⟨next, queue', ran, after⟩ | ⟨_, _, failed, _⟩
    · rw [takes] at ran
      cases ran
      exact ⟨queue', after⟩
    · rw [takes] at failed
      cases failed

/-- Requests are served in the order of their arrival, each once, and the device has work while
requests wait. A call returns only after its request has been served, with a valid and clean
buffer, and the process of a served request is awake. A call panics only where `memide.c`
panics as well. When all requests have been served, the buffers and the disk are those of
`memide.c` after the same requests. -/
theorem drivers_interchangeable {first s : Ide ι} (run : Run first s) :
    (∃ queue, s.arrived = s.served ++ queue ∧ s.arrived.Nodup ∧
      (queue ≠ [] → s.command.isSome = true ∨ s.raised = true)) ∧
    (∀ id, s.stage id = .returned →
      id ∈ s.served ∧ (s.buf id).valid = true ∧ (s.buf id).dirty = false) ∧
    (∀ id ∈ s.served, s.stage id ≠ .sleeping) ∧
    (∀ event halt, s.Enabled event → s.take event = .error halt →
      ∃ id, event = .iderw id ∧ ∀ m : Memide, m.iderw (s.buf id) = .error halt) ∧
    (s.served = s.arrived → ∃ m,
      Memide.serve s.arrived first.buf ⟨FSSIZE, first.disk 1⟩ = .ok (s.buf, m) ∧
      s.disk 1 = m.memdisk) := by
  obtain ⟨queue, inv⟩ := run.inv
  obtain ⟨m, served, works⟩ := inv.memory
  refine ⟨⟨queue, inv.arrived, inv.distinct, ?_⟩, ?_, fun id member => (inv.done id member).2.2,
    ?_, ?_⟩
  · intro some_
    cases queue with
    | nil => exact absurd rfl some_
    | cons id rest =>
      rcases works with ⟨command, _⟩ | ⟨_, raised, _⟩
      · exact .inl (by rw [command]; rfl)
      · exact .inr raised
  · intro id returned
    have called : s.stage id ≠ .calling := by
      rw [returned]
      decide
    rcases inv.cases called with done | waits
    · exact ⟨done, (inv.done id done).1, (inv.done id done).2.1⟩
    · exact absurd returned (inv.waiting id waits).2
  · intro event halt enabled failed
    rcases inv.step enabled with ⟨next, _, ran, _⟩ | ⟨id, same, panicked, idle⟩
    · rw [failed] at ran
      cases ran
    refine ⟨id, same, fun m => ?_⟩
    rw [failed] at panicked
    cases panicked
    simp only [Memide.iderw, (inv.request id).1, Bool.not_true, Bool.false_eq_true, ↓reduceIte, idle,
      not_false_eq_true, and_self]
  · intro all
    have empty : queue = [] := by
      have arrived := inv.arrived
      rw [← all] at arrived
      exact List.self_eq_append_right.mp arrived
    subst empty
    rw [← all]
    exact ⟨m, served, works.2.2⟩

/-- One request to read a block, from the call to its return. -/
theorem drivers_interchangeable_read :
    ∃ first s : Ide Unit, Run first s ∧ s.stage () = .returned ∧ s.served = s.arrived ∧
      (s.buf ()).valid = true := by
  let first : Ide Unit :=
    { buf := fun _ => { Bcache.blank with busy := true, dev := 1, blockno := 7 }
      qnext := fun _ => none
      idequeue := none
      havedisk1 := true
      disk := fun _ _ _ => 5
      command := none
      register := fun _ => 0
      raised := false
      stage := fun _ => .calling
      arrived := []
      served := [] }
  have small : (7 : UInt32).toNat < FSSIZE := by decide
  have start : Start first :=
    ⟨rfl, rfl, rfl, rfl, fun _ => rfl, rfl, rfl, fun _ => rfl, fun _ => rfl, fun _ => small⟩
  have called := (Run.start start).step (show first.Enabled (.iderw ()) from rfl) rfl
  have completed := called.step (show Enabled _ .complete from rfl) rfl
  have interrupted := completed.step (show Enabled _ .ideintr from rfl) rfl
  have resumed := interrupted.step (show Enabled _ (.resume ()) from rfl) rfl
  exact ⟨first, _, resumed, rfl, rfl, ((drivers_interchangeable resumed).2.1 () rfl).2.1⟩

end Ide

end RtXv6
