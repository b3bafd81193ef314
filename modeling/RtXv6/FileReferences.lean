import Mathlib.Data.Fintype.Prod
import RtXv6.PointUpdates
import RtXv6.ProcessFiles
import RtXv6.Tally

/-!
# References to open files and pipes

Every reference that a file counts is a descriptor of some process. While a call runs, a
file may have a reference more than descriptors, or one less: `extra` says by how much.
A pipe is allocated as long as a file leads to it, and each of its two ends is open as long
as the one file of that end is.
-/

namespace RtXv6.Fs

open Function (update update_self update_of_ne)
open PointUpdates Stateful Tally

/-- A connection of a file to the page of a pipe. -/
structure Wire where
  page : Nat
  readable : Bool
  writable : Bool
  deriving DecidableEq

/-- The connection of a file that is in use. -/
def wire (file : File) : Option Wire :=
  if 0 < file.ref ∧ file.type = .pipe then some ⟨file.pipe, file.readable, file.writable⟩ else none

variable {file : File}

theorem wire_none (other : file.type ≠ .pipe) : wire file = none :=
  if_neg fun both => other both.2

theorem wire_some (held : 0 < file.ref) (type : file.type = .pipe) :
    wire file = some ⟨file.pipe, file.readable, file.writable⟩ := if_pos ⟨held, type⟩

theorem wire_unused (unused : file.ref = 0) : wire file = none :=
  if_neg fun both => by rw [unused] at both; exact absurd both.1 (by decide)

/-- Every end of a pipe that is open has one file, and there is no pipe without an open
end. -/
structure Plumbing (wires : FileId → Option Wire) (pipes : Nat → Option Pipe) : Prop where
  live : ∀ page pipe, pipes page = some pipe → pipe.readopen = true ∨ pipe.writeopen = true
  reads : ∀ page pipe, pipes page = some pipe →
    (pipe.readopen = true ↔ ∃ f, wires f = some ⟨page, true, false⟩)
  writes : ∀ page pipe, pipes page = some pipe →
    (pipe.writeopen = true ↔ ∃ f, wires f = some ⟨page, false, true⟩)
  proper : ∀ f w, wires f = some w → pipes w.page ≠ none ∧ w.readable = !w.writable
  unique : ∀ f g w, wires f = some w → wires g = some w → f = g

/-- Whether an end of a pipe is open. -/
def openEnd (pipe : Pipe) (writable : Bool) : Bool :=
  if writable then pipe.writeopen else pipe.readopen

theorem remains_iff {pipe rest : Pipe} :
    remains pipe = some rest ↔ rest = pipe ∧ ∃ side, openEnd pipe side = true := by
  unfold remains
  split
  · next both => simp [openEnd, both.1, both.2]
  next one =>
  rw [Option.some.injEq, eq_comm, iff_self_and]
  intro _
  by_contra closed
  simp only [openEnd, Bool.exists_bool, not_or, Bool.not_eq_true] at closed
  exact one closed

namespace Plumbing

variable {wires : FileId → Option Wire} {pipes : Nat → Option Pipe}

section

variable (plumbing : Plumbing wires pipes) {page : Nat} {pipe : Pipe}
  (allocated : pipes page = some pipe)
include plumbing allocated

theorem ends (side : Bool) :
    openEnd pipe side = true ↔ ∃ f, wires f = some ⟨page, !side, side⟩ := by
  cases side with
  | false => exact plumbing.reads page pipe allocated
  | true => exact plumbing.writes page pipe allocated

theorem opens : ∃ side, openEnd pipe side = true := by
  rcases plumbing.live page pipe allocated with reader | writer
  · exact ⟨false, reader⟩
  · exact ⟨true, writer⟩

end

theorem of_ends (ends : ∀ page pipe, pipes page = some pipe →
      (∃ side, openEnd pipe side = true) ∧
        ∀ side, openEnd pipe side = true ↔ ∃ f, wires f = some ⟨page, !side, side⟩)
    (proper : ∀ f w, wires f = some w → pipes w.page ≠ none ∧ w.readable = !w.writable)
    (unique : ∀ f g w, wires f = some w → wires g = some w → f = g) : Plumbing wires pipes := by
  refine ⟨?_, ?_, ?_, proper, unique⟩
  · intro page pipe allocated
    obtain ⟨⟨side, open_⟩, _⟩ := ends page pipe allocated
    cases side with
    | false => exact .inl open_
    | true => exact .inr open_
  · exact fun page pipe allocated => (ends page pipe allocated).2 false
  · exact fun page pipe allocated => (ends page pipe allocated).2 true

theorem connect (plumbing : Plumbing wires pipes) {page : Nat} (fresh : pipes page = none)
    {f0 f1 : FileId} (different : f0 ≠ f1) (first : wires f0 = none) (second : wires f1 = none) :
    Plumbing (update (update wires f0 (some ⟨page, true, false⟩)) f1
      (some ⟨page, false, true⟩)) (update pipes page (some ⟨true, true⟩)) := by
  have absent : ∀ f readable writable, wires f ≠ some ⟨page, readable, writable⟩ :=
    fun f _ _ before => (plumbing.proper f _ before).1 fresh
  have wired : ∀ f w, update (update wires f0 (some ⟨page, true, false⟩)) f1
      (some ⟨page, false, true⟩) f = some w ↔ f = f0 ∧ w = ⟨page, true, false⟩ ∨
        f = f1 ∧ w = ⟨page, false, true⟩ ∨ wires f = some w := by
    intro f w
    by_cases isSecond : f = f1
    · simp [isSecond, second, different.symm, eq_comm]
    by_cases isFirst : f = f0
    · simp [isFirst, first, different, eq_comm]
    · simp [isFirst, isSecond]
  refine of_ends ?_ ?_ ?_
  · intro other pipe allocated
    rcases update_cases id allocated with ⟨rfl, ⟨⟩⟩ | ⟨here, old⟩
    · refine ⟨⟨true, rfl⟩, fun side => ⟨fun _ => ?_, fun _ => by cases side <;> rfl⟩⟩
      cases side with
      | false => exact ⟨f0, (wired ..).mpr (.inl ⟨rfl, rfl⟩)⟩
      | true => exact ⟨f1, (wired ..).mpr (.inr (.inl ⟨rfl, rfl⟩))⟩
    · refine ⟨plumbing.opens old, fun side => ?_⟩
      simp [wired, here, plumbing.ends old side]
  · intro f w now
    rcases (wired f w).mp now with ⟨_, rfl⟩ | ⟨_, rfl⟩ | before
    · simp
    · simp
    have here : w.page ≠ page := by
      rintro rfl
      exact absent f _ _ before
    rw [update_of_ne here]
    exact plumbing.proper f w before
  · intro f g w nowF nowG
    rw [wired] at nowF nowG
    by_cases reads : w = ⟨page, true, false⟩
    · simp [reads, absent] at nowF nowG
      rw [nowF, nowG]
    by_cases writes : w = ⟨page, false, true⟩
    · simp [writes, absent] at nowF nowG
      rw [nowF, nowG]
    · simp only [reads, writes, and_false, false_or] at nowF nowG
      exact plumbing.unique f g w nowF nowG

theorem disconnect (plumbing : Plumbing wires pipes) {f : FileId} {w : Wire}
    (wired : wires f = some w) {pipe : Pipe} (allocated : pipes w.page = some pipe) :
    Plumbing (update wires f none)
      (update pipes w.page (remains (closeEnd pipe w.writable))) := by
  obtain ⟨page, readable, writable⟩ := w
  obtain rfl : readable = !writable := (plumbing.proper f _ wired).2
  have kept : ∀ g w, update wires f none g = some w ↔
      wires g = some w ∧ w ≠ ⟨page, !writable, writable⟩ := by
    intro g w
    by_cases here : g = f
    · simp [here, wired, eq_comm]
    rw [update_of_ne here]
    refine ⟨fun equal => ⟨equal, ?_⟩, fun both => both.1⟩
    rintro rfl
    exact here (plumbing.unique g f _ equal wired)
  have ends : ∀ side, openEnd (closeEnd pipe writable) side = true ↔
      ∃ g, update wires f none g = some ⟨page, !side, side⟩ := by
    intro side
    simp only [kept, exists_and_right, ← plumbing.ends allocated side]
    cases writable <;> cases side <;> simp [closeEnd, openEnd]
  refine of_ends ?_ ?_ ?_
  · intro other rest equal
    rcases update_cases id equal with ⟨rfl, left⟩ | ⟨here, old⟩
    · obtain ⟨rfl, open_⟩ := remains_iff.mp left
      exact ⟨open_, ends⟩
    · refine ⟨plumbing.opens old, fun side => ?_⟩
      simp [kept, here, plumbing.ends old side]
  · intro g w equal
    have before := plumbing.proper g w ((kept g w).mp equal).1
    refine ⟨?_, before.2⟩
    by_cases here : w.page = page
    · obtain ⟨otherPage, otherReadable, side⟩ := w
      obtain rfl : otherPage = page := here
      obtain rfl : otherReadable = !side := before.2
      rw [update_self, remains_iff.mpr ⟨rfl, side, (ends side).mpr ⟨g, equal⟩⟩]
      simp
    · rw [update_of_ne here]
      exact before.1
  · intro g h w equalG equalH
    exact plumbing.unique g h w ((kept g w).mp equalG).1 ((kept h w).mp equalH).1

end Plumbing

/-- The file behind a descriptor of a process. -/
def holds (s : Fs) (place : Slot × Fin NOFILE) : Option FileId := (s.proc place.1).ofile place.2

/-- Files count their descriptors, with some to spare; a file without references is of no
type; the ends of pipes are those of their files; free pages hold no pipe. -/
structure Refs (s : Fs) (extra : FileId → Int) : Prop where
  counts : ∀ f, (s.ftable f).ref = tally s.holds f + extra f
  idle : ∀ f, (s.ftable f).ref = 0 → (s.ftable f).type = .none
  plumbing : Plumbing (fun f => wire (s.ftable f)) s.pipes
  pages : s.Pages s.kmem

theorem withOfile_holds (s : Fs) (process : Slot) (fd : Fin NOFILE) (f : Option FileId) :
    (s.withOfile process fd f).holds = update s.holds (process, fd) f := by
  funext ⟨other, index⟩
  unfold holds withOfile withProc
  by_cases here : other = process
  · subst here
    by_cases same : index = fd
    · subst same
      simp
    have different : (other, index) ≠ (other, fd) := fun equal => same (Prod.mk.inj equal).2
    rw [update_of_ne different]
    simp [update_of_ne same]
  · have different : (other, index) ≠ (process, fd) := fun equal => here (Prod.mk.inj equal).1
    rw [update_of_ne different]
    simp [update_of_ne here]

theorem withCwd_holds (s : Fs) (process : Slot) (ip : Option InodeId) :
    (s.withCwd process ip).holds = s.holds := by
  funext ⟨other, index⟩
  unfold holds withCwd withProc
  by_cases here : other = process
  · subst here
    simp
  · simp [update_of_ne here]

namespace Refs

variable {s next : Fs} {extra : FileId → Int}

variable {other : FileId → Int}

section

variable (refs : Refs s extra)
include refs

theorem congr (same : ∀ f, other f = extra f) : Refs s other := by
  obtain rfl : other = extra := funext same
  exact refs

theorem frame (frame : Frame s next) : Refs next extra := by
  have holders : next.holds = s.holds := by
    unfold holds
    rw [frame.proc]
  refine ⟨?_, ?_, ?_, ?_⟩
  · rw [frame.ftable, holders]
    exact refs.counts
  · rw [frame.ftable]
    exact refs.idle
  · rw [frame.ftable, frame.pipes]
    exact refs.plumbing
  · rw [Pages, frame.kmem, frame.pipes]
    exact refs.pages

/-- The references and types when a file changes its number of references. -/
theorem places (f : FileId) (file : File) (idle : file.ref = 0 → file.type = .none)
    (count : other f = extra f + file.ref - (s.ftable f).ref)
    (rest : ∀ g, g ≠ f → other g = extra g) (g : FileId) :
    ((s.withFile f file).ftable g).ref = tally s.holds g + other g ∧
      (((s.withFile f file).ftable g).ref = 0 → ((s.withFile f file).ftable g).type = .none) := by
  by_cases here : g = f
  · have before := refs.counts f
    rw [here, withFile_self]
    exact ⟨by omega, idle⟩
  · rw [withFile_other _ _ here, rest g here]
    exact ⟨refs.counts g, refs.idle g⟩

/-- A file that changes its number of references and keeps its connection. -/
theorem recount (f : FileId) (file : File) (idle : file.ref = 0 → file.type = .none)
    (same : wire file = wire (s.ftable f))
    (count : other f = extra f + file.ref - (s.ftable f).ref)
    (rest : ∀ g, g ≠ f → other g = extra g) : Refs (s.withFile f file) other := by
  have places := refs.places f file idle count rest
  refine ⟨fun g => (places g).1, fun g => (places g).2, ?_, refs.pages⟩
  · have wires : (fun g => wire ((s.withFile f file).ftable g)) = fun g => wire (s.ftable g) :=
      funext (withFile_field wire s f same)
    rw [wires]
    exact refs.plumbing

/-- A file that changes and keeps its references and its connection. -/
theorem retype (f : FileId) (file : File) (count : file.ref = (s.ftable f).ref)
    (idle : file.ref = 0 → file.type = .none) (same : wire file = wire (s.ftable f)) :
    Refs (s.withFile f file) extra :=
  refs.recount f file idle same (by omega) fun _ _ => rfl

theorem hold (process : Slot) (fd : Fin NOFILE) (f : Option FileId) :
    Refs (s.withOfile process fd f) (extra + mark ((s.proc process).ofile fd) - mark f) := by
  refine ⟨?_, refs.idle, refs.plumbing, refs.pages⟩
  intro g
  have before := refs.counts g
  have old : s.holds (process, fd) = (s.proc process).ofile fd := rfl
  rw [withOfile_holds, tally_update, old, withOfile_ftable, Pi.sub_apply, Pi.add_apply]
  omega

end

variable {f : FileId}

variable (refs : Refs s extra)
include refs

/-- A file that counts more than its spare references is in use. -/
theorem held {process : Slot} {fd : Fin NOFILE} (descriptor : (s.proc process).ofile fd = some f)
    (spare : 0 ≤ extra f) : 1 ≤ (s.ftable f).ref := by
  have count := refs.counts f
  have some : 0 < tally s.holds f := tally_pos_iff.mpr ⟨(process, fd), descriptor⟩
  omega

theorem spare (more : 1 ≤ extra f) : 1 ≤ (s.ftable f).ref := by
  have count := refs.counts f
  have bound := tally_nonneg s.holds f
  omega

theorem alloc (unused : (s.ftable f).ref = 0) :
    Refs (s.withFile f (counted (s.ftable f) 1)) (extra + mark (some f)) := by
  have type := refs.idle f unused
  have file : (counted (s.ftable f) 1).type ≠ .pipe := by
    show (s.ftable f).type ≠ .pipe
    rw [type]
    decide
  have one : (counted (s.ftable f) 1).ref = 1 := rfl
  refine refs.recount f (counted (s.ftable f) 1) (fun zero => ?_) ?_ ?_ fun _ => mark_except extra
  · rw [one] at zero
    cases zero
  · rw [wire_none file, wire_unused unused]
  · rw [Pi.add_apply, mark_self, unused, one]
    omega

/-- A file in use gets another reference, or loses one that is not the last. -/
theorem step {count : Int} (held : 0 < (s.ftable f).ref) (still : 0 < count)
    (counts : other f = extra f + count - (s.ftable f).ref)
    (rest : ∀ g, g ≠ f → other g = extra g) :
    Refs (s.withFile f (counted (s.ftable f) count)) other := by
  refine refs.recount f (counted (s.ftable f) count) (fun zero => ?_) ?_ counts rest
  · exact absurd zero (Int.ne_of_gt still)
  by_cases type : (s.ftable f).type = .pipe
  · rw [wire_some held type]
    exact wire_some still type
  · rw [wire_none type]
    exact wire_none type

theorem last (one : (s.ftable f).ref = 1) (type : (s.ftable f).type ≠ .pipe) :
    Refs (s.withFile f (closed (s.ftable f))) (extra - mark (some f)) := by
  have zero : (closed (s.ftable f)).ref = 0 := rfl
  refine refs.recount f (closed (s.ftable f)) (fun _ => rfl) ?_ ?_ fun _ => mark_less extra
  · rw [wire_none type, wire_unused zero]
  · rw [Pi.sub_apply, mark_self, zero, one]
    omega

/-- A file of a pipe loses its last reference, and its end of the pipe is closed. -/
theorem hangUp (one : (s.ftable f).ref = 1) (type : (s.ftable f).type = .pipe) {pipe : Pipe}
    (allocated : s.pipes (s.ftable f).pipe = some pipe) {left : Option Pipe} {kmem : List Nat}
    (remaining : remains (closeEnd pipe (s.ftable f).writable) = left)
    (pages : kmem = s.kmem ∨ left = none ∧ kmem = (s.ftable f).pipe :: s.kmem) :
    Refs ((s.withFile f (closed (s.ftable f))).withEnd (s.ftable f).pipe left
      kmem) (extra - mark (some f)) := by
  have wired := wire_some (by rw [one]; decide) type
  have zero : (closed (s.ftable f)).ref = 0 := rfl
  have wires : (fun g => wire ((s.withFile f (closed (s.ftable f))).ftable g)) =
      update (fun g => wire (s.ftable g)) f none := by
    rw [← wire_unused zero]
    exact Function.comp_update wire s.ftable f _
  have count : (extra - mark (some f)) f = extra f + 0 - (s.ftable f).ref := by
    rw [Pi.sub_apply, mark_self, one, Int.add_zero]
  have places := refs.places f (closed (s.ftable f)) (fun _ => rfl) count fun _ => mark_less extra
  refine ⟨fun g => (places g).1, fun g => (places g).2, ?_, ?_⟩
  · show Plumbing (fun g => wire ((s.withFile f _).ftable g)) (update s.pipes _ _)
    rw [wires, ← remaining]
    exact refs.plumbing.disconnect wired allocated
  · have free := refs.pages
    show kmem.Nodup ∧ ∀ page ∈ kmem, update s.pipes (s.ftable f).pipe left page = none
    have absent : (s.ftable f).pipe ∉ s.kmem := by
      intro member
      rw [free.2 _ member] at allocated
      cases allocated
    have others : ∀ page ∈ s.kmem, update s.pipes (s.ftable f).pipe left page = none := by
      intro page member
      have different : page ≠ (s.ftable f).pipe := by
        rintro rfl
        exact absent member
      rw [update_of_ne different]
      exact free.2 page member
    rcases pages with rfl | ⟨gone, rfl⟩
    · exact ⟨free.1, others⟩
    refine ⟨List.nodup_cons.mpr ⟨absent, free.1⟩, ?_⟩
    intro page member
    rcases List.mem_cons.mp member with here | rest
    · rw [here, update_self, gone]
    · exact others page rest

end Refs

variable {s : Fs} {extra : FileId → Int} {f : FileId}

theorem fileclose_refs (refs : Refs s extra) (held : 1 ≤ (s.ftable f).ref) :
    Ends (fun _ next => next.proc = s.proc ∧ Refs next (extra - mark (some f))) Mild
      (fileclose f) s := by
  apply fileclose_ends held
  · intro more
    refine ⟨rfl, refs.step (by omega) (by omega) ?_ fun _ => mark_less extra⟩
    rw [Pi.sub_apply, mark_self]
    omega
  intro one
  unfold closeTarget
  split
  · rename_i type
    obtain ⟨pipe, allocated⟩ : ∃ pipe, s.pipes (s.ftable f).pipe = some pipe :=
      Option.ne_none_iff_exists'.mp (refs.plumbing.proper f _ (wire_some (by omega) type)).1
    have later : (s.withFile f (closed (s.ftable f))).pipes (s.ftable f).pipe = some pipe :=
      allocated
    apply pipeclose_ends later
    · intro gone
      exact ⟨rfl, refs.hangUp one type allocated gone (.inr ⟨rfl, rfl⟩)⟩
    · intro left
      exact ⟨rfl, refs.hangUp one type allocated left (.inl rfl)⟩
  · rename_i type
    have closed := refs.last one (by rw [type]; decide)
    exact ((closeInode_apart _).ends _).imp fun _ _ frame => ⟨frame.proc, closed.frame frame⟩
  · rename_i type
    exact .ret ⟨rfl, refs.last one (by rw [type]; decide)⟩

/-- Code that keeps as many references as descriptors. -/
abbrev Keeps {α : Type} (program : FsM α) : Prop := Maintains (fun s => Refs s 0) Mild program

instance keeps_loose : Loose (fun s next => Refs s 0 → Refs next 0)
    fun s fault => Refs s 0 → Mild fault where
  frame frame refs := refs.frame frame
  moved s f off refs := refs.retype f { s.ftable f with off } rfl (refs.idle f) rfl
  mild _ _ mild _ := mild

theorem sysDup_keeps (process : Slot) (fd : Fin NOFILE) : Keeps (sysDup process fd) := by
  refine Maintains.intro fun s refs => onFile_ends refs fun f descriptor => .andThen (fdalloc_ends ?_ ?_)
  · exact .ret refs
  intro new free
  have held : 1 ≤ (s.ftable f).ref := refs.held descriptor (Int.le_refl 0)
  have taken := refs.hold process new (some f)
  have heldNow : 1 ≤ ((s.withOfile process new (some f)).ftable f).ref := held
  refine .andThen (filedup_ends heldNow (Ends.ret ?_))
  rw [free, mark_none, add_zero] at taken
  refine taken.step (show 0 < (s.ftable f).ref by omega) (by omega) ?_
    fun g here => (mark_less 0 here).symm
  rw [Pi.sub_apply, mark_self, withOfile_ftable, Pi.zero_apply]
  omega

theorem sysClose_keeps (process : Slot) (fd : Fin NOFILE) : Keeps (sysClose process fd) := by
  refine Maintains.intro fun s refs => onFile_ends refs fun f descriptor => ?_
  have given := refs.hold process fd none
  rw [descriptor] at given
  have held : 1 ≤ (s.ftable f).ref := refs.held descriptor (Int.le_refl 0)
  refine Ends.change ?_
  refine (fileclose_refs given held).seq fun _ next ends => .ret (ends.2.congr fun g => ?_)
  simp

theorem closeBoth_refs {rf wf : FileId} (refs : Refs s (mark (some rf) + mark (some wf))) :
    Ends (fun _ next => Refs next 0) Mild (closeBoth rf wf) s := by
  have first : 1 ≤ (s.ftable rf).ref := by
    apply refs.spare
    have bound := mark_nonneg (some wf) rf
    rw [Pi.add_apply, mark_self]
    omega
  refine (fileclose_refs refs first).seq fun _ middle closed => ?_
  have second : 1 ≤ (middle.ftable wf).ref := by
    apply closed.2.spare
    rw [Pi.sub_apply, Pi.add_apply, mark_self]
    omega
  refine (fileclose_refs closed.2 second).imp fun _ next ends => ends.2.congr fun g => ?_
  simp

variable {page : Nat}

theorem Refs.connect {f0 f1 : FileId} (refs : Refs s (mark (some f0) + mark (some f1)))
    (different : f0 ≠ f1) (first : (s.ftable f0).ref = 1 ∧ (s.ftable f0).type = .none)
    (second : (s.ftable f1).ref = 1 ∧ (s.ftable f1).type = .none) {rest : List Nat}
    (free : s.kmem = page :: rest) :
    Refs (((s.withPipe page rest).withFile f0 (plugged (s.ftable f0) page false)).withFile f1
      (plugged (s.ftable f1) page true)) (mark (some f0) + mark (some f1)) := by
  obtain ⟨file0, isReader⟩ : ∃ file, file = plugged (s.ftable f0) page false := ⟨_, rfl⟩
  obtain ⟨file1, isWriter⟩ : ∃ file, file = plugged (s.ftable f1) page true := ⟨_, rfl⟩
  have reader : file0.ref = 1 ∧ wire file0 = some ⟨page, true, false⟩ := by
    rw [isReader]
    exact ⟨first.1, wire_some (show 0 < (s.ftable f0).ref by rw [first.1]; decide) rfl⟩
  have writer : file1.ref = 1 ∧ wire file1 = some ⟨page, false, true⟩ := by
    rw [isWriter]
    exact ⟨second.1, wire_some (show 0 < (s.ftable f1).ref by rw [second.1]; decide) rfl⟩
  rw [← isReader, ← isWriter]
  have pages := refs.pages
  rw [free] at pages
  have fresh : s.pipes page = none := pages.2 page List.mem_cons_self
  have others : ∀ g, g ≠ f0 → g ≠ f1 →
      (((s.withPipe page rest).withFile f0 file0).withFile f1 file1).ftable g = s.ftable g := by
    intro g notFirst notSecond
    rw [withFile_other _ _ notSecond, withFile_other _ _ notFirst]
    rfl
  have atFirst : (((s.withPipe page rest).withFile f0 file0).withFile f1 file1).ftable f0 = file0 := by
    rw [withFile_other _ _ different, withFile_self]
  refine ⟨?_, ?_, ?_, ?_⟩
  · intro g
    show _ = tally s.holds g + _
    rw [← refs.counts g]
    by_cases isFirst : g = f0
    · rw [isFirst, atFirst, reader.1, first.1]
    by_cases isSecond : g = f1
    · rw [isSecond, withFile_self, writer.1, second.1]
    · rw [others g isFirst isSecond]
  · intro g zero
    by_cases isFirst : g = f0
    · rw [isFirst, atFirst, reader.1] at zero
      cases zero
    by_cases isSecond : g = f1
    · rw [isSecond, withFile_self, writer.1] at zero
      cases zero
    · rw [others g isFirst isSecond] at zero ⊢
      exact refs.idle g zero
  · have wires : (fun g => wire ((((s.withPipe page rest).withFile f0 file0).withFile f1
        file1).ftable g)) = update (update (fun g => wire (s.ftable g)) f0
          (some ⟨page, true, false⟩)) f1 (some ⟨page, false, true⟩) := by
      rw [← reader.2, ← writer.2]
      exact (Function.comp_update wire _ f1 file1).trans
        (congrArg (update · f1 _) (Function.comp_update wire s.ftable f0 file0))
    rw [wires]
    exact refs.plumbing.connect fresh different (wire_none (by rw [first.2]; decide))
      (wire_none (by rw [second.2]; decide))
  · refine ⟨(List.nodup_cons.mp pages.1).2, ?_⟩
    intro other member
    show update s.pipes page _ other = none
    have elsewhere : other ≠ page := by
      rintro rfl
      exact (List.nodup_cons.mp pages.1).1 member
    rw [update_of_ne elsewhere]
    exact pages.2 other (List.mem_cons_of_mem _ member)

theorem pipealloc_refs (refs : Refs s 0) :
    Ends (fun made next => (made = none → Refs next 0) ∧ ∀ rf wf, made = some (rf, wf) →
      Refs next (mark (some rf) + mark (some wf))) Mild pipealloc s := by
  refine .andThen (filealloc_ends ?_ ?_)
  · refine .ret ⟨fun _ => refs, ?_⟩
    intro rf wf absent
    cases absent
  intro f0 unused
  have one := refs.alloc unused
  refine .andThen (filealloc_ends ?_ ?_)
  · have held : 1 ≤ ((s.withFile f0 (counted (s.ftable f0) 1)).ftable f0).ref := by
      rw [withFile_self]
      exact Int.le_refl 1
    refine (fileclose_refs one held).seq fun _ next closed => .ret ⟨fun _ => ?_, ?_⟩
    · exact closed.2.congr fun g => by simp
    · intro rf wf absent
      cases absent
  intro f1 unusedNow
  have different : f0 ≠ f1 := by
    rintro rfl
    rw [withFile_self] at unusedNow
    cases unusedNow
  have two := (one.alloc unusedNow).congr
    (show ∀ g, (mark (some f0) + mark (some f1)) g = _ from fun g => by simp)
  obtain ⟨middle, shape⟩ : ∃ middle, middle = (s.withFile f0 (counted (s.ftable f0) 1)).withFile f1
      (counted ((s.withFile f0 (counted (s.ftable f0) 1)).ftable f1) 1) := ⟨_, rfl⟩
  have first : (middle.ftable f0).ref = 1 ∧ (middle.ftable f0).type = .none := by
    rw [shape, withFile_other _ _ different, withFile_self]
    exact ⟨rfl, refs.idle f0 unused⟩
  have second : (middle.ftable f1).ref = 1 ∧ (middle.ftable f1).type = .none := by
    rw [shape, withFile_self]
    exact ⟨rfl, one.idle f1 unusedNow⟩
  rw [← shape] at two ⊢
  refine .andThen (allocPage_ends ?_ ?_)
  · refine (closeBoth_refs two).seq fun _ next closed => .ret ⟨fun _ => closed, ?_⟩
    intro rf wf absent
    cases absent
  intro page rest free
  have moved : ((middle.withPipe page rest).withFile f0
      (plugged (middle.ftable f0) page false)).ftable f1 = middle.ftable f1 :=
    withFile_other _ _ different.symm
  have connected := two.connect different first second free
  rw [← moved] at connected
  refine Ends.change (Ends.change (Ends.ret ⟨fun absent => ?_, ?_⟩))
  · cases absent
  · intro rf wf made
    obtain ⟨rfl, rfl⟩ := Prod.mk.inj (Option.some.inj made)
    exact connected

theorem sysPipe_keeps (process : Slot) : Keeps (sysPipe process) := by
  refine Maintains.intro fun s refs => (pipealloc_refs refs).seq ?_
  intro made middle alloc
  cases made with
  | none => exact .ret (alloc.1 rfl)
  | some files =>
    obtain ⟨rf, wf⟩ := files
    have both := alloc.2 rf wf rfl
    refine .andThen (fdalloc_ends ?_ ?_)
    · exact (closeBoth_refs both).seq fun _ _ closed => .ret closed
    intro fd0 free
    have one := both.hold process fd0 (some rf)
    rw [free, mark_none] at one
    refine .andThen (fdalloc_ends ?_ ?_)
    · have back := one.hold process fd0 none
      have descriptor : ((middle.withOfile process fd0 (some rf)).proc process).ofile fd0 = some rf := by
        simp [withOfile, withProc]
      rw [descriptor] at back
      refine Ends.change ((closeBoth_refs (back.congr fun g => ?_)).seq fun _ _ closed =>
        .ret closed)
      simp only [Pi.add_apply, Pi.sub_apply, Pi.zero_apply, mark_none]
      omega
    · intro fd1 freeNow
      have two := one.hold process fd1 (some wf)
      rw [freeNow, mark_none] at two
      exact .ret (two.congr fun g => by simp)

theorem openInode_keeps (process : Slot) (ip : InodeId) (omode : UInt32) :
    Keeps (openInode process ip omode) := by
  refine Maintains.intro fun s refs => .andThen (filealloc_ends ?_ ?_)
  · exact Maintains.elim (failPut_apart ip).loose refs
  intro f unused
  have one := refs.alloc unused
  have type : (s.ftable f).type = .none := refs.idle f unused
  refine .andThen (fdalloc_ends ?_ ?_)
  · have held : 1 ≤ ((s.withFile f (counted (s.ftable f) 1)).ftable f).ref := by
      rw [withFile_self]
      exact Int.le_refl 1
    refine (fileclose_refs one held).seq fun _ middle closed => ?_
    exact Maintains.elim (failPut_apart ip).loose (closed.2.congr fun g => by simp)
  intro fd free
  have two := one.hold process fd (some f)
  have now : ((s.withFile f (counted (s.ftable f) 1)).withOfile process fd (some f)).ftable f =
      counted (s.ftable f) 1 := withFile_self ..
  refine ((iunlock_apart ip).ends _).seq fun _ middle unlocked => ?_
  refine (endOp_apart.ends _).seq fun _ next ended => Ends.change (Ends.ret ?_)
  have frame := frame_steps.trans unlocked ended
  have file : next.ftable f = counted (s.ftable f) 1 := by
    rw [frame.ftable, now]
  have later := two.frame frame
  have one : (next.ftable f).ref = 1 := by rw [file]; rfl
  have none : wire (next.ftable f) = none := by
    apply wire_none
    rw [file, show (counted (s.ftable f) 1).type = .none from type]
    decide
  rw [free, mark_none] at later
  refine (later.congr fun g => ?_).retype f _ rfl (fun zero => ?_) ?_
  · simp
  · exact absurd (one.symm.trans zero) (by decide)
  · rw [none]
    exact wire_none fun equal => by cases equal

theorem setCwd_keeps (process : Slot) (ip : Option InodeId) : Keeps (setCwd process ip) := by
  refine Maintains.intro fun s refs => ?_
  have moved : Refs (s.withCwd process ip) 0 := by
    refine ⟨?_, refs.idle, refs.plumbing, refs.pages⟩
    rw [withCwd_holds]
    exact refs.counts
  exact moved

variable {process : Slot}

theorem fork_refs (refs : Refs s 0) {child : Slot} (vacant : ∀ fd, (s.proc child).ofile fd = none)
    (memory : Bool) : Ends (fun _ next => Refs next 0) Mild (fork process child memory) s := by
  have copy : Ends (fun _ next => Refs next 0 ∧ ∀ fd ∈ ([] : List (Fin NOFILE)),
      (next.proc child).ofile fd = none) Mild
      ((List.finRange NOFILE).forM (forkFile process child)) s := by
    refine Ends.loop (fun rest next => (Refs next 0 ∧ ∀ fd ∈ rest,
      (next.proc child).ofile fd = none) ∧ rest.Nodup)
      ⟨⟨refs, fun fd _ => vacant fd⟩, List.nodup_finRange _⟩ ?_ |>.imp fun _ _ both => both.1
    rintro fd rest middle ⟨⟨refs, empty⟩, distinct⟩
    have remaining := List.nodup_cons.mp distinct
    apply Ends.read
    split
    · exact .ret ⟨⟨refs, fun other member => empty other (List.mem_cons_of_mem _ member)⟩,
        remaining.2⟩
    rename_i f descriptor
    have held : 1 ≤ (middle.ftable f).ref := refs.held descriptor (Int.le_refl 0)
    refine .andThen (filedup_ends held ?_)
    have counted : Refs _ (0 + mark (some f)) :=
      refs.step (show 0 < (middle.ftable f).ref by omega)
        (show 0 < (middle.ftable f).ref + 1 by omega)
        (by rw [Pi.add_apply, mark_self]; omega) fun _ => mark_except 0
    have given := counted.hold child fd (some f)
    have free : ((middle.withFile f (Fs.counted (middle.ftable f)
        ((middle.ftable f).ref + 1))).proc child).ofile fd = none := empty fd List.mem_cons_self
    rw [free, mark_none] at given
    have shared : Refs ((middle.withFile f (Fs.counted (middle.ftable f)
        ((middle.ftable f).ref + 1))).withOfile child fd (some f)) 0 :=
      given.congr fun g => by simp
    refine ⟨⟨shared, fun other member => ?_⟩, remaining.2⟩
    have different : other ≠ fd := by
      rintro rfl
      exact remaining.1 member
    simp only [update_self, update_of_ne different]
    exact empty other (List.mem_cons_of_mem _ member)
  unfold fork
  split
  · refine copy.seq fun _ middle copied => ?_
    have rest : Keeps (do
        let s ← get
        let cwd ← deref (s.proc process).cwd
        let ip ← idup cwd
        setCwd child (some ip)
        pure 0 : FsM Int32) :=
      .read fun s => (deref_apart _).loose.seq fun _ =>
        (idup_apart _).loose.seq fun _ => (setCwd_keeps ..).seq fun _ => .ret _
    exact rest.elim copied.1
  · exact .ret refs

theorem exitFile_keeps (process : Slot) (fd : Fin NOFILE) : Keeps (exitFile process fd) := by
  refine Maintains.intro fun s refs => ?_
  apply Ends.read
  split
  · exact .ret refs
  rename_i f descriptor
  have held : 1 ≤ (s.ftable f).ref := refs.held descriptor (Int.le_refl 0)
  refine (fileclose_refs refs held).seq fun _ middle closed => ?_
  have given := closed.2.hold process fd none
  rw [closed.1, descriptor] at given
  have cleared : Refs (middle.withOfile process fd none) 0 := given.congr fun g => by simp
  exact cleared

theorem exit_keeps (process : Slot) : Keeps (exit process) :=
  (Respects.loop _ (exitFile_keeps process)).seq fun _ => beginOp_apart.loose.seq fun _ =>
    .read fun _ => (deref_apart _).loose.seq fun _ =>
    (iput_apart _).loose.seq fun _ => endOp_apart.loose.seq fun _ =>
    (setCwd_keeps ..).seq fun _ => .ret _

/-- Every call keeps the references, and fails with mild faults only. -/
theorem perform_refs (refs : Refs s 0) (tidy : Tidy s) {call : Call}
    (enabled : s.Enabled process call) :
    Ends (fun _ next => Refs next 0) Mild (perform process call) s := by
  cases call with
  | dup fd => exact Maintains.elim (sysDup_keeps process fd) refs
  | read fd n transferred =>
    exact Maintains.elim (onFile_loose process fd fun f => fileread_loose f n transferred) refs
  | write fd src n transferred =>
    exact Maintains.elim (onFile_loose process fd fun f => filewrite_loose f src n transferred) refs
  | close fd => exact Maintains.elim (sysClose_keeps process fd) refs
  | fstat fd => exact Maintains.elim (onFile_loose process fd fun f => (filestat_apart f).loose) refs
  | link old new => exact Maintains.elim (sysLink_apart process old new).loose refs
  | unlink path => exact Maintains.elim (sysUnlink_apart process path).loose refs
  | «open» path omode =>
    exact Maintains.elim (sysOpen_loose process path omode fun ip => openInode_keeps ..) refs
  | mkdir path | mknod path => exact Maintains.elim (sysMake_apart process path ..).loose refs
  | chdir path => exact Maintains.elim (sysChdir_loose process path fun ip => setCwd_keeps ..) refs
  | exec path stretches r => exact Maintains.elim (sysExec_apart process path ..).loose refs
  | pipe => exact Maintains.elim (sysPipe_keeps process) refs
  | fork child memory => exact fork_refs refs (tidy child enabled.2) memory
  | exit => exact Maintains.elim (exit_keeps process) refs

theorem Run.refs {disk : Disk} {devsw : Devsw} {meets : Fs → Slot → Call → Prop}
    (run : Run disk devsw meets s) : Refs s 0 := by
  induction run with
  | @start kmem s pages boot =>
    have state : s = booted disk devsw kmem := by
      rw [userinit_run] at boot
      exact (Prod.mk.inj (Except.ok.inj boot)).2.symm
    have empty : ∀ place, (booted disk devsw kmem).holds place = none :=
      fun place => booted_ofile disk devsw kmem place.1 place.2
    rw [state]
    refine ⟨fun f => ?_, fun _ _ => rfl, ?_, pages, fun _ _ => rfl⟩
    · rw [tally_none empty]
      rfl
    · refine .of_ends ?_ ?_ ?_
      · intro page pipe absent
        cases absent
      · intro f w absent
        cases absent
      · intro f g w absent
        cases absent
  | memory before kmem pages refs => exact ⟨refs.counts, refs.idle, refs.plumbing, pages⟩
  | call before process call enabled met performed refs =>
    exact (perform_refs refs before.tidy enabled).returned performed

/-- A file in use refers to the pipe in a page. -/
def Refers (s : Fs) (f : FileId) (page : Nat) : Prop :=
  0 < (s.ftable f).ref ∧ (s.ftable f).type = .pipe ∧ (s.ftable f).pipe = page

theorem Refers.wired (refers : s.Refers f page) :
    wire (s.ftable f) = some ⟨page, (s.ftable f).readable, (s.ftable f).writable⟩ := by
  rw [wire_some refers.1 refers.2.1, refers.2.2]

theorem refers_of_wire {w : Wire} (wired : wire (s.ftable f) = some w) :
    s.Refers f w.page ∧ (s.ftable f).readable = w.readable ∧ (s.ftable f).writable = w.writable := by
  unfold wire at wired
  split at wired
  · rename_i both
    obtain rfl := Option.some.inj wired
    exact ⟨⟨both.1, both.2, rfl⟩, rfl, rfl⟩
  · cases wired

theorem Refs.allocated_iff (refs : Refs s extra) (page : Nat) :
    s.pipes page ≠ none ↔ ∃ f, s.Refers f page := by
  constructor
  · intro allocated
    obtain ⟨pipe, present⟩ := Option.ne_none_iff_exists'.mp allocated
    obtain ⟨side, open_⟩ := refs.plumbing.opens present
    obtain ⟨f, wired⟩ := (refs.plumbing.ends present side).mp open_
    exact ⟨f, (refers_of_wire wired).1⟩
  · rintro ⟨f, refers⟩
    exact (refs.plumbing.proper f _ refers.wired).1

/-- An end is open as long as a file of that side refers to the pipe. -/
theorem Refs.open_iff (refs : Refs s extra) {pipe : Pipe} (present : s.pipes page = some pipe)
    (side : Bool) :
    openEnd pipe side = true ↔ ∃ f, s.Refers f page ∧ (s.ftable f).readable = !side ∧
      (s.ftable f).writable = side := by
  rw [refs.plumbing.ends present]
  constructor
  · rintro ⟨f, wired⟩
    exact ⟨f, refers_of_wire wired⟩
  · rintro ⟨f, refers, readable, writable⟩
    exact ⟨f, by rw [refers.wired, readable, writable]⟩

theorem Refs.sides (refs : Refs s extra) (refers : s.Refers f page) :
    (s.ftable f).readable = !(s.ftable f).writable :=
  (refs.plumbing.proper f _ refers.wired).2

/-- Between completed calls, every file counts the descriptors that hold it, every pipe is
allocated as long as a file in use refers to it, each of its ends is open as long as a file of
that end is in use, and no call runs into the panics of `filedup` and `fileclose`. -/
theorem file_references_exact (disk : Disk) (devsw : Devsw) {s : Fs}
    (reachable : Reachable disk devsw s) :
    (∀ f, (s.ftable f).ref = tally s.holds f) ∧
      (∀ page, s.pipes page ≠ none ↔ ∃ f, s.Refers f page) ∧
      (∀ page pipe, s.pipes page = some pipe →
        (pipe.readopen = true ↔ ∃ f, s.Refers f page ∧ (s.ftable f).readable = true) ∧
        (pipe.writeopen = true ↔ ∃ f, s.Refers f page ∧ (s.ftable f).writable = true)) ∧
      ∀ process call, s.Enabled process call →
        perform process call s ≠ .error (.panic "filedup") ∧
        perform process call s ≠ .error (.panic "fileclose") := by
  have refs := reachable.refs
  refine ⟨?_, refs.allocated_iff, ?_, ?_⟩
  · intro f
    rw [refs.counts f, Pi.zero_apply, Int.add_zero]
  · intro page pipe present
    refine ⟨(refs.open_iff present false).trans ?_, (refs.open_iff present true).trans ?_⟩
    · refine exists_congr fun f => and_congr_right fun refers => ?_
      rw [refs.sides refers]
      simp
    · refine exists_congr fun f => and_congr_right fun refers => ?_
      rw [refs.sides refers]
      simp
  · intro process call enabled
    have ends := perform_refs refs reachable.tidy enabled
    exact ⟨fun failed => (ends.failed failed).1 rfl, fun failed => (ends.failed failed).2 rfl⟩

/-- A disk of zeros. -/
def blankDisk : Disk := fun _ _ => zeroes

/-- The first process makes a pipe in the only free page. -/
theorem file_references_exact_pipe : ∃ s, Reachable blankDisk noDevices s ∧ (∃ f, s.Refers f 7) ∧
    ∀ f, (s.ftable f).ref = tally s.holds f := by
  have made : ((perform 0 .pipe (booted blankDisk noDevices [7])).toOption.any
      fun returned => (returned.2.pipes 7).isSome) = true := by decide +kernel
  cases performed : perform 0 .pipe (booted blankDisk noDevices [7]) with
  | error fault =>
    rw [performed] at made
    cases made
  | ok returned =>
    rw [performed] at made
    have start : Reachable blankDisk noDevices (booted blankDisk noDevices [7]) :=
      .start (List.nodup_singleton 7) (userinit_run _ _ _)
    have enabled : ((booted blankDisk noDevices [7]).proc 0).cwd ≠ none := by simp [booted]
    have reachable : Reachable blankDisk noDevices returned.2 :=
      .call start 0 .pipe enabled trivial performed
    have exactly := file_references_exact blankDisk noDevices reachable
    refine ⟨returned.2, reachable, (exactly.2.1 7).mp ?_, exactly.1⟩
    exact fun absent => by simp [absent, Except.toOption] at made

end RtXv6.Fs
