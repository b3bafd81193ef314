import RtXv6.FsFrames
import RtXv6.PointUpdates

/-!
# The functions on open files, step by step

What `filealloc`, `filedup`, `fileclose`, `fdalloc` and the functions on pipes do to the
tables of open files and of descriptors, as rules for programs that call them. The calls
that open nothing and close nothing respect every relation that ignores inodes and the
offsets of files.
-/

namespace RtXv6.Fs

open Function (update update_self update_of_ne)
open Stateful

/-- The file with another number of references. -/
def counted (file : File) (count : Int) : File := { file with ref := count }

/-- The file without references. -/
def closed (file : File) : File := { file with ref := 0, type := .none }

/-- The file of an end of a pipe. -/
def plugged (file : File) (page : Nat) (writable : Bool) : File :=
  { file with type := .pipe, readable := !writable, writable, pipe := page }

/-- The state with another entry of the file table. -/
def withFile (s : Fs) (f : FileId) (file : File) : Fs :=
  { s with ftable := update s.ftable f file }

/-- The state with another record of a process. -/
def withProc (s : Fs) (process : Slot) (p : FileProc) : Fs :=
  { s with proc := update s.proc process p }

/-- The state with another file behind a descriptor. -/
def withOfile (s : Fs) (process : Slot) (fd : Fin NOFILE) (f : Option FileId) : Fs :=
  s.withProc process { s.proc process with ofile := update (s.proc process).ofile fd f }

/-- The state with another directory of a process. -/
def withCwd (s : Fs) (process : Slot) (ip : Option InodeId) : Fs :=
  s.withProc process { s.proc process with cwd := ip }

@[simp] theorem withFile_self (s : Fs) (f : FileId) (file : File) :
    (s.withFile f file).ftable f = file :=
  update_self ..

variable {f : FileId}

theorem withFile_other (s : Fs) {g : FileId} (file : File) (different : g ≠ f) :
    (s.withFile f file).ftable g = s.ftable g :=
  update_of_ne different ..

variable {α : Type}

theorem withFile_field (field : File → α) (s : Fs) (f : FileId) {file : File}
    (same : field file = field (s.ftable f)) (g : FileId) :
    field ((s.withFile f file).ftable g) = field (s.ftable g) :=
  PointUpdates.update_same field same g

@[simp] theorem withProc_self (s : Fs) (process : Slot) (p : FileProc) :
    (s.withProc process p).proc process = p :=
  update_self ..

variable {process : Slot}

theorem withProc_other (s : Fs) {other : Slot} (p : FileProc) (different : other ≠ process) :
    (s.withProc process p).proc other = s.proc other :=
  update_of_ne different ..

@[simp] theorem withOfile_ftable (s : Fs) (process : Slot) (fd : Fin NOFILE) (f : Option FileId) :
    (s.withOfile process fd f).ftable = s.ftable := rfl

variable {faults : FsFault → Prop} {s : Fs}

theorem filealloc_ends {post : Option FileId → Fs → Prop} (absent : post none s)
    (found : ∀ f, (s.ftable f).ref = 0 → post (some f) (s.withFile f (counted (s.ftable f) 1))) :
    Ends post faults filealloc s := by
  apply Ends.read
  split
  · exact .ret absent
  · rename_i f search
    exact found f (by simpa using List.find?_some search)

variable {post : Unit → Fs → Prop}

theorem filedup_ends (held : 1 ≤ (s.ftable f).ref)
    (holds : post () (s.withFile f (counted (s.ftable f) ((s.ftable f).ref + 1)))) :
    Ends post faults (filedup f) s := by
  apply Ends.read
  rw [if_neg (by omega)]
  exact holds

/-- `fileclose` gives up one reference, and with the last one the target of the file. -/
theorem fileclose_ends (held : 1 ≤ (s.ftable f).ref)
    (shared : 1 < (s.ftable f).ref →
      post () (s.withFile f (counted (s.ftable f) ((s.ftable f).ref - 1))))
    (last : (s.ftable f).ref = 1 → Ends post faults (closeTarget (s.ftable f))
      (s.withFile f (closed (s.ftable f)))) : Ends post faults (fileclose f) s := by
  apply Ends.read
  rw [if_neg (by omega)]
  by_cases more : 1 < (s.ftable f).ref
  · rw [if_pos (by omega)]
    exact shared more
  · rw [if_neg (by omega)]
    exact last (by omega)

theorem fdalloc_ends {post : Option (Fin NOFILE) → Fs → Prop} (absent : post none s)
    (found : ∀ fd, (s.proc process).ofile fd = none →
      post (some fd) (s.withOfile process fd (some f))) :
    Ends post faults (fdalloc process f) s := by
  apply Ends.read
  split
  · exact .ret absent
  · rename_i fd search
    exact found fd (by simpa using List.find?_some search)

variable {body : FileId → FsM Int32}

theorem onFile_ends {fd : Fin NOFILE} {post : Int32 → Fs → Prop} (absent : post (-1) s)
    (found : ∀ f, (s.proc process).ofile fd = some f → Ends post faults (body f) s) :
    Ends post faults (onFile process fd body) s := by
  apply Ends.read
  split
  · exact .ret absent
  · rename_i f held
    exact found f held

theorem deref_ends {ip : Option InodeId} {post : InodeId → Fs → Prop} (null : faults .null)
    (found : ∀ target, ip = some target → post target s) : Ends post faults (deref ip) s := by
  cases ip with
  | none => exact .fail null
  | some target => exact .ret (found target rfl)

/-- The state after a page has been allocated for a pipe. -/
def withPipe (s : Fs) (page : Nat) (rest : List Nat) : Fs :=
  { s with kmem := rest, pipes := update s.pipes page (some ⟨true, true⟩) }

theorem allocPage_ends {post : Option Nat → Fs → Prop} (absent : post none s)
    (found : ∀ page rest, s.kmem = page :: rest → post (some page) (s.withPipe page rest)) :
    Ends post faults allocPage s := by
  apply Ends.read
  split
  · exact .ret absent
  · rename_i page rest free
    exact found page rest free

/-- The pipe that is left, if an end is still open. -/
def remains (pipe : Pipe) : Option Pipe :=
  if pipe.readopen = false ∧ pipe.writeopen = false then none else some pipe

/-- The state after an end of a pipe has been closed. -/
def withEnd (s : Fs) (page : Nat) (pipe : Option Pipe) (kmem : List Nat) : Fs :=
  { s with pipes := update s.pipes page pipe, kmem }

/-- `pipeclose` closes an end, and frees the page with the second one. -/
theorem pipeclose_ends {page : Nat} {writable : Bool} {pipe : Pipe}
    (allocated : s.pipes page = some pipe)
    (freed : remains (closeEnd pipe writable) = none →
      post () (s.withEnd page none (page :: s.kmem)))
    (kept : remains (closeEnd pipe writable) = some (closeEnd pipe writable) →
      post () (s.withEnd page (some (closeEnd pipe writable)) s.kmem)) :
    Ends post faults (pipeclose page writable) s := by
  apply Ends.read
  rw [allocated, Option.map_some]
  split
  · rename_i absent
    cases absent
  rename_i left found
  obtain rfl := Option.some.inj found
  split
  · rename_i both
    exact freed (if_pos both)
  · rename_i one
    exact kept (if_neg one)

theorem deref_apart (ip : Option InodeId) : Apart (deref ip) := by
  unfold deref
  split
  · exact .fail fun _ => by decide
  · exact .ret _

theorem filestat_apart (f : FileId) : Apart (filestat f) := by
  refine .read fun s => ?_
  split
  · exact (deref_apart _).seq fun ip => (ilock_apart ip).seq fun _ => (iunlock_apart ip).seq fun _ =>
      .ret _
  · exact .ret _

theorem closeInode_apart (ip : Option InodeId) : Apart (do
    beginOp
    let target ← deref ip
    iput target
    endOp) :=
  beginOp_apart.seq fun _ => (deref_apart ip).seq fun target => (iput_apart target).seq fun _ =>
    endOp_apart

theorem fail_apart : Apart (do
    endOp
    pure (-1) : FsM Int32) := endOp_apart.seq fun _ => .ret _

theorem failPut_apart (ip : InodeId) : Apart (do
    iunlockput ip
    endOp
    pure (-1) : FsM Int32) := (iunlockput_apart ip).seq fun _ => fail_apart

/-- A relation that ignores inodes and the offsets of files. -/
class Loose (rel : Fs → Fs → Prop) (faults : Fs → FsFault → Prop) : Prop extends
    Steps rel faults where
  frame : ∀ {s next}, Frame s next → rel s next
  moved : ∀ s f off, rel s (s.withFile f { s.ftable f with off })
  mild : ∀ s {fault}, Mild fault → faults s fault

section

variable {rel : Fs → Fs → Prop} {more : Fs → FsFault → Prop} [wide : Loose rel more]

theorem Apart.loose {program : FsM α} (apart : Apart program) : Respects rel more program :=
  apart.mono (fun _ _ => wide.frame) fun s _ => wide.mild s

variable (process : Slot) (f : FileId)

theorem advance_loose (r : Int32) : Respects rel more (advance f r) := by
  unfold advance
  split
  · exact .change fun s => wide.moved s f _
  · exact .ret _

theorem fileread_loose (n transferred : Int32) : Respects rel more (fileread f n transferred) := by
  refine .read fun s => ?_
  split
  · exact .ret _
  split
  · exact .ret _
  · exact (deref_apart _).loose.seq fun ip => (ilock_apart ip).loose.seq fun _ =>
      (readi_apart ..).loose.seq fun _ => (advance_loose ..).seq fun _ =>
      (iunlock_apart ip).loose.seq fun _ => .ret _
  · exact .fail fun s => wide.mild s (by decide)

theorem writeChunks_loose (ip : InodeId) (fuel : Nat) (src : Nat → UInt8) (left : Nat) :
    Respects rel more (writeChunks f ip fuel src left) := by
  have one : ∀ src n1, Respects rel more (writeChunk f ip src n1) := fun src n1 =>
    beginOp_apart.loose.seq fun _ => (ilock_apart ip).loose.seq fun _ => .read fun s =>
      (writei_apart ..).loose.seq fun _ => (advance_loose ..).seq fun _ =>
      (iunlock_apart ip).loose.seq fun _ => endOp_apart.loose.seq fun _ => .ret _
  induction fuel generalizing src left with
  | zero => exact .ret _
  | succ fuel ih =>
    rw [writeChunks]
    split
    · exact .ret _
    refine (one ..).seq fun r => ?_
    split
    · exact .ret _
    split
    · exact ih ..
    · exact .fail fun s => wide.mild s (by decide)

theorem filewrite_loose (src : Nat → UInt8) (n transferred : Int32) :
    Respects rel more (filewrite f src n transferred) := by
  refine .read fun s => ?_
  split
  · exact .ret _
  split
  · exact .ret _
  · refine (deref_apart _).loose.seq fun ip => (writeChunks_loose ..).seq fun all => ?_
    split
    · exact .ret _
    · exact .ret _
  · exact .fail fun s => wide.mild s (by decide)

/-- A call on a descriptor respects what it respects on any file. -/
theorem onFile_loose (fd : Fin NOFILE) (each : ∀ f, Respects rel more (body f)) :
    Respects rel more (onFile process fd body) :=
  ⟨fun s => onFile_ends (wide.refl s) fun f _ => (each f).ends s⟩

theorem sysOpen_loose (path : List UInt8) (omode : UInt32)
    (opens : ∀ ip, Respects rel more (openInode process ip omode)) :
    Respects rel more (sysOpen process path omode) := by
  refine beginOp_apart.loose.seq fun _ => ?_
  split
  · refine (create_apart ..).loose.seq fun made => ?_
    split
    · exact fail_apart.loose
    · exact opens _
  refine (namei_apart ..).loose.seq fun found => ?_
  split
  · exact fail_apart.loose
  refine (ilock_apart _).loose.seq fun _ => .read fun s => ?_
  split
  · exact (failPut_apart _).loose
  · exact opens _

theorem sysChdir_loose (path : List UInt8)
    (moves : ∀ ip, Respects rel more (setCwd process (some ip))) :
    Respects rel more (sysChdir process path) := by
  refine beginOp_apart.loose.seq fun _ => (namei_apart ..).loose.seq fun found => ?_
  split
  · exact fail_apart.loose
  refine (ilock_apart _).loose.seq fun _ => .read fun s => ?_
  split
  · exact (failPut_apart _).loose
  exact (iunlock_apart _).loose.seq fun _ => (deref_apart _).loose.seq fun _ =>
    (iput_apart _).loose.seq fun _ => endOp_apart.loose.seq fun _ => (moves _).seq fun _ =>
    .ret _

end

end RtXv6.Fs
