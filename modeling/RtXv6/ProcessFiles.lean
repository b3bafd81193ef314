import RtXv6.FileTable

/-!
# Processes and their records of files

A call of a process changes the record of no other process, except that `fork` fills the
record of the child. A process has a directory until it exits, and then has no descriptors
either, so a free slot of the process table holds no references.
-/

namespace RtXv6.Fs

open Function (update update_self update_of_ne)
open Stateful

/-- A slot without a process has no descriptors. -/
def Tidy (s : Fs) : Prop := ∀ process, (s.proc process).cwd = none →
  ∀ fd, (s.proc process).ofile fd = none

/-- The records of the other processes stay, and a process does not lose its directory. -/
structure Private (process : Slot) (s next : Fs) : Prop where
  others : ∀ other, other ≠ process → next.proc other = s.proc other
  cwd : (s.proc process).cwd ≠ none → (next.proc process).cwd ≠ none

variable {process : Slot} {s : Fs} {next : Fs}

theorem Private.of_proc (same : next.proc = s.proc) : Private process s next :=
  ⟨fun _ _ => by rw [same], fun present => by rwa [same]⟩

theorem Private.trans {final : Fs} (first : Private process s next)
    (second : Private process next final) : Private process s final :=
  ⟨fun other different => (second.others other different).trans (first.others other different),
    fun present => second.cwd (first.cwd present)⟩

theorem Private.tidy (kept : Private process s next) (tidy : Tidy s)
    (present : (s.proc process).cwd ≠ none) : Tidy next := by
  intro other absent
  by_cases same : other = process
  · subst same
    exact absurd absent (kept.cwd present)
  · rw [kept.others other same] at absent ⊢
    exact tidy other absent

instance private_loose (process : Slot) : Loose (Private process) fun _ _ => True where
  refl _ := Private.of_proc rfl
  trans := Private.trans
  frame frame := Private.of_proc frame.proc
  moved _ _ _ := Private.of_proc rfl
  back _ _ := trivial
  mild _ _ _ := trivial

/-- Code of a process that changes no other process. -/
abbrev Confined {α : Type} (process : Slot) (program : FsM α) : Prop :=
  Respects (Private process) (fun _ _ => True) program

/-- No process changes. -/
def Unbound (s next : Fs) : Prop := next.proc = s.proc

instance unbound_loose : Loose Unbound fun _ _ => True where
  refl _ := rfl
  trans first second := second.trans first
  frame frame := frame.proc
  moved _ _ _ := rfl
  back _ _ := trivial
  mild _ _ _ := trivial

/-- A process changes only its directory. -/
def Listed (process : Slot) (s next : Fs) : Prop :=
  (∀ other, other ≠ process → next.proc other = s.proc other) ∧
    (next.proc process).ofile = (s.proc process).ofile

instance listed_loose (process : Slot) : Loose (Listed process) fun _ _ => True where
  refl _ := ⟨fun _ _ => rfl, rfl⟩
  trans first second :=
    ⟨fun other different => (second.1 other different).trans (first.1 other different),
      second.2.trans first.2⟩
  frame frame := ⟨fun other _ => by rw [frame.proc], by rw [frame.proc]⟩
  moved _ _ _ := ⟨fun _ _ => rfl, rfl⟩
  back _ _ := trivial
  mild _ _ _ := trivial

section

variable (process : Slot) (f : FileId)

theorem confined_of_unbound {α : Type} {program : FsM α} {process : Slot}
    (respects : Respects Unbound (fun _ _ => True) program) : Confined process program :=
  respects.mono (fun _ _ => Private.of_proc) fun _ _ _ => trivial

theorem modifyFile_unbound (change : File → File) :
    Respects Unbound (fun _ _ => True) (modifyFile f change) :=
  .change fun _ => rfl

theorem setCwd_listed (ip : Option InodeId) :
    Respects (Listed process) (fun _ _ => True) (setCwd process ip) := by
  refine .change fun s => ⟨fun other different => update_of_ne different .., ?_⟩
  show (update s.proc process _ process).ofile = _
  rw [update_self]

/-- A process changes its own record and keeps a directory. -/
theorem modifyProc_confined {change : FileProc → FileProc}
    (cwd : ∀ p : FileProc, p.cwd ≠ none → (change p).cwd ≠ none) :
    Confined process (modifyProc process change) := by
  refine ⟨fun s => ⟨fun other different => update_of_ne different .., fun present => ?_⟩⟩
  show (update s.proc process _ process).cwd ≠ none
  rw [update_self]
  exact cwd _ present

theorem setOfile_confined (fd : Fin NOFILE) (new : Option FileId) :
    Confined process (setOfile process fd new) :=
  modifyProc_confined process fun _ present => present

theorem filealloc_confined : Confined process filealloc :=
  ⟨fun _ => filealloc_ends (Private.of_proc rfl) fun _ _ => Private.of_proc rfl⟩

theorem fdalloc_confined : Confined process (fdalloc process f) := by
  refine .read fun s => ?_
  split
  · exact .ret _
  · exact (setOfile_confined ..).seq fun _ => .ret _

theorem fileclose_unbound : Respects Unbound (fun _ _ => True) (fileclose f) := by
  refine .read fun s => ?_
  split
  · exact .fail fun _ => trivial
  split
  · exact modifyFile_unbound ..
  refine (modifyFile_unbound ..).seq fun _ => ?_
  unfold closeTarget
  split
  · refine ⟨fun s => ?_⟩
    apply Ends.read
    split
    · exact .fail trivial
    split
    · exact unbound_loose.refl s
    · exact unbound_loose.refl s
  · exact (closeInode_apart _).loose
  · exact .ret _

theorem fileclose_confined : Confined process (fileclose f) := confined_of_unbound (fileclose_unbound f)

theorem filedup_confined : Confined process (filedup f) := by
  refine .read fun s => ?_
  split
  · exact .fail fun _ => trivial
  · exact confined_of_unbound (modifyFile_unbound ..)

theorem sysDup_confined (fd : Fin NOFILE) : Confined process (sysDup process fd) := by
  refine onFile_loose process fd fun f => (fdalloc_confined process f).seq fun found => ?_
  split
  · exact .ret _
  · exact (filedup_confined ..).seq fun _ => .ret _

theorem openInode_confined (ip : InodeId) (omode : UInt32) :
    Confined process (openInode process ip omode) := by
  refine (filealloc_confined process).seq fun found => ?_
  split
  · exact (failPut_apart ip).loose
  refine (fdalloc_confined process _).seq fun descriptor => ?_
  split
  · exact (fileclose_confined process _).seq fun _ => (failPut_apart ip).loose
  · exact (iunlock_apart ip).loose.seq fun _ =>
      endOp_apart.loose.seq fun _ => (confined_of_unbound (modifyFile_unbound ..)).seq fun _ => .ret _

theorem closeBoth_confined (rf wf : FileId) : Confined process (closeBoth rf wf) :=
  (fileclose_confined process rf).seq fun _ => fileclose_confined process wf

theorem pipealloc_confined : Confined process pipealloc := by
  refine (filealloc_confined process).seq fun first => ?_
  split
  · exact .ret _
  refine (filealloc_confined process).seq fun second => ?_
  split
  · exact (fileclose_confined process _).seq fun _ => .ret _
  have page : Confined process allocPage :=
    ⟨fun _ => allocPage_ends (Private.of_proc rfl) fun _ _ _ => Private.of_proc rfl⟩
  refine page.seq fun allocated => ?_
  split
  · exact (closeBoth_confined ..).seq fun _ => .ret _
  · exact (confined_of_unbound (modifyFile_unbound ..)).seq fun _ =>
      (confined_of_unbound (modifyFile_unbound ..)).seq fun _ => .ret _

theorem sysPipe_confined : Confined process (sysPipe process) := by
  refine (pipealloc_confined process).seq fun made => ?_
  have bad : ∀ rf wf, Confined process (pipeBad rf wf) := fun rf wf =>
    (closeBoth_confined process rf wf).seq fun _ => .ret _
  split
  · exact .ret _
  refine (fdalloc_confined process _).seq fun first => ?_
  split
  · exact bad ..
  refine (fdalloc_confined process _).seq fun second => ?_
  split
  · exact (setOfile_confined ..).seq fun _ => bad ..
  · exact .ret _

end

/-- The other processes keep their records, and a process has only some descriptors left. -/
def Cleared (s : Fs) (process : Slot) (rest : List (Fin NOFILE)) (next : Fs) : Prop :=
  (∀ other, other ≠ process → next.proc other = s.proc other) ∧
    ∀ fd, fd ∉ rest → (next.proc process).ofile fd = none

theorem exitFile_cleared {middle : Fs} {fd : Fin NOFILE} {rest : List (Fin NOFILE)}
    (cleared : Cleared s process (fd :: rest) middle) :
    Ends (fun _ next => Cleared s process rest next) (fun _ => True) (exitFile process fd)
      middle := by
  apply Ends.read
  split
  · rename_i absent
    refine .ret ⟨cleared.1, fun other missing => ?_⟩
    by_cases same : other = fd
    · rw [same, absent]
    · exact cleared.2 other fun member => (List.mem_cons.mp member).elim same missing
  rename_i f descriptor
  refine ((fileclose_unbound f).ends middle).seq fun _ next same => ?_
  have cleared : Cleared s process rest (next.withOfile process fd none) := by
    refine ⟨fun other different => ?_, fun other missing => ?_⟩
    · rw [withOfile, withProc_other _ _ different, same, cleared.1 other different]
    · rw [withOfile, withProc_self]
      by_cases here : other = fd
      · rw [here]
        exact update_self ..
      rw [same]
      refine (update_of_ne here ..).trans ?_
      exact cleared.2 other fun member => (List.mem_cons.mp member).elim here missing
  exact cleared

theorem exit_tidy (tidy : Tidy s) (process : Slot) :
    Ends (fun _ next => Tidy next) (fun _ => True) (exit process) s := by
  have close : Ends (fun _ next => Cleared s process [] next) (fun _ => True)
      ((List.finRange NOFILE).forM (exitFile process)) s :=
    Ends.loop (Cleared s process)
      ⟨fun _ _ => rfl, fun fd missing => absurd (List.mem_finRange fd) missing⟩
      fun _ _ _ cleared => exitFile_cleared cleared
  have rest : Respects (Listed process) (fun _ _ => True) (do
      beginOp
      let s ← get
      let ip ← deref (s.proc process).cwd
      iput ip
      endOp
      setCwd process none
      pure 0 : FsM Int32) :=
    beginOp_apart.loose.seq fun _ => .read fun _ => (deref_apart _).loose.seq fun ip =>
      (iput_apart ip).loose.seq fun _ => endOp_apart.loose.seq fun _ =>
      (setCwd_listed process none).seq fun _ => .ret _
  refine close.seq fun _ middle cleared => (rest.ends middle).imp fun _ next listed => ?_
  intro other absent fd
  by_cases same : other = process
  · rw [same, listed.2]
    exact cleared.2 fd List.not_mem_nil
  · rw [listed.1 other same, cleared.1 other same] at absent ⊢
    exact tidy other absent fd

theorem fork_tidy (tidy : Tidy s) (process child : Slot) (memory : Bool) :
    Ends (fun _ next => Tidy next) (fun _ => True) (fork process child memory) s := by
  have copy : Confined child ((List.finRange NOFILE).forM (forkFile process child)) := by
    refine .loop _ fun fd => ?_
    refine .read fun s => ?_
    split
    · exact .ret _
    · exact (filedup_confined ..).seq fun _ => setOfile_confined ..
  unfold fork
  split
  · refine (copy.ends s).seq fun _ middle copied => Ends.read ?_
    refine ((deref_apart _).ends middle |>.mono (fun _ _ frame => frame) fun _ _ => trivial).seq
      fun cwd later sameLater => ?_
    refine ((idup_apart cwd).ends later |>.mono (fun _ _ frame => frame) fun _ _ => trivial).seq
      fun ip last sameLast => ?_
    have frame := frame_steps.trans sameLater sameLast
    have tidied : Tidy (last.withCwd child (some ip)) := by
      intro other absent fd
      by_cases same : other = child
      · subst same
        rw [withCwd, withProc_self] at absent
        cases absent
      · rw [withCwd, withProc_other _ _ same, frame.proc, copied.others other same] at absent ⊢
        exact tidy other absent fd
    exact tidied
  · exact .ret tidy

theorem perform_tidy (tidy : Tidy s) {call : Call} (enabled : s.Enabled process call) :
    Ends (fun _ next => Tidy next) (fun _ => True) (perform process call) s := by
  have confined : (s.proc process).cwd ≠ none → Confined process (perform process call) →
      Ends (fun _ next => Tidy next) (fun _ => True) (perform process call) s :=
    fun present respects => (respects.ends s).imp fun _ _ kept => kept.tidy tidy present
  cases call with
  | dup fd => exact confined enabled (sysDup_confined process fd)
  | read fd n transferred =>
    exact confined enabled (onFile_loose process fd fun f => fileread_loose f n transferred)
  | write fd src n transferred =>
    exact confined enabled (onFile_loose process fd fun f => filewrite_loose f src n transferred)
  | close fd =>
    exact confined enabled (onFile_loose process fd fun f => (setOfile_confined ..).seq fun _ =>
      (fileclose_confined ..).seq fun _ => .ret _)
  | fstat fd => exact confined enabled (onFile_loose process fd fun f => (filestat_apart f).loose)
  | link old new => exact confined enabled (sysLink_apart process old new).loose
  | unlink path => exact confined enabled (sysUnlink_apart process path).loose
  | «open» path omode =>
    exact confined enabled (sysOpen_loose process path omode fun ip => openInode_confined ..)
  | mkdir path | mknod path => exact confined enabled (sysMake_apart process path ..).loose
  | chdir path =>
    exact confined enabled (sysChdir_loose process path fun ip =>
      modifyProc_confined process fun _ _ => Option.some_ne_none _)
  | exec path stretches r => exact confined enabled (sysExec_apart process path ..).loose
  | pipe => exact confined enabled (sysPipe_confined process)
  | fork child memory => exact fork_tidy tidy process child memory
  | exit => exact exit_tidy tidy process

theorem Run.tidy {disk : Disk} {devsw : Devsw} {meets : Fs → Slot → Call → Prop}
    (run : Run disk devsw meets s) : Tidy s := by
  induction run with
  | @start kmem s pages boot =>
    have state : s = booted disk devsw kmem := by
      rw [userinit_run] at boot
      exact (Prod.mk.inj (Except.ok.inj boot)).2.symm
    intro process _ fd
    rw [state]
    exact booted_ofile ..
  | memory before kmem pages tidy => exact tidy
  | call before process call enabled met performed tidy =>
    exact (perform_tidy tidy enabled).returned performed

end RtXv6.Fs
