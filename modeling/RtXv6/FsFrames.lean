import RtXv6.FileCalls

/-!
# What the code below the system calls leaves alone

The functions of `fs.c`, and the calls that only follow and change names, touch neither the
table of open files nor the descriptors and directories of processes, and no pipes. They
have no part in the panics of `filedup` and `fileclose` either.
-/

namespace RtXv6.Fs

open Stateful

/-- The tables of open files, of processes and of pipes are the same. -/
structure Frame (s next : Fs) : Prop where
  ftable : next.ftable = s.ftable
  proc : next.proc = s.proc
  pipes : next.pipes = s.pipes
  kmem : next.kmem = s.kmem

/-- A fault other than the panics of `filedup` and `fileclose`. -/
abbrev Mild (fault : FsFault) : Prop := fault ≠ .panic "filedup" ∧ fault ≠ .panic "fileclose"

instance frame_steps : Steps Frame fun _ => Mild where
  refl _ := ⟨rfl, rfl, rfl, rfl⟩
  trans first second :=
    ⟨second.ftable.trans first.ftable, second.proc.trans first.proc,
      second.pipes.trans first.pipes, second.kmem.trans first.kmem⟩
  back _ mild := mild

/-- Code that leaves the tables and fails with a mild fault only. -/
abbrev Apart {α : Type} (program : FsM α) : Prop := Respects Frame (fun _ => Mild) program

/-- A program that leaves the tables goes on with the tables as they were. -/
theorem Apart.along {α β : Type} {program : FsM α} {next : α → FsM β} {s : Fs}
    {post : β → Fs → Prop} {faults : FsFault → Prop} (apart : Apart program)
    (ends : Ends (fun value final => Frame s final → Ends post faults (next value) final) faults
      program s) : Ends post faults (program >>= next) s :=
  (ends.and (apart.ends s)).seq fun _ _ both => both.1 both.2

section Inodes

variable (dev inum b : UInt32) (ip : InodeId)

theorem modifyInode_apart (change : Inode → Inode) : Apart (modifyInode ip change) :=
  .change fun _ => ⟨rfl, rfl, rfl, rfl⟩

theorem beginOp_apart : Apart beginOp := by
  refine ⟨fun s => ?_⟩
  apply Ends.read
  split
  · exact .fail (by decide)
  split
  · exact .fail (by decide)
  · exact ⟨rfl, rfl, rfl, rfl⟩

theorem endOp_apart : Apart endOp := by
  refine ⟨fun s => ?_⟩
  apply Ends.read
  split
  · exact .fail (by decide)
  split
  · exact ⟨rfl, rfl, rfl, rfl⟩
  · exact ⟨rfl, rfl, rfl, rfl⟩

theorem bread_apart : Apart (bread dev b) := .read fun _ => .ret _

theorem logWrite_apart (data : Block) : Apart (logWrite dev b data) := by
  refine ⟨fun s => ?_⟩
  apply Ends.read
  split
  · exact .fail (by decide)
  split
  · exact .fail (by decide)
  · exact ⟨rfl, rfl, rfl, rfl⟩

theorem balloc_apart : Apart (balloc dev) := by
  refine .read fun s => ?_
  split
  · exact .fail fun _ => by decide
  · exact (logWrite_apart ..).seq fun _ => (logWrite_apart ..).seq fun _ => .ret _

theorem bfree_apart : Apart (bfree dev b) := by
  have readsb : Apart (readsb dev) := .change fun _ => ⟨rfl, rfl, rfl, rfl⟩
  refine readsb.seq fun _ => .read fun s => ?_
  split
  · exact logWrite_apart ..
  · exact .fail fun _ => by decide

theorem iget_apart : Apart (iget dev inum) := by
  refine .read fun s => ?_
  split
  · exact (modifyInode_apart ..).seq fun _ => .ret _
  split
  · exact .fail fun _ => by decide
  · exact (modifyInode_apart ..).seq fun _ => .ret _

theorem writeDinode_apart (din : Dinode) : Apart (writeDinode dev inum din) :=
  .read fun _ => logWrite_apart ..

theorem ialloc_apart (type : Int16) : Apart (ialloc dev type) := by
  refine .read fun s => ?_
  split
  · exact .fail fun _ => by decide
  · exact (writeDinode_apart ..).seq fun _ => iget_apart ..

theorem iupdate_apart : Apart (iupdate ip) := .read fun _ => writeDinode_apart ..

theorem idup_apart : Apart (idup ip) := (modifyInode_apart ..).seq fun _ => .ret _

theorem ilock_apart : Apart (ilock ip) := by
  refine .read fun s => ?_
  split
  · exact .fail fun _ => by decide
  split
  · exact .fail fun _ => by decide
  split
  · exact modifyInode_apart ..
  split
  · exact .fail fun _ => by decide
  · exact modifyInode_apart ..

theorem iunlock_apart : Apart (iunlock ip) := by
  refine .read fun s => ?_
  split
  · exact .fail fun _ => by decide
  · exact modifyInode_apart ..

theorem address_apart (index : Fin (NDIRECT + 1)) : Apart (address ip index) := by
  refine .read fun s => ?_
  split
  · exact (balloc_apart _).seq fun _ => (modifyInode_apart ..).seq fun _ => .ret _
  · exact .ret _

theorem indirect_apart (table : UInt32) (bn : Nat) : Apart (indirect dev table bn) := by
  refine (bread_apart ..).seq fun data => ?_
  split
  · exact (balloc_apart _).seq fun _ => (logWrite_apart ..).seq fun _ => .ret _
  · exact .ret _

theorem bmap_apart (bn : Nat) : Apart (bmap ip bn) := by
  unfold bmap
  split
  · exact address_apart ..
  split
  · exact (address_apart ..).seq fun _ => .read fun _ => indirect_apart ..
  · exact .fail fun _ => by decide

theorem freeAddr_apart (index : Fin (NDIRECT + 1)) : Apart (freeAddr ip index) := by
  refine .read fun s => ?_
  split
  · exact .ret _
  · exact (bfree_apart ..).seq fun _ => modifyInode_apart ..

theorem freeTable_apart : Apart (freeTable ip) := by
  refine .read fun s => ?_
  split
  · exact .ret _
  refine (bread_apart ..).seq fun data => .loop _ fun index => ?_
  unfold freeWord
  split
  · exact .ret _
  · exact bfree_apart ..

theorem itrunc_apart : Apart (itrunc ip) :=
  (Respects.loop _ fun _ => freeAddr_apart ..).seq fun _ => (freeTable_apart ip).seq fun _ =>
    (freeAddr_apart ..).seq fun _ => (modifyInode_apart ..).seq fun _ => iupdate_apart ip

theorem ifree_apart : Apart (ifree ip) :=
  (modifyInode_apart ..).seq fun _ => (itrunc_apart ip).seq fun _ =>
    (modifyInode_apart ..).seq fun _ => (iupdate_apart ip).seq fun _ => modifyInode_apart ..

theorem iput_apart : Apart (iput ip) := by
  refine .read fun s => ?_
  split
  · split
    · exact .fail fun _ => by decide
    · exact (ifree_apart ip).seq fun _ => modifyInode_apart ..
  · exact modifyInode_apart ..

theorem iunlockput_apart : Apart (iunlockput ip) := (iunlock_apart ip).seq fun _ => iput_apart ip

theorem readLoop_apart (fuel off left : Nat) : Apart (readLoop ip fuel off left) := by
  induction fuel generalizing off left with
  | zero => exact .ret _
  | succ fuel ih =>
    rw [readLoop]
    split
    · exact .ret _
    · exact (bmap_apart ..).seq fun _ => .read fun _ => (bread_apart ..).seq fun _ =>
        (ih ..).seq fun _ => .ret _

theorem readi_apart (off n : UInt32) : Apart (readi ip off n) := by
  refine .read fun s => ?_
  split
  · exact .ret _
  split
  · exact .ret _
  · exact (readLoop_apart ..).seq fun _ => .ret _

theorem writeLoop_apart (fuel : Nat) (src : Nat → UInt8) (off left : Nat) :
    Apart (writeLoop ip fuel src off left) := by
  induction fuel generalizing src off left with
  | zero => exact .ret _
  | succ fuel ih =>
    rw [writeLoop]
    split
    · exact .ret _
    · exact (bmap_apart ..).seq fun _ => .read fun _ => (bread_apart ..).seq fun _ =>
        (logWrite_apart ..).seq fun _ => ih ..

theorem grow_apart (off n : UInt32) : Apart (grow ip off n) := by
  refine .read fun s => ?_
  split
  · exact (modifyInode_apart ..).seq fun _ => iupdate_apart ip
  · exact .ret _

theorem writei_apart (src : Nat → UInt8) (off n : UInt32) : Apart (writei ip src off n) := by
  refine .read fun s => ?_
  split
  · exact .ret _
  split
  · exact .ret _
  split
  · exact .ret _
  · exact (writeLoop_apart ..).seq fun _ => (grow_apart ..).seq fun _ => .ret _

end Inodes

variable {message : String}

section Names

variable (process : Slot) (ip dp : InodeId) (name path : List UInt8)

/-- The panics that a directory names are not those of the file table. -/
theorem scan_apart (mild : Mild (.panic message)) (stop : Dirent → Bool) (fuel off : Nat) :
    Apart (scan dp message stop fuel off) := by
  induction fuel generalizing off with
  | zero => exact .ret _
  | succ fuel ih =>
    rw [scan]
    refine .read fun s => ?_
    split
    · refine (readi_apart ..).seq fun read => ?_
      split
      · split
        · exact .ret _
        · exact ih _
      · exact .fail fun _ => mild
    · exact .ret _

theorem dirlookup_apart : Apart (dirlookup dp name) := by
  refine .read fun s => ?_
  split
  · exact .fail fun _ => by decide
  refine (scan_apart dp (by decide) ..).seq fun found => ?_
  split
  · exact .ret _
  · exact (iget_apart ..).seq fun _ => .ret _

theorem writeDirent_apart (mild : Mild (.panic message)) (de : Dirent) (off : Nat) :
    Apart (writeDirent dp message de off) := by
  refine (writei_apart ..).seq fun r => ?_
  split
  · exact .ret _
  · exact .fail fun _ => mild

theorem dirlink_apart (inum : UInt32) : Apart (dirlink dp name inum) := by
  refine (dirlookup_apart ..).seq fun present => ?_
  split
  · exact (iput_apart _).seq fun _ => .ret _
  · exact .read fun s => (scan_apart dp (by decide) ..).seq fun _ =>
      (writeDirent_apart dp (by decide) ..).seq fun _ => .ret _

theorem walk_apart (parent : Bool) (fuel : Nat) : Apart (walk parent fuel ip path) := by
  induction fuel generalizing ip path with
  | zero => exact .fail fun _ => by decide
  | succ fuel ih =>
    rw [walk]
    split
    · split
      · exact (iput_apart _).seq fun _ => .ret _
      · exact .ret _
    refine (ilock_apart _).seq fun _ => .read fun s => ?_
    split
    · exact (iunlockput_apart _).seq fun _ => .ret _
    split
    · exact (iunlock_apart _).seq fun _ => .ret _
    refine (dirlookup_apart ..).seq fun next => (iunlockput_apart _).seq fun _ => ?_
    split
    · exact .ret _
    · exact ih ..

theorem namex_apart (parent : Bool) : Apart (namex process path parent) := by
  have origin : Apart (origin process path) := by
    refine .read fun s => ?_
    split
    · exact iget_apart ..
    split
    · exact .fail fun _ => by decide
    · exact idup_apart _
  exact origin.seq fun _ => walk_apart ..

theorem namei_apart : Apart (namei process path) := (namex_apart ..).seq fun _ => .ret _

theorem relink_apart (change : Int16 → Int16) : Apart (relink ip change) :=
  (modifyInode_apart ..).seq fun _ => iupdate_apart ip

theorem linkBad_apart : Apart (linkBad ip) :=
  (ilock_apart ip).seq fun _ => (relink_apart ..).seq fun _ => (iunlockput_apart ip).seq fun _ =>
    endOp_apart.seq fun _ => .ret _

theorem linkInto_apart : Apart (linkInto ip dp name) := by
  refine (ilock_apart dp).seq fun _ => .read fun s => ?_
  split
  · exact (iunlockput_apart dp).seq fun _ => linkBad_apart ip
  refine (dirlink_apart ..).seq fun r => (iunlockput_apart dp).seq fun _ => ?_
  split
  · exact linkBad_apart ip
  · exact (iput_apart ip).seq fun _ => endOp_apart.seq fun _ => .ret _

theorem sysLink_apart (old new : List UInt8) : Apart (sysLink process old new) := by
  refine beginOp_apart.seq fun _ => (namei_apart ..).seq fun found => ?_
  split
  · exact endOp_apart.seq fun _ => .ret _
  refine (ilock_apart _).seq fun _ => .read fun s => ?_
  split
  · exact (iunlockput_apart _).seq fun _ => endOp_apart.seq fun _ => .ret _
  refine (relink_apart ..).seq fun _ => (iunlock_apart _).seq fun _ => ?_
  refine (namex_apart process new true).seq fun parent => ?_
  split
  · exact linkBad_apart _
  · exact linkInto_apart ..

theorem unlinkBad_apart : Apart (unlinkBad dp) :=
  (iunlockput_apart dp).seq fun _ => endOp_apart.seq fun _ => .ret _

theorem unlinkEntry_apart (off : Nat) : Apart (unlinkEntry dp ip off) := by
  have dots : Apart (unlinkDots dp ip) := by
    refine .read fun s => ?_
    split
    · exact relink_apart ..
    · exact .ret _
  exact (writeDirent_apart dp (by decide) ..).seq fun _ => dots.seq fun _ =>
    (iunlockput_apart dp).seq fun _ => (relink_apart ..).seq fun _ =>
    (iunlockput_apart ip).seq fun _ => endOp_apart.seq fun _ => .ret _

theorem unlinkFound_apart (off : Nat) : Apart (unlinkFound dp ip off) := by
  refine (ilock_apart ip).seq fun _ => .read fun s => ?_
  split
  · exact .fail fun _ => by decide
  split
  · have empty : Apart (isdirempty ip) :=
      .read fun s => (scan_apart ip (by decide) ..).seq fun _ => .ret _
    refine empty.seq fun answer => ?_
    split
    · exact unlinkEntry_apart ..
    · exact (iunlockput_apart ip).seq fun _ => unlinkBad_apart dp
  · exact unlinkEntry_apart ..

theorem sysUnlink_apart : Apart (sysUnlink process path) := by
  refine beginOp_apart.seq fun _ => (namex_apart process path true).seq fun parent => ?_
  split
  · exact endOp_apart.seq fun _ => .ret _
  refine (ilock_apart _).seq fun _ => ?_
  split
  · exact unlinkBad_apart _
  refine (dirlookup_apart ..).seq fun found => ?_
  split
  · exact unlinkBad_apart _
  · exact unlinkFound_apart ..

theorem mustLink_apart (inum : UInt32) (mild : Mild (.panic message)) :
    Apart (mustLink dp name inum message) := by
  refine (dirlink_apart ..).seq fun r => ?_
  split
  · exact .fail fun _ => mild
  · exact .ret _

theorem createDots_apart (type : Int16) : Apart (createDots dp ip type) := by
  unfold createDots
  split
  · exact (relink_apart ..).seq fun _ => .read fun s =>
      (mustLink_apart ip dot _ (by decide)).seq fun _ => mustLink_apart ip dotdot _ (by decide)
  · exact .ret _

theorem createNew_apart (type major minor : Int16) : Apart (createNew dp name type major minor) :=
  .read fun _ => (ialloc_apart ..).seq fun ip => (ilock_apart ip).seq fun _ =>
    (modifyInode_apart ..).seq fun _ => (iupdate_apart ip).seq fun _ =>
    (createDots_apart ..).seq fun _ => .read fun _ =>
    (mustLink_apart dp name _ (by decide)).seq fun _ => (iunlockput_apart dp).seq fun _ =>
    .ret _

theorem create_apart (type major minor : Int16) : Apart (create process path type major minor) := by
  refine (namex_apart process path true).seq fun parent => ?_
  split
  · exact .ret _
  refine (ilock_apart _).seq fun _ => (dirlookup_apart ..).seq fun found => ?_
  split
  · refine (iunlockput_apart _).seq fun _ => (ilock_apart _).seq fun _ => .read fun s => ?_
    split
    · exact .ret _
    · exact (iunlockput_apart _).seq fun _ => .ret _
  · exact (createNew_apart ..).seq fun _ => .ret _

theorem sysMake_apart (type major minor : Int16) :
    Apart (sysMake process path type major minor) := by
  refine beginOp_apart.seq fun _ => (create_apart ..).seq fun made => ?_
  split
  · exact endOp_apart.seq fun _ => .ret _
  · exact (iunlockput_apart _).seq fun _ => endOp_apart.seq fun _ => .ret _

theorem sysExec_apart (stretches : List (UInt32 × UInt32)) (r : Int32) :
    Apart (sysExec process path stretches r) := by
  refine beginOp_apart.seq fun _ => (namei_apart ..).seq fun found => ?_
  split
  · exact endOp_apart.seq fun _ => .ret _
  refine (ilock_apart _).seq fun _ => Respects.seq ?_ fun _ => (iunlockput_apart _).seq fun _ =>
    endOp_apart.seq fun _ => .ret _
  exact .loop _ fun stretch => (readi_apart ..).seq fun _ => .ret _

end Names

end RtXv6.Fs
