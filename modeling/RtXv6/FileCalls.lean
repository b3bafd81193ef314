import RtXv6.Directories

/-!
# Files and the system calls on them

`file.c`, the allocation of pipes, the system calls of `sysfile.c`, and what `fork`,
`exit` and `exec` do to files. A call starts when its arguments have been fetched.

`exec` reads stretches of the program that depend on its contents; the list of them is an
argument here. Whether `fork` finds memory for the child is an argument, too.
-/

namespace RtXv6

open Function (update update_of_ne)

/-- `O_WRONLY`. -/
abbrev O_WRONLY : UInt32 := 0x001

/-- `O_RDWR`. -/
abbrev O_RDWR : UInt32 := 0x002

/-- `O_CREATE`. -/
abbrev O_CREATE : UInt32 := 0x200

namespace Fs

/-- Change an entry of the file table. -/
def modifyFile (f : FileId) (change : File → File) : FsM Unit :=
  modify fun s => { s with ftable := update s.ftable f (change (s.ftable f)) }

/-- Change the record of a process. -/
def modifyProc (process : Slot) (change : FileProc → FileProc) : FsM Unit :=
  modify fun s => { s with proc := update s.proc process (change (s.proc process)) }

/-- `proc->ofile[fd] = f`. -/
def setOfile (process : Slot) (fd : Fin NOFILE) (f : Option FileId) : FsM Unit :=
  modifyProc process fun p => { p with ofile := update p.ofile fd f }

/-- `proc->cwd = ip`. -/
def setCwd (process : Slot) (ip : Option InodeId) : FsM Unit :=
  modifyProc process fun p => { p with cwd := ip }

/-- The target of a pointer to an inode. -/
def deref (ip : Option InodeId) : FsM InodeId :=
  match ip with
  | none => throw .null
  | some ip => pure ip

/-- `filealloc`. -/
def filealloc : FsM (Option FileId) := do
  let s ← get
  match (List.finRange NFILE).find? (fun f => (s.ftable f).ref = 0) with
  | none => pure none
  | some f => do
    modifyFile f fun file => { file with ref := 1 }
    pure (some f)

/-- `filedup`. -/
def filedup (f : FileId) : FsM Unit := do
  let s ← get
  if (s.ftable f).ref < 1 then throw (.panic "filedup")
  else modifyFile f fun file => { file with ref := file.ref + 1 }

/-- `kalloc` of a page for a pipe, and the pipe as `pipealloc` sets it up. -/
def allocPage : FsM (Option Nat) := do
  let s ← get
  match s.kmem with
  | [] => pure none
  | page :: rest => do
    set { s with kmem := rest, pipes := update s.pipes page (some ⟨true, true⟩) }
    pure (some page)

/-- The pipe after one of its ends has been closed. -/
def closeEnd (pipe : Pipe) (writable : Bool) : Pipe :=
  if writable then { pipe with writeopen := false } else { pipe with readopen := false }

/-- `pipeclose`. -/
def pipeclose (page : Nat) (writable : Bool) : FsM Unit := do
  let s ← get
  match (s.pipes page).map (closeEnd · writable) with
  | none => throw .stale
  | some pipe =>
    if pipe.readopen = false ∧ pipe.writeopen = false then
      set { s with pipes := update s.pipes page none, kmem := page :: s.kmem }
    else set { s with pipes := update s.pipes page (some pipe) }

/-- What is left of a file when its last reference is gone. -/
def closeTarget (file : File) : FsM Unit :=
  match file.type with
  | .pipe => pipeclose file.pipe file.writable
  | .inode => do
    beginOp
    let ip ← deref file.ip
    iput ip
    endOp
  | .none => pure ()

/-- `fileclose`. -/
def fileclose (f : FileId) : FsM Unit := do
  let s ← get
  if (s.ftable f).ref < 1 then throw (.panic "fileclose")
  else if 0 < (s.ftable f).ref - 1 then modifyFile f fun file => { file with ref := file.ref - 1 }
  else do
    modifyFile f fun file => { file with ref := 0, type := .none }
    closeTarget (s.ftable f)

/-- `filestat`. -/
def filestat (f : FileId) : FsM Int32 := do
  let s ← get
  match (s.ftable f).type with
  | .inode => do
    let ip ← deref (s.ftable f).ip
    ilock ip
    iunlock ip
    pure 0
  | _ => pure (-1)

/-- `if(r > 0) f->off += r`. -/
def advance (f : FileId) (r : Int32) : FsM Unit :=
  if 0 < r then modifyFile f fun file => { file with off := file.off + r.toUInt32 } else pure ()

/-- `fileread`. What a pipe returns is an argument. -/
def fileread (f : FileId) (n transferred : Int32) : FsM Int32 := do
  let s ← get
  if (s.ftable f).readable = false then pure (-1)
  else match (s.ftable f).type with
    | .pipe => pure transferred
    | .inode => do
      let ip ← deref (s.ftable f).ip
      ilock ip
      let r ← readi ip (s.ftable f).off n.toUInt32
      advance f r.1
      iunlock ip
      pure r.1
    | .none => throw (.panic "fileread")

/-- The most bytes that one transaction of `filewrite` writes. -/
abbrev chunk : Nat := (LOGSIZE - 1 - 1 - 2) / 2 * 512

/-- One transaction of `filewrite`. -/
def writeChunk (f : FileId) (ip : InodeId) (src : Nat → UInt8) (n1 : Nat) : FsM Int32 := do
  beginOp
  ilock ip
  let s ← get
  let r ← writei ip src (s.ftable f).off (UInt32.ofNat n1)
  advance f r
  iunlock ip
  endOp
  pure r

/-- The loop of `filewrite`, with `left` bytes to go; every iteration writes at least one.
Has everything been written? -/
def writeChunks (f : FileId) (ip : InodeId) : Nat → (Nat → UInt8) → Nat → FsM Bool
  | 0, _, _ => pure true
  | fuel + 1, src, left =>
    if left = 0 then pure true
    else do
      let n1 := min left chunk
      let r ← writeChunk f ip src n1
      if r < 0 then pure false
      else if r = Int32.ofNat n1 then
        writeChunks f ip fuel (fun index => src (index + n1)) (left - n1)
      else throw (.panic "short filewrite")

/-- `filewrite`. What a pipe returns is an argument. -/
def filewrite (f : FileId) (src : Nat → UInt8) (n transferred : Int32) : FsM Int32 := do
  let s ← get
  if (s.ftable f).writable = false then pure (-1)
  else match (s.ftable f).type with
    | .pipe => pure transferred
    | .inode => do
      let ip ← deref (s.ftable f).ip
      let all ← writeChunks f ip n.toInt.toNat src n.toInt.toNat
      if all ∧ 0 ≤ n then pure n else pure (-1)
    | .none => throw (.panic "filewrite")

/-- `fdalloc`. -/
def fdalloc (process : Slot) (f : FileId) : FsM (Option (Fin NOFILE)) := do
  let s ← get
  match (List.finRange NOFILE).find? (fun fd => (s.proc process).ofile fd = none) with
  | none => pure none
  | some fd => do
    setOfile process fd (some f)
    pure (some fd)

/-- The number of a descriptor. -/
def number32 (fd : Fin NOFILE) : Int32 := Int32.ofNat fd

/-- A call on an open descriptor. -/
def onFile (process : Slot) (fd : Fin NOFILE) (body : FileId → FsM Int32) : FsM Int32 := do
  let s ← get
  match (s.proc process).ofile fd with
  | none => pure (-1)
  | some f => body f

/-- `sys_dup`. -/
def sysDup (process : Slot) (fd : Fin NOFILE) : FsM Int32 :=
  onFile process fd fun f => do
    match ← fdalloc process f with
    | none => pure (-1)
    | some new => do
      filedup f
      pure (number32 new)

/-- `sys_close`. -/
def sysClose (process : Slot) (fd : Fin NOFILE) : FsM Int32 :=
  onFile process fd fun f => do
    setOfile process fd none
    fileclose f
    pure 0

/-- `ip->nlink` changes, and `iupdate(ip)`. -/
def relink (ip : InodeId) (change : Int16 → Int16) : FsM Unit := do
  modifyInode ip fun inode => { inode with nlink := change inode.nlink }
  iupdate ip

/-- The end of `sys_link` that takes the link back. -/
def linkBad (ip : InodeId) : FsM Int32 := do
  ilock ip
  relink ip (· - 1)
  iunlockput ip
  endOp
  pure (-1)

/-- `sys_link` from the directory of the new name on. -/
def linkInto (ip dp : InodeId) (name : List UInt8) : FsM Int32 := do
  ilock dp
  let s ← get
  if (s.icache dp).dev ≠ (s.icache ip).dev then do
    iunlockput dp
    linkBad ip
  else do
    let r ← dirlink dp name (s.icache ip).inum
    iunlockput dp
    if r < 0 then linkBad ip
    else do
      iput ip
      endOp
      pure 0

/-- `sys_link`. -/
def sysLink (process : Slot) (old new : List UInt8) : FsM Int32 := do
  beginOp
  match ← namei process old with
  | none => do
    endOp
    pure (-1)
  | some ip => do
    ilock ip
    let s ← get
    if (s.icache ip).type = T_DIR then do
      iunlockput ip
      endOp
      pure (-1)
    else do
      relink ip (· + 1)
      iunlock ip
      match ← nameiparent process new with
      | none => linkBad ip
      | some (dp, name) => linkInto ip dp name

/-- `isdirempty`. -/
def isdirempty (dp : InodeId) : FsM Bool := do
  let s ← get
  let found ← scan dp "isdirempty: readi" (fun de => de.inum ≠ 0) (s.entries dp) 32
  pure found.2.isNone

/-- The end of `sys_unlink` that fails. -/
def unlinkBad (dp : InodeId) : FsM Int32 := do
  iunlockput dp
  endOp
  pure (-1)

/-- `if(ip->type == T_DIR){ dp->nlink--; iupdate(dp); }`. -/
def unlinkDots (dp ip : InodeId) : FsM Unit := do
  let s ← get
  if (s.icache ip).type = T_DIR then relink dp (· - 1) else pure ()

/-- `sys_unlink` from the removal of the entry on. -/
def unlinkEntry (dp ip : InodeId) (off : Nat) : FsM Int32 := do
  writeDirent dp "unlink: writei" Dirent.zero off
  unlinkDots dp ip
  iunlockput dp
  relink ip (· - 1)
  iunlockput ip
  endOp
  pure 0

/-- The names `.` and `..`. -/
def dot : List UInt8 := [46]

/-- The name `..`. -/
def dotdot : List UInt8 := [46, 46]

/-- `sys_unlink` once the entry has been found. -/
def unlinkFound (dp ip : InodeId) (off : Nat) : FsM Int32 := do
  ilock ip
  let s ← get
  if (s.icache ip).nlink < 1 then throw (.panic "unlink: nlink < 1")
  else if (s.icache ip).type = T_DIR then do
    if ← isdirempty ip then unlinkEntry dp ip off
    else do
      iunlockput ip
      unlinkBad dp
  else unlinkEntry dp ip off

/-- `sys_unlink`. -/
def sysUnlink (process : Slot) (path : List UInt8) : FsM Int32 := do
  beginOp
  match ← nameiparent process path with
  | none => do
    endOp
    pure (-1)
  | some (dp, name) => do
    ilock dp
    if namecmp name dot = 0 ∨ namecmp name dotdot = 0 then unlinkBad dp
    else do
      match ← dirlookup dp name with
      | none => unlinkBad dp
      | some (ip, off) => unlinkFound dp ip off

/-- The entry that `create` makes in a directory, which has to succeed. -/
def mustLink (dp : InodeId) (name : List UInt8) (inum : UInt32) (message : String) : FsM Unit := do
  let r ← dirlink dp name inum
  if r < 0 then throw (.panic message) else pure ()

/-- What `create` does for a directory only. -/
def createDots (dp ip : InodeId) (type : Int16) : FsM Unit :=
  if type = T_DIR then do
    relink dp (· + 1)
    let s ← get
    mustLink ip dot (s.icache ip).inum "create dots"
    mustLink ip dotdot (s.icache dp).inum "create dots"
  else pure ()

/-- `create` from the allocation of an inode on. -/
def createNew (dp : InodeId) (name : List UInt8) (type major minor : Int16) : FsM InodeId := do
  let s ← get
  let ip ← ialloc (s.icache dp).dev type
  ilock ip
  modifyInode ip fun inode => { inode with major, minor, nlink := 1 }
  iupdate ip
  createDots dp ip type
  let s ← get
  mustLink dp name (s.icache ip).inum "create: dirlink"
  iunlockput dp
  pure ip

/-- `create`. -/
def create (process : Slot) (path : List UInt8) (type major minor : Int16) :
    FsM (Option InodeId) := do
  match ← nameiparent process path with
  | none => pure none
  | some (dp, name) => do
    ilock dp
    match ← dirlookup dp name with
    | some (ip, _) => do
      iunlockput dp
      ilock ip
      let s ← get
      if type = T_FILE ∧ (s.icache ip).type = T_FILE then pure (some ip)
      else do
        iunlockput ip
        pure none
    | none => do
      let ip ← createNew dp name type major minor
      pure (some ip)

/-- `sys_open` once its inode is locked. -/
def openInode (process : Slot) (ip : InodeId) (omode : UInt32) : FsM Int32 := do
  match ← filealloc with
  | none => do
    iunlockput ip
    endOp
    pure (-1)
  | some f => do
    match ← fdalloc process f with
    | none => do
      fileclose f
      iunlockput ip
      endOp
      pure (-1)
    | some fd => do
      iunlock ip
      endOp
      modifyFile f fun file =>
        { file with
          type := .inode
          ip := some ip
          off := 0
          readable := omode &&& O_WRONLY = 0
          writable := omode &&& O_WRONLY ≠ 0 ∨ omode &&& O_RDWR ≠ 0 }
      pure (number32 fd)

/-- `sys_open`. -/
def sysOpen (process : Slot) (path : List UInt8) (omode : UInt32) : FsM Int32 := do
  beginOp
  if omode &&& O_CREATE ≠ 0 then do
    match ← create process path T_FILE 0 0 with
    | none => do
      endOp
      pure (-1)
    | some ip => openInode process ip omode
  else do
    match ← namei process path with
    | none => do
      endOp
      pure (-1)
    | some ip => do
      ilock ip
      let s ← get
      if (s.icache ip).type = T_DIR ∧ omode ≠ 0 then do
        iunlockput ip
        endOp
        pure (-1)
      else openInode process ip omode

/-- `sys_mkdir` and `sys_mknod`. -/
def sysMake (process : Slot) (path : List UInt8) (type major minor : Int16) : FsM Int32 := do
  beginOp
  match ← create process path type major minor with
  | none => do
    endOp
    pure (-1)
  | some ip => do
    iunlockput ip
    endOp
    pure 0

/-- `sys_mkdir`. -/
def sysMkdir (process : Slot) (path : List UInt8) : FsM Int32 := sysMake process path T_DIR 0 0

/-- `sys_mknod`. -/
def sysMknod (process : Slot) (path : List UInt8) (major minor : Int16) : FsM Int32 :=
  sysMake process path T_DEV major minor

/-- `sys_chdir`. -/
def sysChdir (process : Slot) (path : List UInt8) : FsM Int32 := do
  beginOp
  match ← namei process path with
  | none => do
    endOp
    pure (-1)
  | some ip => do
    ilock ip
    let s ← get
    if (s.icache ip).type ≠ T_DIR then do
      iunlockput ip
      endOp
      pure (-1)
    else do
      iunlock ip
      let old ← deref (s.proc process).cwd
      iput old
      endOp
      setCwd process (some ip)
      pure 0

/-- What `exec` does to files: it reads stretches of the program. -/
def sysExec (process : Slot) (path : List UInt8) (stretches : List (UInt32 × UInt32)) (r : Int32) :
    FsM Int32 := do
  beginOp
  match ← namei process path with
  | none => do
    endOp
    pure (-1)
  | some ip => do
    ilock ip
    stretches.forM fun stretch => do
      let _ ← readi ip stretch.1 stretch.2
      pure ()
    iunlockput ip
    endOp
    pure r

/-- Close two files. -/
def closeBoth (f0 f1 : FileId) : FsM Unit := do
  fileclose f0
  fileclose f1

/-- `pipealloc`. -/
def pipealloc : FsM (Option (FileId × FileId)) := do
  match ← filealloc with
  | none => pure none
  | some f0 => do
    match ← filealloc with
    | none => do
      fileclose f0
      pure none
    | some f1 => do
      match ← allocPage with
      | none => do
        closeBoth f0 f1
        pure none
      | some page => do
        modifyFile f0 fun file =>
          { file with type := .pipe, readable := true, writable := false, pipe := page }
        modifyFile f1 fun file =>
          { file with type := .pipe, readable := false, writable := true, pipe := page }
        pure (some (f0, f1))

/-- The end of `sys_pipe` that fails. -/
def pipeBad (rf wf : FileId) : FsM Int32 := do
  closeBoth rf wf
  pure (-1)

/-- `sys_pipe`. -/
def sysPipe (process : Slot) : FsM Int32 := do
  match ← pipealloc with
  | none => pure (-1)
  | some (rf, wf) => do
    match ← fdalloc process rf with
    | none => pipeBad rf wf
    | some fd0 => do
      match ← fdalloc process wf with
      | none => do
        setOfile process fd0 none
        pipeBad rf wf
      | some _ => pure 0

/-- `if(proc->ofile[i]) np->ofile[i] = filedup(proc->ofile[i])`. -/
def forkFile (process child : Slot) (fd : Fin NOFILE) : FsM Unit := do
  let s ← get
  match (s.proc process).ofile fd with
  | none => pure ()
  | some f => do
    filedup f
    setOfile child fd (some f)

/-- `fork`: the child shares the files and the directory of its parent. -/
def fork (process child : Slot) (memory : Bool) : FsM Int32 :=
  if memory then do
    (List.finRange NOFILE).forM (forkFile process child)
    let s ← get
    let cwd ← deref (s.proc process).cwd
    let ip ← idup cwd
    setCwd child (some ip)
    pure 0
  else pure (-1)

/-- `if(proc->ofile[fd]){ fileclose(proc->ofile[fd]); proc->ofile[fd] = 0; }`. -/
def exitFile (process : Slot) (fd : Fin NOFILE) : FsM Unit := do
  let s ← get
  match (s.proc process).ofile fd with
  | none => pure ()
  | some f => do
    fileclose f
    setOfile process fd none

/-- `exit`. -/
def exit (process : Slot) : FsM Int32 := do
  (List.finRange NOFILE).forM (exitFile process)
  beginOp
  let s ← get
  let ip ← deref (s.proc process).cwd
  iput ip
  endOp
  setCwd process none
  pure 0

end Fs

/-- The system calls on files, with their arguments. -/
inductive Call where
  | dup (fd : Fin NOFILE)
  | read (fd : Fin NOFILE) (n transferred : Int32)
  | write (fd : Fin NOFILE) (src : Nat → UInt8) (n transferred : Int32)
  | close (fd : Fin NOFILE)
  | fstat (fd : Fin NOFILE)
  | link (old new : List UInt8)
  | unlink (path : List UInt8)
  | open (path : List UInt8) (omode : UInt32)
  | mkdir (path : List UInt8)
  | mknod (path : List UInt8) (major minor : Int16)
  | chdir (path : List UInt8)
  | exec (path : List UInt8) (stretches : List (UInt32 × UInt32)) (r : Int32)
  | pipe
  | fork (child : Slot) (memory : Bool)
  | exit

namespace Fs

/-- Perform a call of a process. -/
def perform (process : Slot) : Call → FsM Int32
  | .dup fd => sysDup process fd
  | .read fd n transferred => onFile process fd fun f => fileread f n transferred
  | .write fd src n transferred => onFile process fd fun f => filewrite f src n transferred
  | .close fd => sysClose process fd
  | .fstat fd => onFile process fd filestat
  | .link old new => sysLink process old new
  | .unlink path => sysUnlink process path
  | .open path omode => sysOpen process path omode
  | .mkdir path => sysMkdir process path
  | .mknod path major minor => sysMknod process path major minor
  | .chdir path => sysChdir process path
  | .exec path stretches r => sysExec process path stretches r
  | .pipe => sysPipe process
  | .fork child memory => fork process child memory
  | .exit => exit process

/-- A process makes a call; the child of a `fork` gets a free slot. A process has a
directory, and a free slot has none. -/
def Enabled (s : Fs) (process : Slot) : Call → Prop
  | .fork child _ => (s.proc process).cwd ≠ none ∧ (s.proc child).cwd = none
  | _ => (s.proc process).cwd ≠ none

/-- The kernel that starts on a disk, before the first process: everything else is zero. -/
def zero (disk : Disk) (devsw : Devsw) (kmem : List Nat) : Fs :=
  { disk
    log := ⟨[], 0, false⟩
    sb := Superblock.read (disk ROOTDEV 1)
    icache := fun _ =>
      { Dinode.zero with dev := 0, inum := 0, ref := 0, busy := false, valid := false }
    ftable := fun _ =>
      { type := .none, ref := 0, readable := false, writable := false, pipe := 0, ip := none,
        off := 0 }
    proc := fun _ => { ofile := fun _ => none, cwd := none }
    devsw
    pipes := fun _ => none
    kmem }

/-- A machine without devices. -/
def noDevices : Devsw := { read := fun _ => none, write := fun _ => none }

/-- What `userinit` does to files: `p->cwd = namei("/")`. -/
def userinit : FsM Unit := do
  let ip ← namei 0 [slash]
  setCwd 0 ip

/-- The state when the first process is there: it has the only reference, to the root
directory. -/
def booted (disk : Disk) (devsw : Devsw) (kmem : List Nat) : Fs :=
  { zero disk devsw kmem with
    icache := update (zero disk devsw kmem).icache 0
      { Dinode.zero with dev := ROOTDEV, inum := ROOTINO, ref := 1, busy := false, valid := false }
    proc := update (zero disk devsw kmem).proc 0 { ofile := fun _ => none, cwd := some 0 } }

theorem userinit_run (disk : Disk) (devsw : Devsw) (kmem : List Nat) :
    userinit (zero disk devsw kmem) = .ok ((), booted disk devsw kmem) := rfl

theorem booted_ofile (disk : Disk) (devsw : Devsw) (kmem : List Nat) (process : Slot)
    (fd : Fin NOFILE) : ((booted disk devsw kmem).proc process).ofile fd = none := by
  by_cases first : process = 0
  · simp [booted, first]
  · simp [booted, zero, update_of_ne first]

/-- The free pages are distinct and hold no pipe. -/
def Pages (s : Fs) (kmem : List Nat) : Prop :=
  kmem.Nodup ∧ ∀ page ∈ kmem, s.pipes page = none

/-- The states between completed calls of any processes that all meet a condition. The rest
of the kernel takes and returns free pages. -/
inductive Run (disk : Disk) (devsw : Devsw) (meets : Fs → Slot → Call → Prop) : Fs → Prop
  | start {kmem : List Nat} {s : Fs} (pages : kmem.Nodup)
      (booted : userinit (zero disk devsw kmem) = .ok ((), s)) : Run disk devsw meets s
  | memory {s : Fs} (before : Run disk devsw meets s) (kmem : List Nat) (pages : s.Pages kmem) :
      Run disk devsw meets { s with kmem }
  | call {s next : Fs} {r : Int32} (before : Run disk devsw meets s) (process : Slot) (call : Call)
      (enabled : s.Enabled process call) (met : meets s process call)
      (performed : perform process call s = .ok (r, next)) : Run disk devsw meets next

/-- The states between completed calls of any processes. -/
abbrev Reachable (disk : Disk) (devsw : Devsw) : Fs → Prop := Run disk devsw fun _ _ _ => True

end Fs

end RtXv6
