import RtXv6.FsFormat
import RtXv6.Log
import RtXv6.Stateful

/-!
# Building a file system

`mkfs.c` writes an image of `FSSIZE` sectors with the files it is given, all in the root
directory. Blocks and inodes are handed out in order; the bitmap is written at the end.
A host file is known by its name and by what `read` delivers of it, call by call. An
assertion that fails ends the program, and so does a sector that cannot be read.
-/

namespace RtXv6

/-- A file of the host that goes into the image. Before the end of the file, every `read`
delivers at least one byte and at most a block. -/
structure HostFile where
  name : List UInt8
  reads : List (List UInt8)
  chunks : ∀ chunk ∈ reads, 0 < chunk.length ∧ chunk.length ≤ BSIZE

/-- The bytes of a file. -/
def HostFile.contents (file : HostFile) : List UInt8 := file.reads.flatten

/-- How `mkfs` gives up: a failed `assert`, or `perror` and `exit(1)`. -/
inductive MkfsFault where
  | assertion
  | exit
  deriving DecidableEq, Repr

/-- The image that `fsfd` refers to, and the counters of the program. A sector that has not
been written lies beyond the end of the file. -/
structure Mkfs where
  image : UInt32 → Option Block
  freeinode : Nat
  freeblock : Nat

/-- Code of `mkfs`. -/
abbrev MkfsM := StateT Mkfs (Except MkfsFault)

namespace Mkfs

/-- The inodes of an image. -/
abbrev NINODES : Nat := 200

/-- The blocks of the bitmap. -/
abbrev nbitmap : Nat := FSSIZE / (BSIZE * 8) + 1

/-- The blocks of the inodes. -/
abbrev ninodeblocks : Nat := NINODES / IPB + 1

/-- The meta blocks: boot, super block, log, inodes and bitmap. -/
abbrev nmeta : Nat := 2 + nlog + ninodeblocks + nbitmap

/-- The data blocks. -/
abbrev nblocks : Nat := FSSIZE - nmeta

/-- The super block. -/
def sb : Superblock :=
  { size := UInt32.ofNat FSSIZE
    nblocks := UInt32.ofNat nblocks
    ninodes := UInt32.ofNat NINODES
    nlog := UInt32.ofNat nlog
    logstart := 2
    inodestart := UInt32.ofNat (2 + nlog)
    bmapstart := UInt32.ofNat (2 + nlog + ninodeblocks) }

/-- `wsect`. -/
def wsect (sec : UInt32) (buf : Block) : MkfsM Unit :=
  modify fun m => { m with image := Function.update m.image sec (some buf) }

/-- `rsect`. -/
def rsect (sec : UInt32) : MkfsM Block := do
  let m ← get
  match m.image sec with
  | none => throw .exit
  | some buf => pure buf

/-- `assert`. -/
def assert (holds : Bool) : MkfsM Unit :=
  if holds then pure () else throw .assertion

/-- `winode`. -/
def winode (inum : Nat) (din : Dinode) : MkfsM Unit := do
  let buf ← rsect (sb.iblock (UInt32.ofNat inum))
  wsect (sb.iblock (UInt32.ofNat inum)) (din.write buf (inum % IPB))

/-- `rinode`. -/
def rinode (inum : Nat) : MkfsM Dinode := do
  let buf ← rsect (sb.iblock (UInt32.ofNat inum))
  pure (Dinode.read buf (inum % IPB))

/-- `ialloc`. -/
def ialloc (type : Int16) : MkfsM Nat := do
  let m ← get
  set { m with freeinode := m.freeinode + 1 }
  winode m.freeinode { Dinode.zero with type, nlink := 1 }
  pure m.freeinode

/-- The bitmap in which the first blocks are in use. -/
def bitmap (used : Nat) : Block := (List.range used).foldl Bytes.setBit zeroes

/-- `balloc`. -/
def balloc (used : Nat) : MkfsM Unit := do
  assert (used < BSIZE * 8)
  wsect sb.bmapstart (bitmap used)

/-- `freeblock++`. -/
def takeBlock : MkfsM UInt32 := do
  let m ← get
  set { m with freeblock := m.freeblock + 1 }
  pure (UInt32.ofNat m.freeblock)

/-- `if(xint(din.addrs[index]) == 0) din.addrs[index] = xint(freeblock++)`. -/
def address (din : Dinode) (index : Fin (NDIRECT + 1)) : MkfsM Dinode :=
  if din.addrs index = 0 then do
    let b ← takeBlock
    pure { din with addrs := Function.update din.addrs index b }
  else pure din

/-- The part of `iappend` that works on the indirect block. -/
def indirect (table : UInt32) (bn : Nat) : MkfsM UInt32 := do
  let data ← rsect table
  if word data bn = 0 then do
    let b ← takeBlock
    wsect table (setWord data bn b)
    pure b
  else pure (word data bn)

/-- The part of `iappend` that finds the block at an index, or allocates it. -/
def locate (din : Dinode) (fbn : Nat) : MkfsM (Dinode × UInt32) :=
  if direct : fbn < NDIRECT then do
    let din ← address din ⟨fbn, Nat.lt_succ_of_lt direct⟩
    pure (din, din.addrs ⟨fbn, Nat.lt_succ_of_lt direct⟩)
  else do
    let din ← address din (Fin.last NDIRECT)
    let x ← indirect (din.addrs (Fin.last NDIRECT)) (fbn - NDIRECT)
    pure (din, x)

/-- The loop of `iappend`, which returns the inode and `off`; every iteration appends at
least one byte. -/
def appendLoop : Nat → Dinode → Nat → List UInt8 → MkfsM (Dinode × Nat)
  | 0, din, off, _ => pure (din, off)
  | fuel + 1, din, off, p =>
    if p = [] then pure (din, off)
    else do
      let fbn := off / BSIZE
      assert (fbn < MAXFILE)
      let (din, x) ← locate din fbn
      let n1 := min p.length ((fbn + 1) * BSIZE - off)
      let buf ← rsect x
      wsect x (Bytes.move buf (off - fbn * BSIZE) n1 fun index => p.getD index 0)
      appendLoop fuel din (off + n1) (p.drop n1)

/-- `iappend`. -/
def iappend (inum : Nat) (p : List UInt8) : MkfsM Unit := do
  let din ← rinode inum
  let (din, off) ← appendLoop p.length din din.size.toNat p
  winode inum { din with size := UInt32.ofNat off }

/-- The name without a leading `_`. -/
def strip : List UInt8 → List UInt8
  | 95 :: name => name
  | name => name

/-- The iteration of `main` for one file; `while((cc = read(fd, buf, sizeof(buf))) > 0)` goes
on to the end of the file. -/
def addFile (rootino : Nat) (file : HostFile) : MkfsM Unit := do
  assert (47 ∉ file.name)
  let inum ← ialloc T_FILE
  iappend rootino (List.ofFn (Dirent.make (UInt16.ofNat inum) (strip file.name)))
  file.reads.forM (iappend inum)

/-- The size of the root directory that `main` stores at the end. -/
def fixSize (off : Nat) : Nat := (off / BSIZE + 1) * BSIZE

/-- The end of `main`: the size of the root directory and the bitmap. -/
def finish (rootino : Nat) : MkfsM Unit := do
  let din ← rinode rootino
  winode rootino { din with size := UInt32.ofNat (fixSize din.size.toNat) }
  let m ← get
  balloc m.freeblock

/-- The image after `for(i = 0; i < FSSIZE; i++) wsect(i, zeroes)`. -/
def blank : Mkfs :=
  { image := fun sec => if sec.toNat < FSSIZE then some zeroes else none
    freeinode := 1
    freeblock := nmeta }

/-- `main`, after the arguments and the file of the image. -/
def main (files : List HostFile) : MkfsM Unit := do
  wsect 1 (sb.write zeroes)
  let rootino ← ialloc T_DIR
  assert (rootino = ROOTINO.toNat)
  iappend rootino (List.ofFn (Dirent.make (UInt16.ofNat rootino) [46]))
  iappend rootino (List.ofFn (Dirent.make (UInt16.ofNat rootino) [46, 46]))
  files.forM (addFile rootino)
  finish rootino

/-- The disk with the image. -/
def disk (m : Mkfs) : Disk := fun _ sec => (m.image sec).getD zeroes

end Mkfs

/-- The disk that `mkfs` builds for files. -/
def mkfs (files : List HostFile) : Except MkfsFault Disk :=
  (Mkfs.main files Mkfs.blank).map fun returned => returned.2.disk

end RtXv6
