import RtXv6.FsFormat
import RtXv6.Journal
import RtXv6.Process
import RtXv6.Stateful

/-!
# Blocks and inodes of the file system

`fs.c` up to the contents of inodes: the block allocator over the bitmap, the cache of
inodes with its reference counts, locks and validity, the map from the blocks of a file
to blocks of the disk, and reading and writing at an offset.

One operation runs at a time. `bread` returns what the last holder of the block left in
its buffer, which is what the layers of the buffer cache and the log provide, so a state
has the contents of every block; `log_write` keeps its own tests and its list of blocks.
A wait that no other process can end is a fault of the operation, as a panic is, and so
is an access through a null pointer or to a page that has been freed.
-/

namespace RtXv6

/-- The most active inodes. -/
abbrev NINODE : Nat := 50

/-- The most open files of the system. -/
abbrev NFILE : Nat := 100

/-- The most open files of a process. -/
abbrev NOFILE : Nat := 16

/-- The bound of major device numbers. -/
abbrev NDEV : Int16 := 10

instance ninode_neZero : NeZero NINODE := ⟨by decide⟩

instance nfile_neZero : NeZero NFILE := ⟨by decide⟩

/-- An entry of `icache.inode`. -/
abbrev InodeId := Fin NINODE

/-- An entry of `ftable.file`. -/
abbrev FileId := Fin NFILE

/-- `struct inode`: the copy of an inode on disk, with `I_BUSY` and `I_VALID` as
booleans. -/
structure Inode extends Dinode where
  dev : UInt32
  inum : UInt32
  ref : Int
  busy : Bool
  valid : Bool

/-- `FD_NONE`, `FD_PIPE` and `FD_INODE`. -/
inductive FileType where
  | none
  | pipe
  | inode
  deriving DecidableEq, Repr

/-- `struct pipe`, without the bytes that pass through it. -/
structure Pipe where
  readopen : Bool
  writeopen : Bool
  deriving DecidableEq, Repr

/-- `struct file`. A pipe is known by the page it lies in. -/
structure File where
  type : FileType
  ref : Int
  readable : Bool
  writable : Bool
  pipe : Nat
  ip : Option InodeId
  off : UInt32

/-- `devsw`: what the driver of a major number, if there is one, answers to a transfer
of a number of bytes. -/
structure Devsw where
  read : Int16 → Option (Int32 → Int32)
  write : Int16 → Option (Int32 → Int32)

/-- The part of `struct proc` that refers to files. -/
structure FileProc where
  ofile : Fin NOFILE → Option FileId
  cwd : Option InodeId

/-- The file system of a running kernel. `kmem` is the list of free pages; `pipes` gives the
pipe in each page that has been allocated for one. -/
structure Fs where
  disk : Disk
  log : Log
  sb : Superblock
  icache : InodeId → Inode
  ftable : FileId → File
  proc : Slot → FileProc
  devsw : Devsw
  pipes : Nat → Option Pipe
  kmem : List Nat

/-- How an operation fails to return. -/
inductive FsFault where
  | panic (message : String)
  | asleep
  | null
  | stale
  | runaway
  deriving DecidableEq, Repr

/-- Code of the kernel that works on the file system. -/
abbrev FsM := StateT Fs (Except FsFault)

namespace Fs

/-- Change an entry of the inode cache. -/
def modifyInode (ip : InodeId) (change : Inode → Inode) : FsM Unit :=
  modify fun s => { s with icache := Function.update s.icache ip (change (s.icache ip)) }

/-- The pass of `begin_op` that admits the operation. -/
def beginOp : FsM Unit := do
  let s ← get
  if s.log.committing then throw .asleep
  else if (s.log.lh.length : Int) + (s.log.outstanding + 1) * (MAXOPBLOCKS : Int) > LOGSIZE then
    throw .asleep
  else set { s with log := { s.log with outstanding := s.log.outstanding + 1 } }

/-- `end_op`. A commit clears the list of blocks. -/
def endOp : FsM Unit := do
  let s ← get
  if s.log.committing then throw (.panic "log.committing")
  else if s.log.outstanding - 1 = 0 then
    set { s with log := { s.log with lh := [], outstanding := 0 } }
  else set { s with log := { s.log with outstanding := s.log.outstanding - 1 } }

/-- `bread`. -/
def bread (dev blockno : UInt32) : FsM Block := do
  let s ← get
  pure (s.disk dev blockno)

/-- `log_write` of a buffer with new data; `log.size` is `sb.nlog`. -/
def logWrite (dev blockno : UInt32) (data : Block) : FsM Unit := do
  let s ← get
  if s.log.lh.length ≥ LOGSIZE ∨ (s.log.lh.length : Int) ≥ s.sb.nlog.toInt32.toInt - 1 then
    throw (.panic "too big a transaction")
  else if s.log.outstanding < 1 then throw (.panic "log_write outside of trans")
  else set { s with
    disk := assign s.disk dev blockno data
    log := { s.log with lh := Journal.absorb s.log.lh blockno } }

/-- `readsb(dev, &sb)` into the kernel's super block. -/
def readsb (dev : UInt32) : FsM Unit :=
  modify fun s => { s with sb := Superblock.read (s.disk dev 1) }

/-- Is the bit of a block set in the bitmap? -/
def used (s : Fs) (dev b : UInt32) : Bool := Bytes.bit (s.disk dev (s.sb.bblock b)) (b.toNat % BPB)

/-- `balloc`. The two loops visit the blocks in order, and every block of one bitmap
block has its bit there. -/
def balloc (dev : UInt32) : FsM UInt32 := do
  let s ← get
  match (List.range s.sb.size.toNat).find? (fun b => !s.used dev (UInt32.ofNat b)) with
  | none => throw (.panic "balloc: out of blocks")
  | some b => do
    let bitmap := s.sb.bblock (UInt32.ofNat b)
    logWrite dev bitmap (Bytes.setBit (s.disk dev bitmap) (b % BPB))
    logWrite dev (UInt32.ofNat b) zeroes
    pure (UInt32.ofNat b)

/-- `bfree`. -/
def bfree (dev b : UInt32) : FsM Unit := do
  readsb dev
  let s ← get
  let bitmap := s.sb.bblock b
  if s.used dev b then logWrite dev bitmap (Bytes.clearBit (s.disk dev bitmap) (b.toNat % BPB))
  else throw (.panic "freeing free block")

/-- `iget`. -/
def iget (dev inum : UInt32) : FsM InodeId := do
  let s ← get
  match (List.finRange NINODE).find? (fun ip =>
      0 < (s.icache ip).ref ∧ (s.icache ip).dev = dev ∧ (s.icache ip).inum = inum) with
  | some ip => do
    modifyInode ip fun inode => { inode with ref := inode.ref + 1 }
    pure ip
  | none =>
    match (List.finRange NINODE).find? (fun ip => (s.icache ip).ref = 0) with
    | none => throw (.panic "iget: no inodes")
    | some ip => do
      modifyInode ip fun inode => { inode with dev, inum, ref := 1, busy := false, valid := false }
      pure ip

/-- The inode on disk with a number. -/
def dinode (s : Fs) (dev inum : UInt32) : Dinode :=
  Dinode.read (s.disk dev (s.sb.iblock inum)) (inum.toNat % IPB)

/-- Store an inode on disk. -/
def writeDinode (dev inum : UInt32) (din : Dinode) : FsM Unit := do
  let s ← get
  let block := s.sb.iblock inum
  logWrite dev block (din.write (s.disk dev block) (inum.toNat % IPB))

/-- `ialloc`. -/
def ialloc (dev : UInt32) (type : Int16) : FsM InodeId := do
  let s ← get
  match (List.range' 1 (s.sb.ninodes.toNat - 1)).find? (fun inum =>
      (s.dinode dev (UInt32.ofNat inum)).type = 0) with
  | none => throw (.panic "ialloc: no inodes")
  | some inum => do
    writeDinode dev (UInt32.ofNat inum) { Dinode.zero with type }
    iget dev (UInt32.ofNat inum)

/-- `iupdate`. -/
def iupdate (ip : InodeId) : FsM Unit := do
  let s ← get
  writeDinode (s.icache ip).dev (s.icache ip).inum (s.icache ip).toDinode

/-- `idup`. -/
def idup (ip : InodeId) : FsM InodeId := do
  modifyInode ip fun inode => { inode with ref := inode.ref + 1 }
  pure ip

/-- `ilock`. -/
def ilock (ip : InodeId) : FsM Unit := do
  let s ← get
  if (s.icache ip).ref < 1 then throw (.panic "ilock")
  else if (s.icache ip).busy then throw .asleep
  else if (s.icache ip).valid then modifyInode ip fun inode => { inode with busy := true }
  else if (s.dinode (s.icache ip).dev (s.icache ip).inum).type = 0 then
    throw (.panic "ilock: no type")
  else modifyInode ip fun inode =>
    { inode with toDinode := s.dinode inode.dev inode.inum, busy := true, valid := true }

/-- `iunlock`. -/
def iunlock (ip : InodeId) : FsM Unit := do
  let s ← get
  if (s.icache ip).busy = false ∨ (s.icache ip).ref < 1 then throw (.panic "iunlock")
  else modifyInode ip fun inode => { inode with busy := false }

/-- Set an address of an inode. -/
def setAddr (ip : InodeId) (index : Fin (NDIRECT + 1)) (addr : UInt32) : FsM Unit :=
  modifyInode ip fun inode => { inode with addrs := Function.update inode.addrs index addr }

/-- `if((addr = ip->addrs[index]) == 0) ip->addrs[index] = addr = balloc(ip->dev)`. -/
def address (ip : InodeId) (index : Fin (NDIRECT + 1)) : FsM UInt32 := do
  let s ← get
  if (s.icache ip).addrs index = 0 then do
    let addr ← balloc (s.icache ip).dev
    setAddr ip index addr
    pure addr
  else pure ((s.icache ip).addrs index)

/-- The part of `bmap` that works on the indirect block. -/
def indirect (dev table : UInt32) (bn : Nat) : FsM UInt32 := do
  let data ← bread dev table
  if word data bn = 0 then do
    let addr ← balloc dev
    logWrite dev table (setWord data bn addr)
    pure addr
  else pure (word data bn)

/-- `bmap`. -/
def bmap (ip : InodeId) (bn : Nat) : FsM UInt32 := do
  if direct : bn < NDIRECT then address ip ⟨bn, Nat.lt_succ_of_lt direct⟩
  else if bn - NDIRECT < NINDIRECT then do
    let table ← address ip (Fin.last NDIRECT)
    let s ← get
    indirect (s.icache ip).dev table (bn - NDIRECT)
  else throw (.panic "bmap: out of range")

/-- `if(ip->addrs[index]){ bfree(ip->dev, ip->addrs[index]); ip->addrs[index] = 0; }`. -/
def freeAddr (ip : InodeId) (index : Fin (NDIRECT + 1)) : FsM Unit := do
  let s ← get
  if (s.icache ip).addrs index = 0 then pure ()
  else do
    bfree (s.icache ip).dev ((s.icache ip).addrs index)
    setAddr ip index 0

/-- `if(a[j]) bfree(ip->dev, a[j])`. -/
def freeWord (dev : UInt32) (data : Block) (index : Nat) : FsM Unit :=
  if word data index = 0 then pure () else bfree dev (word data index)

/-- The loop of `itrunc` over the indirect block. -/
def freeTable (ip : InodeId) : FsM Unit := do
  let s ← get
  if (s.icache ip).addrs (Fin.last NDIRECT) = 0 then pure ()
  else do
    let data ← bread (s.icache ip).dev ((s.icache ip).addrs (Fin.last NDIRECT))
    (List.range NINDIRECT).forM (freeWord (s.icache ip).dev data)

/-- `itrunc`. -/
def itrunc (ip : InodeId) : FsM Unit := do
  (List.finRange NDIRECT).forM (fun index => freeAddr ip index.castSucc)
  freeTable ip
  freeAddr ip (Fin.last NDIRECT)
  modifyInode ip fun inode => { inode with size := 0 }
  iupdate ip

/-- The last reference to an inode without links goes: truncate and free. -/
def ifree (ip : InodeId) : FsM Unit := do
  modifyInode ip fun inode => { inode with busy := true }
  itrunc ip
  modifyInode ip fun inode => { inode with type := 0 }
  iupdate ip
  modifyInode ip fun inode => { inode with busy := false, valid := false }

/-- `ip->ref--`. -/
def unref (ip : InodeId) : FsM Unit :=
  modifyInode ip fun inode => { inode with ref := inode.ref - 1 }

/-- `iput`. -/
def iput (ip : InodeId) : FsM Unit := do
  let s ← get
  if (s.icache ip).ref = 1 ∧ (s.icache ip).valid ∧ (s.icache ip).nlink = 0 then
    if (s.icache ip).busy then throw (.panic "iput busy")
    else do
      ifree ip
      unref ip
  else unref ip

/-- `iunlockput`. -/
def iunlockput (ip : InodeId) : FsM Unit := do
  iunlock ip
  iput ip

/-- What `readi` and `writei` return for a device. -/
def device (table : Int16 → Option (Int32 → Int32)) (major : Int16) (n : UInt32) : Int32 :=
  if major < 0 ∨ NDEV ≤ major then -1
  else match table major with
    | none => -1
    | some transfer => transfer n.toInt32

/-- The bytes of a block from an offset on. -/
def slice (data : Block) (offset count : Nat) : List UInt8 :=
  (List.range count).map (fun index => Bytes.byte data (offset + index))

/-- The loop of `readi`, with `left` bytes to go; every iteration reads at least one. -/
def readLoop (ip : InodeId) : Nat → Nat → Nat → FsM (List UInt8)
  | 0, _, _ => pure []
  | fuel + 1, off, left =>
    if left = 0 then pure []
    else do
      let addr ← bmap ip (off / BSIZE)
      let s ← get
      let data ← bread (s.icache ip).dev addr
      let m := min left (BSIZE - off % BSIZE)
      let rest ← readLoop ip fuel (off + m) (left - m)
      pure (slice data (off % BSIZE) m ++ rest)

/-- `readi`, with the bytes that it delivers. -/
def readi (ip : InodeId) (off n : UInt32) : FsM (Int32 × List UInt8) := do
  let s ← get
  if (s.icache ip).type = T_DEV then
    pure (device s.devsw.read (s.icache ip).major n, [])
  else if (s.icache ip).size < off ∨ off + n < off then pure (-1, [])
  else do
    let n := if (s.icache ip).size < off + n then (s.icache ip).size - off else n
    let data ← readLoop ip n.toNat off.toNat n.toNat
    pure (n.toInt32, data)

/-- The loop of `writei`, with `left` bytes to go; every iteration writes at least
one. -/
def writeLoop (ip : InodeId) : Nat → (Nat → UInt8) → Nat → Nat → FsM Unit
  | 0, _, _, _ => pure ()
  | fuel + 1, src, off, left =>
    if left = 0 then pure ()
    else do
      let addr ← bmap ip (off / BSIZE)
      let s ← get
      let data ← bread (s.icache ip).dev addr
      let m := min left (BSIZE - off % BSIZE)
      logWrite (s.icache ip).dev addr (Bytes.move data (off % BSIZE) m src)
      writeLoop ip fuel (fun index => src (index + m)) (off + m) (left - m)

/-- `if(n > 0 && off > ip->size){ ip->size = off; iupdate(ip); }`. -/
def grow (ip : InodeId) (off n : UInt32) : FsM Unit := do
  let s ← get
  if 0 < n ∧ (s.icache ip).size < off then do
    modifyInode ip fun inode => { inode with size := off }
    iupdate ip
  else pure ()

/-- `writei`. -/
def writei (ip : InodeId) (src : Nat → UInt8) (off n : UInt32) : FsM Int32 := do
  let s ← get
  if (s.icache ip).type = T_DEV then
    pure (device s.devsw.write (s.icache ip).major n)
  else if (s.icache ip).size < off ∨ off + n < off then pure (-1)
  else if UInt32.ofNat (MAXFILE * BSIZE) < off + n then pure (-1)
  else do
    writeLoop ip n.toNat src off.toNat n.toNat
    grow ip (off + n) n
    pure n.toInt32

end Fs

end RtXv6
