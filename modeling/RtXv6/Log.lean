import RtXv6.BufferCache
import RtXv6.Bytes

/-!
# The redo log

`log.c` collects the block writes of concurrent file system operations in the buffer
cache and commits them as one group when the last operation of the group ends: it
copies the buffers to the log area, writes the header that names their home blocks,
installs the copies at home and clears the header. After a crash `recover_from_log`
installs what the header names.

The sections under `log.lock` are single steps, and so is every call that a commit or
a recovery makes into the buffer cache; the calls of other processes fall between
them. A crash keeps the disk and nothing else. The history records what the steps have
logged, for the sake of stating what a recovered disk holds.
-/

namespace RtXv6

/-- The most data blocks in the log on disk. -/
abbrev LOGSIZE : Nat := MAXOPBLOCKS * 3

/-- The device of the file system. -/
abbrev ROOTDEV : UInt32 := 1

/-- `sb.logstart` as `mkfs` writes it. -/
abbrev logstart : Nat := 2

/-- `sb.nlog` as `mkfs` writes it. -/
abbrev nlog : Nat := LOGSIZE

/-- The header block, `log.start`. -/
def headBlock : UInt32 := UInt32.ofNat logstart

/-- The block that holds a copy, `log.start+tail+1`. -/
def logBlock (tail : Nat) : UInt32 := UInt32.ofNat (logstart + tail + 1)

/-- A block outside the log area. -/
def Home (blockno : UInt32) : Prop := blockno.toNat < logstart ∨ logstart + nlog ≤ blockno.toNat

instance (blockno : UInt32) : Decidable (Home blockno) :=
  inferInstanceAs (Decidable (_ ∨ _))

namespace Logheader

/-- The loop of `read_head`. A count that exceeds `LOGSIZE` runs over `log.lh.block`; a
negative one names no block. -/
def read (data : Block) : Except Halt (List UInt32) :=
  let n := (UInt32.ofNat (Bytes.load data 0 4)).toInt32.toInt
  if (LOGSIZE : Int) < n then .error .overrun
  else .ok ((Bytes.loadAll data 4 4 n.toNat).map UInt32.ofNat)

/-- The stores of `write_head`. -/
def write (lh : List UInt32) (data : Block) : Block :=
  Bytes.storeAll (Bytes.store data 0 4 lh.length) 4 4 (lh.map UInt32.toNat)

end Logheader

/-- The two loops that copy between the log and the home blocks. -/
inductive CopyLoop where
  | writeLog
  | installTrans
  deriving DecidableEq, Repr

/-- What a loop copies from, of the log's side and the home side. -/
def CopyLoop.source {α : Type} : CopyLoop → α → α → α
  | .writeLog, _, home => home
  | .installTrans, log, _ => log

/-- What a loop copies to and writes. -/
def CopyLoop.target {α : Type} : CopyLoop → α → α → α
  | .writeLog, log, _ => log
  | .installTrans, _, home => home

/-- Where an iteration of a copying loop is: in `bread` of the log block, in `bread` of
the home block, before `memmove`, before `bwrite`, or before one of the two `brelse`. -/
inductive CopyStage where
  | getLog
  | fillLog (lbuf : BufId)
  | getHome (lbuf : BufId)
  | fillHome (lbuf dbuf : BufId)
  | move (lbuf dbuf : BufId)
  | write (lbuf dbuf : BufId)
  | releaseFrom (lbuf dbuf : BufId)
  | releaseTo (lbuf dbuf : BufId)
  deriving DecidableEq, Repr

/-- Where `write_head` is: in `bread`, before its stores, before `bwrite` or before
`brelse`. -/
inductive WriteStage where
  | get
  | fill (buf : BufId)
  | set (buf : BufId)
  | write (buf : BufId)
  | release (buf : BufId)
  deriving DecidableEq, Repr

/-- Where `read_head` is: in `bread`, before its loop or before `brelse`. -/
inductive ReadStage where
  | get
  | fill (buf : BufId)
  | load (buf : BufId)
  | release (buf : BufId)
  deriving DecidableEq, Repr

/-- Where `commit` or `recover_from_log` is. `commit` starts at `test`,
`recover_from_log` at `readHead`; from `installTrans` on they do the same. The last
`write_head` clears the log. -/
inductive Pc where
  | test
  | readHead (stage : ReadStage)
  | copy (loop : CopyLoop) (tail : Nat) (stage : CopyStage)
  | writeHead (last : Bool) (stage : WriteStage)
  | done
  deriving DecidableEq, Repr

namespace Buffers

/-- The second half of `bread`: a buffer without data is read from the disk. -/
def fetch (s : Buffers) (process : Nat) (id : BufId) : Except Halt Buffers :=
  if (s.cache.buf id).valid then .ok s else (s.take (.fill process id)).map Prod.fst

/-- `memmove` or stores into the data of a held buffer. -/
def put (s : Buffers) (process : Nat) (id : BufId) (data : Block) : Except Halt Buffers :=
  (s.take (.change process id data)).map Prod.fst

/-- `bwrite` of a held buffer. -/
def flush (s : Buffers) (process : Nat) (id : BufId) : Except Halt Buffers :=
  (s.take (.bwrite process id)).map Prod.fst

/-- `brelse` of a held buffer. -/
def release (s : Buffers) (process : Nat) (id : BufId) : Except Halt Buffers :=
  (s.take (.brelse process id)).map Prod.fst

end Buffers

/-- What a commit or a recovery works on: `log.lh`, the cache and its own position. -/
structure Committer where
  lh : List UInt32
  buffers : Buffers
  pc : Pc

namespace Committer

/-- The next call of `read_head`. -/
def readStep (process : Nat) (c : Committer) : ReadStage → Except Halt Committer
  | .get => do
    let (buffers, got) ← c.buffers.get process ROOTDEV headBlock
    .ok { c with buffers, pc := .readHead (got.elim .get .fill) }
  | .fill buf => do
    let buffers ← c.buffers.fetch process buf
    .ok { c with buffers, pc := .readHead (.load buf) }
  | .load buf => do
    let lh ← Logheader.read (c.buffers.cache.buf buf).data
    .ok { c with lh, pc := .readHead (.release buf) }
  | .release buf => do
    let buffers ← c.buffers.release process buf
    .ok { c with buffers, pc := .copy .installTrans 0 .getLog }

/-- The next call of `write_log` or `install_trans`. The loop ends when `tail` has reached
`log.lh.n`; after `install_trans` the caller sets `log.lh.n` to zero. -/
def copyStep (process : Nat) (c : Committer) (loop : CopyLoop) (tail : Nat) :
    CopyStage → Except Halt Committer
  | .getLog =>
    if tail < c.lh.length then do
      let (buffers, got) ← c.buffers.get process ROOTDEV (logBlock tail)
      .ok { c with buffers, pc := .copy loop tail (got.elim .getLog .fillLog) }
    else
      match loop with
      | .writeLog => .ok { c with pc := .writeHead false .get }
      | .installTrans => .ok { c with lh := [], pc := .writeHead true .get }
  | .fillLog lbuf => do
    let buffers ← c.buffers.fetch process lbuf
    .ok { c with buffers, pc := .copy loop tail (.getHome lbuf) }
  | .getHome lbuf => do
    let (buffers, got) ← c.buffers.get process ROOTDEV (c.lh.getD tail 0)
    .ok { c with buffers, pc := .copy loop tail (got.elim (.getHome lbuf) (.fillHome lbuf)) }
  | .fillHome lbuf dbuf => do
    let buffers ← c.buffers.fetch process dbuf
    .ok { c with buffers, pc := .copy loop tail (.move lbuf dbuf) }
  | .move lbuf dbuf => do
    let buffers ← c.buffers.put process (loop.target lbuf dbuf)
      (c.buffers.cache.buf (loop.source lbuf dbuf)).data
    .ok { c with buffers, pc := .copy loop tail (.write lbuf dbuf) }
  | .write lbuf dbuf => do
    let buffers ← c.buffers.flush process (loop.target lbuf dbuf)
    .ok { c with buffers, pc := .copy loop tail (.releaseFrom lbuf dbuf) }
  | .releaseFrom lbuf dbuf => do
    let buffers ← c.buffers.release process (loop.source lbuf dbuf)
    .ok { c with buffers, pc := .copy loop tail (.releaseTo lbuf dbuf) }
  | .releaseTo lbuf dbuf => do
    let buffers ← c.buffers.release process (loop.target lbuf dbuf)
    .ok { c with buffers, pc := .copy loop (tail + 1) .getLog }

/-- The next call of `write_head`. -/
def writeStep (process : Nat) (c : Committer) (last : Bool) : WriteStage → Except Halt Committer
  | .get => do
    let (buffers, got) ← c.buffers.get process ROOTDEV headBlock
    .ok { c with buffers, pc := .writeHead last (got.elim .get .fill) }
  | .fill buf => do
    let buffers ← c.buffers.fetch process buf
    .ok { c with buffers, pc := .writeHead last (.set buf) }
  | .set buf => do
    let buffers ← c.buffers.put process buf
      (Logheader.write c.lh (c.buffers.cache.buf buf).data)
    .ok { c with buffers, pc := .writeHead last (.write buf) }
  | .write buf => do
    let buffers ← c.buffers.flush process buf
    .ok { c with buffers, pc := .writeHead last (.release buf) }
  | .release buf => do
    let buffers ← c.buffers.release process buf
    .ok { c with buffers, pc := if last then .done else .copy .installTrans 0 .getLog }

/-- The next call of `commit` or `recover_from_log`. A `bread` of a busy buffer leaves
everything as it is. -/
def advance (process : Nat) (c : Committer) : Except Halt Committer :=
  match c.pc with
  | .test => .ok { c with pc := if 0 < c.lh.length then .copy .writeLog 0 .getLog else .done }
  | .readHead stage => c.readStep process stage
  | .copy loop tail stage => c.copyStep process loop tail stage
  | .writeHead last stage => c.writeStep process last stage
  | .done => .ok c

end Committer

end RtXv6
