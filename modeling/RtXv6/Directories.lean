import RtXv6.Inodes

/-!
# Directories and path names

The rest of `fs.c`: entries of directories and the walk along a path. Strings are the
bytes in front of their terminating zero.
-/

namespace RtXv6.Fs

/-- `strncmp`. -/
def strncmp : Nat → List UInt8 → List UInt8 → Int
  | 0, _, _ => 0
  | n + 1, p, q =>
    if p.headD 0 ≠ 0 ∧ p.headD 0 = q.headD 0 then strncmp n p.tail q.tail
    else (p.headD 0).toNat - (q.headD 0).toNat

/-- `namecmp`. -/
def namecmp (s t : List UInt8) : Int := strncmp DIRSIZ s t

/-- The entry that `readi` delivers into `de`. -/
def toDirent (bytes : List UInt8) : Dirent := fun index => bytes.getD index 0

/-- The loop `for(off = start; off < dp->size; off += sizeof(de))` that reads an entry,
panics if it cannot, and stops at one that fits; the offset where it ended and the entry
it stopped at. -/
def scan (dp : InodeId) (message : String) (stop : Dirent → Bool) :
    Nat → Nat → FsM (Nat × Option Dirent)
  | 0, off => pure (off, none)
  | fuel + 1, off => do
    let s ← get
    if off < (s.icache dp).size.toNat then do
      let read ← readi dp (UInt32.ofNat off) 16
      if read.1 = 16 then
        if stop (toDirent read.2) then pure (off, some (toDirent read.2))
        else scan dp message stop fuel (off + 16)
      else throw (.panic message)
    else pure (off, none)

/-- As many entries as a directory has room for. -/
def entries (s : Fs) (dp : InodeId) : Nat := ((s.icache dp).size.toNat + 15) / 16

/-- `dirlookup`, with the offset of the entry. -/
def dirlookup (dp : InodeId) (name : List UInt8) : FsM (Option (InodeId × Nat)) := do
  let s ← get
  if (s.icache dp).type ≠ T_DIR then throw (.panic "dirlookup not DIR")
  else do
    let found ← scan dp "dirlink read"
      (fun de => de.inum ≠ 0 ∧ namecmp name de.name = 0) (s.entries dp) 0
    match found.2 with
    | none => pure none
    | some de => do
      let ip ← iget (s.icache dp).dev de.inum.toUInt32
      pure (some (ip, found.1))

/-- `writei` of an entry, which has to succeed. -/
def writeDirent (dp : InodeId) (message : String) (de : Dirent) (off : Nat) : FsM Unit := do
  let r ← writei dp (Bytes.byte de) (UInt32.ofNat off) 16
  if r = 16 then pure () else throw (.panic message)

/-- `dirlink`. -/
def dirlink (dp : InodeId) (name : List UInt8) (inum : UInt32) : FsM Int32 := do
  let present ← dirlookup dp name
  match present with
  | some (ip, _) => do
    iput ip
    pure (-1)
  | none => do
    let s ← get
    let found ← scan dp "dirlink read" (fun de => de.inum = 0) (s.entries dp) 0
    writeDirent dp "dirlink" (Dirent.make inum.toUInt16 name) found.1
    pure 0

/-- The byte `'/'`. -/
abbrev slash : UInt8 := 47

/-- `skipelem`: the next path element and the rest of the path. -/
def skipelem (path : List UInt8) : Option (List UInt8 × List UInt8) :=
  let path := path.dropWhile (· = slash)
  if path = [] then none
  else some ((path.takeWhile (· ≠ slash)).take DIRSIZ,
    (path.dropWhile (· ≠ slash)).dropWhile (· = slash))

/-- The loop of `namex`, with the name that `nameiparent` leaves. Every iteration uses up
a byte of the path. -/
def walk (nameiparent : Bool) : Nat → InodeId → List UInt8 → FsM (Option (InodeId × List UInt8))
  | 0, _, _ => throw .runaway
  | fuel + 1, ip, path =>
    match skipelem path with
    | none =>
      if nameiparent then do
        iput ip
        pure none
      else pure (some (ip, []))
    | some (name, rest) => do
      ilock ip
      let s ← get
      if (s.icache ip).type ≠ T_DIR then do
        iunlockput ip
        pure none
      else if nameiparent ∧ rest = [] then do
        iunlock ip
        pure (some (ip, name))
      else do
        let next ← dirlookup ip name
        iunlockput ip
        match next with
        | none => pure none
        | some (next, _) => walk nameiparent fuel next rest

/-- Where `namex` starts. -/
def origin (process : Slot) (path : List UInt8) : FsM InodeId := do
  let s ← get
  if path.head? = some slash then iget ROOTDEV ROOTINO
  else match (s.proc process).cwd with
    | none => throw .null
    | some cwd => idup cwd

/-- `namex`. -/
def namex (process : Slot) (path : List UInt8) (nameiparent : Bool) :
    FsM (Option (InodeId × List UInt8)) := do
  let ip ← origin process path
  walk nameiparent (path.length + 1) ip path

/-- `namei`. -/
def namei (process : Slot) (path : List UInt8) : FsM (Option InodeId) := do
  let found ← namex process path false
  pure (found.map Prod.fst)

/-- `nameiparent`. -/
def nameiparent (process : Slot) (path : List UInt8) : FsM (Option (InodeId × List UInt8)) :=
  namex process path true

end RtXv6.Fs
