import RtXv6.LogBuffers

/-!
# What a commit keeps on disk

A disk is recoverable to a state of the home blocks when its header names distinct home
blocks, their copies in the log area hold that state, and so do all other home blocks.
While the copies are written the header names nothing and the disk is recoverable to the
state before the group; the one write of the header makes it recoverable to the state
after it, and it remains so while the copies are installed and the header is cleared.

The cache supports this by keeping every block of the group in a dirty buffer with the
data that was logged last, until the block is installed.
-/

namespace RtXv6

open Function (update update_self update_of_ne)
open Outcome

variable {tail : Nat}

theorem logBlock_toNat (inside : tail < nlog) : (logBlock tail).toNat = logstart + tail + 1 := by
  unfold logBlock
  rw [UInt32.toNat_ofNat']
  simp only [nlog, LOGSIZE, MAXOPBLOCKS, logstart] at inside ⊢
  omega

theorem headBlock_toNat : headBlock.toNat = logstart := rfl

theorem Home.ne_head {blockno : UInt32} (home : Home blockno) : blockno ≠ headBlock := by
  rintro rfl
  simp only [Home, headBlock_toNat, nlog, LOGSIZE, MAXOPBLOCKS] at home
  omega

theorem Home.ne_log {blockno : UInt32} (home : Home blockno) (inside : tail + 1 < nlog) :
    blockno ≠ logBlock tail := by
  rintro rfl
  unfold Home at home
  rw [logBlock_toNat (by omega)] at home
  omega

theorem logBlock_ne_head (inside : tail < nlog) : logBlock tail ≠ headBlock := by
  intro same
  have numbers := congrArg UInt32.toNat same
  rw [logBlock_toNat inside, headBlock_toNat] at numbers
  omega

theorem logBlock_injective {other : Nat} (inside : tail < nlog) (otherInside : other < nlog)
    (same : logBlock tail = logBlock other) : tail = other := by
  have numbers := congrArg UInt32.toNat same
  rw [logBlock_toNat inside, logBlock_toNat otherInside] at numbers
  omega

theorem Logheader.count_write {lh : List UInt32} (short : lh.length ≤ LOGSIZE) (data : Block) :
    Bytes.load (Logheader.write lh data) 0 4 = lh.length := by
  unfold Logheader.write
  rw [Bytes.load_storeAll_other _ _ _ _ _ _ (.inl (by decide)),
    Bytes.load_store_self _ _ _ _ (by decide)]
  exact Nat.mod_eq_of_lt (by simp only [LOGSIZE, MAXOPBLOCKS] at short; omega)

/-- The header that `write_head` stores is the one that `read_head` finds. -/
theorem Logheader.read_write {lh : List UInt32} (short : lh.length ≤ LOGSIZE) (data : Block) :
    Logheader.read (Logheader.write lh data) = .ok lh := by
  have blocks : Bytes.loadAll (Logheader.write lh data) 4 4 lh.length = lh.map UInt32.toNat := by
    have stored := Bytes.loadAll_storeAll (Bytes.store data 0 4 lh.length) 4 4
      (lh.map UInt32.toNat)
      (by simp only [List.length_map, LOGSIZE, MAXOPBLOCKS, BSIZE] at short ⊢; omega)
      (fun value member => by
        obtain ⟨blockno, _, rfl⟩ := List.mem_map.mp member
        exact blockno.toNat_lt)
    rwa [List.length_map] at stored
  have signed : (UInt32.ofNat lh.length).toInt32.toInt = lh.length := by
    change (BitVec.ofNat 32 lh.length).toInt = lh.length
    simp only [LOGSIZE, MAXOPBLOCKS] at short
    rw [BitVec.toInt_eq_toNat_of_lt, BitVec.toNat_ofNat, Nat.mod_eq_of_lt (by omega)]
    rw [BitVec.toNat_ofNat, Nat.mod_eq_of_lt (by omega)]
    omega
  unfold Logheader.read
  rw [Logheader.count_write short, signed]
  simp only [Int.toNat_natCast, blocks, List.map_map]
  have whole : UInt32.ofNat ∘ UInt32.toNat = id := funext (fun _ => UInt32.ofNat_toNat)
  rw [if_neg (by omega), whole, List.map_id]

/-- Recovering the disk's blocks gives `value` at home: the header names `lh`. -/
structure Recoverable (blocks value : UInt32 → Block) (lh : List UInt32) : Prop where
  count : Bytes.load (blocks headBlock) 0 4 = lh.length
  header : Logheader.read (blocks headBlock) = .ok lh
  distinct : lh.Nodup
  home : ∀ blockno ∈ lh, Home blockno
  short : lh.length < nlog
  copies : ∀ tail blockno, lh[tail]? = some blockno → blocks (logBlock tail) = value blockno
  rest : ∀ blockno, Home blockno → blockno ∉ lh → blocks blockno = value blockno

namespace Buffers

/-- The blocks of the file system's device. -/
abbrev blocks (s : Buffers) : UInt32 → Block := s.disk ROOTDEV

/-- The dirty buffers carry only the given blocks. -/
def DirtyIn (s : Buffers) (pending : List UInt32) : Prop :=
  ∀ id, (s.cache.buf id).dirty = true →
    (s.cache.buf id).dev = ROOTDEV ∧ (s.cache.buf id).blockno ∈ pending

/-- The cache and the disk hold `value` at home. The pending blocks are in dirty buffers
with what was logged last; all other home blocks are on disk. -/
structure Tracks (s : Buffers) (value : UInt32 → Block) (pending : List UInt32) : Prop where
  settled : ∀ blockno, Home blockno → blockno ∉ pending → s.blocks blockno = value blockno
  pinned : ∀ blockno ∈ pending, ∃ id, s.Carries id ROOTDEV blockno ∧
    (s.cache.buf id).dirty = true ∧
    (s.modified id = false → (s.cache.buf id).data = value blockno)
  dirty : s.DirtyIn pending

variable {s next : Buffers} {pending : List UInt32}

theorem DirtyIn.quiet (dirtyIn : s.DirtyIn pending) (quiet : Quiet s next) :
    next.DirtyIn pending := by
  intro id dirty
  rw [quiet.dirty] at dirty
  rw [quiet.dev id dirty, quiet.blockno id dirty]
  exact dirtyIn id dirty

variable {value : UInt32 → Block}

theorem Tracks.quiet (tracks : Tracks s value pending) (quiet : Quiet s next) :
    Tracks next value pending := by
  refine ⟨?_, ?_, DirtyIn.quiet tracks.dirty quiet⟩
  · intro blockno home absent
    rw [blocks, quiet.disk]
    exact tracks.settled blockno home absent
  · intro blockno member
    obtain ⟨id, carries, dirty, logged⟩ := tracks.pinned blockno member
    refine ⟨id, ?_, (quiet.dirty id).trans dirty, ?_⟩
    · exact ⟨(quiet.dev id dirty).trans carries.1, (quiet.blockno id dirty).trans carries.2⟩
    · intro unmodified
      obtain ⟨before, same⟩ := quiet.data id dirty unmodified
      rw [same]
      exact logged before

variable {id : BufId} {blockno : UInt32} {process : Nat}

/-- A buffer that `bread` returned for a home block has the block's value. -/
theorem Tracks.reads (tracks : Tracks s value pending) (coherent : Coherent s)
    (ready : Ready s process id blockno) (home : Home blockno) :
    (s.cache.buf id).data = value blockno := by
  by_cases member : blockno ∈ pending
  · obtain ⟨other, carries, _, logged⟩ := tracks.pinned blockno member
    obtain rfl : other = id :=
      coherent.unique other id ROOTDEV blockno (by decide) carries ready.carries
    exact logged ready.unmodified
  have clean : (s.cache.buf id).dirty = false := by
    by_contra dirty
    have pends := (tracks.dirty id (Bool.of_not_eq_false dirty)).2
    rw [ready.carries.2] at pends
    exact member pends
  rw [coherent.clean id ready.valid clean ready.unmodified, ready.carries.1, ready.carries.2]
  exact tracks.settled blockno home member

theorem DirtyIn.reads (dirtyIn : s.DirtyIn pending) (coherent : Coherent s)
    (ready : Ready s process id blockno) (absent : blockno ∉ pending) :
    (s.cache.buf id).data = s.blocks blockno := by
  have clean : (s.cache.buf id).dirty = false := by
    by_contra dirty
    have pends := (dirtyIn id (Bool.of_not_eq_false dirty)).2
    rw [ready.carries.2] at pends
    exact absent pends
  rw [coherent.clean id ready.valid clean ready.unmodified, ready.carries.1, ready.carries.2]

/-- With a buffer that is not dirty there are fewer pending blocks than buffers. -/
theorem Tracks.room (tracks : Tracks s value pending) (distinct : pending.Nodup)
    (clean : (s.cache.buf id).dirty = false) : pending.length < NBUF := by
  classical
  choose buffer carries using tracks.pinned
  have others : (pending.attach.map (fun each => buffer each.1 each.2)).Nodup := by
    refine List.Nodup.map_on ?_ (List.nodup_attach.mpr distinct)
    intro first _ second _ same
    apply Subtype.ext
    rw [← (carries first.1 first.2).1.2, ← (carries second.1 second.2).1.2, same]
  have absent : id ∉ pending.attach.map (fun each => buffer each.1 each.2) := by
    intro member
    obtain ⟨each, _, rfl⟩ := List.mem_map.mp member
    simp [(carries each.1 each.2).2.1] at clean
  have bound := (List.nodup_cons.mpr ⟨absent, others⟩).length_le_card
  rw [Fintype.card_fin, List.length_cons, List.length_map, List.length_attach] at bound
  exact bound

/-- The copies of a group are being written: the first `count` are on disk, and the header
still names nothing. -/
structure Logging (s : Buffers) (old new : UInt32 → Block) (lh : List UInt32) (count : Nat) :
    Prop where
  before : Recoverable s.blocks old []
  tracks : Tracks s new lh
  distinct : lh.Nodup
  home : ∀ blockno ∈ lh, Home blockno
  copied : ∀ tail blockno, tail < count → lh[tail]? = some blockno →
    s.blocks (logBlock tail) = new blockno

/-- The header names the group, and its first `count` blocks are installed. -/
structure Installing (s : Buffers) (value : UInt32 → Block) (lh : List UInt32) (count : Nat) :
    Prop where
  after : Recoverable s.blocks value lh
  settled : ∀ blockno, Home blockno → blockno ∉ lh.drop count → s.blocks blockno = value blockno
  dirty : s.DirtyIn (lh.drop count)

/-- Every home block is on disk, and the header may still name some. -/
structure Installed (s : Buffers) (value : UInt32 → Block) : Prop where
  after : ∃ lh, Recoverable s.blocks value lh
  settled : ∀ blockno, Home blockno → s.blocks blockno = value blockno
  dirty : s.DirtyIn []

variable {lh : List UInt32} {count : Nat} {old new : UInt32 → Block}

theorem Logging.quiet (logging : Logging s old new lh count) (quiet : Quiet s next) :
    Logging next old new lh count := by
  have blocks : next.blocks = s.blocks := congrFun quiet.disk ROOTDEV
  refine ⟨blocks ▸ logging.before, logging.tracks.quiet quiet, logging.distinct, logging.home, ?_⟩
  rw [blocks]
  exact logging.copied

theorem Installing.quiet (installing : Installing s value lh count) (quiet : Quiet s next) :
    Installing next value lh count := by
  have blocks : next.blocks = s.blocks := congrFun quiet.disk ROOTDEV
  refine ⟨blocks ▸ installing.after, ?_, installing.dirty.quiet quiet⟩
  rw [blocks]
  exact installing.settled

theorem Installed.quiet (installed : Installed s value) (quiet : Quiet s next) :
    Installed next value := by
  have blocks : next.blocks = s.blocks := congrFun quiet.disk ROOTDEV
  refine ⟨blocks ▸ installed.after, ?_, installed.dirty.quiet quiet⟩
  rw [blocks]
  exact installed.settled

theorem DirtyIn.flush (dirtyIn : s.DirtyIn pending)
    (others : ∀ other, other ≠ id → Kept other s next) (clean : (next.cache.buf id).dirty = false) :
    ∀ other, (next.cache.buf other).dirty = true →
      other ≠ id ∧ (next.cache.buf other).dev = ROOTDEV ∧
        (next.cache.buf other).blockno ∈ pending := by
  intro other dirty
  have different : other ≠ id := by
    rintro rfl
    simp [clean] at dirty
  rw [(others other different).buf] at dirty ⊢
  exact ⟨different, dirtyIn other dirty⟩

variable {data : Block}

/-- Writing a block outside the home blocks leaves what the cache tracks. -/
theorem Tracks.flush (tracks : Tracks s value pending)
    (others : ∀ other, other ≠ id → Kept other s next) (carries : s.Carries id ROOTDEV blockno)
    (clean : (next.cache.buf id).dirty = false)
    (written : next.blocks = update s.blocks blockno data)
    (outside : ∀ other, Home other → other ≠ blockno) (absent : blockno ∉ pending) :
    Tracks next value pending := by
  refine ⟨?_, ?_, ?_⟩
  · intro other home notPending
    rw [written, update_of_ne (outside other home)]
    exact tracks.settled other home notPending
  · intro other member
    obtain ⟨buffer, bufferCarries, dirty, logged⟩ := tracks.pinned other member
    have different : buffer ≠ id := by
      rintro rfl
      exact absent (carries.2.symm.trans bufferCarries.2 ▸ member)
    have kept := others buffer different
    refine ⟨buffer, ?_, ?_, ?_⟩
    · simpa only [Carries, kept.buf] using bufferCarries
    · rw [kept.buf, dirty]
    · rw [kept.buf, kept.modified]
      exact logged
  · intro other dirty
    exact (tracks.dirty.flush others clean other dirty).2

theorem Logging.copies (logging : Logging s old new lh tail) (named : lh[tail]? = some blockno)
    (short : lh.length < nlog) (others : ∀ other, other ≠ id → Kept other s next)
    (carries : s.Carries id ROOTDEV (logBlock tail)) (clean : (next.cache.buf id).dirty = false)
    (written : next.blocks = update s.blocks (logBlock tail) (new blockno)) :
    Logging next old new lh (tail + 1) := by
  have inside : tail + 1 < nlog := by
    have bound := (List.getElem?_eq_some_iff.mp named).1
    omega
  have outside : ∀ other, Home other → other ≠ logBlock tail := fun other home => home.ne_log inside
  have absent : logBlock tail ∉ lh := fun member => outside _ (logging.home _ member) rfl
  refine ⟨?_, ?_, logging.distinct, logging.home, ?_⟩
  · obtain ⟨count, header, distinct, home, few, _, rest⟩ := logging.before
    have same : next.blocks headBlock = s.blocks headBlock := by
      rw [written, update_of_ne (logBlock_ne_head (by omega)).symm]
    refine ⟨same ▸ count, same ▸ header, distinct, home, few, by simp, ?_⟩
    · intro other otherHome notNamed
      rw [written, update_of_ne (outside other otherHome)]
      exact rest other otherHome notNamed
  · exact logging.tracks.flush others carries clean written outside absent
  · intro other otherBlock below otherNamed
    by_cases same : other = tail
    · subst same
      rw [named] at otherNamed
      obtain rfl := Option.some.inj otherNamed
      rw [written, update_self]
    have different : logBlock other ≠ logBlock tail := by
      intro equal
      exact same (logBlock_injective (by omega) (by omega) equal)
    rw [written, update_of_ne different]
    exact logging.copied other otherBlock (by omega) otherNamed

theorem Logging.commits (logging : Logging s old new lh lh.length) (short : lh.length < nlog)
    (others : ∀ other, other ≠ id → Kept other s next) (clean : (next.cache.buf id).dirty = false)
    (written : next.blocks = update s.blocks headBlock (Logheader.write lh data)) :
    Installing next new lh 0 := by
  have elsewhere : ∀ other, other ≠ headBlock → next.blocks other = s.blocks other := by
    intro other different
    rw [written, update_of_ne different]
  have rest : ∀ other, Home other → other ∉ lh → next.blocks other = new other := by
    intro other home absent
    rw [elsewhere other home.ne_head]
    exact logging.tracks.settled other home absent
  refine ⟨⟨?_, ?_, logging.distinct, logging.home, short, ?_, rest⟩, rest, ?_⟩
  · rw [written, update_self]
    exact Logheader.count_write (Nat.le_of_lt short) data
  · rw [written, update_self]
    exact Logheader.read_write (Nat.le_of_lt short) data
  · intro tail blockno named
    have bound := (List.getElem?_eq_some_iff.mp named).1
    rw [elsewhere _ (logBlock_ne_head (by omega))]
    exact logging.copied tail blockno bound named
  · intro other dirty
    exact (logging.tracks.dirty.flush others clean other dirty).2

theorem Installing.installs (installing : Installing s value lh tail) (coherent : Coherent next)
    (named : lh[tail]? = some blockno) (others : ∀ other, other ≠ id → Kept other s next)
    (carries : next.Carries id ROOTDEV blockno) (clean : (next.cache.buf id).dirty = false)
    (written : next.blocks = update s.blocks blockno (value blockno)) :
    Installing next value lh (tail + 1) := by
  obtain ⟨bound, rfl⟩ := List.getElem?_eq_some_iff.mp named
  have remaining : lh.drop tail = lh[tail] :: lh.drop (tail + 1) := List.drop_eq_getElem_cons bound
  have home : Home lh[tail] := installing.after.home _ (List.getElem_mem bound)
  refine ⟨?_, ?_, ?_⟩
  · obtain ⟨count, header, distinct, homes, short, copies, rest⟩ := installing.after
    have same : next.blocks headBlock = s.blocks headBlock := by
      rw [written, update_of_ne home.ne_head.symm]
    refine ⟨same ▸ count, same ▸ header, distinct, homes, short, ?_, ?_⟩
    · intro other otherBlock otherNamed
      have otherBound := (List.getElem?_eq_some_iff.mp otherNamed).1
      rw [written, update_of_ne (home.ne_log (by omega)).symm]
      exact copies other otherBlock otherNamed
    · intro other otherHome absent
      have different : other ≠ lh[tail] := by
        rintro rfl
        exact absent (List.getElem_mem bound)
      rw [written, update_of_ne different]
      exact rest other otherHome absent
  · intro other otherHome absent
    by_cases same : other = lh[tail]
    · rw [written, same, update_self]
    rw [written, update_of_ne same]
    apply installing.settled other otherHome
    rw [remaining, List.mem_cons]
    rintro (equal | later)
    · exact same equal
    · exact absent later
  · intro other dirty
    obtain ⟨different, device, pending⟩ := installing.dirty.flush others clean other dirty
    refine ⟨device, ?_⟩
    rw [remaining, List.mem_cons] at pending
    rcases pending with here | later
    · exact absurd (coherent.unique other id ROOTDEV lh[tail] (by decide) ⟨device, here⟩ carries)
        different
    · exact later

theorem Installing.finished (installing : Installing s value lh count) (all : lh.length ≤ count) :
    Installed s value := by
  have nothing : lh.drop count = [] := List.drop_eq_nil_iff.mpr all
  obtain ⟨after, settled, dirty⟩ := installing
  rw [nothing] at settled dirty
  exact ⟨⟨lh, after⟩, fun blockno home => settled blockno home List.not_mem_nil, dirty⟩

theorem Installed.clears (installed : Installed s value)
    (others : ∀ other, other ≠ id → Kept other s next) (clean : (next.cache.buf id).dirty = false)
    (written : next.blocks = update s.blocks headBlock (Logheader.write [] data)) :
    Recoverable next.blocks value [] ∧ next.DirtyIn [] := by
  refine ⟨⟨?_, ?_, List.nodup_nil, by simp, by decide, by simp, ?_⟩, ?_⟩
  · rw [written, update_self]
    exact Logheader.count_write (Nat.zero_le _) data
  · rw [written, update_self]
    exact Logheader.read_write (Nat.zero_le _) data
  · intro other home _
    rw [written, update_of_ne home.ne_head]
    exact installed.settled other home
  · intro other dirty
    exact (installed.dirty.flush others clean other dirty).2

end Buffers

open Buffers

/-- The iteration has written its block. -/
def CopyStage.written : CopyStage → Nat
  | .releaseFrom _ _ => 1
  | .releaseTo _ _ => 1
  | _ => 0

theorem CopyLoop.pair {α : Type} (loop : CopyLoop) {first second : α} (different : first ≠ second) :
    loop.source first second ≠ loop.target first second := by
  cases loop with
  | writeLog => exact different.symm
  | installTrans => exact different

variable {log : UInt32} {lbuf dbuf : BufId}

/-- What holds of the two sides holds of what a loop copies from and to. -/
theorem Buffers.Ready.sides {s : Buffers} {process : Nat} {home : UInt32} (loop : CopyLoop)
    (first : Ready s process lbuf log) (second : Ready s process dbuf home) :
    Ready s process (loop.source lbuf dbuf) (loop.source log home) ∧
      Ready s process (loop.target lbuf dbuf) (loop.target log home) := by
  cases loop with
  | writeLog => exact ⟨second, first⟩
  | installTrans => exact ⟨first, second⟩

variable {c : Committer} {id : BufId} {pc : Pc}

namespace Committer

/-- The buffers that a copying iteration holds between the log block and the home block;
`data` is what it writes. -/
def Copies (s : Buffers) (process : Nat) (loop : CopyLoop) (log home : UInt32) (data : Block) :
    CopyStage → Prop
  | .getLog => True
  | .fillLog lbuf => Held s process lbuf log
  | .getHome lbuf => Ready s process lbuf log
  | .fillHome lbuf dbuf => Ready s process lbuf log ∧ Held s process dbuf home
  | .move lbuf dbuf => Ready s process lbuf log ∧ Ready s process dbuf home
  | .write lbuf dbuf =>
    Ready s process (loop.source lbuf dbuf) (loop.source log home) ∧
      Loaded s process (loop.target lbuf dbuf) (loop.target log home) data
  | .releaseFrom lbuf dbuf =>
    Ready s process (loop.source lbuf dbuf) (loop.source log home) ∧
      Ready s process (loop.target lbuf dbuf) (loop.target log home)
  | .releaseTo lbuf dbuf => Ready s process (loop.target lbuf dbuf) (loop.target log home)

/-- The buffer that `write_head` holds. -/
def Writes (s : Buffers) (process : Nat) (lh : List UInt32) : WriteStage → Prop
  | .get => True
  | .fill buf => Held s process buf headBlock
  | .set buf => Ready s process buf headBlock
  | .write buf => ∃ data, Loaded s process buf headBlock (Logheader.write lh data)
  | .release buf => Ready s process buf headBlock

/-- The buffer that `read_head` holds, and the header once it is loaded. -/
def Reads (s : Buffers) (process : Nat) (lh named : List UInt32) : ReadStage → Prop
  | .get => True
  | .fill buf => Held s process buf headBlock
  | .load buf => Ready s process buf headBlock
  | .release buf => Ready s process buf headBlock ∧ lh = named

/-- An iteration of a copying loop is at its test, or it copies a block of the group. -/
def Iterates (c : Committer) (process : Nat) (loop : CopyLoop) (value : UInt32 → Block) (tail : Nat)
    (stage : CopyStage) : Prop :=
  stage = .getLog ∨ ∃ blockno, c.lh[tail]? = some blockno ∧
    Copies c.buffers process loop (logBlock tail) blockno (value blockno) stage

/-- How far a copying loop has come. Once it has a buffer for the first copy, the copies fit
into the log area: otherwise every buffer would be dirty. -/
def Progress (old new : UInt32 → Block) (s : Buffers) (lh : List UInt32) (loop : CopyLoop)
    (count : Nat) (begun : Prop) : Prop :=
  match loop with
  | .writeLog => Logging s old new lh count ∧ 0 < lh.length ∧ (begun → lh.length < nlog)
  | .installTrans => Installing s new lh count

/-- What holds at each position of a commit that takes the home blocks from `old` to `new`,
and of a recovery of `new`. -/
def At (process : Nat) (old new : UInt32 → Block) (c : Committer) : Prop :=
  match c.pc with
  | .test => Logging c.buffers old new c.lh 0
  | .readHead stage => ∃ named, Recoverable c.buffers.blocks new named ∧ c.buffers.DirtyIn [] ∧
      Reads c.buffers process c.lh named stage
  | .copy loop tail stage =>
      Progress old new c.buffers c.lh loop (tail + stage.written) (tail ≠ 0 ∨ stage ≠ .getLog) ∧
      c.Iterates process loop new tail stage
  | .writeHead false (.release buf) => Installing c.buffers new c.lh 0 ∧
      Ready c.buffers process buf headBlock
  | .writeHead false stage => Logging c.buffers old new c.lh c.lh.length ∧ c.lh.length < nlog ∧
      Writes c.buffers process c.lh stage
  | .writeHead true (.release buf) => c.lh = [] ∧ Recoverable c.buffers.blocks new [] ∧
      c.buffers.DirtyIn [] ∧ Ready c.buffers process buf headBlock
  | .writeHead true stage => c.lh = [] ∧ Installed c.buffers new ∧
      Writes c.buffers process c.lh stage
  | .done => c.lh = [] ∧ Recoverable c.buffers.blocks new [] ∧ c.buffers.DirtyIn []

variable {process : Nat} {old new : UInt32 → Block}

/-- At every position the disk is recoverable, to the state before the group or after it. -/
theorem At.recoverable (position : At process old new c) :
    (∃ named, Recoverable c.buffers.blocks old named) ∨
      ∃ named, Recoverable c.buffers.blocks new named := by
  obtain ⟨lh, buffers, pc⟩ := c
  cases pc with
  | test => exact .inl ⟨[], position.before⟩
  | readHead stage =>
    obtain ⟨named, after, _⟩ := position
    exact .inr ⟨named, after⟩
  | copy loop tail stage =>
    cases loop with
    | writeLog => exact .inl ⟨[], position.1.1.before⟩
    | installTrans => exact .inr ⟨lh, position.1.after⟩
  | writeHead last stage =>
    cases last with
    | false =>
      cases stage with
      | release buf => exact .inr ⟨lh, position.1.after⟩
      | _ => exact .inl ⟨[], position.1.before⟩
    | true =>
      cases stage with
      | release buf => exact .inr ⟨[], position.2.1⟩
      | _ => exact .inr position.2.1.after
  | done => exact .inr ⟨[], position.2.1⟩

variable {s next : Buffers} {loop : CopyLoop} {stage : CopyStage}

theorem Copies.spared {home : UInt32} {data : Block}
    (copies : Copies s process loop log home data stage) (spares : Spares process s next) :
    Copies next process loop log home data stage := by
  cases stage with
  | getLog => trivial
  | fillLog lbuf => exact Held.kept copies (spares lbuf copies.holder)
  | getHome lbuf => exact Ready.kept copies (spares lbuf copies.holder)
  | fillHome | move | write | releaseFrom =>
    exact ⟨copies.1.kept (spares _ copies.1.holder), copies.2.kept (spares _ copies.2.holder)⟩
  | releaseTo lbuf dbuf => exact Ready.kept copies (spares _ copies.holder)

variable {lh : List UInt32}

theorem Writes.spared {stage : WriteStage} (writes : Writes s process lh stage)
    (spares : Spares process s next) : Writes next process lh stage := by
  cases stage with
  | get => trivial
  | fill buf => exact Held.kept writes (spares buf writes.holder)
  | set buf | release buf => exact Ready.kept writes (spares buf writes.holder)
  | write buf =>
    obtain ⟨data, loaded⟩ := writes
    exact ⟨data, loaded.kept (spares buf loaded.holder)⟩

theorem Reads.spared {named : List UInt32} {stage : ReadStage}
    (reads : Reads s process lh named stage) (spares : Spares process s next) :
    Reads next process lh named stage := by
  cases stage with
  | get => trivial
  | fill buf => exact Held.kept reads (spares buf reads.holder)
  | load buf => exact Ready.kept reads (spares buf reads.holder)
  | release buf => exact ⟨reads.1.kept (spares buf reads.1.holder), reads.2⟩

variable {tail : Nat}

theorem Iterates.spared {value : UInt32 → Block}
    (iterates : Iterates ⟨lh, s, pc⟩ process loop value tail stage)
    (spares : Spares process s next) : Iterates ⟨lh, next, pc⟩ process loop value tail stage := by
  rcases iterates with test | ⟨blockno, named, copies⟩
  · exact .inl test
  · exact .inr ⟨blockno, named, copies.spared spares⟩

variable {count : Nat} {begun : Prop}

theorem Progress.quiet (progress : Progress old new s lh loop count begun) (quiet : Quiet s next) :
    Progress old new next lh loop count begun := by
  cases loop with
  | writeLog => exact ⟨progress.1.quiet quiet, progress.2⟩
  | installTrans => exact Installing.quiet progress quiet

theorem At.stable (position : At process old new ⟨lh, s, pc⟩) (quiet : Quiet s next)
    (spares : Spares process s next) : At process old new ⟨lh, next, pc⟩ := by
  have blocks : next.blocks = s.blocks := congrFun quiet.disk ROOTDEV
  cases pc with
  | test => exact Logging.quiet position quiet
  | readHead stage =>
    obtain ⟨named, after, dirty, reads⟩ := position
    exact ⟨named, blocks ▸ after, dirty.quiet quiet, reads.spared spares⟩
  | copy loop tail stage => exact ⟨position.1.quiet quiet, position.2.spared spares⟩
  | writeHead last stage =>
    cases last with
    | false =>
      cases stage with
      | release buf =>
        exact ⟨position.1.quiet quiet, position.2.kept (spares buf position.2.holder)⟩
      | _ => exact ⟨position.1.quiet quiet, position.2.1, position.2.2.spared spares⟩
    | true =>
      cases stage with
      | release buf =>
        obtain ⟨empty, after, dirty, ready⟩ := position
        exact ⟨empty, blocks ▸ after, dirty.quiet quiet, ready.kept (spares buf ready.holder)⟩
      | _ => exact ⟨position.1, position.2.1.quiet quiet, position.2.2.spared spares⟩
  | done =>
    obtain ⟨empty, after, dirty⟩ := position
    exact ⟨empty, blocks ▸ after, dirty.quiet quiet⟩

theorem Progress.mono {later : Prop} (progress : Progress old new s lh loop count begun)
    (begins : later → begun) : Progress old new s lh loop count later := by
  cases loop with
  | writeLog => exact ⟨progress.1, progress.2.1, fun now => progress.2.2 (begins now)⟩
  | installTrans => exact progress

variable {blockno : UInt32}

theorem Progress.home (progress : Progress old new s lh loop count begun) (member : blockno ∈ lh) :
    Home blockno := by
  cases loop with
  | writeLog => exact progress.1.home blockno member
  | installTrans => exact Recoverable.home progress.after blockno member

theorem Progress.short (progress : Progress old new s lh loop count begun) (now : begun) :
    lh.length < nlog := by
  cases loop with
  | writeLog => exact progress.2.2 now
  | installTrans => exact Recoverable.short progress.after

theorem Progress.begins (progress : Progress old new s lh loop tail (tail ≠ 0 ∨ begun))
    (carried : (s.cache.buf id).dirty = true → s.Carries id ROOTDEV (logBlock tail))
    (quiet : Quiet s next) : Progress old new next lh loop tail True := by
  cases loop with
  | installTrans => exact Installing.quiet progress quiet
  | writeLog =>
    obtain ⟨logging, some, short⟩ := progress
    refine ⟨logging.quiet quiet, some, ?_⟩
    intro _
    by_cases first : tail = 0
    · have clean : (s.cache.buf id).dirty = false := by
        by_contra dirty
        have marked := Bool.of_not_eq_false dirty
        have pending := (logging.tracks.dirty id marked).2
        rw [(carried marked).2, first] at pending
        exact (logging.home _ pending).ne_log (by decide) rfl
      exact logging.tracks.room logging.distinct clean
    · exact short (.inl first)

section

variable (progress : Progress old new s lh loop tail True) (coherent : Coherent s)
  (named : lh[tail]? = some blockno)
include progress coherent named

theorem Progress.source (log : Ready s process lbuf (logBlock tail))
    (home : Ready s process dbuf blockno) :
    (s.cache.buf (loop.source lbuf dbuf)).data = new blockno := by
  have isHome := progress.home (List.mem_of_getElem? named)
  cases loop with
  | writeLog => exact progress.1.tracks.reads coherent home isHome
  | installTrans =>
    have bound := (List.getElem?_eq_some_iff.mp named).1
    have short := progress.short trivial
    have absent : logBlock tail ∉ lh.drop tail := by
      intro pending
      exact (progress.home (List.mem_of_mem_drop pending)).ne_log (by omega) rfl
    exact (Installing.dirty progress |>.reads coherent log absent).trans
      (Recoverable.copies progress.after tail blockno named)

theorem Progress.flush
    (loaded : Loaded s process id (loop.target (logBlock tail) blockno) (new blockno))
    (flushed : s.flush process id = .ok next) :
    Coherent next ∧ (∀ other, other ≠ id → Kept other s next) ∧
      Ready next process id (loop.target (logBlock tail) blockno) ∧
      Progress old new next lh loop (tail + 1) True := by
  obtain ⟨coherent', others, ready, clean, written⟩ := flush_spec coherent loaded flushed
  refine ⟨coherent', others, ready, ?_⟩
  cases loop with
  | writeLog =>
    obtain ⟨logging, some, short⟩ := progress
    exact ⟨logging.copies named (short trivial) others loaded.carries clean written, some, short⟩
  | installTrans =>
    exact Installing.installs progress coherent' named others ready.carries clean written

end

theorem Progress.apart (progress : Progress old new s lh loop count True)
    (named : lh[tail]? = some blockno) : logBlock tail ≠ blockno := by
  have bound := (List.getElem?_eq_some_iff.mp named).1
  have short := progress.short trivial
  exact ((progress.home (List.mem_of_getElem? named)).ne_log (by omega)).symm

section

variable {next : Committer} (coherent : Coherent s)
include coherent

theorem At.copyStep (position : At process old new ⟨lh, s, .copy loop tail stage⟩)
    (advanced : Committer.copyStep process ⟨lh, s, .copy loop tail stage⟩ loop tail stage =
      .ok next) : Coherent next.buffers ∧ At process old new next := by
  obtain ⟨progress, iterates⟩ := position
  cases stage with
  | getLog =>
    simp only [Committer.copyStep] at advanced
    split at advanced
    · next more =>
      obtain ⟨⟨buffers, got⟩, passed, rest⟩ := bind_ok advanced
      obtain rfl := Except.ok.inj rest
      obtain ⟨coherent', quiet, _, gets⟩ := get_root_spec coherent passed
      refine ⟨coherent', ?_⟩
      cases got with
      | none => exact ⟨progress.quiet quiet, .inl rfl⟩
      | some lbuf =>
        obtain ⟨held, carried⟩ := gets lbuf rfl
        exact ⟨(progress.begins carried quiet).mono (fun _ => trivial),
          .inr ⟨lh[tail], List.getElem?_eq_getElem more, held⟩⟩
    next all =>
    simp only [Nat.not_lt] at all
    cases loop with
    | writeLog =>
      obtain rfl := Except.ok.inj advanced
      obtain ⟨logging, some, short⟩ := progress
      refine ⟨coherent, ⟨logging.before, logging.tracks, logging.distinct, logging.home, ?_⟩,
        short (.inl ?_), trivial⟩
      · intro other blockno below named
        exact logging.copied other blockno (Nat.lt_of_lt_of_le below all) named
      · exact Nat.ne_of_gt (Nat.lt_of_lt_of_le some all)
    | installTrans =>
      obtain rfl := Except.ok.inj advanced
      exact ⟨coherent, rfl, Installing.finished progress all, trivial⟩
  | fillLog lbuf =>
    obtain ⟨buffers, fetched, rfl⟩ := bind_ok_ok advanced
    obtain ⟨blockno, named, held⟩ := iterates.resolve_left (by simp)
    obtain ⟨coherent', quiet, _, ready⟩ := fetch_spec coherent held fetched
    exact ⟨coherent', (progress.quiet quiet).mono (fun _ => .inr (by simp)),
      .inr ⟨blockno, named, ready⟩⟩
  | getHome lbuf =>
    obtain ⟨⟨buffers, got⟩, passed, rest⟩ := bind_ok advanced
    obtain rfl := Except.ok.inj rest
    obtain ⟨blockno, named, log⟩ := iterates.resolve_left (by simp)
    have block : lh.getD tail 0 = blockno := by
      rw [List.getD_eq_getElem?_getD, named, Option.getD_some]
    rw [block] at passed
    obtain ⟨coherent', quiet, keeps, gets⟩ := get_root_spec coherent passed
    have kept := log.kept (keeps lbuf (by rw [log.holder]; rfl))
    refine ⟨coherent', ?_⟩
    cases got with
    | none =>
      exact ⟨(progress.quiet quiet).mono (fun _ => .inr (by simp)), .inr ⟨blockno, named, kept⟩⟩
    | some dbuf =>
      exact ⟨(progress.quiet quiet).mono (fun _ => .inr (by simp)),
        .inr ⟨blockno, named, kept, (gets dbuf rfl).1⟩⟩
  | fillHome lbuf dbuf =>
    obtain ⟨buffers, fetched, rfl⟩ := bind_ok_ok advanced
    obtain ⟨blockno, named, log, home⟩ := iterates.resolve_left (by simp)
    have begun := progress.mono (fun _ : True => .inr (by simp))
    obtain ⟨coherent', quiet, others, ready⟩ := fetch_spec coherent home fetched
    have different := log.different home.carries (begun.apart named)
    exact ⟨coherent', (progress.quiet quiet).mono (fun _ => .inr (by simp)),
      .inr ⟨blockno, named, log.kept (others lbuf different), ready⟩⟩
  | move lbuf dbuf =>
    obtain ⟨buffers, put, rfl⟩ := bind_ok_ok advanced
    obtain ⟨blockno, named, log, home⟩ := iterates.resolve_left (by simp)
    have begun := progress.mono (fun _ : True => .inr (by simp))
    have value : (s.cache.buf (loop.source lbuf dbuf)).data = new blockno :=
      Progress.source begun coherent named log home
    obtain ⟨source, target⟩ := Ready.sides loop log home
    obtain ⟨coherent', quiet, others, loaded⟩ := put_spec coherent target put
    rw [value] at loaded
    have different := source.different target.carries (loop.pair (begun.apart named))
    exact ⟨coherent', (progress.quiet quiet).mono (fun _ => .inr (by simp)),
      .inr ⟨blockno, named, source.kept (others _ different), loaded⟩⟩
  | write lbuf dbuf =>
    obtain ⟨buffers, flushed, rfl⟩ := bind_ok_ok advanced
    obtain ⟨blockno, named, source, loaded⟩ := iterates.resolve_left (by simp)
    have begun := progress.mono (fun _ : True => .inr (by simp))
    have different := source.different loaded.carries (loop.pair (begun.apart named))
    obtain ⟨coherent', others, ready, more⟩ := begun.flush coherent named loaded flushed
    exact ⟨coherent', more.mono (fun _ => trivial),
      .inr ⟨blockno, named, source.kept (others _ different), ready⟩⟩
  | releaseFrom lbuf dbuf =>
    obtain ⟨buffers, released, rfl⟩ := bind_ok_ok advanced
    obtain ⟨blockno, named, source, target⟩ := iterates.resolve_left (by simp)
    have begun := progress.mono (fun _ : True => .inr (by simp))
    have different := source.different target.carries (loop.pair (begun.apart named))
    obtain ⟨coherent', quiet, others⟩ := release_spec coherent source released
    exact ⟨coherent', (progress.quiet quiet).mono (fun _ => .inr (by simp)),
      .inr ⟨blockno, named, target.kept (others _ different.symm)⟩⟩
  | releaseTo lbuf dbuf =>
    obtain ⟨buffers, released, rfl⟩ := bind_ok_ok advanced
    obtain ⟨blockno, named, target⟩ := iterates.resolve_left (by simp)
    obtain ⟨coherent', quiet, _⟩ := release_spec coherent target released
    exact ⟨coherent', (progress.quiet quiet).mono (fun _ => .inr (by simp)), .inl rfl⟩

theorem At.readStep {stage : ReadStage} (position : At process old new ⟨lh, s, .readHead stage⟩)
    (advanced : Committer.readStep process ⟨lh, s, .readHead stage⟩ stage = .ok next) :
    Coherent next.buffers ∧ At process old new next := by
  obtain ⟨named, after, clean, reads⟩ := position
  cases stage with
  | get =>
    obtain ⟨⟨buffers, got⟩, passed, rest⟩ := bind_ok advanced
    obtain rfl := Except.ok.inj rest
    obtain ⟨coherent', quiet, _, gets⟩ := get_root_spec coherent passed
    have blocks : buffers.blocks = s.blocks := congrFun quiet.disk ROOTDEV
    refine ⟨coherent', named, blocks ▸ after, clean.quiet quiet, ?_⟩
    cases got with
    | none => trivial
    | some buf => exact (gets buf rfl).1
  | fill buf =>
    obtain ⟨buffers, fetched, rfl⟩ := bind_ok_ok advanced
    obtain ⟨coherent', quiet, _, ready⟩ := fetch_spec coherent reads fetched
    have blocks : buffers.blocks = s.blocks := congrFun quiet.disk ROOTDEV
    exact ⟨coherent', named, blocks ▸ after, clean.quiet quiet, ready⟩
  | load buf =>
    obtain ⟨loaded, read, rfl⟩ := bind_ok_ok advanced
    have ready : Ready s process buf headBlock := reads
    have data : (s.cache.buf buf).data = s.blocks headBlock :=
      clean.reads coherent ready List.not_mem_nil
    rw [data] at read
    have same : loaded = named := Except.ok.inj (read.symm.trans after.header)
    exact ⟨coherent, named, after, clean, ready, same⟩
  | release buf =>
    obtain ⟨buffers, released, rfl⟩ := bind_ok_ok advanced
    obtain ⟨ready, rfl⟩ := reads
    obtain ⟨coherent', quiet, _⟩ := release_spec coherent ready released
    have started : Installing s new lh 0 :=
      ⟨after, after.rest, fun id dirty => absurd (clean id dirty).2 List.not_mem_nil⟩
    exact ⟨coherent', started.quiet quiet, .inl rfl⟩

theorem At.writeStep {last : Bool} {stage : WriteStage}
    (position : At process old new ⟨lh, s, .writeHead last stage⟩)
    (advanced : Committer.writeStep process ⟨lh, s, .writeHead last stage⟩ last stage = .ok next) :
    Coherent next.buffers ∧ At process old new next := by
  cases stage with
  | get =>
    obtain ⟨⟨buffers, got⟩, passed, rest⟩ := bind_ok advanced
    obtain rfl := Except.ok.inj rest
    obtain ⟨coherent', quiet, _, gets⟩ := get_root_spec coherent passed
    refine ⟨coherent', ?_⟩
    cases last with
    | false =>
      cases got with
      | none => exact ⟨position.1.quiet quiet, position.2.1, trivial⟩
      | some buf => exact ⟨position.1.quiet quiet, position.2.1, (gets buf rfl).1⟩
    | true =>
      cases got with
      | none => exact ⟨position.1, position.2.1.quiet quiet, trivial⟩
      | some buf => exact ⟨position.1, position.2.1.quiet quiet, (gets buf rfl).1⟩
  | fill buf =>
    obtain ⟨buffers, fetched, rfl⟩ := bind_ok_ok advanced
    cases last with
    | false =>
      obtain ⟨coherent', quiet, _, ready⟩ := fetch_spec coherent position.2.2 fetched
      exact ⟨coherent', position.1.quiet quiet, position.2.1, ready⟩
    | true =>
      obtain ⟨coherent', quiet, _, ready⟩ := fetch_spec coherent position.2.2 fetched
      exact ⟨coherent', position.1, position.2.1.quiet quiet, ready⟩
  | set buf =>
    obtain ⟨buffers, put, rfl⟩ := bind_ok_ok advanced
    cases last with
    | false =>
      obtain ⟨coherent', quiet, _, loaded⟩ := put_spec coherent position.2.2 put
      exact ⟨coherent', position.1.quiet quiet, position.2.1, _, loaded⟩
    | true =>
      obtain ⟨coherent', quiet, _, loaded⟩ := put_spec coherent position.2.2 put
      exact ⟨coherent', position.1, position.2.1.quiet quiet, _, loaded⟩
  | write buf =>
    obtain ⟨buffers, flushed, rfl⟩ := bind_ok_ok advanced
    cases last with
    | false =>
      obtain ⟨logging, short, data, loaded⟩ := position
      obtain ⟨coherent', others, ready, clean, written⟩ := flush_spec coherent loaded flushed
      exact ⟨coherent', logging.commits short others clean written, ready⟩
    | true =>
      obtain ⟨rfl, installed, data, loaded⟩ := position
      obtain ⟨coherent', others, ready, clean, written⟩ := flush_spec coherent loaded flushed
      obtain ⟨after, dirty⟩ := installed.clears others clean written
      exact ⟨coherent', rfl, after, dirty, ready⟩
  | release buf =>
    obtain ⟨buffers, released, rfl⟩ := bind_ok_ok advanced
    cases last with
    | false =>
      obtain ⟨coherent', quiet, _⟩ := release_spec coherent position.2 released
      exact ⟨coherent', position.1.quiet quiet, .inl rfl⟩
    | true =>
      obtain ⟨empty, after, dirty, ready⟩ := position
      obtain ⟨coherent', quiet, _⟩ := release_spec coherent ready released
      have blocks : buffers.blocks = s.blocks := congrFun quiet.disk ROOTDEV
      exact ⟨coherent', empty, blocks ▸ after, dirty.quiet quiet⟩

end

/-- Every call of a commit or a recovery keeps the cache coherent and the assertion. -/
theorem At.advance {next : Committer} (coherent : Coherent c.buffers)
    (position : At process old new c) (advanced : c.advance process = .ok next) :
    Coherent next.buffers ∧ At process old new next := by
  obtain ⟨lh, s, pc⟩ := c
  cases pc with
  | test =>
    obtain rfl := Except.ok.inj advanced
    refine ⟨coherent, ?_⟩
    have logging : Logging s old new lh 0 := position
    by_cases some : 0 < lh.length
    · simp only [some, if_true]
      exact ⟨⟨logging, some, fun begun => by simp at begun⟩, .inl rfl⟩
    obtain rfl : lh = [] := List.length_eq_zero_iff.mp (by omega)
    simp only [List.length_nil, Nat.lt_irrefl, if_false]
    have settled := logging.tracks.settled
    refine ⟨rfl, ?_, logging.tracks.dirty⟩
    exact ⟨logging.before.count, logging.before.header, List.nodup_nil, by simp, by decide, by simp,
      settled⟩
  | readHead stage => exact At.readStep coherent position advanced
  | copy loop tail stage => exact At.copyStep coherent position advanced
  | writeHead last stage => exact At.writeStep coherent position advanced
  | done =>
    obtain rfl := Except.ok.inj advanced
    exact ⟨coherent, position⟩

end Committer

end RtXv6
