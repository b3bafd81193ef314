import Mathlib.Data.Finset.Card
import RtXv6.FileCalls
import RtXv6.InodeCache
import RtXv6.UserBuffers

/-!
# The size of a transaction of `filewrite`

`filewrite` writes a file in transactions of at most `chunk` bytes, a number derived from
`LOGSIZE`, but `begin_op` reserves `MAXOPBLOCKS` blocks for each. The blocks that a
transaction logs are counted here: those of the stretch, and as they are needed the bitmap,
the indirect block and the block of the inode.
-/

namespace RtXv6.Fs

open Stateful

/-- The part of a transaction of `filewrite` that logs blocks. -/
def transaction (f : FileId) (ip : InodeId) (src : Nat → UInt8) (n1 : Nat) : FsM Int32 := do
  beginOp
  ilock ip
  let s ← get
  writei ip src (s.ftable f).off (UInt32.ofNat n1)

/-- The rest of the transaction changes the offset and unlocks the inode. -/
theorem writeChunk_eq (f : FileId) (ip : InodeId) (src : Nat → UInt8) (n1 : Nat) :
    writeChunk f ip src n1 = (do
      let r ← transaction f ip src n1
      advance f r
      iunlock ip
      endOp
      pure r) := by
  simp only [writeChunk, transaction, bind_assoc]

/-- The indices of the blocks of a file with a byte of a stretch. -/
def touched (off n : Nat) : Finset Nat :=
  (Finset.range n).image fun index => (off + index) / BSIZE

theorem mem_touched {off n k : Nat} :
    k ∈ touched off n ↔ ∃ pos, off ≤ pos ∧ pos < off + n ∧ pos / BSIZE = k := by
  simp only [touched, Finset.mem_image, Finset.mem_range]
  constructor
  · rintro ⟨index, inside, here⟩
    exact ⟨off + index, by omega, by omega, here⟩
  · rintro ⟨pos, low, high, here⟩
    exact ⟨pos - off, by omega, by rwa [Nat.add_sub_cancel' low]⟩

/-- Those of them that have no block yet. -/
def missing (din : Dinode) (blocks : UInt32 → Block) (off n : Nat) : Finset Nat :=
  (touched off n).filter fun k => din.pointer blocks (slot k) = 0

theorem mem_missing {din : Dinode} {blocks : UInt32 → Block} {off n k : Nat} :
    k ∈ missing din blocks off n ↔ k ∈ touched off n ∧ din.pointer blocks (slot k) = 0 :=
  Finset.mem_filter

/-- How many blocks are logged when a stretch is written to the file of an inode. -/
def demand (din : Dinode) (blocks : UInt32 → Block) (off n : Nat) : Nat :=
  (touched off n).card + (if (missing din blocks off n).Nonempty then 1 else 0) +
    (if ∃ k ∈ missing din blocks off n, NDIRECT ≤ k then 1 else 0) +
    (if din.size.toNat < off + n then 1 else 0)

theorem mem_conditional {p : Prop} [Decidable p] {a c : UInt32} :
    c ∈ (if p then ({a} : Finset UInt32) else ∅) ↔ p ∧ c = a := by
  by_cases holds : p <;> simp [holds]

variable {s next : Fs} {ip : InodeId} {src : Nat → UInt8} {off n : Nat}

theorem Extends.logged (work : Work s ip) (one : s.sb.size.toNat ≤ BPB) (clean : s.log.lh = [])
    (extends_ : Extends s next ip src off n) :
    next.log.lh.toFinset.card = demand (s.icache ip).toDinode s.blocks off n := by
  obtain ⟨middle, writes, inode⟩ := extends_.logs
  have number := writes.number_eq
  have inodeBlock := work.geometry.iblock_bounds work.inside
  have room := work.geometry.bitmap
  have sb : middle.sb = s.sb := by
    obtain ⟨disk, log, addrs, shape⟩ := writes.ahead
    rw [shape, ahead_sb]
  have set : ∀ k ∈ touched off n, middle.lead ip (s.number ip, slot k) ≠ 0 := by
    intro k member
    obtain ⟨pos, low, high, rfl⟩ := mem_touched.mp member
    exact writes.set pos low high
  have table : (∃ k ∈ missing (s.icache ip).toDinode s.blocks off n, NDIRECT ≤ k) →
      middle.lead ip (s.number ip, NDIRECT) ≠ 0 := by
    rintro ⟨k, member, beyond⟩ none
    apply set k (mem_missing.mp member).1
    rw [← number, lead_self] at none ⊢
    exact table_missing writes.work.live beyond none
  have bounds : ∀ place, middle.lead ip place ≠ 0 →
      s.sb.bmapstart.toNat < (middle.lead ip place).toNat := by
    intro place pointing
    have low : s.sb.datastart ≤ (middle.lead ip place).toNat ∧
        (middle.lead ip place).toNat < s.sb.size.toNat := by
      rw [← sb]
      exact writes.work.owned.bounds pointing
    omega
  have unique := writes.work.owned.owns.unique
  have all : next.log.lh.toFinset = (((touched off n).image fun k =>
      middle.lead ip (s.number ip, slot k)) ∪
      (if (missing (s.icache ip).toDinode s.blocks off n).Nonempty then {s.sb.bmapstart} else ∅)) ∪
      (if ∃ k ∈ missing (s.icache ip).toDinode s.blocks off n, NDIRECT ≤ k then
        {middle.lead ip (s.number ip, NDIRECT)} else ∅) ∪
      (if (s.icache ip).size.toNat < off + n then {s.sb.iblock (s.icache ip).inum} else ∅) := by
    ext c
    rw [List.mem_toFinset, inode, writes.logs one, clean, Finset.mem_union, Finset.mem_union,
      Finset.mem_union, Finset.mem_image, mem_conditional, mem_conditional, mem_conditional]
    refine or_congr_left ⟨?_, ?_⟩
    · rintro (old | ⟨pos, low, high, new | ⟨none, new⟩⟩)
      · cases old
      · exact .inl (.inl ⟨_, mem_touched.mpr ⟨pos, low, high, rfl⟩, new.symm⟩)
      · rw [lead_self] at none
        have member := mem_missing.mpr ⟨mem_touched.mpr ⟨pos, low, high, rfl⟩, none⟩
        rcases new with new | ⟨beyond, new⟩
        · exact .inl (.inr ⟨⟨_, member⟩, new⟩)
        · exact .inr ⟨⟨_, member, beyond⟩, new⟩
    · rintro ((⟨k, member, new⟩ | ⟨⟨k, member⟩, new⟩) | ⟨⟨k, member, beyond⟩, new⟩)
      · obtain ⟨pos, low, high, rfl⟩ := mem_touched.mp member
        exact .inr ⟨pos, low, high, .inl new.symm⟩
      · obtain ⟨member, none⟩ := mem_missing.mp member
        obtain ⟨pos, low, high, rfl⟩ := mem_touched.mp member
        exact .inr ⟨pos, low, high, .inr ⟨by rwa [lead_self], .inl new⟩⟩
      · obtain ⟨member, none⟩ := mem_missing.mp member
        obtain ⟨pos, low, high, rfl⟩ := mem_touched.mp member
        exact .inr ⟨pos, low, high, .inr ⟨by rwa [lead_self], .inr ⟨beyond, new⟩⟩⟩
  rw [all, Finset.card_union_of_disjoint, Finset.card_union_of_disjoint,
    Finset.card_union_of_disjoint, Finset.card_image_of_injOn]
  · unfold demand
    simp only [apply_ite Finset.card, Finset.card_empty, Finset.card_singleton]
  · intro j first k second same
    exact slot_inj (Prod.mk.inj (unique _ _ (set j first) same)).2
  all_goals
    rw [Finset.disjoint_left]
    intro c
    simp only [Finset.mem_union, Finset.mem_image, mem_conditional]
  · rintro ⟨k, member, rfl⟩ ⟨_, same⟩
    have far := bounds _ (set k member)
    rw [same] at far
    omega
  · rintro (⟨k, member, rfl⟩ | ⟨_, rfl⟩) ⟨there, same⟩
    · exact slot_ne k (Prod.mk.inj (unique _ _ (set k member) same)).2
    · have far := bounds _ (table there)
      rw [← same] at far
      omega
  · rintro ((⟨k, member, rfl⟩ | ⟨_, rfl⟩) | ⟨there, rfl⟩) ⟨_, same⟩
    · have far := bounds _ (set k member)
      rw [same] at far
      omega
    · rw [same] at inodeBlock
      omega
    · have far := bounds _ (table there)
      rw [same] at far
      omega

/-- The inode of a cache entry is allocated, and a copy in memory is as on disk. -/
structure Wellformed (s : Fs) (ip : InodeId) : Prop where
  volume : Volume s
  dev : (s.icache ip).dev = ROOTDEV
  inside : s.number ip < s.sb.ninodes.toNat
  live : (s.inodes (s.number ip)).type ≠ 0
  copy : (s.icache ip).valid = true → (s.icache ip).toDinode = s.inodes (s.number ip)

theorem ilock_fresh {faults : FsFault → Prop} (all : ∀ fault, faults fault)
    (well : Wellformed s ip) :
    Ends (fun _ next => ∃ inode : Inode, next = s.withInode ip inode ∧ Volume next ∧ Fresh next ip ∧
      inode.toDinode = s.inodes (s.number ip)) faults (ilock ip) s := by
  have lock : ∀ inode : Inode, inode.dev = ROOTDEV → inode.inum = (s.icache ip).inum →
      inode.toDinode = s.inodes (s.number ip) → Volume (s.withInode ip inode) ∧
        Fresh (s.withInode ip inode) ip ∧ inode.toDinode = s.inodes (s.number ip) := by
    intro inode dev inum copy
    refine ⟨⟨well.volume.geometry, well.volume.super, well.volume.owned, well.volume.full⟩,
      ⟨?_, ?_, ?_, ?_⟩, copy⟩
    · rwa [withInode_self]
    · rw [number, withInode_self, inum]
      exact well.inside
    · rw [withInode_self, copy]
      exact well.live
    · rw [number, withInode_self, inum]
      exact copy
  have disk : s.dinode (s.icache ip).dev (s.icache ip).inum = s.inodes (s.number ip) := by
    rw [well.dev]
    exact (inodeTable_num well.inside).symm
  apply Ends.read
  split
  · exact .fail (all _)
  split
  · exact .fail (all _)
  split
  · next valid => exact ⟨_, rfl, lock _ well.dev rfl (well.copy valid)⟩
  · rw [disk, if_neg well.live]
    exact ⟨_, rfl, lock _ well.dev rfl disk⟩

theorem transaction_logs (well : Wellformed s ip) (one : s.sb.size.toNat ≤ BPB)
    (clean : s.log.lh = []) (f : FileId) (src : Nat → UInt8) (n1 : Nat) :
    Ends (fun _ next => next.log.lh.toFinset.card =
      if Accepts (s.inodes (s.number ip)) (s.ftable f).off (UInt32.ofNat n1) then
        demand (s.inodes (s.number ip)) s.blocks (s.ftable f).off.toNat (UInt32.ofNat n1).toNat
      else 0) (fun _ => True) (transaction f ip src n1) s := by
  have tolerant : Tolerant fun _ => True := fun _ _ _ => trivial
  have begun : ∀ log, Wellformed { s with log } ip :=
    fun _ => ⟨⟨well.volume.geometry, well.volume.super, well.volume.owned, well.volume.full⟩,
      well.dev, well.inside, well.live, well.copy⟩
  have opens : Ends (fun _ next => ∃ log, next = { s with log } ∧ log.lh = []) (fun _ => True)
      beginOp s := by
    apply Ends.read
    split
    · exact .fail trivial
    split
    · exact .fail trivial
    · exact ⟨_, rfl, clean⟩
  refine opens.seq ?_
  rintro _ _ ⟨log, rfl, empty⟩
  refine (ilock_fresh (fun _ => trivial) (begun log)).seq ?_
  rintro _ _ ⟨inode, rfl, volume, fresh, copy⟩
  have entry := withInode_self { s with log } ip inode
  apply Ends.read
  by_cases accepts : Accepts (s.inodes (s.number ip)) (s.ftable f).off (UInt32.ofNat n1)
  · rw [if_pos accepts]
    have same : Accepts ((withInode { s with log } ip inode).icache ip).toDinode (s.ftable f).off
        (UInt32.ofNat n1) := by
      rw [entry, copy]
      exact accepts
    refine (writei_accepts tolerant.scarce volume fresh src same).imp fun _ next wrote => ?_
    have count := wrote.2.logged (fresh.work volume) one empty
    rw [entry, copy] at count
    exact count
  rw [if_neg accepts]
  have same : ¬ Accepts ((withInode { s with log } ip inode).icache ip).toDinode (s.ftable f).off
      (UInt32.ofNat n1) := by
    rw [entry, copy]
    exact accepts
  refine (writei_refuses same).imp fun _ next unchanged => ?_
  rw [unchanged.1]
  show log.lh.toFinset.card = 0
  rw [empty]
  rfl

/-- A transaction of `filewrite` logs no more blocks than `begin_op` has reserved exactly if
its stretch is refused, or its blocks and those of the bitmap, the indirect block and the inode
that it needs are no more. -/
theorem transaction_fits_iff (well : Wellformed s ip) (one : s.sb.size.toNat ≤ BPB)
    (clean : s.log.lh = []) {f : FileId} {src : Nat → UInt8} {n1 : Nat} {r : Int32}
    (run : transaction f ip src n1 s = .ok (r, next)) :
    next.log.lh.toFinset.card ≤ MAXOPBLOCKS ↔
      (Accepts (s.inodes (s.number ip)) (s.ftable f).off (UInt32.ofNat n1) →
        demand (s.inodes (s.number ip)) s.blocks (s.ftable f).off.toNat (UInt32.ofNat n1).toNat ≤
          MAXOPBLOCKS) := by
  rw [(transaction_logs well one clean f src n1).returned run]
  split
  · next accepts => exact ⟨fun fits _ => fits, fun fits => fits accepts⟩
  · next refused => exact ⟨fun _ accepts => absurd accepts refused, fun _ => Nat.zero_le _⟩

/-- The super block of a small disk with thirty data blocks. -/
def smallSb : Superblock :=
  { size := 64, nblocks := 30, ninodes := 8, nlog := 30, logstart := 2, inodestart := 32,
    bmapstart := 33 }

/-- The small disk with an empty root directory and an empty file. -/
def smallDisk : Disk := fun _ b =>
  if b = 1 then Superblock.write smallSb zeroes
  else if b = 32 then fun k =>
    if k.val = 64 ∨ k.val = 70 ∨ k.val = 134 then 1 else if k.val = 128 then 2 else 0
  else if b = 33 then fun k => if k.val < 4 then 255 else if k.val = 4 then 3 else 0
  else zeroes

/-- The kernel with the empty file open. -/
def sample : Fs :=
  let s := zero smallDisk noDevices []
  { s with
    icache := Function.update s.icache 0 { s.icache 0 with dev := ROOTDEV, inum := 2, ref := 1 }
    ftable := Function.update s.ftable 0
      { s.ftable 0 with type := .inode, ref := 1, writable := true, ip := some 0 } }

theorem sample_wellformed : Wellformed sample 0 := by
  have sb : sample.sb = smallSb := by decide +kernel
  have bit : ∀ b : UInt32, b.toNat < 64 →
      inUse smallSb sample.blocks b = decide (b.toNat < 34) := by
    have bits : ∀ b < 64, inUse smallSb sample.blocks (UInt32.ofNat b) = decide (b < 34) := by
      decide +kernel
    intro b small
    have here := bits b.toNat small
    rwa [UInt32.ofNat_toNat] at here
  have fields : ∀ i < 8, (sample.inodes i).size = 0 ∧ ∀ index, (sample.inodes i).addrs index = 0 := by
    decide +kernel
  have blank : ∀ i, (sample.inodes i).size = 0 ∧ ∀ index, (sample.inodes i).addrs index = 0 := by
    intro i
    by_cases inside : i < 8
    · exact fields i inside
    have beyond : sample.inodes i = Dinode.zero := by
      rw [inodes, sb]
      exact if_neg inside
    rw [beyond]
    exact ⟨rfl, fun _ => rfl⟩
  have nowhere : leads sample.blocks sample.inodes = fun _ => 0 := by
    funext place
    rw [leads, Dinode.pointer, (blank place.1).2]
    simp [(blank place.1).2]
  refine ⟨⟨?_, by decide +kernel, ?_, ?_⟩, rfl, by decide +kernel, by decide +kernel, ?_⟩
  · rw [sb]
    exact ⟨by decide, by decide, by decide, by decide⟩
  · rw [sb, nowhere]
    refine ⟨fun b (low : b.toNat < 34) => ?_, ?_, fun _ set => absurd rfl set,
      fun _ _ set => absurd rfl set, ?_⟩
    · rw [bit b (by omega)]
      exact decide_eq_true low
    · rintro ⟨low, _⟩
      exact absurd low (by decide)
    · rintro b ⟨low, high, used⟩
      rw [bit b high] at used
      exact absurd (of_decide_eq_true used) (Nat.not_lt.mpr low)
  · intro i k live inside
    rw [(blank i).1] at inside
    simp at inside
  · intro valid
    cases valid

/-- A byte in an empty file takes its block, the bitmap and the inode. -/
theorem transaction_fits_iff_byte : ∃ r next, transaction 0 0 (fun _ => 7) 1 sample = .ok (r, next) ∧
    next.log.lh.toFinset.card ≤ MAXOPBLOCKS := by
  cases run : transaction 0 0 (fun _ => 7) 1 sample with
  | error fault =>
    have returns : (transaction 0 0 (fun _ => 7) 1 sample).toOption.isSome = true := by
      decide +kernel
    rw [run] at returns
    cases returns
  | ok returned =>
    exact ⟨_, _, rfl, (transaction_fits_iff sample_wellformed (by decide +kernel) rfl run).mpr
      fun _ => by decide +kernel⟩

/-- The largest transaction of `filewrite`, from the start of an empty file, logs more blocks than
are reserved. -/
theorem transaction_overflows : Wellformed sample 0 ∧ sample.sb.size.toNat ≤ BPB ∧
    sample.log.lh = [] ∧ ∃ r next, transaction 0 0 (fun _ => 7) chunk sample = .ok (r, next) ∧
      MAXOPBLOCKS < next.log.lh.toFinset.card := by
  refine ⟨sample_wellformed, by decide +kernel, rfl, ?_⟩
  have overflows : ((transaction 0 0 (fun _ => 7) chunk sample).toOption.any fun returned =>
      decide (MAXOPBLOCKS < returned.2.log.lh.toFinset.card)) = true := by decide +kernel
  cases run : transaction 0 0 (fun _ => 7) chunk sample with
  | error fault =>
    rw [run] at overflows
    cases overflows
  | ok returned =>
    rw [run] at overflows
    exact ⟨_, _, rfl, of_decide_eq_true overflows⟩

theorem accepts_iff {din : Dinode} (file : din.type ≠ T_DEV) (off n : UInt32) :
    Accepts din off n ↔ off.toNat ≤ din.size.toNat ∧ off.toNat + n.toNat ≤ MAXFILE * BSIZE := by
  have limit : (UInt32.ofNat (MAXFILE * BSIZE)).toNat = MAXFILE * BSIZE := by decide
  constructor
  · intro accepts
    have sum := toNat_add_of_whole (not_or.mp accepts.place).2
    have small := accepts.small
    rw [UInt32.lt_iff_toNat_lt, sum, limit] at small
    exact ⟨accepts.adjacent, by omega⟩
  · rintro ⟨adjacent, small⟩
    have sum : (off + n).toNat = off.toNat + n.toNat := by
      rw [UInt32.toNat_add]
      simp only [MAXFILE, BSIZE, NDIRECT, NINDIRECT] at small
      omega
    refine ⟨file, ?_, ?_⟩
    · rw [UInt32.lt_iff_toNat_lt, UInt32.lt_iff_toNat_lt, sum]
      omega
    · rw [UInt32.lt_iff_toNat_lt, sum, limit]
      omega

/-- `writei` replaces the bytes of a stretch that begins within the file and ends within the largest
file, unless the disk or the log runs out; it refuses every other stretch. `readi` delivers the
bytes of its stretch that the file has. -/
theorem contents_semantics (volume : Volume s) (fresh : Fresh s ip)
    (file : (s.icache ip).type ≠ T_DEV) (src : Nat → UInt8) (off n : UInt32) :
    Ends (fun r next =>
      if off.toNat ≤ (s.node ip).size ∧ off.toNat + n.toNat ≤ MAXFILE * BSIZE then
        r.toInt = (n.toNat : Int) ∧ next.files = Function.update s.files (s.number ip)
          (some ((s.node ip).write src off.toNat n.toNat))
      else r = -1 ∧ next = s)
      (fun fault => fault = .panic "balloc: out of blocks" ∨
        fault = .panic "too big a transaction" ∨ fault = .panic "log_write outside of trans")
      (writei ip src off n) s ∧
    ∃ r bytes, readi ip off n s = .ok ((r, bytes), s) ∧
      (r = -1 ↔ (s.node ip).size < off.toNat ∨ 4294967296 ≤ off.toNat + n.toNat) ∧
      (r ≠ -1 → r.toInt = (bytes.length : Int) ∧ bytes =
        (List.range (min (off.toNat + n.toNat) (s.node ip).size - off.toNat)).map fun index =>
          (s.node ip).byte (off.toNat + index)) := by
  have scarce : Scarce fun fault => fault = .panic "balloc: out of blocks" ∨
      fault = .panic "too big a transaction" ∨ fault = .panic "log_write outside of trans" :=
    ⟨.inl rfl, .inr (.inl rfl), .inr (.inr rfl)⟩
  have size : (s.icache ip).size.toNat = (s.node ip).size := rfl
  have bound := volume.node_size fresh
  have wrap : off + n < off ↔ 4294967296 ≤ off.toNat + n.toNat := by
    have limit := n.toNat_lt
    have limit' := off.toNat_lt
    rw [UInt32.lt_iff_toNat_lt, UInt32.toNat_add]
    omega
  refine ⟨?_, ?_⟩
  · by_cases accepts : Accepts (s.icache ip).toDinode off n
    · have place := (accepts_iff file off n).mp accepts
      rw [size] at place
      refine (writei_accepts scarce volume fresh src accepts).imp fun r next wrote => ?_
      rw [if_pos place, wrote.1, UserBuffers.toInt_toInt32, wrote.2.files, fresh.file]
      simp only [MAXFILE, BSIZE, NDIRECT, NINDIRECT] at place
      exact ⟨if_pos (by omega), rfl⟩
    · have place := mt (accepts_iff file off n).mpr accepts
      rw [size] at place
      refine (writei_refuses accepts).imp fun r next refused => ?_
      rw [if_neg place]
      exact ⟨refused.2.resolve_left file, refused.1⟩
  · by_cases bad : (s.icache ip).size < off ∨ off + n < off
    · refine ⟨-1, [], ?_, ?_, fun other => absurd rfl other⟩
      · rw [readi, get_bind, if_neg file, if_pos bad]
        rfl
      · rw [UInt32.lt_iff_toNat_lt, size, wrap] at bad
        exact iff_of_true rfl bad
    · have good := bad
      rw [UInt32.lt_iff_toNat_lt, size, wrap, not_or] at good
      have sum := toNat_add_of_whole (not_or.mp bad).2
      have count : (s.readable ip off n).toNat =
          min (off.toNat + n.toNat) (s.node ip).size - off.toNat := by
        unfold readable
        split
        · next less =>
          rw [UInt32.lt_iff_toNat_lt, size, sum] at less
          rw [UInt32.toNat_sub_of_le _ _ (UInt32.le_iff_toNat_le.mpr (by omega)), size]
          omega
        · next less =>
          rw [UInt32.lt_iff_toNat_lt, size, sum] at less
          omega
      have signed : (s.readable ip off n).toInt32.toInt = (s.readable ip off n).toNat := by
        rw [UserBuffers.toInt_toInt32]
        exact if_pos (by omega)
      refine ⟨_, _, readi_run volume fresh file (by omega) (not_or.mp bad).2, ?_, fun _ => ⟨?_, ?_⟩⟩
      · refine iff_of_false (fun minus => ?_) (by omega)
        rw [minus] at signed
        have negative : (-1 : Int32).toInt = -1 := by decide
        omega
      · rw [List.length_map, List.length_range]
        exact signed
      · rw [count]
        refine List.map_congr_left fun index member => ?_
        have inside := List.mem_range.mp member
        exact (if_pos (show off.toNat + index < (s.icache ip).size.toNat by omega)).symm

/-- The small disk within a transaction, with the empty file locked. -/
def locked : Fs :=
  { withInode sample 0
      { sample.icache 0 with toDinode := sample.inodes 2, valid := true, busy := true } with
    log := { sample.log with outstanding := 1 } }

theorem locked_fresh : Volume locked ∧ Fresh locked 0 := by
  have well := sample_wellformed
  exact ⟨⟨well.volume.geometry, well.volume.super, well.volume.owned, well.volume.full⟩, rfl,
    well.inside, well.live, rfl⟩

/-- Two bytes at the start of the empty file. -/
theorem contents_semantics_two : Ends (fun r next => r.toInt = 2 ∧
    ((next.files 2).map FileNode.size) = some 2) (fun _ => True)
    (writei 0 (fun _ => 7) 0 2) locked := by
  have written := (contents_semantics locked_fresh.1 locked_fresh.2 (by decide +kernel)
    (fun _ => 7) 0 2).1
  refine written.mono (fun r next both => ?_) (fun _ _ => trivial)
  rw [if_pos (by decide +kernel)] at both
  rw [both.2]
  exact ⟨both.1, by decide +kernel⟩

/-- The fault that code ends with. -/
def faultOf {value : Type} : Except FsFault value → Option FsFault
  | .ok _ => none
  | .error fault => some fault

/-- A stretch of twenty-eight blocks, for which the disk has room, is too big for the log. -/
theorem writei_too_big : Volume locked ∧ Fresh locked 0 ∧ (locked.icache 0).type ≠ T_DEV ∧
    28 * BSIZE ≤ MAXFILE * BSIZE ∧
    faultOf (writei 0 (fun _ => 7) 0 14336 locked) = some (.panic "too big a transaction") := by
  refine ⟨locked_fresh.1, locked_fresh.2, ?_, ?_, ?_⟩
  · decide +kernel
  · decide +kernel
  · decide +kernel

end RtXv6.Fs
