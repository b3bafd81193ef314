import RtXv6.FsFormat
import RtXv6.Ownership

/-!
# Which blocks the inodes own

The blocks of a file system image lie in the order super block, inode blocks, bitmap
and data area. An allocated inode has places for block numbers: its direct addresses,
the address of its indirect block, and the words of that block. A place that is not
zero leads to a block of the data area whose bit is set, and every set bit of the data
area belongs to one such place.

The inodes are given as a map from inode numbers, so that the same facts serve the
inodes on disk and those that a program holds in memory ahead of the disk.
-/

namespace RtXv6

open Function (update update_self update_of_ne)
open Ownership

/-- The first block of the data area: all blocks but the data blocks come before it. -/
def Superblock.datastart (sb : Superblock) : Nat := sb.size.toNat - sb.nblocks.toNat

/-- The log, the inode blocks, the bitmap and the data area follow the super block and each
other. -/
structure Superblock.Geometry (sb : Superblock) : Prop where
  front : 2 ≤ sb.logstart.toNat
  log : sb.logstart.toNat + sb.nlog.toNat ≤ sb.inodestart.toNat
  inodes : sb.inodestart.toNat + (sb.ninodes.toNat + 7) / 8 ≤ sb.bmapstart.toNat
  bitmap : sb.bmapstart.toNat + (sb.size.toNat + 4095) / 4096 ≤ sb.datastart

namespace Superblock.Geometry

variable {sb : Superblock} (geometry : sb.Geometry)
include geometry

variable {inum : UInt32}

theorem toNat_iblock (inside : inum.toNat < sb.ninodes.toNat) :
    (sb.iblock inum).toNat = inum.toNat / 8 + sb.inodestart.toNat := by
  have room := geometry.inodes
  have limit := sb.bmapstart.toNat_lt
  have small : inum.toNat / 8 + sb.inodestart.toNat < 2 ^ 32 := by omega
  exact Nat.mod_eq_of_lt small

variable {b : UInt32}

theorem toNat_bblock (inside : b.toNat < sb.size.toNat) :
    (sb.bblock b).toNat = b.toNat / 4096 + sb.bmapstart.toNat := by
  have room := geometry.bitmap
  have limit := sb.size.toNat_lt
  have small : b.toNat / 4096 + sb.bmapstart.toNat < 2 ^ 32 := by
    unfold datastart at room
    omega
  exact Nat.mod_eq_of_lt small

theorem iblock_bounds (inside : inum.toNat < sb.ninodes.toNat) :
    2 ≤ (sb.iblock inum).toNat ∧ (sb.iblock inum).toNat < sb.bmapstart.toNat := by
  have front := geometry.front
  have log := geometry.log
  have room := geometry.inodes
  rw [geometry.toNat_iblock inside]
  omega

theorem bblock_bounds (inside : b.toNat < sb.size.toNat) :
    sb.bmapstart.toNat ≤ (sb.bblock b).toNat ∧ (sb.bblock b).toNat < sb.datastart := by
  have room := geometry.bitmap
  rw [geometry.toNat_bblock inside]
  omega

theorem bblock_one (inside : b.toNat < sb.size.toNat) (one : sb.size.toNat ≤ BPB) :
    sb.bblock b = sb.bmapstart := by
  simp only [BPB, BSIZE] at one
  apply UInt32.toNat_inj.mp
  rw [geometry.toNat_bblock inside]
  omega

theorem datastart_le : 2 ≤ sb.bmapstart.toNat ∧ sb.bmapstart.toNat ≤ sb.datastart := by
  have front := geometry.front
  have log := geometry.log
  have inodes := geometry.inodes
  have bitmap := geometry.bitmap
  omega

theorem iblock_inj {other : UInt32} (inside : inum.toNat < sb.ninodes.toNat)
    (also : other.toNat < sb.ninodes.toNat) (block : sb.iblock inum = sb.iblock other)
    (position : inum.toNat % 8 = other.toNat % 8) : inum = other := by
  have numbers := congrArg UInt32.toNat block
  rw [geometry.toNat_iblock inside, geometry.toNat_iblock also] at numbers
  apply UInt32.toNat_inj.mp
  omega

theorem bblock_inj {c : UInt32} (inside : b.toNat < sb.size.toNat) (also : c.toNat < sb.size.toNat)
    (block : sb.bblock b = sb.bblock c) (position : b.toNat % BPB = c.toNat % BPB) : b = c := by
  have numbers := congrArg UInt32.toNat block
  rw [geometry.toNat_bblock inside, geometry.toNat_bblock also] at numbers
  simp only [BPB, BSIZE] at position
  apply UInt32.toNat_inj.mp
  omega

end Superblock.Geometry

/-- The inodes on disk, by number. -/
def inodeTable (sb : Superblock) (blocks : UInt32 → Block) (i : Nat) : Dinode :=
  if i < sb.ninodes.toNat then Dinode.read (blocks (sb.iblock (UInt32.ofNat i))) (i % IPB)
  else Dinode.zero

/-- Is the bit of a block set? -/
def inUse (sb : Superblock) (blocks : UInt32 → Block) (b : UInt32) : Bool :=
  Bytes.bit (blocks (sb.bblock b)) (b.toNat % BPB)

/-- A block of the data area whose bit is set. -/
def Taken (sb : Superblock) (blocks : UInt32 → Block) (b : UInt32) : Prop :=
  sb.datastart ≤ b.toNat ∧ b.toNat < sb.size.toNat ∧ inUse sb blocks b = true

/-- What a place of an allocated inode holds: its addresses come first, the words of its
indirect block follow. -/
def Dinode.pointer (blocks : UInt32 → Block) (din : Dinode) (p : Nat) : UInt32 :=
  if din.type = 0 then 0
  else if inside : p < NDIRECT + 1 then din.addrs ⟨p, inside⟩
  else if din.addrs (Fin.last NDIRECT) = 0 ∨ MAXFILE < p then 0
  else word (blocks (din.addrs (Fin.last NDIRECT))) (p - (NDIRECT + 1))

/-- The number of the indirect block. -/
abbrev Dinode.table (din : Dinode) : UInt32 := din.addrs (Fin.last NDIRECT)

/-- The inode with another address. -/
def Dinode.setAddr (din : Dinode) (index : Fin (NDIRECT + 1)) (b : UInt32) : Dinode :=
  { din with addrs := update din.addrs index b }

@[simp] theorem Dinode.setAddr_type (din : Dinode) (index : Fin (NDIRECT + 1)) (b : UInt32) :
    (din.setAddr index b).type = din.type := rfl

@[simp] theorem Dinode.setAddr_self (din : Dinode) (index : Fin (NDIRECT + 1)) (b : UInt32) :
    (din.setAddr index b).addrs index = b :=
  update_self ..

variable {index : Fin (NDIRECT + 1)}

theorem Dinode.setAddr_other (din : Dinode) {other : Fin (NDIRECT + 1)} (b : UInt32)
    (different : other ≠ index) : (din.setAddr index b).addrs other = din.addrs other :=
  update_of_ne different _ _

/-- The inode without contents. -/
def Dinode.emptied (din : Dinode) : Dinode := { din with addrs := fun _ => 0, size := 0 }

/-- The inode with another size. -/
def Dinode.resized (din : Dinode) (size : UInt32) : Dinode := { din with size }

/-- The place of a block of a file. -/
def slot (k : Nat) : Nat := if k < NDIRECT then k else k + 1

/-- What the places of all inodes hold. -/
def leads (blocks : UInt32 → Block) (inodes : Nat → Dinode) (place : Nat × Nat) : UInt32 :=
  (inodes place.1).pointer blocks place.2

/-- The taken blocks are those that the places lead to, and the blocks in front of the
data area cannot be allocated. -/
structure Owned (sb : Superblock) (blocks : UInt32 → Block) (pointer : Nat × Nat → UInt32) :
    Prop where
  reserved : ∀ b : UInt32, b.toNat < sb.datastart → inUse sb blocks b = true
  owns : Owns 0 (Taken sb blocks) pointer

/-- No allocated inode has a hole. -/
def Full (blocks : UInt32 → Block) (inodes : Nat → Dinode) : Prop :=
  ∀ i k, (inodes i).type ≠ 0 → k * BSIZE < (inodes i).size.toNat →
    (inodes i).pointer blocks (slot k) ≠ 0

variable {k : Nat}

section Places

variable {blocks : UInt32 → Block} {din : Dinode}

theorem slot_ne (k : Nat) : slot k ≠ NDIRECT := by
  unfold slot
  split <;> simp only [NDIRECT] at * <;> omega

theorem lt_slot : NDIRECT < slot k ↔ NDIRECT ≤ k := by
  unfold slot
  split <;> omega

theorem slot_inj {j : Nat} (same : slot j = slot k) : j = k := by
  unfold slot at same
  split at same <;> split at same <;> simp only [NDIRECT] at * <;> omega

theorem pointer_free (free : din.type = 0) (p : Nat) : din.pointer blocks p = 0 := by
  rw [Dinode.pointer, if_pos free]

theorem pointer_addr (live : din.type ≠ 0) (index : Fin (NDIRECT + 1)) :
    din.pointer blocks index = din.addrs index := by
  rw [Dinode.pointer, if_neg live, dif_pos index.isLt]

theorem pointer_table (live : din.type ≠ 0) :
    din.pointer blocks NDIRECT = din.table :=
  pointer_addr live (Fin.last NDIRECT)

theorem pointer_word (live : din.type ≠ 0) (table : din.table ≠ 0) {j : Nat}
    (inside : j < NINDIRECT) :
    din.pointer blocks (NDIRECT + 1 + j) = word (blocks (din.table)) j := by
  have beyond : ¬ (NDIRECT + 1 + j < NDIRECT + 1) := by omega
  have limit : ¬ (din.table = 0 ∨ MAXFILE < NDIRECT + 1 + j) := by
    simp only [MAXFILE, NDIRECT, NINDIRECT, BSIZE] at inside ⊢
    rintro (zero | large)
    · exact table zero
    · omega
  rw [Dinode.pointer, if_neg live, dif_neg beyond, if_neg limit, Nat.add_sub_cancel_left]

/-- There are no places without an indirect block, and none beyond it. -/
theorem pointer_none {p : Nat} (beyond : NDIRECT < p)
    (none : din.table = 0 ∨ MAXFILE < p) : din.pointer blocks p = 0 := by
  have notAddr : ¬ p < NDIRECT + 1 := by omega
  rw [Dinode.pointer, dif_neg notAddr, if_pos none, ite_self]

/-- Without an indirect block, the places beyond the direct ones lead nowhere. -/
theorem table_missing (live : din.type ≠ 0) (beyond : NDIRECT ≤ k)
    (none : din.pointer blocks NDIRECT = 0) : din.pointer blocks (slot k) = 0 := by
  rw [slot, if_neg (by omega)]
  exact pointer_none (by omega) (.inl ((pointer_table live).symm.trans none))

/-- A change of a block that is not the indirect block leaves the places. -/
theorem pointer_update_block {c : UInt32} (data : Block) (other : din.pointer blocks NDIRECT ≠ c)
    (p : Nat) : din.pointer (update blocks c data) p = din.pointer blocks p := by
  by_cases live : din.type = 0
  · rw [pointer_free live, pointer_free live]
  rw [pointer_table live] at other
  unfold Dinode.pointer
  rw [update_of_ne other]

end Places

variable {others : UInt32 → Block} {inum : UInt32}

section Blocks

variable {sb : Superblock} {blocks : UInt32 → Block} (geometry : sb.Geometry)

theorem inodeTable_num (inside : inum.toNat < sb.ninodes.toNat) :
    inodeTable sb blocks inum.toNat =
      Dinode.read (blocks (sb.iblock inum)) (inum.toNat % IPB) := by
  rw [inodeTable, if_pos inside, UInt32.ofNat_toNat]

include geometry

theorem inodeTable_of_near
    (near : ∀ c : UInt32, c.toNat < sb.bmapstart.toNat → others c = blocks c) :
    inodeTable sb others = inodeTable sb blocks := by
  funext i
  unfold inodeTable
  by_cases inside : i < sb.ninodes.toNat
  · have number : (UInt32.ofNat i).toNat = i :=
      UInt32.toNat_ofNat_of_lt' (Nat.lt_trans inside sb.ninodes.toNat_lt)
    rw [if_pos inside, if_pos inside,
      near _ (geometry.iblock_bounds (show (UInt32.ofNat i).toNat < _ by rwa [number])).2]
  · rw [if_neg inside, if_neg inside]

variable {c : UInt32}

theorem inodeTable_update_block (data : Block) (far : sb.bmapstart.toNat ≤ c.toNat) :
    inodeTable sb (update blocks c data) = inodeTable sb blocks := by
  apply inodeTable_of_near geometry
  intro other near
  apply update_of_ne
  rintro rfl
  omega

theorem inodeTable_write (inside : inum.toNat < sb.ninodes.toNat) (din : Dinode) :
    inodeTable sb (update blocks (sb.iblock inum)
        (din.write (blocks (sb.iblock inum)) (inum.toNat % IPB))) =
      update (inodeTable sb blocks) inum.toNat din := by
  funext i
  by_cases same : i = inum.toNat
  · subst same
    rw [inodeTable_num inside, update_self, update_self,
      Dinode.read_write_self _ _ (Nat.mod_lt _ (by decide))]
  rw [update_of_ne same]
  unfold inodeTable
  by_cases other : i < sb.ninodes.toNat
  · have number : (UInt32.ofNat i).toNat = i :=
      UInt32.toNat_ofNat_of_lt' (Nat.lt_trans other sb.ninodes.toNat_lt)
    by_cases block : sb.iblock (UInt32.ofNat i) = sb.iblock inum
    · have position : i % IPB ≠ inum.toNat % IPB := by
        intro equal
        have numbers := geometry.iblock_inj (show (UInt32.ofNat i).toNat < _ by rwa [number])
          inside block (by rw [number]; exact equal)
        rw [← numbers, number] at same
        exact same rfl
      rw [block, update_self, Dinode.read_write_other _ _ position]
    · rw [update_of_ne block]
  · rw [if_neg other, if_neg other]

variable {b : UInt32}

theorem inUse_update_block (data : Block)
    (outside : c.toNat < sb.bmapstart.toNat ∨ sb.datastart ≤ c.toNat)
    (inside : b.toNat < sb.size.toNat) : inUse sb (update blocks c data) b = inUse sb blocks b := by
  have bounds := geometry.bblock_bounds inside
  have different : sb.bblock b ≠ c := by
    rintro rfl
    omega
  rw [inUse, inUse, update_of_ne different]

variable (inside : b.toNat < sb.size.toNat) (also : c.toNat < sb.size.toNat)
include inside also

/-- The bits after one of them has been changed in its block. -/
theorem inUse_change {data : Block} {set : Bool}
    (changed : ∀ index, Bytes.bit data index =
      if b.toNat % BPB = index then set else Bytes.bit (blocks (sb.bblock b)) index) :
    inUse sb (update blocks (sb.bblock b) data) c =
      if b = c then set else inUse sb blocks c := by
  unfold inUse
  by_cases block : sb.bblock c = sb.bblock b
  · rw [block, update_self, changed]
    by_cases same : b = c
    · rw [if_pos same, if_pos (by rw [same])]
    have position : b.toNat % BPB ≠ c.toNat % BPB :=
      fun equal => same (geometry.bblock_inj inside also block.symm equal)
    rw [if_neg same, if_neg position]
  · have different : b ≠ c := fun same => block (by rw [same])
    rw [if_neg different, update_of_ne block]

theorem inUse_setBit :
    inUse sb (update blocks (sb.bblock b)
        (Bytes.setBit (blocks (sb.bblock b)) (b.toNat % BPB))) c =
      if b = c then true else inUse sb blocks c := by
  apply inUse_change geometry inside also
  intro index
  rw [Bytes.bit_setBit _ _ (by simp only [BPB, BSIZE]; omega)]
  by_cases same : b.toNat % BPB = index <;> simp [same]

theorem inUse_clearBit :
    inUse sb (update blocks (sb.bblock b)
        (Bytes.clearBit (blocks (sb.bblock b)) (b.toNat % BPB))) c =
      if b = c then false else inUse sb blocks c := by
  apply inUse_change geometry inside also
  intro index
  rw [Bytes.bit_clearBit _ _ (by simp only [BPB, BSIZE]; omega)]
  by_cases same : b.toNat % BPB = index <;> simp [same]

end Blocks

variable {b : UInt32}

namespace Owned

variable {sb : Superblock} {blocks : UInt32 → Block} {pointer : Nat × Nat → UInt32}

variable {place : Nat × Nat}

theorem bounds (owned : Owned sb blocks pointer) (set : pointer place ≠ 0) :
    sb.datastart ≤ (pointer place).toNat ∧ (pointer place).toNat < sb.size.toNat :=
  ⟨(owned.owns.held place set).1, (owned.owns.held place set).2.1⟩

theorem congr (owned : Owned sb blocks pointer)
    (bits : ∀ b : UInt32, b.toNat < sb.size.toNat → inUse sb others b = inUse sb blocks b) :
    Owned sb others pointer := by
  refine ⟨?_, owned.owns.congr ?_ (fun _ => rfl)⟩
  · intro b reserved
    have inside : b.toNat < sb.size.toNat := by
      unfold Superblock.datastart at reserved
      omega
    rw [bits b inside, owned.reserved b reserved]
  · intro b
    refine and_congr_right fun _ => and_congr_right fun inside => ?_
    rw [bits b inside]

variable (geometry : sb.Geometry) (owned : Owned sb blocks pointer)
include geometry owned

/-- A change of a block outside the bitmap leaves what is owned. -/
theorem update_block {c : UInt32} (data : Block)
    (outside : c.toNat < sb.bmapstart.toNat ∨ sb.datastart ≤ c.toNat) :
    Owned sb (update blocks c data) pointer :=
  owned.congr fun _ inside => inUse_update_block geometry data outside inside

/-- A block with a clear bit lies in the data area and no place leads to it. -/
theorem free_bounds (free : inUse sb blocks b = false) :
    sb.datastart ≤ b.toNat ∧ b ≠ 0 ∧ ∀ place, pointer place ≠ b := by
  have low : sb.datastart ≤ b.toNat := by
    by_contra below
    rw [owned.reserved b (by omega)] at free
    cases free
  have set : b ≠ 0 := by
    rintro rfl
    have order := geometry.datastart_le
    simp only [UInt32.toNat_zero] at low
    omega
  refine ⟨low, set, owned.owns.unowned set ?_⟩
  rintro ⟨_, _, used⟩
  rw [free] at used
  cases used

/-- Setting the bit of a block gives it to a place that has none. -/
theorem allocate (inside : b.toNat < sb.size.toNat) (free : inUse sb blocks b = false)
    (empty : pointer place = 0) :
    Owned sb (update blocks (sb.bblock b)
        (Bytes.setBit (blocks (sb.bblock b)) (b.toNat % BPB)))
      (update pointer place b) := by
  obtain ⟨low, set, _⟩ := owned.free_bounds geometry free
  refine ⟨?_, owned.owns.assign empty set ?_ ?_⟩
  · intro c reserved
    have limit : c.toNat < sb.size.toNat := by omega
    rw [inUse_setBit geometry inside limit, owned.reserved c reserved, ite_self]
  · rintro ⟨_, _, used⟩
    rw [free] at used
    cases used
  · intro c
    unfold Taken
    by_cases limit : c.toNat < sb.size.toNat
    · rw [inUse_setBit geometry inside limit]
      by_cases same : b = c
      · subst same
        simp [low, inside]
      · simp [same, Ne.symm same]
    · have different : c ≠ b := by
        rintro rfl
        exact limit inside
      simp [limit, different]

/-- Clearing the bit of an owned block takes it from its place. -/
theorem free (set : pointer place ≠ 0) :
    Owned sb (update blocks (sb.bblock (pointer place))
        (Bytes.clearBit (blocks (sb.bblock (pointer place))) ((pointer place).toNat % BPB)))
      (update pointer place 0) := by
  obtain ⟨low, inside⟩ := owned.bounds set
  refine ⟨?_, owned.owns.release ?_⟩
  · intro c reserved
    have different : pointer place ≠ c := by
      rintro rfl
      omega
    have limit : c.toNat < sb.size.toNat := by omega
    rw [inUse_clearBit geometry inside limit, if_neg different, owned.reserved c reserved]
  · intro c
    unfold Taken
    by_cases limit : c.toNat < sb.size.toNat
    · rw [inUse_clearBit geometry inside limit]
      by_cases same : pointer place = c
      · simp [same]
      · simp [same, Ne.symm same]
    · simp [limit]

end Owned

section Leads

variable {blocks : UInt32 → Block} {inodes : Nat → Dinode}

/-- A change of a block that is no indirect block leaves the places. -/
theorem leads_update_block {c : UInt32} (data : Block)
    (other : ∀ i, leads blocks inodes (i, NDIRECT) ≠ c) :
    leads (update blocks c data) inodes = leads blocks inodes := by
  funext place
  exact pointer_update_block data (other place.1) place.2

/-- A change of one inode leaves the places of the others. -/
theorem leads_update_inode (i : Nat) (din : Dinode) (place : Nat × Nat) :
    leads blocks (update inodes i din) place =
      if place.1 = i then din.pointer blocks place.2 else leads blocks inodes place := by
  unfold leads
  by_cases same : place.1 = i
  · rw [if_pos same, same, update_self]
  · rw [if_neg same, update_of_ne same]

theorem leads_resize (i : Nat) (din : Dinode) (size : UInt32) :
    leads blocks (update inodes i (din.resized size)) =
      leads blocks (update inodes i din) := by
  funext place
  rw [leads_update_inode, leads_update_inode]
  rfl

variable {i : Nat}

/-- Setting an address sets its place. The words of the indirect block may change with it. -/
theorem leads_setAddr (live : (inodes i).type ≠ 0) (b : UInt32) {others : Nat × Nat → UInt32}
    (same : ∀ place, place.1 ≠ i ∨ ¬ NDIRECT < place.2 → others place = leads blocks inodes place)
    (words : ∀ p, NDIRECT < p → ((inodes i).setAddr index b).pointer blocks p = others (i, p)) :
    leads blocks (update inodes i ((inodes i).setAddr index b)) =
      update others (i, index.val) b := by
  funext place
  obtain ⟨j, p⟩ := place
  have stays : ((inodes i).setAddr index b).type ≠ 0 := live
  rw [leads_update_inode]
  by_cases own : j = i
  · subst own
    rw [if_pos rfl]
    by_cases here : p = index.val
    · subst here
      rw [update_self]
      exact (pointer_addr stays index).trans (Dinode.setAddr_self ..)
    have elsewhere : (j, p) ≠ (j, index.val) := fun equal => here (Prod.mk.inj equal).2
    rw [update_of_ne elsewhere]
    by_cases beyond : NDIRECT < p
    · exact words p beyond
    have different : (⟨p, by omega⟩ : Fin (NDIRECT + 1)) ≠ index :=
      fun equal => here (congrArg Fin.val equal)
    rw [same _ (.inr beyond)]
    exact (pointer_addr stays _).trans
      ((Dinode.setAddr_other _ _ different).trans (pointer_addr live _).symm)
  · have elsewhere : (j, p) ≠ (i, index.val) := fun equal => own (Prod.mk.inj equal).1
    rw [if_neg own, update_of_ne elsewhere, same _ (.inl own)]

theorem leads_set_addr (live : (inodes i).type ≠ 0) (direct : index ≠ Fin.last NDIRECT)
    (b : UInt32) :
    leads blocks (update inodes i ((inodes i).setAddr index b)) =
      update (leads blocks inodes) (i, index.val) b := by
  refine leads_setAddr live b (fun _ _ => rfl) fun p beyond => ?_
  have outside : ¬ p < NDIRECT + 1 := by omega
  unfold leads Dinode.pointer
  simp only [(inodes i).setAddr_other b direct.symm, Dinode.setAddr_type, dif_neg outside]

/-- A new indirect block of zeros sets its own place only. -/
theorem leads_set_table (live : (inodes i).type ≠ 0)
    (empty : (inodes i).table = 0) (zero : blocks b = zeroes) :
    leads blocks (update inodes i ((inodes i).setAddr (Fin.last NDIRECT) b)) =
      update (leads blocks inodes) (i, NDIRECT) b := by
  refine leads_setAddr live b (fun _ _ => rfl) fun p beyond => ?_
  have outside : ¬ p < NDIRECT + 1 := by omega
  rw [leads, pointer_none beyond (.inl empty), Dinode.pointer, dif_neg outside]
  simp only [Dinode.setAddr_self, zero, word_zeroes, ite_self]

theorem leads_set_word (live : (inodes i).type ≠ 0)
    (table : (inodes i).table ≠ 0)
    (own : ∀ j, leads blocks inodes (j, NDIRECT) = (inodes i).table → j = i)
    {index : Nat} (inside : index < NINDIRECT) (b : UInt32) :
    leads (update blocks (inodes i).table (setWord (blocks (inodes i).table) index b)) inodes =
      update (leads blocks inodes) (i, NDIRECT + 1 + index) b := by
  funext place
  obtain ⟨j, p⟩ := place
  by_cases same : j = i
  · subst same
    by_cases here : p = NDIRECT + 1 + index
    · subst here
      rw [update_self]
      show Dinode.pointer _ (inodes j) _ = b
      rw [pointer_word live table inside, update_self, word_setWord_self _ _ inside]
    have elsewhere : (j, p) ≠ (j, NDIRECT + 1 + index) := fun equal => here (Prod.mk.inj equal).2
    rw [update_of_ne elsewhere]
    unfold leads Dinode.pointer
    simp only [if_neg live, update_self]
    by_cases addr : p < NDIRECT + 1
    · rw [dif_pos addr, dif_pos addr]
    · rw [dif_neg addr, dif_neg addr, word_setWord_other _ _ (by omega)]
  · have elsewhere : (j, p) ≠ (i, NDIRECT + 1 + index) := fun equal => same (Prod.mk.inj equal).1
    rw [update_of_ne elsewhere]
    exact pointer_update_block _ (fun equal => same (own j equal)) p

/-- The places without the first words of one indirect block. -/
def drained (pointer : Nat × Nat → UInt32) (i count : Nat) (place : Nat × Nat) : UInt32 :=
  if place.1 = i ∧ NDIRECT < place.2 ∧ place.2 ≤ NDIRECT + count then 0 else pointer place

theorem drained_zero (pointer : Nat × Nat → UInt32) (i : Nat) : drained pointer i 0 = pointer := by
  funext place
  exact if_neg (by omega)

theorem drained_succ (pointer : Nat × Nat → UInt32) (i count : Nat) :
    drained pointer i (count + 1) =
      update (drained pointer i count) (i, NDIRECT + 1 + count) 0 := by
  funext place
  obtain ⟨j, p⟩ := place
  by_cases here : (j, p) = (i, NDIRECT + 1 + count)
  · obtain ⟨rfl, rfl⟩ := Prod.mk.inj here
    rw [update_self]
    exact if_pos ⟨rfl, by omega, by omega⟩
  rw [update_of_ne here]
  have different : ¬ (j = i ∧ p = NDIRECT + 1 + count) := fun equal => here (by rw [equal.1, equal.2])
  unfold drained
  by_cases masked : j = i ∧ NDIRECT < p ∧ p ≤ NDIRECT + count
  · rw [if_pos masked, if_pos ⟨masked.1, masked.2.1, by omega⟩]
  · rw [if_neg masked, if_neg (by omega)]

theorem leads_clear_table (live : (inodes i).type ≠ 0) :
    leads blocks (update inodes i ((inodes i).setAddr (Fin.last NDIRECT) 0)) =
      update (drained (leads blocks inodes) i NINDIRECT) (i, NDIRECT) 0 := by
  refine leads_setAddr live 0 (fun place front => if_neg fun masked => ?_) fun p beyond => ?_
  · exact front.elim (fun other => other masked.1) fun addr => addr masked.2.1
  rw [pointer_none beyond (.inl (Dinode.setAddr_self ..))]
  unfold drained
  by_cases within : p ≤ NDIRECT + NINDIRECT
  · rw [if_pos ⟨rfl, beyond, within⟩]
  · rw [if_neg (by omega)]
    exact (pointer_none beyond (.inr (by simp only [MAXFILE] at *; omega))).symm

end Leads

/-- A block of a file. -/
def Dinode.block (blocks : UInt32 → Block) (din : Dinode) (k : Nat) : Block :=
  blocks (din.pointer blocks (slot k))

/-- A byte of a file. -/
def Dinode.byteAt (blocks : UInt32 → Block) (din : Dinode) (pos : Nat) : UInt8 :=
  Bytes.byte (din.block blocks (pos / BSIZE)) (pos % BSIZE)

/-- A file as its users see it: the fields of its inode and its bytes, with zeros from its
end on. -/
structure FileNode where
  type : Int16
  major : Int16
  minor : Int16
  nlink : Int16
  size : Nat
  byte : Nat → UInt8

/-- The file with other fields than its type and contents. -/
def FileNode.restamp (node : FileNode) (major minor nlink : Int16) : FileNode :=
  { node with major, minor, nlink }

/-- The file with another number of links. -/
def FileNode.relink (node : FileNode) (change : Int16 → Int16) : FileNode :=
  { node with nlink := change node.nlink }

/-- The file after a stretch of bytes has been written, which may make it longer. -/
def FileNode.write (node : FileNode) (src : Nat → UInt8) (off count : Nat) : FileNode :=
  { node with
    size := max node.size (off + count)
    byte := fun pos =>
      if off ≤ pos ∧ pos < off + count then src (pos - off) else node.byte pos }

/-- The file of an allocated inode. -/
def Dinode.file (blocks : UInt32 → Block) (din : Dinode) : Option FileNode :=
  if din.type = 0 then none
  else some
    { type := din.type
      major := din.major
      minor := din.minor
      nlink := din.nlink
      size := din.size.toNat
      byte := fun pos => if pos < din.size.toNat then din.byteAt blocks pos else 0 }

/-- The files of all inodes. -/
def files (blocks : UInt32 → Block) (inodes : Nat → Dinode) (i : Nat) : Option FileNode :=
  (inodes i).file blocks

theorem files_update (blocks : UInt32 → Block) (inodes : Nat → Dinode) (i : Nat) (din : Dinode) :
    files blocks (update inodes i din) = update (files blocks inodes) i (din.file blocks) :=
  funext (Function.apply_update (fun _ => Dinode.file blocks) inodes i din)

/-- The inode with other fields than its type and contents. -/
def Dinode.restamp (din : Dinode) (major minor nlink : Int16) : Dinode :=
  { din with major, minor, nlink }

theorem Dinode.file_restamp (blocks : UInt32 → Block) (din : Dinode) (major minor nlink : Int16) :
    (din.restamp major minor nlink).file blocks =
      (din.file blocks).map (FileNode.restamp · major minor nlink) := by
  unfold Dinode.file
  by_cases free : din.type = 0
  · rw [if_pos free]
    exact if_pos free
  · rw [if_neg free]
    exact if_neg free

/-- A file depends on the fields of its inode and the blocks below its size. -/
theorem file_congr {blocks others : UInt32 → Block} {din other : Dinode}
    (type : other.type = din.type) (major : other.major = din.major)
    (minor : other.minor = din.minor) (nlink : other.nlink = din.nlink)
    (size : other.size = din.size)
    (content : ∀ k, k * BSIZE < din.size.toNat → other.block others k = din.block blocks k) :
    other.file others = din.file blocks := by
  have bytes : (fun pos => if pos < din.size.toNat then other.byteAt others pos else 0) =
      fun pos => if pos < din.size.toNat then din.byteAt blocks pos else 0 := by
    funext pos
    by_cases inside : pos < din.size.toNat
    · rw [if_pos inside, if_pos inside, Dinode.byteAt, Dinode.byteAt, content (pos / BSIZE)
        (Nat.lt_of_le_of_lt (Nat.div_mul_le_self pos BSIZE) inside)]
    · rw [if_neg inside, if_neg inside]
  unfold Dinode.file
  rw [type, major, minor, nlink, size, bytes]

section Far

variable {sb : Superblock} {blocks others : UInt32 → Block} {inodes : Nat → Dinode}

theorem leads_of_far (owned : Owned sb blocks (leads blocks inodes))
    (far : ∀ c : UInt32, sb.datastart ≤ c.toNat → others c = blocks c) :
    leads others inodes = leads blocks inodes := by
  funext place
  obtain ⟨i, p⟩ := place
  show (inodes i).pointer others p = (inodes i).pointer blocks p
  by_cases live : (inodes i).type = 0
  · rw [pointer_free live, pointer_free live]
  by_cases table : (inodes i).table = 0
  · unfold Dinode.pointer
    simp only [table, true_or, if_true]
  have pointing : leads blocks inodes (i, NDIRECT) = (inodes i).table := pointer_table live
  have low := (owned.bounds (by rw [pointing]; exact table)).1
  rw [pointing] at low
  unfold Dinode.pointer
  rw [far _ low]

theorem files_of_far (owned : Owned sb blocks (leads blocks inodes)) (full : Full blocks inodes)
    (far : ∀ c : UInt32, sb.datastart ≤ c.toNat → others c = blocks c) :
    files others inodes = files blocks inodes := by
  funext i
  by_cases free : (inodes i).type = 0
  · simp [files, Dinode.file, free]
  apply file_congr rfl rfl rfl rfl rfl
  intro k inside
  have same : (inodes i).pointer others (slot k) = leads blocks inodes (i, slot k) :=
    congrFun (leads_of_far owned far) (i, slot k)
  have set : leads blocks inodes (i, slot k) ≠ 0 := full i k free inside
  have low := (owned.bounds set).1
  unfold Dinode.block
  rw [same, far _ low]
  rfl

theorem full_of_leads (full : Full blocks inodes)
    (same : leads others inodes = leads blocks inodes) : Full others inodes := by
  intro i k live inside
  have place : (inodes i).pointer others (slot k) = leads blocks inodes (i, slot k) :=
    congrFun same (i, slot k)
  rw [place]
  exact full i k live inside

end Far

end RtXv6
