import Mathlib.Data.Fintype.Basic
import RtXv6.Bits
import RtXv6.BufferCache

/-!
# The file system on disk

`fs.h` describes the blocks that `mkfs` writes and the kernel reads: the super block,
the inodes, eight to a block, the bitmap of the blocks in use, the directories, which
are files of fixed-size entries, and the indirect blocks, which are tables of block
numbers. Both programs keep the fields in the byte order of the machine, least
significant byte first.
-/

namespace RtXv6

/-- The number of the root inode. -/
abbrev ROOTINO : UInt32 := 1

/-- Size of the file system in blocks. -/
abbrev FSSIZE : Nat := 1000

/-- Directory. -/
abbrev T_DIR : Int16 := 1

/-- File. -/
abbrev T_FILE : Int16 := 2

/-- Device. -/
abbrev T_DEV : Int16 := 3

/-- The blocks that an inode lists itself. -/
abbrev NDIRECT : Nat := 12

/-- The blocks that an indirect block lists. -/
abbrev NINDIRECT : Nat := BSIZE / 4

/-- The most blocks of a file. -/
abbrev MAXFILE : Nat := NDIRECT + NINDIRECT

/-- Inodes per block, `BSIZE / sizeof(struct dinode)`. -/
abbrev IPB : Nat := BSIZE / 64

/-- Bitmap bits per block. -/
abbrev BPB : Nat := BSIZE * 8

/-- The bytes of a name in a directory entry. -/
abbrev DIRSIZ : Nat := 14

/-- `struct superblock`. -/
structure Superblock where
  size : UInt32
  nblocks : UInt32
  ninodes : UInt32
  nlog : UInt32
  logstart : UInt32
  inodestart : UInt32
  bmapstart : UInt32
  deriving DecidableEq, Repr

/-- Block containing an inode, `IBLOCK(i, sb)`. -/
def Superblock.iblock (sb : Superblock) (inum : UInt32) : UInt32 :=
  inum / UInt32.ofNat IPB + sb.inodestart

/-- Block of the free map containing the bit of a block, `BBLOCK(b, sb)`. -/
def Superblock.bblock (sb : Superblock) (b : UInt32) : UInt32 :=
  b / UInt32.ofNat BPB + sb.bmapstart

/-- A word of a block taken as an array of words. -/
def word (data : Block) (index : Nat) : UInt32 := UInt32.ofNat (Bytes.load data (4 * index) 4)

/-- Set a word of a block. -/
def setWord (data : Block) (index : Nat) (value : UInt32) : Block :=
  Bytes.store data (4 * index) 4 value.toNat

/-- The super block that a block holds. -/
def Superblock.read (data : Block) : Superblock :=
  { size := word data 0
    nblocks := word data 1
    ninodes := word data 2
    nlog := word data 3
    logstart := word data 4
    inodestart := word data 5
    bmapstart := word data 6 }

/-- Store a super block in a block. -/
def Superblock.write (sb : Superblock) (data : Block) : Block :=
  Bytes.storeAll data 0 4 ([sb.size, sb.nblocks, sb.ninodes, sb.nlog, sb.logstart, sb.inodestart,
    sb.bmapstart].map UInt32.toNat)

/-- `struct dinode`. -/
structure Dinode where
  type : Int16
  major : Int16
  minor : Int16
  nlink : Int16
  size : UInt32
  addrs : Fin (NDIRECT + 1) → UInt32
  deriving DecidableEq

/-- The inode of zero bytes. -/
def Dinode.zero : Dinode :=
  { type := 0, major := 0, minor := 0, nlink := 0, size := 0, addrs := fun _ => 0 }

/-- A `short` of a block. -/
def short (data : Block) (offset : Nat) : Int16 :=
  (UInt16.ofNat (Bytes.load data offset 2)).toInt16

/-- Set a `short` of a block. -/
def setShort (data : Block) (offset : Nat) (value : Int16) : Block :=
  Bytes.store data offset 2 value.toUInt16.toNat

/-- The inode at a position of an inode block. -/
def Dinode.read (data : Block) (position : Nat) : Dinode :=
  { type := short data (64 * position)
    major := short data (64 * position + 2)
    minor := short data (64 * position + 4)
    nlink := short data (64 * position + 6)
    size := word data (16 * position + 2)
    addrs := fun index => word data (16 * position + 3 + index) }

/-- Store an inode at a position of an inode block. -/
def Dinode.write (din : Dinode) (data : Block) (position : Nat) : Block :=
  let data := setShort data (64 * position) din.type
  let data := setShort data (64 * position + 2) din.major
  let data := setShort data (64 * position + 4) din.minor
  let data := setShort data (64 * position + 6) din.nlink
  let data := setWord data (16 * position + 2) din.size
  Bytes.storeAll data (4 * (16 * position + 3)) 4 ((List.ofFn din.addrs).map UInt32.toNat)

/-- `struct dirent`, as the bytes that a directory holds. -/
abbrev Dirent := Fin 16 → UInt8

namespace Dirent

/-- `de.inum`. -/
def inum (de : Dirent) : UInt16 := UInt16.ofNat (Bytes.load de 0 2)

/-- `de.name`. -/
def name (de : Dirent) : List UInt8 := (List.range DIRSIZ).map (fun index => Bytes.byte de (index + 2))

/-- What `strncpy` leaves at an index of its destination: the bytes of the string, and
zeros from its end on. -/
def strncpy (string : List UInt8) (index : Nat) : UInt8 :=
  (string.takeWhile (· ≠ 0)).getD index 0

/-- An entry whose fields have been set. -/
def make (inum : UInt16) (name : List UInt8) : Dirent :=
  Bytes.store (fun index => strncpy name (index.val - 2)) 0 2 inum.toNat

/-- The entry of zero bytes. -/
def zero : Dirent := fun _ => 0

end Dirent

/-- A block of zeros. -/
def zeroes : Block := fun _ => 0

theorem word_setWord_self (data : Block) {index : Nat} (value : UInt32) (inside : index < NINDIRECT) :
    word (setWord data index value) index = value := by
  simp only [NINDIRECT, BSIZE] at inside
  rw [word, setWord, Bytes.load_store_self _ _ _ _ (by simp only [BSIZE]; omega),
    Nat.mod_eq_of_lt (Nat.lt_of_lt_of_le value.toNat_lt (by decide)), UInt32.ofNat_toNat]

theorem word_setWord_other (data : Block) {index other : Nat} (value : UInt32)
    (different : other ≠ index) : word (setWord data index value) other = word data other := by
  rw [word, setWord, Bytes.load_store_other _ _ _ _ _ _ (by omega), word]

@[simp] theorem word_zeroes (index : Nat) : word zeroes index = 0 := by
  unfold word zeroes
  rw [Bytes.load_zero]
  rfl

theorem toInt16_ofNat_toUInt16 (value : Int16) :
    (UInt16.ofNat (value.toUInt16.toNat % 256 ^ 2)).toInt16 = value := by
  rw [Nat.mod_eq_of_lt (Nat.lt_of_lt_of_le value.toUInt16.toNat_lt (by decide)),
    UInt16.ofNat_toNat, Int16.toInt16_toUInt16]

theorem ofNat_toNat_word (value : UInt32) : UInt32.ofNat (value.toNat % 256 ^ 4) = value := by
  rw [Nat.mod_eq_of_lt (Nat.lt_of_lt_of_le value.toNat_lt (by decide)), UInt32.ofNat_toNat]

namespace Dinode

variable (din : Dinode) (data : Block)

/-- Fields in front of the addresses are not overwritten by them. -/
theorem load_write_front (position offset width : Nat)
    (front : offset + width ≤ 64 * position + 12) :
    Bytes.load (din.write data position) offset width =
      Bytes.load (setWord (setShort (setShort (setShort (setShort data (64 * position) din.type)
        (64 * position + 2) din.major) (64 * position + 4) din.minor) (64 * position + 6) din.nlink)
        (16 * position + 2) din.size) offset width := by
  rw [write]
  exact Bytes.load_storeAll_other _ _ _ _ _ _ (.inl (by omega))

theorem read_write_self {position : Nat} (inside : position < IPB) :
    read (din.write data position) position = din := by
  simp only [IPB, BSIZE] at inside
  have room : 64 * position + 64 ≤ BSIZE := by simp only [BSIZE]; omega
  obtain ⟨type, major, minor, nlink⟩ : short (din.write data position) (64 * position) = din.type ∧
      short (din.write data position) (64 * position + 2) = din.major ∧
      short (din.write data position) (64 * position + 4) = din.minor ∧
      short (din.write data position) (64 * position + 6) = din.nlink := by
    refine ⟨?_, ?_, ?_, ?_⟩ <;> rw [short, load_write_front _ _ _ _ _ (by omega)] <;>
      simp (disch := omega) only [setWord, setShort, Bytes.load_store_other, Bytes.load_store_self,
        toInt16_ofNat_toUInt16]
  have size : word (din.write data position) (16 * position + 2) = din.size := by
    rw [word, load_write_front _ _ _ _ _ (by omega), setWord,
      Bytes.load_store_self _ _ _ _ (by omega), ofNat_toNat_word]
  have addrs : ∀ index : Fin (NDIRECT + 1),
      word (din.write data position) (16 * position + 3 + index) = din.addrs index := by
    intro index
    have listed : ((List.ofFn din.addrs).map UInt32.toNat)[index.val]? =
        some (din.addrs index).toNat := by
      rw [List.getElem?_map, List.getElem?_ofFn, dif_pos index.isLt]
      rfl
    rw [word, write, Nat.mul_add 4 (16 * position + 3) index, Bytes.load_storeAll _ _ _ _
      (by simp; omega) index _ listed, ofNat_toNat_word]
  simp only [read, type, major, minor, nlink, size, addrs]

theorem read_write_other {position other : Nat} (different : other ≠ position) :
    read (din.write data position) other = read data other := by
  have field : ∀ offset width, 64 * other ≤ offset → offset + width ≤ 64 * other + 64 →
      Bytes.load (din.write data position) offset width = Bytes.load data offset width := by
    intro offset width low high
    rw [write, Bytes.load_storeAll_other _ _ _ _ _ _ (by simp; omega)]
    simp (disch := omega) only [setWord, setShort, Bytes.load_store_other]
  have shorts : ∀ offset, 64 * other ≤ offset → offset + 2 ≤ 64 * other + 64 →
      short (din.write data position) offset = short data offset := by
    intro offset low high
    rw [short, short, field offset 2 low high]
  have words : ∀ index, 16 * other ≤ index → index < 16 * other + 16 →
      word (din.write data position) index = word data index := by
    intro index low high
    rw [word, word, field (4 * index) 4 (by omega) (by omega)]
  have addrs : ∀ index : Fin (NDIRECT + 1),
      word (din.write data position) (16 * other + 3 + index) =
        word data (16 * other + 3 + index) := by
    intro index
    have limit : index.val < 13 := index.isLt
    exact words _ (by omega) (by omega)
  simp (disch := omega) only [read, shorts, words, addrs]

end Dinode

end RtXv6
