import RtXv6.BlockMap
import RtXv6.Mkfs

/-!
# How the image is laid out

`mkfs` hands out the blocks behind the meta blocks in order, so the blocks that the
inodes own are those below `freeblock`, and the blocks from there on are still zero. An
inode has exactly the blocks that its size needs. Since a new block is zero, and so is
the boot block that a missing address leads to, giving a block to an inode changes no
byte of any file; only the copy into the block does.

While `iappend` works on an inode, its copy in memory is ahead of the image, so the
facts are stated for a table of inodes with that copy in it.
-/

namespace RtXv6.Mkfs

open Function (update update_self update_of_ne update_idem update_eq_self)
open Stateful Ownership

/-- The blocks of the image. -/
def blocks (m : Mkfs) (c : UInt32) : Block := (m.image c).getD zeroes

/-- The inodes of the image. -/
def inodes (m : Mkfs) : Nat → Dinode := inodeTable sb m.blocks

/-- The image with another block. -/
def put (m : Mkfs) (c : UInt32) (data : Block) : Mkfs :=
  { m with image := update m.image c (some data) }

@[simp] theorem put_blocks (m : Mkfs) (c : UInt32) (data : Block) :
    (m.put c data).blocks = update m.blocks c data := by
  funext other
  by_cases same : other = c
  · subst same
    simp [put, blocks]
  · simp [put, blocks, update_of_ne same]

@[simp] theorem put_freeblock (m : Mkfs) (c : UInt32) (data : Block) :
    (m.put c data).freeblock = m.freeblock := rfl

theorem geometry : sb.Geometry := ⟨by decide, by decide, by decide, by decide⟩

/-- A block that has been handed out. -/
def Used (m : Mkfs) (b : UInt32) : Prop := nmeta ≤ b.toNat ∧ b.toNat < m.freeblock

/-- The inodes own the blocks that have been handed out, and the others are zero. -/
structure Laid (m : Mkfs) (inodes : Nat → Dinode) : Prop where
  present : ∀ c : UInt32, c.toNat < FSSIZE → (m.image c).isSome = true
  boot : m.blocks 0 = zeroes
  start : nmeta ≤ m.freeblock
  owns : Owns 0 m.Used (leads m.blocks inodes)
  fresh : ∀ c : UInt32, m.freeblock ≤ c.toNat → m.blocks c = zeroes

variable {place : Nat × Nat}

section Steps

variable {m next : Mkfs} {inodes after : Nat → Dinode} {inum : Nat}

theorem put_present (present : ∀ c : UInt32, c.toNat < FSSIZE → (m.image c).isSome = true)
    (c : UInt32) (data : Block) (b : UInt32) (inside : b.toNat < FSSIZE) :
    ((m.put c data).image b).isSome = true := by
  by_cases same : b = c
  · subst same
    simp [put]
  · simp [put, update_of_ne same, present b inside]

theorem rsect_run {c : UInt32} (present : (m.image c).isSome = true) :
    rsect c m = .ok (m.blocks c, m) := by
  obtain ⟨data, found⟩ := Option.isSome_iff_exists.mp present
  simp [rsect, blocks, found]

theorem wsect_run (c : UInt32) (data : Block) : wsect c data m = .ok ((), m.put c data) := rfl

theorem Laid.bounds (laid : Laid m inodes) (set : leads m.blocks inodes place ≠ 0) :
    nmeta ≤ (leads m.blocks inodes place).toNat ∧
      (leads m.blocks inodes place).toNat < m.freeblock :=
  laid.owns.held place set

theorem Laid.congr (laid : Laid m inodes)
    (same : leads m.blocks after = leads m.blocks inodes) : Laid m after :=
  ⟨laid.present, laid.boot, laid.start, by rw [same]; exact laid.owns, laid.fresh⟩

/-- The next block to be handed out. -/
def nextBlock (m : Mkfs) : UInt32 := UInt32.ofNat m.freeblock

theorem toNat_nextBlock (room : m.freeblock < FSSIZE) : m.nextBlock.toNat = m.freeblock :=
  UInt32.toNat_ofNat_of_lt' (Nat.lt_trans room (by decide))

theorem Laid.nextBlock_ne (laid : Laid m inodes) (room : m.freeblock < FSSIZE) :
    m.nextBlock ≠ 0 := by
  intro zero
  have number := toNat_nextBlock room
  have start := laid.start
  rw [zero, UInt32.toNat_zero] at number
  simp only [nmeta] at start
  omega

/-- The state after `freeblock++`. -/
def taken (m : Mkfs) : Mkfs := { m with freeblock := m.freeblock + 1 }

@[simp] theorem taken_blocks (m : Mkfs) : m.taken.blocks = m.blocks := rfl

/-- A place of an inode leads to a block, which may be new; no byte of a file changes. -/
structure Supplies (m next : Mkfs) (before after : Nat → Dinode) (place : Nat × Nat)
    (b : UInt32) : Prop where
  laid : Laid next after
  near : ∀ c : UInt32, c.toNat < nmeta → next.blocks c = m.blocks c
  freeinode : next.freeinode = m.freeinode
  leading : leads next.blocks after place = b
  set : b ≠ 0
  others : ∀ other, other ≠ place → leads next.blocks after other = leads m.blocks before other
  data : ∀ i k, (after i).block next.blocks k = (before i).block m.blocks k
  freeblock : next.freeblock = m.freeblock + if leads m.blocks before place = 0 then 1 else 0

theorem Supplies.refl (laid : Laid m inodes) (set : leads m.blocks inodes place ≠ 0) :
    Supplies m m inodes inodes place (leads m.blocks inodes place) := by
  refine ⟨laid, fun _ _ => rfl, rfl, rfl, set, fun _ _ => rfl, fun _ _ => rfl, ?_⟩
  rw [if_neg set, Nat.add_zero]

/-- A place gets the next block, while the places of other blocks stay and the blocks of
files keep their contents. -/
theorem Supplies.assign (laid : Laid m inodes) (room : m.freeblock < FSSIZE)
    (empty : leads m.blocks inodes place = 0) (freeblock : next.freeblock = m.freeblock + 1)
    (freeinode : next.freeinode = m.freeinode)
    (present : ∀ c : UInt32, c.toNat < FSSIZE → (next.image c).isSome = true)
    (places : leads next.blocks after = update (leads m.blocks inodes) place m.nextBlock)
    (near : ∀ c : UInt32, c.toNat < nmeta → next.blocks c = m.blocks c)
    (far : ∀ c : UInt32, m.freeblock ≤ c.toNat → next.blocks c = m.blocks c)
    (data : ∀ i k, leads m.blocks inodes (i, slot k) ≠ 0 →
      next.blocks (leads m.blocks inodes (i, slot k)) =
        m.blocks (leads m.blocks inodes (i, slot k))) :
    Supplies m next inodes after place m.nextBlock := by
  have number := toNat_nextBlock room
  have start := laid.start
  have set := laid.nextBlock_ne room
  have boot : next.blocks 0 = m.blocks 0 := near 0 (by decide)
  have unused : ¬ m.Used m.nextBlock := by
    rintro ⟨_, below⟩
    omega
  have owns : Owns 0 next.Used (leads next.blocks after) := by
    rw [places]
    apply laid.owns.assign empty set unused
    intro c
    have equal : c = m.nextBlock ↔ c.toNat = m.freeblock := by
      rw [← UInt32.toNat_inj, number]
    unfold Used
    rw [equal, freeblock]
    omega
  refine ⟨⟨present, ?_, ?_, owns, ?_⟩, near, freeinode, ?_, set, ?_, ?_, ?_⟩
  · rw [boot, laid.boot]
  · omega
  · intro c beyond
    rw [far c (by omega), laid.fresh c (by omega)]
  · rw [places, update_self]
  · intro other different
    rw [places, update_of_ne different]
  · intro i k
    show next.blocks (leads next.blocks after (i, slot k)) =
      m.blocks (leads m.blocks inodes (i, slot k))
    by_cases here : (i, slot k) = place
    · rw [places, here, update_self, empty, far _ (by omega),
        laid.fresh _ (by omega), laid.boot]
    rw [places, update_of_ne here]
    by_cases zero : leads m.blocks inodes (i, slot k) = 0
    · rw [zero, boot]
    · exact data i k zero
  · rw [if_pos empty, freeblock]

/-- What `address` does: the inode keeps its fields, and the place of the address leads to a
block. -/
theorem address_ends (laid : Laid m inodes) (live : (inodes inum).type ≠ 0)
    (index : Fin (NDIRECT + 1))
    (room : leads m.blocks inodes (inum, index.val) = 0 → m.freeblock < FSSIZE) :
    Ends (fun din next => (∃ addrs, din = { inodes inum with addrs }) ∧
        Supplies m next inodes (update inodes inum din) (inum, index.val)
          (din.addrs index)) (fun _ => False) (address (inodes inum) index) m := by
  have place : leads m.blocks inodes (inum, index.val) = (inodes inum).addrs index :=
    pointer_addr live index
  unfold address
  by_cases empty : (inodes inum).addrs index = 0
  · rw [if_pos empty]
    rw [place] at room
    have number := toNat_nextBlock (room empty)
    have shape : leads m.blocks (update inodes inum
        ((inodes inum).setAddr index m.nextBlock)) =
        update (leads m.blocks inodes) (inum, index.val) m.nextBlock := by
      by_cases table : index = Fin.last NDIRECT
      · subst table
        exact leads_set_table live empty (laid.fresh _ (by omega))
      · exact leads_set_addr live table m.nextBlock
    have ends : Supplies m m.taken inodes
        (update inodes inum ((inodes inum).setAddr index m.nextBlock)) (inum, index.val)
        m.nextBlock :=
      Supplies.assign laid (room empty) (by rw [place, empty]) rfl rfl laid.present shape
        (fun _ _ => rfl) (fun _ _ => rfl) fun _ _ _ => rfl
    refine ⟨⟨_, rfl⟩, ?_⟩
    have addr : ((inodes inum).setAddr index m.nextBlock).addrs index = m.nextBlock :=
      Dinode.setAddr_self ..
    show Supplies m _ inodes (update inodes inum
      ((inodes inum).setAddr index m.nextBlock)) _
      (((inodes inum).setAddr index m.nextBlock).addrs index)
    rw [addr]
    exact ends
  · rw [if_neg empty]
    refine .ret ⟨⟨_, rfl⟩, ?_⟩
    rw [update_eq_self, ← place]
    exact Supplies.refl laid (by rw [place]; exact empty)

/-- What `indirect` does: the place of a word of the indirect block leads to a block. -/
theorem indirect_ends (laid : Laid m inodes) (live : (inodes inum).type ≠ 0)
    (table : (inodes inum).table ≠ 0) {bn : Nat} (inside : bn < NINDIRECT)
    (limit : m.freeblock ≤ FSSIZE)
    (room : leads m.blocks inodes (inum, NDIRECT + 1 + bn) = 0 → m.freeblock < FSSIZE) :
    Ends (fun x next => Supplies m next inodes inodes (inum, NDIRECT + 1 + bn) x)
      (fun _ => False) (indirect (inodes inum).table bn) m := by
  have tablePlace : leads m.blocks inodes (inum, NDIRECT) =
      (inodes inum).table := pointer_table live
  have place : leads m.blocks inodes (inum, NDIRECT + 1 + bn) =
      word (m.blocks (inodes inum).table) bn :=
    pointer_word live table inside
  have bounds := laid.bounds (by rw [tablePlace]; exact table)
  rw [tablePlace] at bounds
  apply Ends.after (rsect_run (laid.present _ (by omega)))
  by_cases empty : word (m.blocks (inodes inum).table) bn = 0
  · rw [if_pos empty]
    rw [place] at room
    have own : ∀ j, leads m.blocks inodes (j, NDIRECT) = (inodes inum).table → j = inum := by
      intro j equal
      have same : (j, NDIRECT) = (inum, NDIRECT) :=
        laid.owns.unique (j, NDIRECT) (inum, NDIRECT) (by rw [equal]; exact table)
          (by rw [equal, tablePlace])
      exact (Prod.mk.inj same).1
    have elsewhere : ∀ c : UInt32, c ≠ (inodes inum).table → update m.blocks (inodes inum).table
          (setWord (m.blocks (inodes inum).table) bn m.nextBlock) c =
        m.blocks c := fun c different => update_of_ne different _ _
    have changed : (m.taken.put (inodes inum).table
        (setWord (m.blocks (inodes inum).table) bn m.nextBlock)).blocks =
        update m.blocks (inodes inum).table
          (setWord (m.blocks (inodes inum).table) bn m.nextBlock) := by
      rw [put_blocks, taken_blocks]
    have ends : Supplies m (m.taken.put (inodes inum).table
        (setWord (m.blocks (inodes inum).table) bn m.nextBlock)) inodes inodes
        (inum, NDIRECT + 1 + bn) m.nextBlock := by
      apply Supplies.assign laid (room empty) (by rw [place, empty])
      · rfl
      · rfl
      · exact put_present laid.present _ _
      · rw [changed]
        exact leads_set_word live table own inside m.nextBlock
      · intro c near
        rw [changed, elsewhere c]
        rintro rfl
        omega
      · intro c beyond
        rw [changed, elsewhere c]
        rintro rfl
        omega
      · intro i k set
        rw [changed, elsewhere _]
        intro equal
        have same : (i, slot k) = (inum, NDIRECT) :=
          laid.owns.unique _ _ set (by rw [equal, tablePlace])
        exact slot_ne k (Prod.mk.inj same).2
    exact ends
  · rw [if_neg empty, ← place]
    exact .ret (Supplies.refl laid (by rw [place]; exact empty))

/-- The blocks that a place needs. -/
def demand (m : Mkfs) (inodes : Nat → Dinode) (inum fbn : Nat) : Nat :=
  (if leads m.blocks inodes (inum, slot fbn) = 0 then 1 else 0) +
    if NDIRECT ≤ fbn ∧ leads m.blocks inodes (inum, NDIRECT) = 0 then 1 else 0

/-- The block of a file at an index is there, and so is the indirect block if it is needed;
no byte of a file has changed. -/
structure Locates (m next : Mkfs) (before after : Nat → Dinode) (inum fbn : Nat) (x : UInt32) :
    Prop where
  laid : Laid next after
  near : ∀ c : UInt32, c.toNat < nmeta → next.blocks c = m.blocks c
  freeinode : next.freeinode = m.freeinode
  place : leads next.blocks after (inum, slot fbn) = x
  set : x ≠ 0
  table : leads next.blocks after (inum, NDIRECT) ≠ 0 ↔
    leads m.blocks before (inum, NDIRECT) ≠ 0 ∨ NDIRECT ≤ fbn
  others : ∀ other, other ≠ (inum, slot fbn) → other ≠ (inum, NDIRECT) →
    leads next.blocks after other = leads m.blocks before other
  data : ∀ i k, (after i).block next.blocks k = (before i).block m.blocks k
  freeblock : next.freeblock = m.freeblock + m.demand before inum fbn

theorem locate_ends (laid : Laid m inodes) (live : (inodes inum).type ≠ 0) {fbn : Nat}
    (small : fbn < MAXFILE) (room : m.freeblock + m.demand inodes inum fbn ≤ FSSIZE) :
    Ends (fun located next => (∃ addrs, located.1 = { inodes inum with addrs }) ∧
        Locates m next inodes (update inodes inum located.1) inum fbn located.2)
      (fun _ => False) (locate (inodes inum) fbn) m := by
  unfold demand at room
  unfold locate
  by_cases direct : fbn < NDIRECT
  · have same : slot fbn = fbn := if_pos direct
    rw [dif_pos direct]
    refine (address_ends laid live ⟨fbn, Nat.lt_succ_of_lt direct⟩ ?_).seq ?_
    · intro empty
      rw [same, if_pos empty] at room
      omega
    rintro din next ⟨fields, supplies⟩
    refine .ret ⟨fields, supplies.laid, supplies.near, supplies.freeinode, ?_, supplies.set,
      ?_, ?_, supplies.data, ?_⟩
    · rw [same]
      exact supplies.leading
    · have other : (inum, NDIRECT) ≠ (inum, fbn) := by
        intro equal
        exact absurd (Prod.mk.inj equal).2.symm (Nat.ne_of_lt direct)
      rw [supplies.others _ other]
      exact ⟨.inl, fun either => either.resolve_right (Nat.not_le.mpr direct)⟩
    · intro other different _
      rw [same] at different
      exact supplies.others other different
    · have none : ¬ (NDIRECT ≤ fbn ∧ leads m.blocks inodes (inum, NDIRECT) = 0) :=
        fun both => absurd both.1 (Nat.not_le.mpr direct)
      have count := supplies.freeblock
      rw [demand, same, if_neg none, Nat.add_zero]
      exact count
  · have shifted : slot fbn = NDIRECT + 1 + (fbn - NDIRECT) := by
      rw [slot, if_neg direct]
      omega
    have inside : fbn - NDIRECT < NINDIRECT := by
      simp only [MAXFILE] at small
      omega
    have beyond : NDIRECT ≤ fbn := Nat.not_lt.mp direct
    simp only [beyond, true_and] at room
    rw [dif_neg direct]
    refine (address_ends laid live (Fin.last NDIRECT) ?_).seq ?_
    · intro empty
      rw [Fin.val_last] at empty
      rw [if_pos empty] at room
      omega
    rintro din middle ⟨fields, first⟩
    have liveNow : (update inodes inum din inum).type ≠ 0 := by
      obtain ⟨addrs, shape⟩ := fields
      rw [update_self, shape]
      exact live
    have self : update inodes inum din inum = din := update_self ..
    have tableSet : (update inodes inum din inum).table ≠ 0 := by
      rw [self]
      exact first.set
    have wordPlace : (inum, slot fbn) ≠ (inum, (Fin.last NDIRECT).val) :=
      fun equal => slot_ne fbn (Prod.mk.inj equal).2
    have kept := first.others _ wordPlace
    have count := first.freeblock
    rw [Fin.val_last] at count
    have second := indirect_ends first.laid liveNow tableSet inside (by omega)
      (by
        intro empty
        rw [← shifted, kept] at empty
        rw [if_pos empty] at room
        omega)
    rw [self] at second
    refine second.seq ?_
    intro x next supplies
    rw [← shifted] at supplies
    refine .ret ⟨fields, supplies.laid, ?_, supplies.freeinode.trans first.freeinode,
      supplies.leading, supplies.set, ?_, ?_, ?_, ?_⟩
    · intro c low
      rw [supplies.near c low, first.near c low]
    · have other : (inum, NDIRECT) ≠ (inum, slot fbn) :=
        fun equal => slot_ne fbn (Prod.mk.inj equal).2.symm
      have leading : leads middle.blocks (update inodes inum din) (inum, NDIRECT) ≠ 0 := by
        have place := first.leading
        rw [Fin.val_last] at place
        rw [place]
        exact first.set
      rw [supplies.others _ other]
      exact ⟨fun _ => .inr beyond, fun _ => leading⟩
    · intro other notWord notTable
      rw [supplies.others other notWord, first.others other notTable]
    · intro i k
      rw [supplies.data i k, first.data i k]
    · rw [supplies.freeblock, kept, count, demand]
      simp only [beyond, true_and]
      omega

end Steps

/-- An inode of the image holds a file: it has one link, exactly the blocks that its bytes
need, and zeros behind the bytes. -/
structure Filed (blocks : UInt32 → Block) (din : Dinode) (type : Int16) (bytes : List UInt8) :
    Prop where
  fields : ∃ addrs, din =
    { Dinode.zero with type, nlink := 1, size := UInt32.ofNat bytes.length, addrs }
  live : type ≠ 0
  small : bytes.length ≤ MAXFILE * BSIZE
  extent : ∀ k, din.pointer blocks (slot k) ≠ 0 ↔ k * BSIZE < bytes.length
  table : din.pointer blocks NDIRECT ≠ 0 ↔ NDIRECT * BSIZE < bytes.length
  content : ∀ pos, din.byteAt blocks pos = bytes.getD pos 0

variable {p : List UInt8}

namespace Filed

variable {blocks others : UInt32 → Block} {din other : Dinode} {type : Int16} {bytes : List UInt8}

theorem type_eq (filed : Filed blocks din type bytes) : din.type = type := by
  obtain ⟨addrs, shape⟩ := filed.fields
  rw [shape]

theorem size_eq (filed : Filed blocks din type bytes) : din.size.toNat = bytes.length := by
  obtain ⟨addrs, shape⟩ := filed.fields
  have small := filed.small
  simp only [MAXFILE, NDIRECT, NINDIRECT, BSIZE] at small
  rw [shape]
  exact UInt32.toNat_ofNat_of_lt' (show bytes.length < 4294967296 by omega)

theorem congr (filed : Filed blocks din type bytes) (fields : ∃ addrs, other = { din with addrs })
    (pointers : ∀ p, other.pointer others p = din.pointer blocks p)
    (data : ∀ k, other.block others k = din.block blocks k) : Filed others other type bytes := by
  obtain ⟨addrs, shape⟩ := fields
  obtain ⟨addrs', shape'⟩ := filed.fields
  refine ⟨⟨addrs, by rw [shape, shape']⟩, filed.live, filed.small, ?_, ?_, ?_⟩
  · intro k
    rw [pointers]
    exact filed.extent k
  · rw [pointers]
    exact filed.table
  · intro pos
    rw [Dinode.byteAt, data]
    exact filed.content pos

variable {count : Nat}

/-- The bytes of a list to which the first bytes of another have been appended. -/
theorem getD_append_take (bytes p : List UInt8) (whole : count ≤ p.length) (pos : Nat) :
    (bytes ++ p.take count).getD pos 0 =
      if bytes.length ≤ pos ∧ pos < bytes.length + count then p.getD (pos - bytes.length) 0
      else bytes.getD pos 0 := by
  simp only [List.getD_eq_getElem?_getD]
  by_cases before : pos < bytes.length
  · rw [if_neg (by omega), List.getElem?_append_left before]
  rw [List.getElem?_append_right (by omega)]
  by_cases inside : pos < bytes.length + count
  · rw [if_pos ⟨by omega, inside⟩, List.getElem?_take_of_lt (by omega)]
  · rw [if_neg (by omega), List.getElem?_eq_none (by rw [List.length_take]; omega),
      List.getElem?_eq_none (by omega)]

/-- Bytes are copied behind the end of a file into one block, which is there. -/
theorem append (filed : Filed blocks (din.resized (UInt32.ofNat bytes.length)) type bytes)
    (positive : 0 < count) (whole : count ≤ p.length)
    (within : bytes.length % BSIZE + count ≤ BSIZE) (limit : bytes.length + count ≤ MAXFILE * BSIZE)
    (fields : ∃ addrs, other = { din with addrs })
    (here : other.pointer others (slot (bytes.length / BSIZE)) ≠ 0)
    (elsewhere : ∀ k, k ≠ bytes.length / BSIZE →
      other.pointer others (slot k) = din.pointer blocks (slot k))
    (table : other.pointer others NDIRECT ≠ 0 ↔
      din.pointer blocks NDIRECT ≠ 0 ∨ NDIRECT ≤ bytes.length / BSIZE)
    (copied : other.block others (bytes.length / BSIZE) =
      Bytes.move (din.block blocks (bytes.length / BSIZE)) (bytes.length % BSIZE) count
        fun index => p.getD index 0)
    (kept : ∀ k, k ≠ bytes.length / BSIZE → other.block others k = din.block blocks k) :
    Filed others (other.resized (UInt32.ofNat (bytes ++ p.take count).length))
      type (bytes ++ p.take count) := by
  have length : (bytes ++ p.take count).length = bytes.length + count := by
    rw [List.length_append, List.length_take, Nat.min_eq_left whole]
  obtain ⟨addrs, rfl⟩ := fields
  obtain ⟨before, shape⟩ := filed.fields
  have extent : ∀ k, din.pointer blocks (slot k) ≠ 0 ↔ k * BSIZE < bytes.length := filed.extent
  have tableBefore : din.pointer blocks NDIRECT ≠ 0 ↔ NDIRECT * BSIZE < bytes.length := filed.table
  have content := filed.content
  rw [length]
  simp only [BSIZE, NDIRECT] at *
  refine ⟨⟨addrs, ?_⟩, filed.live, by rw [length]; exact limit, ?_, ?_, ?_⟩
  · have type := congrArg Dinode.type shape
    have major := congrArg Dinode.major shape
    have minor := congrArg Dinode.minor shape
    have nlink := congrArg Dinode.nlink shape
    simp only [Dinode.resized] at type major minor nlink ⊢
    rw [type, major, minor, nlink, length]
  · intro k
    show Dinode.pointer others { din with addrs } (slot k) ≠ 0 ↔ k * 512 < _
    rw [length]
    by_cases same : k = bytes.length / 512
    · rw [same]
      exact ⟨fun _ => by omega, fun _ => here⟩
    · rw [elsewhere k same, extent k]
      omega
  · show Dinode.pointer others { din with addrs } 12 ≠ 0 ↔ 12 * 512 < _
    rw [length, table, tableBefore]
    omega
  · intro pos
    rw [getD_append_take bytes p whole, ← content pos]
    show Bytes.byte (Dinode.block others { din with addrs } (pos / 512)) (pos % 512) = _
    by_cases same : pos / 512 = bytes.length / 512
    · have old : Bytes.byte (din.block blocks (bytes.length / 512)) (pos % 512) =
          (din.resized (UInt32.ofNat bytes.length)).byteAt blocks pos := by
        rw [← same]
        rfl
      have position : pos % 512 < BSIZE := Nat.mod_lt _ (by decide)
      rw [same, copied, Bytes.byte_move, old]
      simp only [position, and_true]
      by_cases new : bytes.length ≤ pos ∧ pos < bytes.length + count
      · have index : pos % 512 - bytes.length % 512 = pos - bytes.length := by omega
        rw [if_pos new, if_pos (by omega), index]
      · rw [if_neg new, if_neg (by omega)]
    · rw [kept _ same, if_neg (by omega)]
      rfl

end Filed

/-- The blocks that the bytes of a file need, with the indirect block. -/
def room (size : Nat) : Nat :=
  (size + (BSIZE - 1)) / BSIZE + if NDIRECT * BSIZE < size then 1 else 0

variable {size : Nat}

theorem room_mono {larger : Nat} (le : size ≤ larger) : room size ≤ room larger := by
  unfold room
  simp only [BSIZE, NDIRECT]
  split <;> split <;> omega

/-- The blocks for more bytes that end in the block in which the file goes on. -/
theorem room_add {count : Nat} (positive : 0 < count) (within : size % BSIZE + count ≤ BSIZE) :
    room (size + count) = room size + (if size % BSIZE = 0 then 1 else 0) +
      if size = NDIRECT * BSIZE then 1 else 0 := by
  unfold room
  simp only [BSIZE, NDIRECT] at *
  split <;> split <;> split <;> split <;> omega

/-- A file of the image: its type and its bytes. -/
structure Entry where
  type : Int16
  bytes : List UInt8

/-- The copy of one inode in memory holds a file, and the other inodes of the image hold
theirs; the inodes without a file are zero. -/
structure Working (m : Mkfs) (archive : Nat → Option Entry) (inum : Nat) (din : Dinode)
    (entry : Entry) : Prop where
  laid : Laid m (update m.inodes inum din)
  self : Filed m.blocks (din.resized (UInt32.ofNat entry.bytes.length)) entry.type entry.bytes
  others : ∀ i other, i ≠ inum → archive i = some other →
    Filed m.blocks (m.inodes i) other.type other.bytes
  unused : ∀ i, archive i = none → m.inodes i = Dinode.zero
  super : Superblock.read (m.blocks 1) = sb

section Append

variable {m next : Mkfs} {inodes : Nat → Dinode} {archive : Nat → Option Entry} {inum : Nat}
  {din : Dinode} {type : Int16} {bytes : List UInt8}

theorem Laid.overwrite (laid : Laid m inodes) {c : UInt32} (nonzero : c ≠ 0)
    (below : c.toNat < m.freeblock) (data : Block)
    (noTable : ∀ i, leads m.blocks inodes (i, NDIRECT) ≠ c) :
    Laid (m.put c data) inodes ∧ leads (m.put c data).blocks inodes = leads m.blocks inodes := by
  have places : leads (m.put c data).blocks inodes = leads m.blocks inodes := by
    rw [put_blocks]
    exact leads_update_block data noTable
  refine ⟨⟨put_present laid.present c data, ?_, laid.start, ?_, ?_⟩, places⟩
  · rw [put_blocks, update_of_ne nonzero.symm, laid.boot]
  · rw [places]
    exact laid.owns
  · intro other beyond
    have different : other ≠ c := by
      rintro rfl
      exact absurd below (Nat.not_lt.mpr beyond)
    rw [put_blocks, update_of_ne different]
    exact laid.fresh other beyond

section

variable (working : Working m archive inum din ⟨type, bytes⟩) {count : Nat} (positive : 0 < count)
include working positive

/-- The blocks that appending needs are those that the place needs where the file goes on. -/
theorem Working.demand_eq (within : bytes.length % BSIZE + count ≤ BSIZE) :
    m.demand (update m.inodes inum din) inum (bytes.length / BSIZE) + room bytes.length =
      room (bytes.length + count) := by
  have block : leads m.blocks (update m.inodes inum din)
      (inum, slot (bytes.length / BSIZE)) = 0 ↔ bytes.length % BSIZE = 0 := by
    have extent : din.pointer m.blocks (slot (bytes.length / BSIZE)) ≠ 0 ↔
        bytes.length / BSIZE * BSIZE < bytes.length := working.self.extent _
    rw [leads, update_self, ← not_iff_not, ← ne_eq, extent]
    simp only [BSIZE]
    omega
  have table : NDIRECT ≤ bytes.length / BSIZE ∧
      leads m.blocks (update m.inodes inum din) (inum, NDIRECT) = 0 ↔
        bytes.length = NDIRECT * BSIZE := by
    have extent : din.pointer m.blocks NDIRECT ≠ 0 ↔ NDIRECT * BSIZE < bytes.length :=
      working.self.table
    have zero : din.pointer m.blocks NDIRECT = 0 ↔ ¬ NDIRECT * BSIZE < bytes.length := by
      rw [← extent, not_not]
    rw [leads, update_self, zero]
    simp only [BSIZE, NDIRECT]
    omega
  rw [room_add positive within, demand]
  simp only [block, table]
  omega

theorem Working.advance (whole : count ≤ p.length) (within : bytes.length % BSIZE + count ≤ BSIZE)
    (limit : bytes.length + count ≤ MAXFILE * BSIZE) {copy : Dinode}
    (fields : ∃ addrs, copy = { din with addrs }) {x : UInt32}
    (located : Locates m next (update m.inodes inum din)
      (update m.inodes inum copy) inum (bytes.length / BSIZE) x) :
    Working (next.put x (Bytes.move (next.blocks x) (bytes.length % BSIZE) count
      fun index => p.getD index 0)) archive inum copy ⟨type, bytes ++ p.take count⟩ := by
  obtain ⟨data, chosen⟩ : ∃ data, data = Bytes.move (next.blocks x) (bytes.length % BSIZE) count
      fun index => p.getD index 0 := ⟨_, rfl⟩
  rw [← chosen]
  have leading := located.place
  have bounds := located.laid.bounds (by rw [leading]; exact located.set)
  rw [leading] at bounds
  have alone : ∀ place, leads next.blocks (update m.inodes inum copy) place =
      x → place = (inum, slot (bytes.length / BSIZE)) := by
    intro place equal
    exact located.laid.owns.unique _ _ (by rw [equal]; exact located.set) (by rw [equal, leading])
  obtain ⟨laid, places⟩ := located.laid.overwrite located.set bounds.2 data (by
    intro i equal
    exact slot_ne _ (Prod.mk.inj (alone _ equal)).2.symm)
  have near : ∀ c : UInt32, c.toNat < nmeta → (next.put x data).blocks c = m.blocks c := by
    intro c low
    have different : c ≠ x := by
      rintro rfl
      omega
    rw [put_blocks, update_of_ne different, located.near c low]
  have inodes : (next.put x data).inodes = m.inodes := by
    apply inodeTable_of_near geometry
    intro c low
    exact near c (Nat.lt_trans low (by decide))
  have content : ∀ i k, (i, k) ≠ (inum, bytes.length / BSIZE) →
      (update m.inodes inum copy i).block (next.put x data).blocks k =
        (update m.inodes inum din i).block m.blocks k := by
    intro i k different
    rw [← located.data i k]
    show (next.put x data).blocks (leads (next.put x data).blocks _ (i, slot k)) =
      next.blocks (leads next.blocks _ (i, slot k))
    rw [places, put_blocks]
    apply update_of_ne
    intro equal
    obtain ⟨first, second⟩ := Prod.mk.inj (alone _ equal)
    exact different (by rw [first, slot_inj second])
  have pointers : ∀ i p, (i, p) ≠ (inum, slot (bytes.length / BSIZE)) → (i, p) ≠ (inum, NDIRECT) →
      (update m.inodes inum copy i).pointer (next.put x data).blocks p =
        (update m.inodes inum din i).pointer m.blocks p := by
    intro i p notBlock notTable
    have kept := located.others (i, p) notBlock notTable
    rw [← places] at kept
    exact kept
  refine ⟨by rw [inodes]; exact laid, ?_, ?_, ?_, ?_⟩
  · have self : update m.inodes inum copy inum = copy := update_self ..
    have before : update m.inodes inum din inum = din := update_self ..
    have pointing : ∀ p, copy.pointer (next.put x data).blocks p =
        leads next.blocks (update m.inodes inum copy) (inum, p) := by
      intro p
      rw [← places, leads, self]
    have old : (copy.block next.blocks (bytes.length / BSIZE)) =
        din.block m.blocks (bytes.length / BSIZE) := by
      have kept := located.data inum (bytes.length / BSIZE)
      rwa [self, before] at kept
    have read : copy.block next.blocks (bytes.length / BSIZE) = next.blocks x := by
      rw [← leading, leads, self]
      rfl
    apply working.self.append positive whole within limit fields
    · rw [pointing, leading]
      exact located.set
    · intro k different
      have kept := pointers inum (slot k) (fun equal => different (slot_inj (Prod.mk.inj equal).2))
        fun equal => slot_ne k (Prod.mk.inj equal).2
      rwa [self, before] at kept
    · have table := located.table
      rwa [← pointing, leads, before] at table
    · show (next.put x data).blocks (copy.pointer (next.put x data).blocks _) = _
      rw [pointing, leading, put_blocks, update_self, chosen, ← old, read]
    · intro k different
      have kept := content inum k fun equal => different (Prod.mk.inj equal).2
      rwa [self, before] at kept
  · intro i other different present
    have filed := working.others i other different present
    rw [inodes]
    refine filed.congr ⟨_, rfl⟩ ?_ ?_
    · intro p
      have kept := pointers i p (fun equal => different (Prod.mk.inj equal).1)
        fun equal => different (Prod.mk.inj equal).1
      rwa [update_of_ne different, update_of_ne different] at kept
    · intro k
      have kept := content i k fun equal => different (Prod.mk.inj equal).1
      rwa [update_of_ne different, update_of_ne different] at kept
  · intro i free
    rw [inodes]
    exact working.unused i free
  · rw [near 1 (by decide)]
    exact working.super

end

theorem assert_run {condition : Bool} (holds : condition = true) :
    assert condition m = .ok ((), m) := by
  simp [assert, holds]

/-- Bytes have been appended to the file in memory, and the blocks for them taken. -/
structure Appends (m : Mkfs) (archive : Nat → Option Entry) (inum : Nat) (type : Int16)
    (bytes p : List UInt8) (result : Dinode × Nat) (next : Mkfs) : Prop where
  off : result.2 = bytes.length + p.length
  working : Working next archive inum result.1 ⟨type, bytes ++ p⟩
  freeinode : next.freeinode = m.freeinode
  freeblock : next.freeblock + room bytes.length = m.freeblock + room (bytes.length + p.length)

theorem Appends.nil (working : Working m archive inum din ⟨type, bytes⟩) :
    Appends m archive inum type bytes [] (din, bytes.length) m :=
  ⟨rfl, by rw [List.append_nil]; exact working, rfl, rfl⟩

theorem appendLoop_ends (fuel : Nat) (working : Working m archive inum din ⟨type, bytes⟩)
    (enough : p.length ≤ fuel) (limit : bytes.length + p.length ≤ MAXFILE * BSIZE)
    (space : m.freeblock + room (bytes.length + p.length) ≤ FSSIZE + room bytes.length) :
    Ends (Appends m archive inum type bytes p) (fun _ => False)
      (appendLoop fuel din bytes.length p) m := by
  induction fuel generalizing m din bytes p with
  | zero =>
    obtain rfl : p = [] := List.eq_nil_of_length_eq_zero (by omega)
    exact .ret (Appends.nil working)
  | succ fuel ih =>
    rw [appendLoop]
    by_cases done : p = []
    · rw [if_pos done, done]
      exact .ret (Appends.nil working)
    rw [if_neg done]
    have nonempty : 0 < p.length := List.length_pos_iff.mpr done
    obtain ⟨count, chosen⟩ : ∃ count, count =
        min p.length ((bytes.length / BSIZE + 1) * BSIZE - bytes.length) := ⟨_, rfl⟩
    have least : count ≤ p.length := by
      rw [chosen]
      exact Nat.min_le_left _ _
    have within : bytes.length % BSIZE + count ≤ BSIZE := by
      have bound := Nat.min_le_right p.length ((bytes.length / BSIZE + 1) * BSIZE - bytes.length)
      rw [← chosen] at bound
      simp only [BSIZE] at bound ⊢
      omega
    have positive : 0 < count := by
      rw [chosen, Nat.lt_min]
      simp only [BSIZE]
      omega
    have position : bytes.length - bytes.length / BSIZE * BSIZE = bytes.length % BSIZE := by
      simp only [BSIZE]
      omega
    have small : bytes.length / BSIZE < MAXFILE := by
      simp only [MAXFILE, NDIRECT, NINDIRECT, BSIZE] at limit ⊢
      omega
    have demand := working.demand_eq positive within
    have grows := room_mono (show bytes.length + count ≤ bytes.length + p.length by omega)
    have live : (update m.inodes inum din inum).type ≠ 0 := by
      rw [update_self]
      have type := working.self.type_eq
      rw [Dinode.resized] at type
      rw [type]
      exact working.self.live
    have locating := locate_ends working.laid live small (by omega)
    rw [update_self] at locating
    apply Ends.after (assert_run (decide_eq_true small))
    refine locating.seq ?_
    rintro ⟨copy, x⟩ next ⟨fields, located⟩
    simp only [update_idem] at fields located ⊢
    have bounds := located.laid.bounds (by rw [located.place]; exact located.set)
    rw [located.place] at bounds
    have count' := located.freeblock
    apply Ends.after (rsect_run (located.laid.present x (by omega)))
    rw [← chosen, position]
    apply Ends.change
    have advanced := working.advance positive least within (by omega) fields located
    have length : (bytes ++ p.take count).length = bytes.length + count := by
      rw [List.length_append, List.length_take, Nat.min_eq_left least]
    have total : bytes.length + count + (p.drop count).length = bytes.length + p.length := by
      rw [List.length_drop]
      omega
    have rest := ih advanced (p := p.drop count)
      (by rw [List.length_drop]; omega) (by rw [length, total]; exact limit)
      (by rw [length, total, put_freeblock]; omega)
    rw [length] at rest
    refine rest.imp ?_
    rintro result last ⟨offset, works, freeinode, freeblock⟩
    rw [length, total] at offset freeblock
    rw [List.append_assoc, List.take_append_drop] at works
    rw [put_freeblock] at freeblock
    exact ⟨offset, works, freeinode.trans located.freeinode, by omega⟩

end Append

end RtXv6.Mkfs
