import RtXv6.FileSystemRuns
import RtXv6.MkfsImage

/-!
# The kernel on the image of mkfs

The kernel finds on the image what `mkfs` has put there: every file of the host under
its inode, in blocks of its own, with their bits set. The size of the root directory is
rounded up to the next block even if its entries end at the end of one; its last block
then has no address, and the image is one without holes in the other cases only.
-/

namespace RtXv6

open Stateful Ownership

variable {file : HostFile} {i : Nat}

namespace Mkfs

variable {files : List HostFile} {m : Mkfs}

section

variable (finished : Finished files m)
include finished

theorem Finished.disk_sb : m.disk.sb = sb := finished.super

theorem Finished.disk_inodes : m.disk.inodes = m.inodes := by
  unfold Disk.inodes
  rw [finished.disk_sb]
  rfl

theorem Finished.disk_files (i : Nat) : m.disk.files i = (m.inodes i).file m.blocks := by
  unfold Disk.files
  rw [finished.disk_inodes]
  rfl

theorem Finished.freeblock_le (fits : Fits files) : m.freeblock ≤ FSSIZE := by
  rw [finished.freeblock]
  exact fits.blocks

end

theorem inUse_bitmap (blocks : UInt32 → Block) {b : UInt32} (inside : b.toNat < FSSIZE) :
    inUse sb blocks b = Bytes.bit (blocks sb.bmapstart) b.toNat := by
  have block : sb.bblock b = sb.bmapstart := by
    apply UInt32.toNat_inj.mp
    rw [geometry.toNat_bblock inside, Nat.div_eq_of_lt (Nat.lt_trans inside (by decide)),
      Nat.zero_add]
  have position : b.toNat % BPB = b.toNat := Nat.mod_eq_of_lt (Nat.lt_trans inside (by decide))
  rw [inUse, block, position]

theorem Finished.inUse_iff (finished : Finished files m) {b : UInt32} (inside : b.toNat < FSSIZE) :
    inUse sb m.blocks b = decide (b.toNat < m.freeblock) := by
  rw [inUse_bitmap _ inside]
  exact finished.bitmap b.toNat

theorem Finished.root_size (finished : Finished files m) (fits : Fits files) :
    (m.inodes 1).size.toNat = fixSize (16 * (files.length + 2)) := by
  obtain ⟨din, shape, _⟩ := finished.root
  have inodes := fits.inodes
  have small : fixSize (16 * (files.length + 2)) < 4294967296 := by
    simp only [fixSize, BSIZE, NINODES] at inodes ⊢
    omega
  have size : (UInt32.ofNat (fixSize (16 * (files.length + 2)))).toNat =
      fixSize (16 * (files.length + 2)) := UInt32.toNat_ofNat_of_lt' small
  rw [shape]
  exact size

theorem Finished.root_file (finished : Finished files m) (fits : Fits files) :
    ∃ root, m.disk.files 1 = some root ∧ root.type = T_DIR ∧
      root.size = fixSize (16 * (files.length + 2)) ∧
      ∀ k, 16 * k < root.size → root.dirent k = (rootDirents files).getD k Dirent.zero := by
  obtain ⟨din, shape, filed⟩ := finished.root
  have whole := finished.root_size fits
  have live : (m.inodes 1).type ≠ 0 := by
    rw [shape]
    show din.type ≠ 0
    rw [filed.type_eq]
    decide
  have present : (m.inodes 1).file m.blocks = some _ := if_neg live
  refine ⟨_, (finished.disk_files 1).trans present, ?_, ?_, ?_⟩
  · rw [shape]
    exact filed.type_eq
  · exact whole
  · intro k inside
    funext index
    have limit := index.isLt
    show (if 16 * k + index.val < (m.inodes 1).size.toNat then
      (m.inodes 1).byteAt m.blocks (16 * k + index.val) else 0) = _
    have below : 16 * k + index.val < (m.inodes 1).size.toNat := by
      have start : 16 * k < (m.inodes 1).size.toNat := inside
      rw [whole] at start ⊢
      simp only [fixSize, BSIZE] at start ⊢
      omega
    have bytes : (m.inodes 1).byteAt m.blocks (16 * k + index.val) =
        din.byteAt m.blocks (16 * k + index.val) := by
      rw [shape]
      rfl
    rw [if_pos below, bytes, filed.content, getD_listed]

/-- The entries of the root directory name the inodes of the image. -/
theorem rootDirents_inum (fits : Fits files) (k : Nat) :
    ((rootDirents files).getD k Dirent.zero).inum.toNat < NINODES := by
  have inodes := fits.inodes
  rcases k with _ | _ | k
  · show (Dirent.make 1 [46]).inum.toNat < NINODES
    rw [Dirent.inum_make]
    decide
  · show (Dirent.make 1 [46, 46]).inum.toNat < NINODES
    rw [Dirent.inum_make]
    decide
  show ((files.mapIdx fileDirent).getD k Dirent.zero).inum.toNat < NINODES
  rw [List.getD_eq_getElem?_getD, List.getElem?_mapIdx]
  cases present : files[k]? with
  | none =>
    show Dirent.zero.inum.toNat < NINODES
    rw [Dirent.inum_zero]
    decide
  | some file =>
    have limit := (List.getElem?_eq_some_iff.mp present).1
    have small : k + 2 < NINODES := by omega
    show (fileDirent k file).inum.toNat < NINODES
    rw [fileDirent, Dirent.inum_make, UInt16.toNat_ofNat_of_lt' (Nat.lt_trans small (by decide))]
    exact small

theorem rootDirents_file (present : files[i]? = some file) :
    (rootDirents files).getD (i + 2) Dirent.zero = fileDirent i file := by
  simp [rootDirents, List.getD_eq_getElem?_getD, present]

end Mkfs

namespace Fs

variable {s : Fs} {ip : InodeId}

theorem ilock_run (held : 0 < (s.icache ip).ref) (unlocked : (s.icache ip).busy = false)
    (unread : (s.icache ip).valid = false)
    (live : (s.dinode (s.icache ip).dev (s.icache ip).inum).type ≠ 0) :
    ilock ip s = .ok ((), s.withInode ip { s.icache ip with
      toDinode := s.dinode (s.icache ip).dev (s.icache ip).inum, busy := true, valid := true }) := by
  have counted : ¬ (s.icache ip).ref < 1 := by omega
  rw [ilock, get_bind, if_neg counted, unlocked, unread, if_neg Bool.false_ne_true,
    if_neg Bool.false_ne_true, if_neg live]
  rfl

end Fs

theorem map_getD_range (bytes : List UInt8) :
    (List.range bytes.length).map (fun index => bytes.getD index 0) = bytes := by
  apply List.ext_getElem
  · rw [List.length_map, List.length_range]
  intro index _ inside
  rw [List.getElem_map, List.getElem_range, List.getD_eq_getElem?_getD,
    List.getElem?_eq_getElem inside]
  rfl

namespace Mkfs

variable {files : List HostFile} {m : Mkfs} {s : Fs} {ip : InodeId}

variable (finished : Finished files m)
include finished

theorem Finished.dinode_eq (disk : s.disk = m.disk) (super : s.sb = m.disk.sb) {inum : Nat}
    (inside : inum < NINODES) : s.dinode ROOTDEV (UInt32.ofNat inum) = m.inodes inum := by
  have same : m.inodes inum =
      Dinode.read (m.blocks (sb.iblock (UInt32.ofNat inum))) (inum % IPB) := if_pos inside
  rw [Fs.dinode, disk, super, finished.disk_sb, toNat_inum inside, same]
  rfl

theorem Finished.read_back (fits : Fits files) (present : files[i]? = some file)
    (disk : s.disk = m.disk) (super : s.sb = m.disk.sb) (dev : (s.icache ip).dev = ROOTDEV)
    (inum : (s.icache ip).inum = UInt32.ofNat (i + 2)) (held : 0 < (s.icache ip).ref)
    (unlocked : (s.icache ip).busy = false) (unread : (s.icache ip).valid = false) :
    ∃ locked, Fs.ilock ip s = .ok ((), locked) ∧
      (locked.icache ip).size.toNat = file.contents.length ∧
      Fs.readi ip 0 (locked.icache ip).size locked =
        .ok (((locked.icache ip).size.toInt32, file.contents), locked) := by
  have inside : i + 2 < NINODES := by
    have limit := (List.getElem?_eq_some_iff.mp present).1
    have inodes := fits.inodes
    omega
  have filed := finished.file i file present
  have found : s.dinode (s.icache ip).dev (s.icache ip).inum = m.inodes (i + 2) := by
    rw [dev, inum]
    exact finished.dinode_eq disk super inside
  have live : (s.dinode (s.icache ip).dev (s.icache ip).inum).type ≠ 0 := by
    rw [found, filed.type_eq]
    decide
  have ran := Fs.ilock_run held unlocked unread live
  rw [found] at ran
  refine ⟨_, ran, ?_⟩
  obtain ⟨locked, shape⟩ : ∃ locked, locked = s.withInode ip { s.icache ip with
    toDinode := m.inodes (i + 2), busy := true, valid := true } := ⟨_, rfl⟩
  rw [← shape]
  have entry : (locked.icache ip).toDinode = m.inodes (i + 2) := by
    rw [shape, Fs.withInode_self]
  have place : (locked.icache ip).dev = ROOTDEV := by
    rw [shape, Fs.withInode_self]
    exact dev
  have blocks : locked.blocks = m.blocks := by
    rw [shape]
    show s.disk ROOTDEV = m.blocks
    rw [disk]
    rfl
  have size : (locked.icache ip).size.toNat = file.contents.length := by
    rw [entry]
    exact filed.size_eq
  have type : (locked.icache ip).type = T_FILE := by
    rw [entry]
    exact filed.type_eq
  have full : ∀ k, k * BSIZE < (locked.icache ip).size.toNat →
      (locked.icache ip).pointer locked.blocks (slot k) ≠ 0 := by
    intro k below
    rw [size] at below
    rw [entry, blocks]
    exact (filed.extent k).mpr below
  have whole : ¬ (0 : UInt32) + (locked.icache ip).size < 0 := UInt32.not_lt_zero
  have reads := Fs.readi_run_of_full place (by rw [type]; decide) (by rw [type]; decide) full
    (Nat.zero_le _) whole
  have all : locked.readable ip 0 (locked.icache ip).size = (locked.icache ip).size := by
    unfold Fs.readable
    rw [UInt32.zero_add, if_neg (UInt32.lt_irrefl _)]
  have bytes : (List.range (locked.icache ip).size.toNat).map
      (fun index => locked.byteOf ip ((0 : UInt32).toNat + index)) = file.contents := by
    have each : ∀ index, locked.byteOf ip ((0 : UInt32).toNat + index) =
        file.contents.getD index 0 := by
      intro index
      rw [UInt32.toNat_zero, Nat.zero_add]
      show (locked.icache ip).byteAt locked.blocks index = _
      rw [entry, blocks]
      exact filed.content index
    simp only [each]
    rw [size]
    exact map_getD_range file.contents
  rw [all, bytes] at reads
  exact ⟨size, reads⟩

theorem Finished.owned (fits : Fits files) : Owned sb m.blocks (leads m.blocks m.inodes) := by
  have limit := finished.freeblock_le fits
  have start := finished.laid.start
  have first : sb.datastart = nmeta := by decide
  refine ⟨?_, finished.laid.owns.congr ?_ fun _ => rfl⟩
  · intro b low
    rw [first] at low
    rw [finished.inUse_iff (by omega)]
    exact decide_eq_true (by omega)
  · intro b
    unfold Taken
    rw [first]
    constructor
    · rintro ⟨low, inside, used⟩
      rw [finished.inUse_iff inside] at used
      exact ⟨low, of_decide_eq_true used⟩
    · rintro ⟨low, high⟩
      have inside : b.toNat < sb.size.toNat := Nat.lt_of_lt_of_le high limit
      exact ⟨low, inside, by rw [finished.inUse_iff inside]; exact decide_eq_true high⟩

/-- The inodes in use are those of the root directory and of the files. -/
theorem Finished.live_cases (live : (m.inodes i).type ≠ 0) :
    i = 1 ∨ ∃ j file, i = j + 2 ∧ files[j]? = some file := by
  by_cases root : i = 1
  · exact .inl root
  by_cases outside : i = 0 ∨ files.length + 2 ≤ i
  · rw [finished.unused i outside] at live
    exact absurd rfl live
  · have inside : i - 2 < files.length := by omega
    exact .inr ⟨i - 2, files[i - 2], by omega, List.getElem?_eq_getElem inside⟩

/-- The root directory has a hole if its entries end at the end of a block. -/
theorem Finished.root_hole (fits : Fits files) (k : Nat)
    (inside : k * BSIZE < (m.inodes 1).size.toNat) :
    (m.inodes 1).pointer m.blocks (slot k) = 0 ↔
      (files.length + 2) % 32 = 0 ∧ k = (files.length + 2) / 32 := by
  obtain ⟨din, shape, filed⟩ := finished.root
  have extent := filed.extent k
  rw [length_root] at extent
  have same : (m.inodes 1).pointer m.blocks (slot k) = din.pointer m.blocks (slot k) := by
    rw [shape]
    rfl
  rw [finished.root_size fits] at inside
  rw [same, ← not_iff_not, ← ne_eq, extent]
  simp only [fixSize, BSIZE] at inside ⊢
  omega

theorem Finished.image (fits : Fits files) (uneven : (files.length + 2) % 32 ≠ 0) :
    m.disk.Image := by
  refine ⟨by rw [finished.disk_sb]; exact geometry, ?_, ?_, ?_, by rw [finished.disk_sb]; decide⟩
  · rw [finished.disk_sb, finished.disk_inodes]
    exact finished.owned fits
  · rw [finished.disk_inodes]
    intro i k live inside
    rcases finished.live_cases live with root | ⟨j, file, number, present⟩
    · rw [root] at inside ⊢
      intro hole
      exact uneven ((finished.root_hole fits k inside).mp hole).1
    have filed := finished.file j file present
    rw [number] at inside ⊢
    rw [filed.size_eq] at inside
    exact (filed.extent k).mpr inside
  · intro i node k present directory inside
    rw [finished.disk_sb]
    obtain ⟨root, found, _, _, dirents⟩ := finished.root_file fits
    have live : (m.inodes i).type ≠ 0 := by
      intro free
      rw [finished.disk_files, Dinode.file, if_pos free] at present
      cases present
    have type : node.type = (m.inodes i).type := by
      rw [finished.disk_files, Dinode.file, if_neg live] at present
      cases present
      rfl
    rcases finished.live_cases live with first | ⟨j, file, number, listed⟩
    · rw [first, found] at present
      cases present
      rw [FileNode.target, dirents k inside]
      exact rootDirents_inum fits k
    · have filed := finished.file j file listed
      rw [← number] at filed
      rw [type, filed.type_eq] at directory
      exact absurd directory (by decide)

end Mkfs

theorem mkfs_run {files : List HostFile} (fits : Mkfs.Fits files) :
    ∃ m, Mkfs.main files Mkfs.blank = .ok ((), m) ∧ mkfs files = .ok m.disk ∧
      Mkfs.Finished files m := by
  obtain ⟨_, m, ran, finished⟩ := (Mkfs.main_ends fits).exists_run
  refine ⟨m, ran, ?_, finished⟩
  rw [mkfs, ran]
  rfl

/-- For files of the host that fit, `mkfs` builds an image on which the kernel reads every
file back: the root directory names its inode, and `ilock` and `readi` deliver its bytes. The
inodes have different blocks, all of them between the meta blocks and `freeblock`, and the
bitmap has the bits below `freeblock`, so `balloc` returns none of these blocks. -/
theorem mkfs_read_back {files : List HostFile} (fits : Mkfs.Fits files) :
    ∃ m, Mkfs.main files Mkfs.blank = .ok ((), m) ∧
      (∀ i file, files[i]? = some file →
        (∃ root, m.disk.files 1 = some root ∧ root.dirent (i + 2) = Mkfs.fileDirent i file) ∧
        ∀ (s : Fs) (ip : InodeId), s.disk = m.disk → s.sb = m.disk.sb →
          (s.icache ip).dev = ROOTDEV → (s.icache ip).inum = UInt32.ofNat (i + 2) →
          0 < (s.icache ip).ref → (s.icache ip).busy = false → (s.icache ip).valid = false →
          ∃ locked, Fs.ilock ip s = .ok ((), locked) ∧
            (locked.icache ip).size.toNat = file.contents.length ∧
            Fs.readi ip 0 (locked.icache ip).size locked =
              .ok (((locked.icache ip).size.toInt32, file.contents), locked)) ∧
      (∀ i j p q, i ≠ j → leads (m.disk ROOTDEV) m.disk.inodes (i, p) ≠ 0 →
        leads (m.disk ROOTDEV) m.disk.inodes (i, p) ≠ leads (m.disk ROOTDEV) m.disk.inodes (j, q)) ∧
      (∀ place, leads (m.disk ROOTDEV) m.disk.inodes place ≠ 0 →
        Mkfs.nmeta ≤ (leads (m.disk ROOTDEV) m.disk.inodes place).toNat ∧
          (leads (m.disk ROOTDEV) m.disk.inodes place).toNat < m.freeblock) ∧
      (∀ b, Bytes.bit (m.disk ROOTDEV m.disk.sb.bmapstart) b = decide (b < m.freeblock)) ∧
      ∀ (s : Fs) b next, s.sb = m.disk.sb →
        s.disk ROOTDEV s.sb.bmapstart = m.disk ROOTDEV s.sb.bmapstart →
        Fs.balloc ROOTDEV s = .ok (b, next) → m.freeblock ≤ b.toNat := by
  obtain ⟨m, ran, _, finished⟩ := mkfs_run fits
  refine ⟨m, ran, ?_, ?_, ?_, ?_, ?_⟩
  · intro i file present
    constructor
    · obtain ⟨root, found, _, size, dirents⟩ := finished.root_file fits
      have limit := (List.getElem?_eq_some_iff.mp present).1
      refine ⟨root, found, ?_⟩
      rw [dirents (i + 2), Mkfs.rootDirents_file present]
      rw [size]
      simp only [Mkfs.fixSize, BSIZE]
      omega
    · intro s ip disk super dev inum held unlocked unread
      exact finished.read_back fits present disk super dev inum held unlocked unread
  · rw [finished.disk_inodes]
    intro i j p q different set equal
    have same := finished.laid.owns.unique (i, p) (j, q) set equal
    exact different (Prod.mk.inj same).1
  · rw [finished.disk_inodes]
    intro place set
    exact finished.laid.bounds set
  · rw [finished.disk_sb]
    exact finished.bitmap
  · intro s b next super bitmap returned
    have tolerant : Fs.Tolerant fun _ => True := fun _ _ _ => trivial
    have ends : Ends (fun b _ => b.toNat < s.sb.size.toNat ∧ inUse s.sb s.blocks b = false)
        (fun _ => True) (Fs.balloc ROOTDEV) s :=
      Fs.balloc_ends tolerant.scarce fun b _ inside free _ => ⟨inside, free⟩
    obtain ⟨inside, free⟩ := ends.returned returned
    rw [super, finished.disk_sb] at inside free bitmap
    have same : s.blocks Mkfs.sb.bmapstart = m.blocks Mkfs.sb.bmapstart := bitmap
    rw [Mkfs.inUse_bitmap _ inside, same] at free
    have bit := finished.bitmap b.toNat
    by_contra low
    rw [decide_eq_true (Nat.not_le.mp low)] at bit
    exact Bool.false_ne_true (free.symm.trans bit)

/-- A file of three bytes that are read in two pieces. -/
def greeting : HostFile := ⟨[95, 104, 105], [[104, 105], [33]], by decide⟩

theorem greeting_fits : Mkfs.Fits [greeting] := by
  refine ⟨?_, ?_, by decide, by decide⟩
  · intro file member
    rw [List.mem_singleton.mp member]
    decide
  · intro file member
    rw [List.mem_singleton.mp member]
    decide

theorem mkfs_read_back_greeting :
    Mkfs.Fits [greeting] ∧ ∃ m, Mkfs.main [greeting] Mkfs.blank = .ok ((), m) ∧
      ∃ root, m.disk.files 1 = some root ∧ root.dirent 2 = Mkfs.fileDirent 0 greeting := by
  obtain ⟨m, ran, read, _⟩ := mkfs_read_back greeting_fits
  exact ⟨greeting_fits, m, ran, (read 0 greeting rfl).1⟩

variable {s : Fs}

namespace Fs

/-- Directories and files have an address for every block below their size. -/
def NoHoles (s : Fs) : Prop :=
  ∀ i k, (s.inodes i).type = T_DIR ∨ (s.inodes i).type = T_FILE →
    k * BSIZE < (s.inodes i).size.toNat → (s.inodes i).pointer s.blocks (slot k) ≠ 0

/-- Locking an inode and reading it outside of a transaction changes no block and logs none;
it fails for an inode that is free only. -/
def ReadsOnly (s : Fs) : Prop :=
  ∀ ip off n, 0 < (s.icache ip).ref →
    Ends (fun _ next => next.disk = s.disk ∧ next.log = s.log)
      (fun fault => fault = .panic "ilock: no type")
      (do
        ilock ip
        readi ip off n) s

/-- A cached inode that has been read and is not locked is as on disk. -/
def CopiesAgree (s : Fs) : Prop :=
  ∀ ip, 0 < (s.icache ip).ref → (s.icache ip).valid = true → (s.icache ip).busy = false →
    (s.icache ip).toDinode = s.inodes (s.number ip)

/-- Nothing is locked, so an inode can be locked, and then read without a change. -/
theorem Sound.reads_only {refs : InodeId → Int} (sound : Sound s refs []) : ReadsOnly s := by
  intro ip off n held
  have counted : ¬ (s.icache ip).ref < 1 := by omega
  rw [sound.ref] at held
  have named := sound.named ip held
  have unlocked : ¬ (s.icache ip).busy = true := by
    intro busy
    cases (sound.busy ip).mp busy
  have found : s.dinode (s.icache ip).dev (s.icache ip).inum = s.inodes (s.number ip) := by
    rw [named.1]
    exact (inodeTable_num named.2).symm
  have reads : ∀ inode : Inode, inode.dev = (s.icache ip).dev → inode.inum = (s.icache ip).inum →
      inode.toDinode = s.inodes (s.number ip) → inode.type ≠ 0 →
      Ends (fun _ next => next.disk = s.disk ∧ next.log = s.log)
        (fun fault => fault = .panic "ilock: no type") (readi ip off n) (s.withInode ip inode) := by
    intro inode dev inum copy live
    have volume : Volume (s.withInode ip inode) :=
      ⟨sound.volume.geometry, sound.volume.super, sound.volume.owned, sound.volume.full⟩
    have fresh : Fresh (s.withInode ip inode) ip := by
      have entry := withInode_self s ip inode
      refine ⟨by rw [entry, dev]; exact named.1, ?_, by rw [entry]; exact live, ?_⟩
      · rw [Fs.number, entry, inum]
        exact named.2
      · rw [Fs.number, entry, inum]
        exact copy
    refine (readi_ends volume fresh off n).mono ?_ fun _ impossible => absurd impossible id
    rintro _ next rfl
    exact ⟨rfl, rfl⟩
  apply Ends.andThen
  apply Ends.read
  rw [if_neg counted, if_neg unlocked]
  by_cases valid : (s.icache ip).valid = true
  · rw [if_pos valid]
    have coherent := sound.coherent ip held valid
    exact reads _ rfl rfl coherent.1 coherent.2
  rw [if_neg valid]
  by_cases free : (s.dinode (s.icache ip).dev (s.icache ip).inum).type = 0
  · rw [if_pos free]
    exact .fail rfl
  · rw [if_neg free]
    exact reads _ rfl rfl found free

theorem Accounts.reading (accounts : Accounts s 0 []) :
    NoHoles s ∧ ReadsOnly s ∧ CopiesAgree s := by
  have sound := accounts.sound
  refine ⟨?_, ?_, ?_⟩
  · intro i k kind inside
    refine sound.volume.full i k ?_ inside
    rcases kind with directory | file
    · rw [directory]
      decide
    · rw [file]
      decide
  · intro ip off n held
    exact sound.reads_only ip off n held
  · intro ip held valid _
    rw [sound.ref] at held
    exact (sound.coherent ip held valid).1

/-- The root directory in the cache when the first process is there. -/
theorem booted_root (disk : Disk) (devsw : Devsw) (kmem : List Nat) :
    ((booted disk devsw kmem).icache 0).dev = ROOTDEV ∧
      ((booted disk devsw kmem).icache 0).inum = UInt32.ofNat 1 ∧
      ((booted disk devsw kmem).icache 0).ref = 1 ∧
      ((booted disk devsw kmem).icache 0).busy = false ∧
      ((booted disk devsw kmem).icache 0).valid = false :=
  ⟨rfl, rfl, rfl, rfl, rfl⟩

/-- Starting from the image of files that fit, directories and files have no holes in any
reachable state, reads outside of a transaction allocate nothing, and the cached inodes are
as on disk, exactly if the entries of the root directory, with `.` and `..`, do not fill its
last block. -/
theorem mkfs_runs_without_holes {files : List HostFile} (fits : Mkfs.Fits files) {disk : Disk}
    (built : mkfs files = .ok disk) :
    (∀ devsw s, Reachable disk devsw s → NoHoles s ∧ ReadsOnly s ∧ CopiesAgree s) ↔
      (files.length + 2) % 32 ≠ 0 := by
  obtain ⟨m, _, made, finished⟩ := mkfs_run fits
  obtain rfl : m.disk = disk := Except.ok.inj (made.symm.trans built)
  constructor
  · intro holds even
    have reached := booted_reachable m.disk noDevices
    have inodes : (booted m.disk noDevices []).inodes = m.inodes := finished.disk_inodes
    have full := (holds noDevices _ reached).1 1 ((files.length + 2) / 32)
    rw [inodes] at full
    obtain ⟨din, shape, filed⟩ := finished.root
    have type : (m.inodes 1).type = T_DIR := by
      rw [shape]
      exact filed.type_eq
    have inside : (files.length + 2) / 32 * BSIZE < (m.inodes 1).size.toNat := by
      rw [finished.root_size fits]
      simp only [Mkfs.fixSize, BSIZE]
      omega
    exact full (.inl type) inside ((finished.root_hole fits _ inside).mpr ⟨even, rfl⟩)
  · intro uneven devsw s reachable
    exact (Run.accounts_anchored (finished.image fits uneven) reachable).1.reading

theorem mkfs_runs_without_holes_greeting :
    Mkfs.Fits [greeting] ∧ ∃ disk, mkfs [greeting] = .ok disk ∧
      Reachable disk noDevices (booted disk noDevices []) ∧ NoHoles (booted disk noDevices []) := by
  obtain ⟨m, _, built, _⟩ := mkfs_run greeting_fits
  have reached := booted_reachable m.disk noDevices
  exact ⟨greeting_fits, m.disk, built, reached,
    ((mkfs_runs_without_holes greeting_fits built).mpr (by decide) _ _ reached).1⟩

theorem balloc_outside (blank : s.log.lh = []) (outside : s.log.outstanding < 1)
    (log : 1 < s.sb.nlog.toInt32.toInt)
    (free : ∃ b, b < s.sb.size.toNat ∧ s.used ROOTDEV (UInt32.ofNat b) = false) :
    balloc ROOTDEV s = .error (.panic "log_write outside of trans") := by
  obtain ⟨c, inside, unused⟩ := free
  have some : ((List.range s.sb.size.toNat).find?
      (fun b => !s.used ROOTDEV (UInt32.ofNat b))).isSome = true := by
    rw [List.find?_isSome]
    exact ⟨c, List.mem_range.mpr inside, by rw [unused]; rfl⟩
  obtain ⟨b, found⟩ := Option.isSome_iff_exists.mp some
  have room : ¬ (s.log.lh.length ≥ LOGSIZE ∨
      (s.log.lh.length : Int) ≥ s.sb.nlog.toInt32.toInt - 1) := by
    rw [blank]
    simp only [List.length_nil]
    have size : ¬ (0 : Nat) ≥ LOGSIZE := by decide
    omega
  have panics : ∀ b data, logWrite ROOTDEV b data s =
      .error (.panic "log_write outside of trans") := by
    intro b data
    rw [logWrite, get_bind, if_neg room, if_pos outside]
    rfl
  rw [balloc, get_bind, found]
  exact bind_error (panics _ _)

/-- Reading the second block of a file of two blocks, which has no address for it. -/
theorem readi_hole {ip : InodeId} {fault : FsFault} (dev : (s.icache ip).dev = ROOTDEV)
    (live : (s.icache ip).type ≠ 0) (file : (s.icache ip).type ≠ T_DEV)
    (size : (s.icache ip).size = 1024) (hole : (s.icache ip).pointer s.blocks (slot 1) = 0)
    (fails : balloc ROOTDEV s = .error fault) : readi ip 512 16 s = .error fault := by
  have empty : (s.icache ip).addrs 1 = 0 := (pointer_addr live 1).symm.trans hole
  have good : ¬ ((1024 : UInt32) < 512 ∨ (512 : UInt32) + 16 < 512) := by decide
  have short : ¬ (1024 : UInt32) < 512 + 16 := by decide
  have mapping : bmap ip 1 s = .error fault := by
    unfold bmap
    rw [dif_pos (by decide)]
    show address ip 1 s = _
    rw [address, get_bind, if_pos empty, dev]
    exact bind_error fails
  have looping : readLoop ip 16 512 16 s = .error fault := by
    rw [readLoop, if_neg (by decide)]
    exact bind_error mapping
  rw [readi, get_bind, if_neg file, size, if_neg good, if_neg short]
  exact bind_error looping

/-- Thirty empty files. -/
def thirty : List HostFile :=
  (List.range 30).map fun i => ⟨[UInt8.ofNat (97 + i)], [], by simp⟩

theorem thirty_fits : Mkfs.Fits thirty := by
  refine ⟨?_, ?_, by decide, by decide⟩
  · intro file member
    obtain ⟨i, inside, rfl⟩ := List.mem_map.mp member
    have each : ∀ i < 30, (47 : UInt8) ∉ [UInt8.ofNat (97 + i)] := by decide
    exact each i (List.mem_range.mp inside)
  · intro file member
    obtain ⟨i, _, rfl⟩ := List.mem_map.mp member
    exact Nat.zero_le _

/-- The root directory of thirty files has 32 entries, which fill one block, and a size of two
blocks. Reading its second block outside of a transaction panics. -/
theorem root_directory_hole :
    Mkfs.Fits thirty ∧ ∃ disk, mkfs thirty = .ok disk ∧
      Reachable disk noDevices (booted disk noDevices []) ∧
      ((booted disk noDevices []).inodes 1).type = T_DIR ∧
      ((booted disk noDevices []).inodes 1).size = 1024 ∧
      ((booted disk noDevices []).inodes 1).pointer (booted disk noDevices []).blocks (slot 1) = 0 ∧
      (do
        ilock 0
        readi 0 512 16) (booted disk noDevices []) =
        .error (.panic "log_write outside of trans") := by
  obtain ⟨m, _, built, finished⟩ := mkfs_run thirty_fits
  have inodes : (booted m.disk noDevices []).inodes = m.inodes := finished.disk_inodes
  have blocks : (booted m.disk noDevices []).blocks = m.blocks := rfl
  obtain ⟨din, shape, filed⟩ := finished.root
  have type : (m.inodes 1).type = T_DIR := by
    rw [shape]
    exact filed.type_eq
  have size : (m.inodes 1).size = 1024 := by
    rw [shape]
    rfl
  have inside : 1 * BSIZE < (m.inodes 1).size.toNat := by
    rw [size]
    decide
  have hole : (m.inodes 1).pointer m.blocks (slot 1) = 0 :=
    (finished.root_hole thirty_fits 1 inside).mpr ⟨by decide, by decide⟩
  refine ⟨thirty_fits, m.disk, built, booted_reachable .., ?_, ?_, ?_, ?_⟩
  · rw [inodes, type]
  · rw [inodes, size]
  · rw [inodes, blocks, hole]
  · obtain ⟨dev, inum, ref, unlocked, unread⟩ := booted_root m.disk noDevices []
    have found : (booted m.disk noDevices []).dinode
        ((booted m.disk noDevices []).icache 0).dev ((booted m.disk noDevices []).icache 0).inum =
        m.inodes 1 := by
      rw [dev, inum]
      exact finished.dinode_eq rfl rfl (by decide)
    have locking := ilock_run (by rw [ref]; decide) unlocked unread (by rw [found, type]; decide)
    rw [found] at locking
    rw [bind_run locking]
    have entry := withInode_self (booted m.disk noDevices []) 0
      { (booted m.disk noDevices []).icache 0 with
        toDinode := m.inodes 1, busy := true, valid := true }
    have live : (m.inodes 1).type ≠ 0 := by
      rw [type]
      decide
    have super : (booted m.disk noDevices []).sb = Mkfs.sb := finished.disk_sb
    have limit := finished.freeblock
    have last : Mkfs.need thirty ≤ 999 := by decide
    have unused : inUse Mkfs.sb m.blocks 999 = false := by
      rw [finished.inUse_iff (by decide)]
      exact decide_eq_false (by rw [limit]; exact Nat.not_lt.mpr last)
    have file : (m.inodes 1).type ≠ T_DEV := by
      rw [type]
      decide
    refine readi_hole (by rw [entry]; exact dev) (by rw [entry]; exact live)
      (by rw [entry]; exact file) (by rw [entry]; exact size) (by rw [entry]; exact hole)
      (balloc_outside rfl (show (0 : Int) < 1 by decide) ?_ ?_)
    · show 1 < (booted m.disk noDevices []).sb.nlog.toInt32.toInt
      rw [super]
      decide
    refine ⟨999, ?_, ?_⟩
    · show 999 < (booted m.disk noDevices []).sb.size.toNat
      rw [super]
      decide
    · show inUse (booted m.disk noDevices []).sb m.blocks 999 = false
      rw [super]
      exact unused

end Fs

end RtXv6
