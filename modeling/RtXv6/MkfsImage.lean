import RtXv6.MkfsLayout

/-!
# The files of the image

Between the calls of `iappend` and `ialloc`, the image holds an archive: inodes with
their types and bytes. `ialloc` adds an empty file, and `iappend` appends bytes to one.
For the files of the host, `main` builds the archive with the root directory and one
inode for every file, in order, and takes the blocks that they need.
-/

namespace RtXv6.Mkfs

open Function (update update_self update_of_ne update_idem update_eq_self update_comm)
open Stateful Ownership
open List (length_append length_nil length_ofFn length_singleton nil_append)

/-- The inodes of the image hold the files of an archive. -/
structure Built (m : Mkfs) (archive : Nat → Option Entry) : Prop where
  laid : Laid m m.inodes
  filed : ∀ i entry, archive i = some entry → Filed m.blocks (m.inodes i) entry.type entry.bytes
  unused : ∀ i, archive i = none → m.inodes i = Dinode.zero
  inside : ∀ i entry, archive i = some entry → i < NINODES
  super : Superblock.read (m.blocks 1) = sb

section

variable {m next : Mkfs} {inodes : Nat → Dinode} {archive : Nat → Option Entry} {inum : Nat}
  {din : Dinode} {type : Int16} {bytes p : List UInt8} {entry : Entry}

theorem toNat_inum (inside : inum < NINODES) : (UInt32.ofNat inum).toNat = inum :=
  UInt32.toNat_ofNat_of_lt' (Nat.lt_trans inside (by decide))

theorem inum_inside (inside : inum < NINODES) : (UInt32.ofNat inum).toNat < sb.ninodes.toNat := by
  rw [toNat_inum inside]
  exact inside

theorem iblock_meta (inside : inum < NINODES) :
    2 ≤ (sb.iblock (UInt32.ofNat inum)).toNat ∧
      (sb.iblock (UInt32.ofNat inum)).toNat < nmeta ∧
      sb.iblock (UInt32.ofNat inum) ≠ sb.bmapstart := by
  obtain ⟨low, high⟩ := geometry.iblock_bounds (inum_inside inside)
  have bitmap : sb.bmapstart.toNat < nmeta := by decide
  refine ⟨low, by omega, ?_⟩
  intro same
  rw [same] at high
  exact Nat.lt_irrefl _ high

/-- The state after `winode`. -/
def stored (m : Mkfs) (inum : Nat) (din : Dinode) : Mkfs :=
  m.put (sb.iblock (UInt32.ofNat inum))
    (din.write (m.blocks (sb.iblock (UInt32.ofNat inum))) (inum % IPB))

theorem rinode_run (laid : Laid m inodes) (inside : inum < NINODES) :
    rinode inum m = .ok (m.inodes inum, m) := by
  have low := (iblock_meta inside).2.1
  have present := laid.present (sb.iblock (UInt32.ofNat inum)) (Nat.lt_trans low (by decide))
  have same : m.inodes inum =
      Dinode.read (m.blocks (sb.iblock (UInt32.ofNat inum))) (inum % IPB) := if_pos inside
  rw [rinode, bind_run (rsect_run present), same]
  rfl

theorem winode_run (laid : Laid m inodes) (inside : inum < NINODES) (din : Dinode) :
    winode inum din m = .ok ((), m.stored inum din) := by
  have low := (iblock_meta inside).2.1
  have present := laid.present (sb.iblock (UInt32.ofNat inum)) (Nat.lt_trans low (by decide))
  rw [winode, bind_run (rsect_run present)]
  rfl

theorem stored_inodes (m : Mkfs) (inside : inum < NINODES) (din : Dinode) :
    (m.stored inum din).inodes = update m.inodes inum din := by
  have written : inodeTable sb (update m.blocks (sb.iblock (UInt32.ofNat inum))
      (din.write (m.blocks (sb.iblock (UInt32.ofNat inum))) ((UInt32.ofNat inum).toNat % IPB))) =
      update (inodeTable sb m.blocks) (UInt32.ofNat inum).toNat din :=
    inodeTable_write geometry (inum_inside inside) din
  rw [toNat_inum inside] at written
  unfold Mkfs.inodes stored
  rw [put_blocks]
  exact written

/-- A meta block is overwritten: the places and the blocks of files stay. -/
theorem Laid.put_meta (laid : Laid m inodes) {c : UInt32} (low : 1 ≤ c.toNat)
    (high : c.toNat < nmeta) (data : Block) :
    Laid (m.put c data) inodes ∧ leads (m.put c data).blocks inodes = leads m.blocks inodes ∧
      ∀ i k, (inodes i).block (m.put c data).blocks k = (inodes i).block m.blocks k := by
  have start := laid.start
  have nonzero : c ≠ 0 := by
    rintro rfl
    rw [UInt32.toNat_zero] at low
    omega
  have apart : ∀ place, leads m.blocks inodes place ≠ c := by
    rintro place rfl
    have bounds := laid.bounds nonzero
    omega
  obtain ⟨kept, places⟩ := laid.overwrite nonzero (by omega) data fun i => apart (i, NDIRECT)
  refine ⟨kept, places, ?_⟩
  intro i k
  show (m.put c data).blocks (leads (m.put c data).blocks inodes (i, slot k)) =
    m.blocks (leads m.blocks inodes (i, slot k))
  rw [places, put_blocks, update_of_ne (apart (i, slot k))]

theorem Working.store (working : Working m archive inum din entry) (inside : inum < NINODES)
    (within : ∀ i other, archive i = some other → i < NINODES) :
    Built (m.stored inum (din.resized (UInt32.ofNat entry.bytes.length)))
      (update archive inum (some entry)) := by
  obtain ⟨copy, chosen⟩ : ∃ copy, copy = din.resized (UInt32.ofNat entry.bytes.length) := ⟨_, rfl⟩
  have self := working.self
  rw [← chosen] at self ⊢
  obtain ⟨low, high, _⟩ := iblock_meta inside
  have inodes := stored_inodes m inside copy
  have laid : Laid m (update m.inodes inum copy) := by
    rw [chosen]
    exact working.laid.congr (leads_resize ..)
  obtain ⟨kept, same, content⟩ := laid.put_meta (c := sb.iblock (UInt32.ofNat inum))
    (Nat.le_of_succ_le low) high
    (copy.write (m.blocks (sb.iblock (UInt32.ofNat inum))) (inum % IPB))
  have filed : ∀ i (other : Entry), Filed m.blocks (update m.inodes inum copy i) other.type
      other.bytes → Filed (m.stored inum copy).blocks (update m.inodes inum copy i)
        other.type other.bytes := by
    intro i other before
    exact before.congr ⟨_, rfl⟩ (fun p => congrFun same (i, p)) fun k => content i k
  refine ⟨by rw [inodes]; exact kept, ?_, ?_, ?_, ?_⟩
  · intro i other present
    rw [inodes]
    apply filed
    by_cases here : i = inum
    · rw [here, update_self] at present ⊢
      cases present
      exact self
    · rw [update_of_ne here] at present ⊢
      exact working.others i other here present
  · intro i free
    have different : i ≠ inum := by
      rintro rfl
      rw [update_self] at free
      cases free
    rw [inodes, update_of_ne different]
    rw [update_of_ne different] at free
    exact working.unused i free
  · intro i other present
    by_cases here : i = inum
    · rw [here]
      exact inside
    · rw [update_of_ne here] at present
      exact within i other present
  · have apart : (1 : UInt32) ≠ sb.iblock (UInt32.ofNat inum) := by
      intro same
      rw [← same] at low
      exact absurd low (by decide)
    rw [stored, put_blocks, update_of_ne apart]
    exact working.super

theorem Built.working (built : Built m archive) (present : archive inum = some entry) :
    Working m archive inum (m.inodes inum) entry := by
  have filed := built.filed inum entry present
  refine ⟨?_, ?_, fun i other _ here => built.filed i other here, built.unused, built.super⟩
  · rw [update_eq_self]
    exact built.laid
  · obtain ⟨addrs, shape⟩ := filed.fields
    have same : (m.inodes inum).resized (UInt32.ofNat entry.bytes.length) = m.inodes inum := by
      rw [shape]
      rfl
    rw [same]
    exact filed

/-- Blocks have been taken for a file that has grown. -/
structure Grown (m next : Mkfs) (size count : Nat) : Prop where
  freeinode : next.freeinode = m.freeinode
  freeblock : next.freeblock + room size = m.freeblock + room (size + count)

theorem iappend_ends (built : Built m archive) (present : archive inum = some ⟨type, bytes⟩)
    (limit : bytes.length + p.length ≤ MAXFILE * BSIZE)
    (space : m.freeblock + room (bytes.length + p.length) ≤ FSSIZE + room bytes.length) :
    Ends (fun _ next => Built next (update archive inum (some ⟨type, bytes ++ p⟩)) ∧
        Grown m next bytes.length p.length) (fun _ => False) (iappend inum p) m := by
  have inside := built.inside inum _ present
  have size := (built.filed inum _ present).size_eq
  have looping := appendLoop_ends p.length (built.working present) (Nat.le_refl _) limit space
  apply Ends.after (rinode_run built.laid inside)
  rw [size]
  refine looping.seq ?_
  rintro ⟨copy, off⟩ middle ⟨offset, working, freeinode, freeblock⟩
  have length : (bytes ++ p).length = off := by
    rw [length_append]
    exact offset.symm
  have stores := working.store inside built.inside
  rw [length] at stores
  exact Ends.of_run (winode_run working.laid inside _) ⟨stores, freeinode, freeblock⟩

theorem appendAll_ends (reads : List (List UInt8)) (built : Built m archive)
    (present : archive inum = some ⟨type, bytes⟩)
    (limit : bytes.length + reads.flatten.length ≤ MAXFILE * BSIZE)
    (space : m.freeblock + room (bytes.length + reads.flatten.length) ≤ FSSIZE + room bytes.length) :
    Ends (fun _ next =>
        Built next (update archive inum (some ⟨type, bytes ++ reads.flatten⟩)) ∧
        Grown m next bytes.length reads.flatten.length)
      (fun _ => False) (reads.forM (iappend inum)) m := by
  induction reads generalizing m archive bytes with
  | nil =>
    refine .ret ⟨?_, rfl, rfl⟩
    rw [List.flatten_nil, List.append_nil, ← present, update_eq_self]
    exact built
  | cons first rest ih =>
    rw [List.flatten_cons, length_append] at limit space
    have part := room_mono
      (show bytes.length + first.length ≤ bytes.length + (first.length + rest.flatten.length) by
        omega)
    have sequence : Ends (fun _ next => Built next (update archive inum
          (some ⟨type, bytes ++ (first :: rest).flatten⟩)) ∧
        Grown m next bytes.length (first :: rest).flatten.length)
        (fun _ => False) (iappend inum first >>= fun _ => rest.forM (iappend inum)) m := by
      refine (iappend_ends built present (by omega) (by omega)).seq ?_
      rintro _ middle ⟨appended, grown⟩
      have freeblock := grown.freeblock
      have total : (bytes ++ first).length + rest.flatten.length =
          bytes.length + (first.length + rest.flatten.length) := by
        rw [length_append]
        omega
      have length : (bytes ++ first).length = bytes.length + first.length := length_append ..
      refine (ih appended (update_self ..) (by rw [total]; exact limit)
        (by rw [total, length]; omega)).imp ?_
      rintro _ next ⟨done, later⟩
      rw [update_idem, List.append_assoc] at done
      have after := later.freeblock
      rw [total, length] at after
      refine ⟨done, later.freeinode.trans grown.freeinode, ?_⟩
      rw [List.flatten_cons, length_append]
      omega
    exact sequence

theorem pointer_blank (blocks : UInt32 → Block) (none : ∀ index, din.addrs index = 0) (q : Nat) :
    din.pointer blocks q = 0 := by
  unfold Dinode.pointer
  simp only [none, true_or, if_true]
  split
  · rfl
  · split <;> rfl

theorem ialloc_ends (built : Built m archive) (free : archive m.freeinode = none)
    (inside : m.freeinode < NINODES) (live : type ≠ 0) :
    Ends (fun inum next => inum = m.freeinode ∧
        Built next (update archive m.freeinode (some ⟨type, []⟩)) ∧
        next.freeinode = m.freeinode + 1 ∧ next.freeblock = m.freeblock)
      (fun _ => False) (ialloc type) m := by
  obtain ⟨node, chosen⟩ : ∃ node : Dinode, node = { Dinode.zero with type, nlink := 1 } := ⟨_, rfl⟩
  have blank : ∀ q, node.pointer m.blocks q = 0 := by
    rw [chosen]
    exact pointer_blank m.blocks fun _ => rfl
  have places : leads m.blocks (update m.inodes m.freeinode node) =
      leads m.blocks m.inodes := by
    funext place
    rw [leads_update_inode]
    by_cases here : place.1 = m.freeinode
    · rw [if_pos here, blank, leads, here, built.unused _ free, pointer_free rfl]
    · rw [if_neg here]
  have working : Working { m with freeinode := m.freeinode + 1 } archive m.freeinode node
      ⟨type, []⟩ := by
    have laid := built.laid.congr places
    refine ⟨⟨laid.present, laid.boot, laid.start, laid.owns, laid.fresh⟩, ?_,
      fun i other _ here => built.filed i other here, built.unused, built.super⟩
    · refine ⟨⟨fun _ => 0, by rw [chosen]; rfl⟩, live, Nat.zero_le _, ?_, ?_, ?_⟩
      · intro k
        refine ⟨fun set => absurd (blank _) set, fun inside => absurd inside (Nat.not_lt_zero _)⟩
      · exact ⟨fun set => absurd (blank _) set, fun inside => absurd inside (Nat.not_lt_zero _)⟩
      · intro pos
        have missing : node.block m.blocks (pos / BSIZE) = zeroes := by
          rw [Dinode.block, blank, laid.boot]
        show Bytes.byte (node.block m.blocks (pos / BSIZE)) _ = _
        rw [missing, Bytes.byte]
        split <;> rfl
  have stores := working.store inside built.inside
  have same : node.resized (UInt32.ofNat ([] : List UInt8).length) = node := by
    rw [chosen]
    rfl
  rw [same] at stores
  have run : winode m.freeinode node { m with freeinode := m.freeinode + 1 } =
      .ok ((), stored { m with freeinode := m.freeinode + 1 } m.freeinode node) :=
    winode_run working.laid inside node
  rw [chosen] at run stores
  apply Ends.read
  apply Ends.after (set_run _ m)
  apply Ends.after run
  exact .ret ⟨rfl, stores, rfl, rfl⟩

end

/-- The bytes of a directory. -/
def listed (entries : List Dirent) : List UInt8 := entries.flatMap List.ofFn

theorem listed_append (entries more : List Dirent) :
    listed (entries ++ more) = listed entries ++ listed more :=
  List.flatMap_append

theorem length_listed (entries : List Dirent) : (listed entries).length = 16 * entries.length := by
  induction entries with
  | nil => rfl
  | cons first rest ih =>
    rw [listed, List.flatMap_cons, length_append, length_ofFn, List.length_cons]
    rw [listed] at ih
    omega

theorem getD_listed (entries : List Dirent) (k : Nat) (index : Fin 16) :
    (listed entries).getD (16 * k + index) 0 = (entries.getD k Dirent.zero) index := by
  induction entries generalizing k with
  | nil => rfl
  | cons first rest ih =>
    have inside := index.isLt
    have length : (List.ofFn first).length = 16 := length_ofFn
    show ((List.ofFn first) ++ listed rest).getD (16 * k + index) 0 = _
    rw [List.getD_eq_getElem?_getD]
    cases k with
    | zero =>
      rw [List.getElem?_append_left (by omega), List.getElem?_ofFn, dif_pos (by omega)]
      simp
    | succ k =>
      have later : 16 * (k + 1) + index.val - (List.ofFn first).length = 16 * k + index := by
        omega
      rw [List.getElem?_append_right (by omega), later, ← List.getD_eq_getElem?_getD]
      exact ih k

/-- The entry of a file, which has its inode behind those of the files before it. -/
def fileDirent (index : Nat) (file : HostFile) : Dirent :=
  Dirent.make (UInt16.ofNat (index + 2)) (strip file.name)

/-- The entries of the root directory. -/
def rootDirents (files : List HostFile) : List Dirent :=
  Dirent.make 1 [46] :: Dirent.make 1 [46, 46] :: files.mapIdx fileDirent

/-- The root directory and the files, with their inodes in order. -/
def archive (files : List HostFile) (i : Nat) : Option Entry :=
  if i = 0 then none
  else if i = 1 then some ⟨T_DIR, listed (rootDirents files)⟩
  else files[i - 2]?.map fun file => ⟨T_FILE, file.contents⟩

/-- The blocks of an image, up to the first free one. -/
def need (files : List HostFile) : Nat :=
  nmeta + room (16 * (files.length + 2)) + (files.map fun file => room file.contents.length).sum

/-- The files of the host fit into an image: names without `/`, contents that an inode can
hold, an inode for each file and for the root directory, and enough blocks. -/
structure Fits (files : List HostFile) : Prop where
  names : ∀ file ∈ files, 47 ∉ file.name
  sizes : ∀ file ∈ files, file.contents.length ≤ MAXFILE * BSIZE
  inodes : files.length + 1 < NINODES
  blocks : need files ≤ FSSIZE

section

variable (files : List HostFile)

theorem length_rootDirents : (rootDirents files).length = files.length + 2 := by
  simp [rootDirents]

theorem rootDirents_snoc (file : HostFile) :
    rootDirents (files ++ [file]) = rootDirents files ++ [fileDirent files.length file] := by
  simp [rootDirents, List.mapIdx_concat]

theorem length_root : (listed (rootDirents files)).length = 16 * (files.length + 2) := by
  rw [length_listed, length_rootDirents]

theorem archive_snoc (file : HostFile) :
    archive (files ++ [file]) =
      update (update (archive files) 1
          (some ⟨T_DIR, listed (rootDirents files) ++ listed [fileDirent files.length file]⟩))
        (files.length + 2) (some ⟨T_FILE, file.contents⟩) := by
  funext i
  by_cases new : i = files.length + 2
  · rw [new, update_self]
    simp [archive]
  rw [update_of_ne new]
  by_cases root : i = 1
  · rw [root, update_self, ← listed_append, ← rootDirents_snoc]
    rfl
  rw [update_of_ne root]
  unfold archive
  by_cases zero : i = 0
  · rw [if_pos zero, if_pos zero]
  rw [if_neg zero, if_neg zero, if_neg root, if_neg root]
  by_cases before : i - 2 < files.length
  · rw [List.getElem?_append_left before]
  have length : (files ++ [file]).length = files.length + 1 := by
    rw [length_append, length_singleton]
  rw [List.getElem?_eq_none (by omega), List.getElem?_eq_none (by omega)]

theorem archive_root : archive files 1 = some ⟨T_DIR, listed (rootDirents files)⟩ := rfl

end

variable {files : List HostFile}

theorem archive_none {i : Nat} (beyond : files.length + 2 ≤ i) : archive files i = none := by
  unfold archive
  rw [if_neg (by omega), if_neg (by omega), List.getElem?_eq_none (by omega)]
  rfl

theorem archive_file {i : Nat} {file : HostFile} (listed : files[i]? = some file) :
    archive files (i + 2) = some ⟨T_FILE, file.contents⟩ := by
  unfold archive
  rw [if_neg (by omega), if_neg (by omega), Nat.add_sub_cancel, listed]
  rfl

theorem need_snoc (files : List HostFile) (file : HostFile) :
    need (files ++ [file]) + room (16 * (files.length + 2)) =
      need files + room (16 * (files.length + 2) + 16) + room file.contents.length := by
  have size : 16 * ((files ++ [file]).length + 2) = 16 * (files.length + 2) + 16 := by
    rw [length_append, length_singleton]
    omega
  unfold need
  rw [size, List.map_append, List.sum_append, List.map_singleton, List.sum_singleton]
  omega

theorem need_le (files more : List HostFile) : need files ≤ need (files ++ more) := by
  have grows := room_mono
    (show 16 * (files.length + 2) ≤ 16 * ((files ++ more).length + 2) by
      rw [length_append]
      omega)
  unfold need
  rw [List.map_append, List.sum_append]
  omega

/-- The image of the first files. -/
structure Stage (files : List HostFile) (m : Mkfs) : Prop where
  built : Built m (archive files)
  freeinode : m.freeinode = files.length + 2
  freeblock : m.freeblock = need files

variable {m : Mkfs}

theorem addFile_ends {file : HostFile} (stage : Stage files m) (fits : Fits (files ++ [file])) :
    Ends (fun _ next => Stage (files ++ [file]) next) (fun _ => False) (addFile 1 file) m := by
  have member : file ∈ files ++ [file] := List.mem_append_right _ List.mem_cons_self
  have count : files.length + 2 < NINODES := by
    have inodes := fits.inodes
    rw [length_append, length_singleton] at inodes
    exact inodes
  have blocks := fits.blocks
  have sizes := fits.sizes file member
  have needs := need_snoc files file
  have freeblock := stage.freeblock
  have fresh : archive files m.freeinode = none := by
    rw [stage.freeinode]
    exact archive_none (Nat.le_refl _)
  apply Ends.after (assert_run (decide_eq_true (fits.names file member)))
  refine (ialloc_ends stage.built fresh (by rw [stage.freeinode]; exact count)
    (show T_FILE ≠ 0 by decide)).seq ?_
  rintro inum first ⟨number, planted, freeinode, sameBlock⟩
  rw [stage.freeinode] at number planted freeinode
  subst number
  have root : update (archive files) (files.length + 2) (some ⟨T_FILE, []⟩) 1 =
      some ⟨T_DIR, listed (rootDirents files)⟩ := by
    rw [update_of_ne (by omega)]
    rfl
  have entry : listed [fileDirent files.length file] =
      List.ofFn (fileDirent files.length file) := by
    simp [listed]
  have one : (listed [fileDirent files.length file]).length = 16 := length_listed _
  have linking := iappend_ends planted root
    (show (listed (rootDirents files)).length + (listed [fileDirent files.length file]).length ≤
      MAXFILE * BSIZE by
      rw [length_root, one]
      simp only [NINODES] at count
      simp only [MAXFILE, NDIRECT, NINDIRECT, BSIZE]
      omega)
    (by rw [length_root, one]; omega)
  rw [length_root, one, entry] at linking
  refine linking.seq ?_
  rintro _ second ⟨linked, grown⟩
  have taken := grown.freeblock
  have none : room 0 = 0 := by decide
  have appending := appendAll_ends file.reads linked
    (show update (update (archive files) (files.length + 2)
        (some ⟨T_FILE, []⟩)) 1 _ (files.length + 2) = some ⟨T_FILE, []⟩ by
      rw [update_of_ne (by omega), update_self])
    (by rw [length_nil, Nat.zero_add]; exact sizes)
    (by
      rw [length_nil, Nat.zero_add, none]
      show second.freeblock + room file.contents.length ≤ FSSIZE
      omega)
  refine appending.imp ?_
  rintro _ next ⟨built, filled⟩
  have used := filled.freeblock
  rw [length_nil, Nat.zero_add, none] at used
  have total : next.freeblock + 0 = second.freeblock + room file.contents.length := used
  refine ⟨?_, ?_, by omega⟩
  · rw [update_comm (by omega), update_idem] at built
    rw [archive_snoc, entry, update_comm (by omega)]
    exact built
  · rw [filled.freeinode, grown.freeinode, freeinode, length_append, length_singleton]

theorem Fits.front {more : List HostFile} (fits : Fits (files ++ more)) : Fits files := by
  have inodes := fits.inodes
  rw [length_append] at inodes
  exact ⟨fun file member => fits.names file (List.mem_append_left _ member),
    fun file member => fits.sizes file (List.mem_append_left _ member), by omega,
    Nat.le_trans (need_le files more) fits.blocks⟩

theorem addFiles_ends (stage : Stage [] m) (fits : Fits files) :
    Ends (fun _ next => Stage files next) (fun _ => False) (files.forM (addFile 1)) m := by
  refine (Ends.loop (fun rest next => ∃ front, front ++ rest = files ∧ Stage front next)
    ⟨[], rfl, stage⟩ ?_).imp ?_
  · rintro file rest s ⟨front, whole, staged⟩
    have split : front ++ [file] ++ rest = files := by
      rw [List.append_assoc]
      exact whole
    have part : Fits (front ++ [file]) := by
      rw [← split] at fits
      exact fits.front
    exact (addFile_ends staged part).imp fun _ next done => ⟨front ++ [file], split, done⟩
  · rintro _ next ⟨front, whole, staged⟩
    rw [List.append_nil] at whole
    rw [← whole]
    exact staged

theorem read_zeroes (position : Nat) : Dinode.read zeroes position = Dinode.zero := by
  have shorts : ∀ offset, short zeroes offset = 0 := by
    intro offset
    unfold short zeroes
    rw [Bytes.load_zero]
    rfl
  simp only [Dinode.read, shorts, word_zeroes]
  rfl

/-- The image before the first inode: the super block, and zeros. -/
theorem blank_built : Built (blank.put 1 (sb.write zeroes)) (fun _ => none) := by
  have blanks : ∀ c : UInt32, c ≠ 1 → (blank.put 1 (sb.write zeroes)).blocks c = zeroes := by
    intro c different
    rw [put_blocks, update_of_ne different]
    show (if c.toNat < FSSIZE then some zeroes else none).getD zeroes = zeroes
    split <;> rfl
  have free : ∀ i, (blank.put 1 (sb.write zeroes)).inodes i = Dinode.zero := by
    intro i
    unfold inodes inodeTable
    by_cases inside : i < NINODES
    · have low := (iblock_meta inside).1
      have different : sb.iblock (UInt32.ofNat i) ≠ 1 := by
        intro same
        rw [same] at low
        exact absurd low (by decide)
      rw [if_pos (show i < sb.ninodes.toNat from inside), blanks _ different, read_zeroes]
    · exact if_neg inside
  have nowhere : ∀ place, leads (blank.put 1 (sb.write zeroes)).blocks
      (blank.put 1 (sb.write zeroes)).inodes place = 0 := by
    intro place
    rw [leads, free, pointer_free rfl]
  have unused : ∀ b, ¬ (blank.put 1 (sb.write zeroes)).Used b := by
    rintro b ⟨low, high⟩
    exact absurd high (Nat.not_lt.mpr low)
  refine ⟨⟨?_, blanks 0 (by decide), Nat.le_refl _, ⟨unused 0, ?_, ?_, ?_⟩, ?_⟩, ?_, fun i _ => free i,
    ?_, ?_⟩
  · refine put_present ?_ 1 (sb.write zeroes)
    intro c inside
    simp [blank, inside]
  · exact fun place set => absurd (nowhere place) set
  · exact fun place _ set => absurd (nowhere place) set
  · exact fun b taken => absurd taken (unused b)
  · intro c beyond
    apply blanks
    rintro rfl
    exact absurd beyond (by decide)
  · intro i entry present
    cases present
  · intro i entry present
    cases present
  · rw [put_blocks, update_self]
    decide +kernel

theorem bit_bitmap {used : Nat} (small : used ≤ BPB) (b : Nat) :
    Bytes.bit (bitmap used) b = decide (b < used) := by
  induction used with
  | zero => simp [bitmap, Bytes.bit, Bytes.byte, zeroes]
  | succ used ih =>
    have before := ih (Nat.le_of_succ_le small)
    have inside : used < 8 * BSIZE := by
      simp only [BPB] at small
      omega
    unfold bitmap at before ⊢
    rw [List.range_succ, List.foldl_append, List.foldl_cons, List.foldl_nil,
      Bytes.bit_setBit _ _ inside, before]
    by_cases same : used = b
    · simp [same]
    · have other : b < used + 1 ↔ b < used := by omega
      simp [same, other]

/-- The image that `main` builds for files that fit: the inodes hold the root directory, with
its size rounded up, and the files; the bitmap has the bits of the blocks that are used. -/
structure Finished (files : List HostFile) (m : Mkfs) : Prop where
  laid : Laid m m.inodes
  super : Superblock.read (m.blocks 1) = sb
  root : ∃ din, m.inodes 1 = din.resized (UInt32.ofNat (fixSize (16 * (files.length + 2)))) ∧
    Filed m.blocks din T_DIR (listed (rootDirents files))
  file : ∀ i file, files[i]? = some file → Filed m.blocks (m.inodes (i + 2)) T_FILE file.contents
  unused : ∀ i, i = 0 ∨ files.length + 2 ≤ i → m.inodes i = Dinode.zero
  freeblock : m.freeblock = need files
  bitmap : ∀ b, Bytes.bit (m.blocks sb.bmapstart) b = decide (b < m.freeblock)

theorem finish_ends (stage : Stage files m) (fits : Fits files) :
    Ends (fun _ next => Finished files next) (fun _ => False) (finish 1) m := by
  obtain ⟨size, chosen⟩ : ∃ size, size = UInt32.ofNat (fixSize (16 * (files.length + 2))) :=
    ⟨_, rfl⟩
  have built := stage.built
  have inside : 1 < NINODES := by decide
  have root := built.filed 1 _ (archive_root files)
  have rootSize : (m.inodes 1).size.toNat = 16 * (files.length + 2) := by
    rw [root.size_eq, length_root]
  have blocks := fits.blocks
  have freeblock := stage.freeblock
  have laid : Laid m (update m.inodes 1 ((m.inodes 1).resized size)) := by
    apply built.laid.congr
    rw [leads_resize, update_eq_self]
  obtain ⟨next, final⟩ : ∃ next, next = (m.stored 1 ((m.inodes 1).resized size)).put sb.bmapstart
      (bitmap m.freeblock) := ⟨_, rfl⟩
  have kept : ∀ table, Laid m table → Laid next table ∧
      leads next.blocks table = leads m.blocks table ∧
      ∀ i k, (table i).block next.blocks k = (table i).block m.blocks k := by
    intro table before
    obtain ⟨low, high, _⟩ := iblock_meta inside
    obtain ⟨first, same, content⟩ := before.put_meta (c := sb.iblock (UInt32.ofNat 1))
      (Nat.le_of_succ_le low) high (((m.inodes 1).resized size).write
        (m.blocks (sb.iblock (UInt32.ofNat 1))) (1 % IPB))
    obtain ⟨second, again, contents⟩ := first.put_meta (c := sb.bmapstart) (by decide) (by decide)
      (bitmap m.freeblock)
    rw [final]
    exact ⟨second, again.trans same, fun i k => (contents i k).trans (content i k)⟩
  have filed : ∀ i type bytes, Filed m.blocks (m.inodes i) type bytes →
      Filed next.blocks (m.inodes i) type bytes := by
    intro i type bytes before
    obtain ⟨_, same, content⟩ := kept m.inodes built.laid
    exact before.congr ⟨_, rfl⟩ (fun p => congrFun same (i, p)) fun k => content i k
  have inodes : next.inodes = update m.inodes 1 ((m.inodes 1).resized size) := by
    rw [← stored_inodes m inside, final]
    unfold Mkfs.inodes
    rw [put_blocks]
    exact inodeTable_update_block geometry _ (Nat.le_refl _)
  have finished : Finished files next := by
    refine ⟨by rw [inodes]; exact (kept _ laid).1, ?_, ?_, ?_, ?_, ?_, ?_⟩
    · have first : (1 : UInt32) ≠ sb.bmapstart := by decide
      have second : (1 : UInt32) ≠ sb.iblock (UInt32.ofNat 1) := by decide
      rw [final, stored, put_blocks, put_blocks, update_of_ne first, update_of_ne second]
      exact built.super
    · refine ⟨m.inodes 1, ?_, filed 1 _ _ root⟩
      rw [inodes, update_self, chosen]
    · intro i file present
      rw [inodes, update_of_ne (by omega)]
      exact filed _ _ _ (built.filed _ _ (archive_file present))
    · intro i outside
      rw [inodes, update_of_ne (by omega)]
      apply built.unused
      rcases outside with zero | beyond
      · rw [zero]
        rfl
      · exact archive_none beyond
    · rw [final]
      exact freeblock
    · intro b
      rw [final, put_blocks, update_self]
      exact bit_bitmap (Nat.le_trans (freeblock ▸ blocks) (by decide)) b
  apply Ends.after (rinode_run built.laid inside)
  rw [rootSize, ← chosen]
  apply Ends.after (winode_run built.laid inside _)
  apply Ends.read
  have small : decide (m.freeblock < BSIZE * 8) = true :=
    decide_eq_true (Nat.lt_of_le_of_lt (freeblock ▸ blocks) (by decide))
  apply Ends.after (assert_run small)
  refine Ends.of_run (wsect_run _ _) ?_
  rw [final] at finished
  exact finished

theorem main_ends (fits : Fits files) :
    Ends (fun _ m => Finished files m) (fun _ => False) (main files) blank := by
  have started := blank_built
  have dot : listed [Dirent.make 1 [46]] = List.ofFn (Dirent.make 1 [46]) := by simp [listed]
  have dots : listed [Dirent.make 1 [46, 46]] = List.ofFn (Dirent.make 1 [46, 46]) := by
    simp [listed]
  refine Ends.after (wsect_run 1 (sb.write zeroes)) ?_
  have directory : T_DIR ≠ 0 := by decide
  have inside : 1 < NINODES := by decide
  refine (ialloc_ends started rfl inside directory).seq ?_
  rintro rootino first ⟨number, planted, freeinode, freeblock⟩
  have one : rootino = 1 := number
  subst one
  have rooted : decide (1 = ROOTINO.toNat) = true := rfl
  apply Ends.after (assert_run rooted)
  have start : first.freeblock = nmeta := freeblock
  have nothing : room 0 = 0 := by decide
  have block : room 16 = 1 := by decide
  have both : room 32 = 1 := by decide
  have size : (List.ofFn (Dirent.make 1 [46])).length = 16 := length_ofFn
  have sizes : (List.ofFn (Dirent.make 1 [46, 46])).length = 16 := length_ofFn
  have ample : nmeta + 1 ≤ FSSIZE := by decide
  have self := iappend_ends planted (update_self ..)
    (show ([] : List UInt8).length + (List.ofFn (Dirent.make 1 [46])).length ≤ MAXFILE * BSIZE by
      rw [size]
      decide)
    (by rw [size, length_nil, Nat.zero_add, nothing, block, start]; exact ample)
  refine self.seq ?_
  rintro _ second ⟨appended, grown⟩
  have taken := grown.freeblock
  rw [size, length_nil, Nat.zero_add, nothing, block, start] at taken
  have parent := iappend_ends appended (update_self ..)
    (show ([] ++ List.ofFn (Dirent.make 1 [46])).length +
        (List.ofFn (Dirent.make 1 [46, 46])).length ≤ MAXFILE * BSIZE by
      rw [nil_append, size, sizes]
      decide)
    (by rw [nil_append, size, sizes, block]; show second.freeblock + room 32 ≤ _; omega)
  refine parent.seq ?_
  rintro _ third ⟨complete, more⟩
  have total := more.freeblock
  rw [nil_append, size, sizes, block] at total
  have stage : Stage [] third := by
    refine ⟨?_, ?_, ?_⟩
    · rw [update_idem, update_idem, nil_append] at complete
      have same : archive [] = update (fun _ => none) 1 (some ⟨T_DIR,
          List.ofFn (Dirent.make 1 [46]) ++ List.ofFn (Dirent.make 1 [46, 46])⟩) := by
        funext i
        by_cases root : i = 1
        · rw [root, update_self, ← dot, ← dots, ← listed_append]
          rfl
        rw [update_of_ne root]
        unfold archive
        by_cases zero : i = 0
        · rw [if_pos zero]
        · rw [if_neg zero, if_neg root]
          rfl
      rw [same]
      exact complete
    · rw [more.freeinode, grown.freeinode, freeinode]
      rfl
    · show third.freeblock = nmeta + room 32 + 0
      have sum : room (16 + 16) = room 32 := rfl
      omega
  refine (addFiles_ends stage fits).seq ?_
  intro _ fourth done
  exact finish_ends done fits

end RtXv6.Mkfs
