import RtXv6.CallEffects

/-!
# Runs of the file system

A kernel starts on a file-system image, and processes make calls. Between the calls,
the inode cache has no locks, counts the references of open files and processes, and
every inode without links that is still allocated has a reference. On disk, the inodes
own their blocks and have no holes.
-/

namespace RtXv6

/-- The super block of an image. -/
def Disk.sb (disk : Disk) : Superblock := Superblock.read (disk ROOTDEV 1)

/-- The inodes of an image. -/
def Disk.inodes (disk : Disk) : Nat → Dinode := inodeTable disk.sb (disk ROOTDEV)

/-- The files of an image. -/
def Disk.files (disk : Disk) : Nat → Option FileNode := RtXv6.files (disk ROOTDEV) disk.inodes

/-- An image of a file system: the blocks in front of the data area cannot be allocated, the
inodes own their blocks and have no holes, and the entries of directories are numbers of
inodes. -/
structure Disk.Image (disk : Disk) : Prop where
  geometry : disk.sb.Geometry
  owned : Owned disk.sb (disk ROOTDEV) (leads (disk ROOTDEV) disk.inodes)
  full : Full (disk ROOTDEV) disk.inodes
  entries : ∀ i node k, disk.files i = some node → node.type = T_DIR → 16 * k < node.size →
    node.target k < disk.sb.ninodes.toNat
  root : ROOTINO.toNat < disk.sb.ninodes.toNat

/-- Every file of an image has links. -/
def Disk.Linked (disk : Disk) : Prop :=
  ∀ i node, disk.files i = some node → node.nlink ≠ 0

/-- A block of a directory with `.`, `..` and an entry with a name of one byte. -/
def entries (self parent inum name : UInt8) : Block := fun k =>
  if k.val = 0 then self
  else if k.val = 16 then parent
  else if k.val = 32 then inum
  else if k.val = 2 ∨ k.val = 18 ∨ k.val = 19 then 46
  else if k.val = 34 then name
  else 0

/-- A small image with the directories `/a` and `/a/b`: 37 blocks, the last three of them
data blocks, and eight inodes. A block of the log may be free in the bitmap, and `/a/b` may
be without links. -/
def nested (reserved linked : Bool) : Disk := fun _ b =>
  if b = 1 then Superblock.write
    { size := 37, nblocks := 3, ninodes := 8, nlog := 30, logstart := 2, inodestart := 32,
      bmapstart := 33 } zeroes
  else if b = 32 then fun k =>
    if k.val = 64 ∨ k.val = 128 ∨ k.val = 192 then 1
    else if k.val = 70 ∨ k.val = 134 then 2
    else if k.val = 198 then (if linked then 1 else 0)
    else if k.val = 72 ∨ k.val = 136 then 48
    else if k.val = 200 then 32
    else if k.val = 76 then 34
    else if k.val = 140 then 35
    else if k.val = 204 then 36
    else 0
  else if b = 33 then fun k =>
    if k.val = 0 then (if reserved then 255 else 251)
    else if k.val < 4 then 255
    else if k.val = 4 then 31
    else 0
  else if b = 34 then entries 1 1 2 97
  else if b = 35 then entries 2 1 3 98
  else if b = 36 then entries 3 2 0 0
  else zeroes

/-- Where the places of the small image lead. -/
def nestedPlace (place : Nat × Nat) : UInt32 :=
  if place.2 = 0 then
    if place.1 = 1 then 34 else if place.1 = 2 then 35 else if place.1 = 3 then 36 else 0
  else 0

section

open Ownership

theorem nested_sb : ∀ reserved linked, (nested reserved linked).sb =
    { size := 37, nblocks := 3, ninodes := 8, nlog := 30, logstart := 2, inodestart := 32,
      bmapstart := 33 } := by
  decide +kernel

theorem nested_addrs : ∀ reserved linked, ∀ i < 8,
    ((nested reserved linked).inodes i).table = 0 ∧ ∀ p : Fin (NDIRECT + 1),
        ((nested reserved linked).inodes i).pointer (nested reserved linked ROOTDEV) p =
          nestedPlace (i, p) := by
  decide +kernel

theorem nested_bits : ∀ reserved linked, ∀ b < 37, 34 ≤ b ∨ reserved = true →
    inUse (nested reserved linked).sb (nested reserved linked ROOTDEV) (UInt32.ofNat b) = true := by
  decide +kernel

theorem nested_fields : ∀ reserved linked, ∀ i < 8,
    (((nested reserved linked).inodes i).type ≠ 0 → i = 1 ∨ i = 2 ∨ i = 3) ∧
      ((nested reserved linked).inodes i).size.toNat ≤ 48 ∧
      (linked = true → ((nested reserved linked).inodes i).type ≠ 0 →
        ((nested reserved linked).inodes i).nlink ≠ 0) ∧
      ∀ k < 3, ((nested reserved linked).files i).all fun node => node.target k < 8 := by
  decide +kernel

variable (reserved linked : Bool)

theorem nested_inodes_beyond {i : Nat} (beyond : 8 ≤ i) :
    (nested reserved linked).inodes i = Dinode.zero := by
  unfold Disk.inodes inodeTable
  rw [nested_sb]
  exact if_neg (Nat.not_lt.mpr beyond)

theorem nested_leads :
    leads (nested reserved linked ROOTDEV) (nested reserved linked).inodes = nestedPlace := by
  funext place
  obtain ⟨i, p⟩ := place
  show ((nested reserved linked).inodes i).pointer (nested reserved linked ROOTDEV) p = _
  by_cases inside : i < 8
  · obtain ⟨table, places⟩ := nested_addrs reserved linked i inside
    by_cases direct : p < NDIRECT + 1
    · exact places ⟨p, direct⟩
    have later : p ≠ 0 := by omega
    rw [pointer_none (by omega) (.inl table)]
    exact (if_neg later).symm
  rw [nested_inodes_beyond reserved linked (by omega), pointer_free rfl]
  have other : nestedPlace (i, p) = 0 := by
    unfold nestedPlace
    split
    · rw [if_neg (by show i ≠ 1; omega), if_neg (by show i ≠ 2; omega),
        if_neg (by show i ≠ 3; omega)]
    · rfl
  exact other.symm

theorem nestedPlace_bounds (place : Nat × Nat) (set : nestedPlace place ≠ 0) :
    place.2 = 0 ∧ 1 ≤ place.1 ∧ place.1 ≤ 3 ∧ (nestedPlace place).toNat = 33 + place.1 := by
  obtain ⟨i, p⟩ := place
  unfold nestedPlace at set ⊢
  by_cases first : p = 0
  · by_cases one : i = 1
    · simp [first, one]
    · by_cases two : i = 2
      · simp [first, two]
      · by_cases three : i = 3
        · simp [first, three]
        · simp [first, one, two, three] at set
  · simp [first] at set

theorem nested_owns : Owns 0 (Taken (nested reserved linked).sb (nested reserved linked ROOTDEV))
    (leads (nested reserved linked ROOTDEV) (nested reserved linked).inodes) := by
  rw [nested_leads]
  have start : (nested reserved linked).sb.datastart = 34 := by rw [nested_sb]; rfl
  have size : (nested reserved linked).sb.size.toNat = 37 := by rw [nested_sb]; rfl
  refine ⟨?_, ?_, ?_, ?_⟩
  · rintro ⟨low, _⟩
    rw [start] at low
    exact absurd low (by decide)
  · intro place set
    obtain ⟨_, low, high, number⟩ := nestedPlace_bounds place set
    have used := nested_bits reserved linked (nestedPlace place).toNat (by omega) (.inl (by omega))
    rw [UInt32.ofNat_toNat] at used
    exact ⟨by omega, by omega, used⟩
  · intro a b set equal
    obtain ⟨slotA, _, _, numberA⟩ := nestedPlace_bounds a set
    obtain ⟨slotB, _, _, numberB⟩ := nestedPlace_bounds b (equal ▸ set)
    rw [equal] at numberA
    exact Prod.ext (by omega) (by omega)
  · rintro b ⟨low, high, _⟩
    rw [start] at low
    rw [size] at high
    have cases : b.toNat = 34 ∨ b.toNat = 35 ∨ b.toNat = 36 := by omega
    rcases cases with number | number | number
    · exact ⟨(1, 0), UInt32.toNat_inj.mp number.symm⟩
    · exact ⟨(2, 0), UInt32.toNat_inj.mp number.symm⟩
    · exact ⟨(3, 0), UInt32.toNat_inj.mp number.symm⟩

theorem nested_live {i : Nat} (live : ((nested reserved linked).inodes i).type ≠ 0) : i < 8 := by
  by_contra beyond
  rw [nested_inodes_beyond reserved linked (by omega)] at live
  exact live rfl

theorem nested_full : Full (nested reserved linked ROOTDEV) (nested reserved linked).inodes := by
  intro i k live inside
  have small := nested_live reserved linked live
  obtain ⟨number, size, _⟩ := nested_fields reserved linked i small
  have first : k = 0 := by
    simp only [BSIZE] at inside
    omega
  show leads _ _ (i, slot k) ≠ 0
  rw [nested_leads, first]
  rcases number live with one | two | three
  · rw [one]
    decide
  · rw [two]
    decide
  · rw [three]
    decide

theorem nested_geometry : (nested reserved linked).sb.Geometry := by
  rw [nested_sb]
  exact ⟨by decide, by decide, by decide, by decide⟩

theorem nested_image : (nested true linked).Image := by
  refine ⟨nested_geometry true linked, ⟨?_, nested_owns true linked⟩, nested_full true linked, ?_, ?_⟩
  · intro b low
    rw [nested_sb] at low
    have used := nested_bits true linked b.toNat (Nat.lt_trans low (by decide)) (.inr rfl)
    rwa [UInt32.ofNat_toNat] at used
  · intro i node k present directory inside
    have live : ((nested true linked).inodes i).type ≠ 0 := by
      intro free
      unfold Disk.files files Dinode.file at present
      rw [if_pos free] at present
      cases present
    have size : node.size = ((nested true linked).inodes i).size.toNat := by
      unfold Disk.files files Dinode.file at present
      rw [if_neg live] at present
      cases present
      rfl
    obtain ⟨_, most, _, targets⟩ := nested_fields true linked i (nested_live true linked live)
    have named := targets k (by omega)
    rw [present, nested_sb] at *
    simpa using named
  · rw [nested_sb]
    decide

theorem nested_linked : (nested reserved true).Linked := by
  intro i node present
  unfold Disk.files files Dinode.file at present
  split at present
  · cases present
  rename_i live
  cases present
  exact (nested_fields reserved true i (nested_live reserved true live)).2.2.1 rfl live

end

namespace Fs

open Stateful Tally Ownership

theorem booted_references (disk : Disk) (devsw : Devsw) (kmem : List Nat) :
    (booted disk devsw kmem).references = mark (some 0) := by
  have files : ∀ f, opened ((booted disk devsw kmem).ftable f) = none := by
    intro f
    exact opened_none (show FileType.none ≠ .inode by decide)
  have cwds : (fun process => ((booted disk devsw kmem).proc process).cwd) =
      Function.update (fun _ => none) 0 (some 0) := by
    funext process
    by_cases first : process = 0
    · simp [booted, first]
    · simp [booted, zero, Function.update_of_ne first]
  funext ip
  show tally _ ip + tally (fun process => ((booted disk devsw kmem).proc process).cwd) ip = _
  rw [tally_none files, cwds, tally_update, tally_none fun _ => rfl, mark_none]
  show (0 : Int) + (0 - 0 + mark (some 0) ip) = mark (some 0) ip
  omega

/-- A cache entry of the kernel when the first process is there. -/
theorem booted_icache (disk : Disk) (devsw : Devsw) (kmem : List Nat) (ip : InodeId) :
    ((booted disk devsw kmem).icache ip).ref = mark (some 0) ip ∧
      ((booted disk devsw kmem).icache ip).busy = false ∧
      ((booted disk devsw kmem).icache ip).valid = false ∧
      (0 < mark (some (0 : InodeId)) ip → ip = 0) := by
  by_cases first : ip = 0
  · rw [first]
    exact ⟨rfl, rfl, rfl, fun _ => rfl⟩
  have unchanged : (booted disk devsw kmem).icache ip = (zero disk devsw kmem).icache ip :=
    Function.update_of_ne first _ _
  rw [unchanged, mark_off first]
  exact ⟨rfl, rfl, rfl, fun positive => absurd positive (Int.lt_irrefl 0)⟩

theorem booted_accounts {disk : Disk} (image : disk.Image) (devsw : Devsw) (kmem : List Nat) :
    Accounts (booted disk devsw kmem) 0 [] := by
  have cache := booted_icache disk devsw kmem
  refine ⟨⟨⟨image.geometry, rfl, image.owned, image.full⟩, ?_, ?_, ?_, ?_, ?_, ?_, ?_⟩, image.entries,
    image.root, fun _ _ => rfl, ?_⟩
  · intro ip
    rw [add_zero, booted_references]
    exact (cache ip).1
  · intro ip
    rw [add_zero]
    exact references_nonneg _ ip
  · intro ip held
    rw [add_zero, booted_references] at held
    rw [(cache ip).2.2.2 held]
    exact ⟨rfl, image.root⟩
  · intro ip jp held also _
    rw [add_zero, booted_references] at held also
    rw [(cache ip).2.2.2 held, (cache jp).2.2.2 also]
  · intro ip _ valid
    rw [(cache ip).2.2.1] at valid
    cases valid
  · intro ip
    rw [(cache ip).2.1]
    constructor
    · intro busy
      cases busy
    · intro locked
      cases locked
  · intro ip locked
    cases locked
  · intro f held
    exact absurd held (Int.lt_irrefl 0)

section

variable {disk : Disk} {devsw : Devsw} {meets : Fs → Slot → Call → Prop} {s : Fs}

/-- Between the calls, the account is in order, and files without links are anchored. -/
theorem Run.accounts_anchored (image : disk.Image) (run : Run disk devsw meets s) :
    Accounts s 0 [] ∧ (disk.Linked → Anchored s.references s) := by
  induction run with
  | start pages boots =>
    rename_i kmem s
    rw [userinit_run] at boots
    cases boots
    exact ⟨booted_accounts image devsw kmem,
      fun linked i node present unlinked => absurd unlinked (linked i node present)⟩
  | memory before kmem pages ih =>
    rename_i s
    have moves := ih.1.pipes s.pipes kmem
    have anchored := moves.anchored
    rw [add_zero, add_zero] at anchored
    exact ⟨moves.accounts, fun linked => anchored (ih.2 linked)⟩
  | call before process call enabled met performed ih =>
    have tolerant : Tolerant fun _ => True := fun _ _ _ => trivial
    have performs := (perform_performs tolerant ⟨ih.1, .inr trivial⟩ process call enabled).returned
      performed
    exact ⟨performs.accounts, fun linked => (performs.anchored (ih.2 linked)).1⟩

end

/-- Between calls, no two entries of the inode cache are for one inode, each counts the open
files and the processes that refer to it, none is locked, and an inode without links that
nothing refers to is free. -/
theorem inode_references_exact {disk : Disk} (image : disk.Image) (linked : disk.Linked)
    {devsw : Devsw} {s : Fs} (reachable : Reachable disk devsw s) :
    (∀ ip jp, 0 < (s.icache ip).ref → 0 < (s.icache jp).ref →
      (s.icache ip).dev = (s.icache jp).dev → (s.icache ip).inum = (s.icache jp).inum → ip = jp) ∧
    (∀ ip, (s.icache ip).ref = s.references ip) ∧
    (∀ ip, (s.icache ip).busy = false) ∧
    ∀ i, (s.inodes i).nlink = 0 → (∀ ip, 0 < s.references ip → s.number ip ≠ i) →
      (s.inodes i).type = 0 := by
  obtain ⟨accounts, anchored⟩ := Run.accounts_anchored image reachable
  have sound := accounts.sound
  rw [add_zero] at sound
  refine ⟨?_, sound.ref, ?_, ?_⟩
  · intro ip jp held also _ inum
    rw [sound.ref] at held also
    exact sound.distinct ip jp held also (congrArg UInt32.toNat inum)
  · intro ip
    rw [Bool.eq_false_iff]
    intro busy
    cases (sound.busy ip).mp busy
  · intro i unlinked unreferenced
    by_contra live
    have present : s.files i = some _ := if_neg live
    obtain ⟨ip, held, here, _⟩ := anchored linked i _ present unlinked
    exact unreferenced ip held here

theorem booted_reachable (disk : Disk) (devsw : Devsw) :
    Reachable disk devsw (booted disk devsw []) :=
  .start List.nodup_nil (userinit_run ..)

theorem inode_references_exact_nested :
    (nested true true).Image ∧ (nested true true).Linked ∧
      Reachable (nested true true) noDevices (booted (nested true true) noDevices []) ∧
      ∀ ip, ((booted (nested true true) noDevices []).icache ip).busy = false := by
  have reached := booted_reachable (nested true true) noDevices
  exact ⟨nested_image true, nested_linked true, reached,
    (inode_references_exact (nested_image true) (nested_linked true) reached).2.2.1⟩

/-- An inode without links that is on the image stays there: nothing refers to it. -/
theorem unlinked_inode_stays :
    Reachable (nested true false) noDevices (booted (nested true false) noDevices []) ∧
      ((booted (nested true false) noDevices []).inodes 3).nlink = 0 ∧
      (∀ ip, 0 < (booted (nested true false) noDevices []).references ip →
        (booted (nested true false) noDevices []).number ip ≠ 3) ∧
      ((booted (nested true false) noDevices []).inodes 3).type ≠ 0 := by
  refine ⟨booted_reachable .., by decide +kernel, ?_, by decide +kernel⟩
  intro ip held
  rw [booted_references] at held
  rw [(booted_icache (nested true false) noDevices [] ip).2.2.2 held]
  decide

/-- In every reachable state, each block of the data area that is in use belongs to one place
of one inode, and the places lead to such blocks only. No block that is free is freed, and
`balloc` returns a block of the data area that belongs to no inode. -/
theorem block_ownership {disk : Disk} (image : disk.Image) {devsw : Devsw} {s : Fs}
    (reachable : Reachable disk devsw s) :
    Owns 0 (Taken s.sb s.blocks) (leads s.blocks s.inodes) ∧
    (∀ process call, s.Enabled process call →
      perform process call s ≠ .error (.panic "freeing free block")) ∧
    ∀ log b next, balloc ROOTDEV { s with log } = .ok (b, next) →
      s.sb.datastart ≤ b.toNat ∧ b.toNat < s.sb.size.toNat ∧
        ∀ place, leads s.blocks s.inodes place ≠ b := by
  have accounts := (Run.accounts_anchored image reachable).1
  have volume := accounts.sound.volume
  refine ⟨volume.owned.owns, ?_, ?_⟩
  · intro process call enabled failed
    have tolerant : Tolerant fun fault => fault ≠ .panic "freeing free block" :=
      fun _ other _ => other
    have ready : Ready s fun fault => fault ≠ .panic "freeing free block" :=
      ⟨accounts, .inr (by decide)⟩
    exact (perform_performs tolerant ready process call enabled).failed failed rfl
  · intro log b next returned
    have tolerant : Tolerant fun _ => True := fun _ _ _ => trivial
    have ends : Ends (fun b _ => b.toNat < s.sb.size.toNat ∧ inUse s.sb s.blocks b = false)
        (fun _ => True) (balloc ROOTDEV) { s with log } :=
      balloc_ends tolerant.scarce fun b _ inside free _ => ⟨inside, free⟩
    obtain ⟨inside, free⟩ := ends.returned returned
    obtain ⟨low, _, unowned⟩ := volume.owned.free_bounds volume.geometry free
    exact ⟨low, inside, unowned⟩

theorem block_ownership_nested :
    (nested true true).Image ∧
      Reachable (nested true true) noDevices (booted (nested true true) noDevices []) ∧
      perform 0 (.mkdir [slash, 120]) (booted (nested true true) noDevices []) ≠
        .error (.panic "freeing free block") := by
  have reached := booted_reachable (nested true true) noDevices
  have enabled : (booted (nested true true) noDevices []).Enabled 0 (.mkdir [slash, 120]) :=
    Option.some_ne_none 0
  exact ⟨nested_image true, reached, (block_ownership (nested_image true) reached).2.1 0 _ enabled⟩

/-- Whether a call returned in a state with a property. -/
def returns (result : Except FsFault (Int32 × Fs)) (holds : Fs → Bool) : Bool :=
  match result with
  | .ok (_, next) => holds next
  | .error _ => false

theorem exists_of_returns {result : Except FsFault (Int32 × Fs)} {holds : Fs → Bool}
    (returned : returns result holds = true) :
    ∃ r next, result = .ok (r, next) ∧ holds next = true := by
  cases result with
  | ok pair => exact ⟨pair.1, pair.2, rfl, returned⟩
  | error fault => cases returned

/-- A block of the log that is free in the bitmap is given to a new directory: the inodes of
the image own their blocks and have no holes, and after a call one leads in front of the data
area. -/
theorem log_block_allocated :
    (nested false true).sb.Geometry ∧
      Owns 0 (Taken (nested false true).sb (nested false true ROOTDEV))
        (leads (nested false true ROOTDEV) (nested false true).inodes) ∧
      Full (nested false true ROOTDEV) (nested false true).inodes ∧
      ∃ s, Reachable (nested false true) noDevices s ∧ leads s.blocks s.inodes (4, 0) ≠ 0 ∧
        (leads s.blocks s.inodes (4, 0)).toNat < s.sb.datastart := by
  have made : returns (perform 0 (.mkdir [slash, 120]) (booted (nested false true) noDevices []))
      (fun next => leads next.blocks next.inodes (4, 0) ≠ 0 ∧
        (leads next.blocks next.inodes (4, 0)).toNat < next.sb.datastart) = true := by
    decide +kernel
  obtain ⟨r, next, performed, leading⟩ := exists_of_returns made
  have enabled : (booted (nested false true) noDevices []).Enabled 0 (.mkdir [slash, 120]) :=
    Option.some_ne_none 0
  exact ⟨nested_geometry false true, nested_owns false true, nested_full false true, next,
    .call (booted_reachable ..) 0 _ enabled trivial performed,
    of_decide_eq_true leading⟩

/-- A file has the type that it had and, if it is no directory, the contents. -/
def KeptFile (node new : FileNode) : Prop :=
  new.type = node.type ∧ (node.type ≠ T_DIR → new.size = node.size ∧ new.byte = node.byte)

/-- Files that were there and still are have been kept. -/
def KeptFiles (before after : Nat → Option FileNode) : Prop :=
  ∀ i node new, before i = some node → after i = some new → KeptFile node new

section

variable {files edited : Nat → Option FileNode}

theorem KeptFiles.refl : KeptFiles files files := by
  intro i node new before after
  rw [before] at after
  cases after
  exact ⟨rfl, fun _ => ⟨rfl, rfl⟩⟩

theorem KeptFiles.update (keeps : KeptFiles files edited) (changed : Nat) {now : FileNode}
    (kept : ∀ node, files changed = some node → KeptFile node now) :
    KeptFiles files (Function.update edited changed (some now)) := by
  intro i node new before after
  by_cases here : i = changed
  · rw [here, Function.update_self] at after
    cases after
    exact kept node (here ▸ before)
  · rw [Function.update_of_ne here] at after
    exact keeps i node new before after

theorem Effect.keeps {origin : Nat} {path : List UInt8} {change : Change}
    (effect : Effect files origin path change edited) : KeptFiles files edited := by
  have found : ∀ {i there node now}, files i = some there → KeptFile there now →
      files i = some node → KeptFile node now := by
    intro i there node now present kept before
    rw [present] at before
    cases before
    exact kept
  cases effect with
  | nothing => exact KeptFiles.refl
  | link leads present file directory isDir =>
    refine (KeptFiles.refl.update _ fun _ => found present ?_).update _ fun _ => found directory ?_
    · exact ⟨rfl, fun _ => ⟨rfl, rfl⟩⟩
    · exact ⟨rfl, fun other => absurd isDir other⟩
  | unlink leads directory isDir notDot notDotdot finds other present =>
    refine (KeptFiles.refl.update _ fun _ => found directory ?_).update _ fun _ => found present ?_
    · refine ⟨?_, fun other => absurd isDir other⟩
      unfold FileNode.without
      split <;> rfl
    · exact ⟨rfl, fun _ => ⟨rfl, rfl⟩⟩
  | make leads directory isDir misses vacant free =>
    refine (KeptFiles.refl.update _ fun _ => ?_).update _ fun _ => found directory ?_
    · rw [free]
      exact nofun
    · refine ⟨?_, fun other => absurd isDir other⟩
      unfold FileNode.parent
      split <;> rfl

end

/-- Only `write` changes the contents of files. Whatever processes have done before, every other
call leaves the files that stay with their types and, if they are no directories, with their
sizes and bytes. -/
theorem only_write_changes_contents {disk : Disk} (image : disk.Image) (linked : disk.Linked)
    {devsw : Devsw} {s : Fs} (reachable : Reachable disk devsw s) {process : Slot} {call : Call}
    (enabled : s.Enabled process call)
    (other : ∀ fd src n transferred, call ≠ .write fd src n transferred) {r : Int32} {next : Fs}
    (performed : perform process call s = .ok (r, next)) : KeptFiles s.files next.files := by
  obtain ⟨accounts, anchored⟩ := Run.accounts_anchored image reachable
  have tolerant : Tolerant fun _ => True := fun _ _ _ => trivial
  have performs :=
    (perform_performs tolerant ⟨accounts, .inr trivial⟩ process call enabled).returned performed
  obtain ⟨_, edited, effects, prunes⟩ := performs.anchored (anchored linked)
  have keeps : KeptFiles s.files edited := by
    cases call with
    | write fd src n transferred => exact absurd rfl (other fd src n transferred)
    | link | unlink | mkdir | mknod => exact effects.keeps
    | «open» path omode =>
      simp only [Effects] at effects
      split at effects
      · exact effects ▸ KeptFiles.refl
      · exact effects.keeps
    | dup | read | close | fstat | chdir | exec | pipe | fork | exit =>
      rw [effects]
      exact KeptFiles.refl
  intro i node new before after
  rcases prunes i with same | ⟨gone, _⟩
  · exact keeps i node new before (same ▸ after)
  · rw [gone] at after
    cases after

theorem only_write_changes_contents_nested :
    ∃ next : Fs, KeptFiles (booted (nested true true) noDevices []).files next.files := by
  have unlinks : returns (perform 0 (.unlink [slash, 97, slash, 98])
      (booted (nested true true) noDevices [])) (fun next => (next.files 2).isSome) = true := by
    decide +kernel
  obtain ⟨r, next, performed, _⟩ := exists_of_returns unlinks
  have enabled : (booted (nested true true) noDevices []).Enabled 0
      (.unlink [slash, 97, slash, 98]) := Option.some_ne_none 0
  exact ⟨next, only_write_changes_contents (nested_image true) (nested_linked true)
    (booted_reachable ..) enabled nofun performed⟩

end Fs

end RtXv6
