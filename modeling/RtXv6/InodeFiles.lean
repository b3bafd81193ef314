import RtXv6.InodeCache
import RtXv6.FileCalls

/-!
# What the functions on inodes do to files

A file without links is anchored while a cache entry that has been read refers to it.
When every file without links is anchored by the references of others, giving a reference
back leaves the files; in any case, only files without links are removed.
-/

namespace RtXv6.Fs

open Function (update update_self update_of_ne)
open Stateful Tally

/-- Every file without links is held by an entry that has been read. -/
def Anchored (refs : InodeId → Int) (s : Fs) : Prop :=
  ∀ i node, s.files i = some node → node.nlink = 0 →
    ∃ ip, 0 < refs ip ∧ s.number ip = i ∧ (s.icache ip).valid = true

/-- Files without links may have been removed. -/
def Prunes (before after : Nat → Option FileNode) : Prop :=
  ∀ i, after i = before i ∨ after i = none ∧ ∃ node, before i = some node ∧ node.nlink = 0

theorem Prunes.refl (files : Nat → Option FileNode) : Prunes files files :=
  fun _ => .inl rfl

theorem Prunes.trans {before middle after : Nat → Option FileNode} (first : Prunes before middle)
    (second : Prunes middle after) : Prunes before after := by
  intro i
  rcases second i with same | ⟨gone, node, present, nlink⟩
  · rw [same]
    exact first i
  rcases first i with same | ⟨none, _⟩
  · rw [same] at present
    exact .inr ⟨gone, node, present, nlink⟩
  · rw [none] at present
    cases present

/-- The file of an entry has changed. -/
structure Edits (refs : InodeId → Int) (s next : Fs) (locks : List InodeId) (ip : InodeId)
    (node : FileNode) : Prop where
  sound : Sound next refs locks
  stays : Stays refs s next
  files : next.files = update s.files (s.number ip) (some node)

/-- The file of an inode that has just been allocated. -/
def newNode (type : Int16) : FileNode :=
  { type, major := 0, minor := 0, nlink := 0, size := 0, byte := fun _ => 0 }

/-- An inode has been allocated, and there is a reference to it. -/
structure Plants (refs : InodeId → Int) (s next : Fs) (locks : List InodeId) (ip : InodeId)
    (type : Int16) : Prop where
  sound : Sound next (refs + mark (some ip)) locks
  stays : Stays refs s next
  number : 1 ≤ next.number ip
  free : s.files (next.number ip) = none
  files : next.files = update s.files (next.number ip) (some (newNode type))

section

variable {s next : Fs} {refs counts : InodeId → Int} {locks now : List InodeId} {ip : InodeId}

theorem Anchored.mono (anchored : Anchored refs s) (more : ∀ ip, 0 < refs ip → 0 < counts ip) :
    Anchored counts s := by
  intro i node present nlink
  obtain ⟨ip, held, rest⟩ := anchored i node present nlink
  exact ⟨ip, more ip held, rest⟩

theorem Anchored.stays (anchored : Anchored refs s) (stays : Stays refs s next)
    (same : ∀ i node, next.files i = some node → node.nlink = 0 →
      s.files i = some node ∨ ∃ ip, 0 < refs ip ∧ next.number ip = i ∧
        (next.icache ip).valid = true) : Anchored refs next := by
  intro i node present nlink
  rcases same i node present nlink with before | found
  · obtain ⟨ip, held, number, valid⟩ := anchored i node before nlink
    exact ⟨ip, held, (stays.number ip held).trans number, (stays.valid ip held valid).1⟩
  · exact found

theorem Calm.anchored (calm : Calm refs s next counts locks) (anchored : Anchored refs s) :
    Anchored refs next := by
  refine anchored.stays calm.stays fun i node present _ => .inl ?_
  rw [← calm.files]
  exact present

/-- The last reference to a file without links is not given back while others anchor it. -/
theorem Anchored.not_last (anchored : Anchored refs s)
    (sound : Sound s (refs + mark (some ip)) locks) (nonneg : ∀ ip, 0 ≤ refs ip) :
    ¬ LastLink s refs ip := by
  rintro ⟨none, _, node, present, nlink⟩
  obtain ⟨jp, held, number, _⟩ := anchored _ node present nlink
  have same : jp = ip := sound.distinct jp ip (mark_pos refs (nonneg jp) (.inl held))
    (mark_own nonneg ip) number
  rw [same, none] at held
  exact absurd held (Int.lt_irrefl 0)

theorem Puts.prunes (puts : Puts refs s next locks ip) : Prunes s.files next.files := by
  intro i
  by_cases last : LastLink s refs ip
  · rw [puts.gone last]
    by_cases own : i = s.number ip
    · rw [own, update_self]
      exact .inr ⟨rfl, last.2.2⟩
    · rw [update_of_ne own]
      exact .inl rfl
  · rw [puts.kept last]
    exact .inl rfl

theorem Puts.same (puts : Puts refs s next locks ip) (sound : Sound s (refs + mark (some ip)) now)
    (nonneg : ∀ ip, 0 ≤ refs ip) (anchored : Anchored refs s) : next.files = s.files :=
  puts.kept (anchored.not_last sound nonneg)

theorem Puts.anchored (puts : Puts refs s next locks ip) (nonneg : ∀ ip, 0 ≤ refs ip)
    (anchored : Anchored (refs + mark (some ip)) s) : Anchored refs next := by
  intro i node present nlink
  by_cases last : LastLink s refs ip
  · rw [puts.gone last] at present
    by_cases own : i = s.number ip
    · rw [own, update_self] at present
      cases present
    rw [update_of_ne own] at present
    obtain ⟨jp, held, number, valid⟩ := anchored i node present nlink
    have different : jp ≠ ip := by
      rintro rfl
      exact own number.symm
    rw [mark_except refs different] at held
    exact ⟨jp, held, (puts.stays.number jp held).trans number, (puts.stays.valid jp held valid).1⟩
  rw [puts.kept last] at present
  obtain ⟨jp, held, number, valid⟩ := anchored i node present nlink
  have remains : 0 < refs jp := by
    by_cases same : jp = ip
    · subst same
      have bound := nonneg jp
      have some : refs jp ≠ 0 := by
        intro none
        rw [← number] at present
        exact last ⟨none, valid, node, present, nlink⟩
      omega
    · rw [mark_except refs same] at held
      exact held
  exact ⟨jp, remains, (puts.stays.number jp remains).trans number,
    (puts.stays.valid jp remains valid).1⟩

theorem Edits.anchored {node : FileNode} (edits : Edits refs s next locks ip node)
    (member : ip ∈ locks) (anchored : Anchored refs s) : Anchored refs next := by
  have locked := edits.sound.locked ip member
  refine anchored.stays edits.stays fun i other present _ => ?_
  rw [edits.files] at present
  by_cases own : i = s.number ip
  · exact .inr ⟨ip, locked.1, (edits.stays.number ip locked.1).trans own.symm, locked.2⟩
  · rw [update_of_ne own] at present
    exact .inl present

end

section

variable {faults : FsFault → Prop} (tolerant : Tolerant faults) {s : Fs} {refs : InodeId → Int}
  {locks : List InodeId} {ip : InodeId}
include tolerant

theorem iunlockput_ends (sound : Sound s (refs + mark (some ip)) (ip :: locks))
    (nonneg : 0 ≤ refs ip) (once : ip ∉ locks) :
    Ends (fun _ next => Puts refs s next locks ip) faults (iunlockput ip) s := by
  have locked := sound.locked ip List.mem_cons_self
  refine (iunlock_ends tolerant sound once).seq fun _ middle calm => ?_
  have number := calm.stays.number ip locked.1
  have last : LastLink middle refs ip ↔ LastLink s refs ip := by
    unfold LastLink
    rw [number, calm.files, locked.2, (calm.stays.valid ip locked.1 locked.2).1]
  refine (iput_ends tolerant calm.sound nonneg fun member => absurd member once).imp
    fun _ next puts => ?_
  refine ⟨puts.sound, (calm.stays.mono (mark_more refs ip)).trans puts.stays, fun kept => ?_,
    fun gone => ?_⟩
  · rw [puts.kept (last.not.mpr kept), calm.files]
  · rw [puts.gone (last.mpr gone), calm.files, number]

variable (sound : Sound s refs locks) (member : ip ∈ locks)
include sound member

theorem stamp_ends (change : Inode → Inode) (major minor nlink : Int16)
    (stamps : change (s.icache ip) =
      { s.icache ip with toDinode := (s.icache ip).restamp major minor nlink }) :
    Ends (fun _ next => Edits refs s next locks ip ((s.node ip).restamp major minor nlink)) faults
      (iupdate ip) (s.withInode ip (change (s.icache ip))) := by
  have locked := sound.locked ip member
  have fresh := sound.fresh_locked member
  refine (restamp_ends tolerant.scarce sound.volume fresh stamps).imp ?_
  rintro _ next ⟨rewrites, files⟩
  have kept := sound.rewrites locked.1 locked.2 rewrites rfl
  refine ⟨kept.1, kept.2, ?_⟩
  rw [files, fresh.file]
  rfl

theorem relink_ends (change : Int16 → Int16) :
    Ends (fun _ next => Edits refs s next locks ip ((s.node ip).relink change)) faults
      (relink ip change) s := by
  have stored := stamp_ends tolerant sound member
    (fun inode => { inode with nlink := change inode.nlink }) (s.icache ip).major
    (s.icache ip).minor (change (s.icache ip).nlink) rfl
  exact modifyInode_next stored

theorem writei_edits (src : Nat → UInt8) (off n : UInt32) :
    Ends (fun r next => next = s ∧ ((s.node ip).type = T_DEV ∨ r = -1) ∨
      (s.node ip).type ≠ T_DEV ∧ r = n.toInt32 ∧ off.toNat ≤ (s.node ip).size ∧
        Edits refs s next locks ip ((s.node ip).write src off.toNat n.toNat)) faults
      (writei ip src off n) s := by
  have locked := sound.locked ip member
  have fresh := sound.fresh_locked member
  refine (writei_ends tolerant.scarce sound.volume fresh src off n).imp ?_
  rintro r next (nothing | ⟨file, result, adjacent, extends_⟩)
  · exact .inl nothing
  · obtain ⟨din, rewrites, type⟩ := extends_.rewrites
    have kept := sound.rewrites locked.1 locked.2 rewrites type
    refine .inr ⟨file, result, adjacent, kept.1, kept.2, ?_⟩
    rw [extends_.files, fresh.file]
    rfl

end

variable {refs : InodeId → Int} {locks : List InodeId}

theorem Sound.plant {s next : Fs} {i : Nat} {din : Dinode} (sound : Sound s refs locks)
    (free : (s.inodes i).type = 0) (saved : Saved s next (update s.inodes i din)) :
    Sound next refs locks ∧ Stays refs s next := by
  have number : ∀ ip, next.number ip = s.number ip := by
    intro ip
    rw [Fs.number, saved.icache]
  refine ⟨.of_entries saved.volume (fun ip => ?_) ?_, saved.sb, fun ip _ => number ip, ?_⟩
  · refine (sound.entry ip).congr (congrFun saved.icache ip) saved.sb (fun held valid => ?_) rfl
      Iff.rfl
    have coherent := sound.coherent ip held valid
    have other : s.number ip ≠ i := by
      intro equal
      rw [equal] at coherent
      exact coherent.2 ((congrArg Dinode.type coherent.1).trans free)
    rw [saved.inodes, update_of_ne other]
  · intro ip jp heldI heldJ equal
    rw [number, number] at equal
    exact sound.distinct ip jp heldI heldJ equal
  · intro ip held valid
    rw [saved.icache]
    exact ⟨valid, rfl⟩

theorem pointer_new (blocks : UInt32 → Block) (type : Int16) (p : Nat) :
    Dinode.pointer blocks { Dinode.zero with type } p = 0 :=
  pointer_emptied blocks { Dinode.zero with type } p

theorem ialloc_ends {faults : FsFault → Prop} (tolerant : Tolerant faults) {s : Fs}
    (sound : Sound s refs locks) {type : Int16} (typed : type ≠ 0) :
    Ends (fun ip next => Plants refs s next locks ip type) faults (ialloc ROOTDEV type) s := by
  unfold ialloc
  apply Ends.read
  split
  · exact tolerant.fail (by decide)
  rename_i i found
  have free := List.find?_some found
  have member := List.mem_of_find?_eq_some found
  rw [List.mem_range'_1] at member
  have inside : i < s.sb.ninodes.toNat := by omega
  have number : (UInt32.ofNat i).toNat = i :=
    UInt32.toNat_ofNat_of_lt' (Nat.lt_trans inside s.sb.ninodes.toNat_lt)
  have unused : (s.inodes i).type = 0 := by
    rw [Fs.inodes, inodeTable, if_pos inside]
    rw [decide_eq_true_eq, Fs.dinode, number] at free
    exact free
  have pointer : ∀ p, Dinode.pointer s.blocks { Dinode.zero with type } p =
      (s.inodes (UInt32.ofNat i).toNat).pointer s.blocks p := by
    intro p
    rw [pointer_new, number, pointer_free unused]
  have swapped := swap_inode sound.volume.owned sound.volume.full pointer
    fun k _ below => absurd below (Nat.not_lt_zero _)
  have bound : (UInt32.ofNat i).toNat < s.sb.ninodes.toNat := by rwa [number]
  refine (writeDinode_ends tolerant.scarce sound.volume.geometry sound.volume.super
    bound swapped.1 swapped.2).seq fun _ middle saved => ?_
  rw [← saved.sb] at bound
  rw [number] at saved
  have planted := sound.plant unused saved
  refine (iget_ends tolerant planted.1 bound).imp ?_
  rintro ip next ⟨calm, equal, _⟩
  rw [number] at equal
  refine ⟨calm.sound, planted.2.trans calm.stays, ?_, ?_, ?_⟩
  · omega
  · rw [equal]
    exact if_pos unused
  · rw [calm.files, saved.files, equal]
    refine (files_update ..).trans (congrArg (update s.files i) ?_)
    refine (if_neg typed).trans ?_
    simp [newNode, Dinode.zero]

end RtXv6.Fs
