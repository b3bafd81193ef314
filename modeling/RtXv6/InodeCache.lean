import RtXv6.InodeTruncation
import RtXv6.Tally

/-!
# The cache of inodes

Between the functions of `fs.c`, an entry of the cache counts the references that are
held to it, two entries in use are of different inodes, and an entry that has been read
is as its inode on disk. The references are given by a function, the locked entries by a
list, so that every function can say what it takes and what it gives back.

Files change by writing, and by `iput` of the last reference to an inode without links,
which removes the file.
-/

namespace RtXv6.Fs

open Function (update update_self update_of_ne)
open Stateful Tally

/-- The disk holds a file system, and the cache agrees with it and with the references. -/
structure Sound (s : Fs) (refs : InodeId → Int) (locks : List InodeId) : Prop where
  volume : Volume s
  ref : ∀ ip, (s.icache ip).ref = refs ip
  nonneg : ∀ ip, 0 ≤ refs ip
  named : ∀ ip, 0 < refs ip → (s.icache ip).dev = ROOTDEV ∧ s.number ip < s.sb.ninodes.toNat
  distinct : ∀ ip jp, 0 < refs ip → 0 < refs jp → s.number ip = s.number jp → ip = jp
  coherent : ∀ ip, 0 < refs ip → (s.icache ip).valid = true →
    (s.icache ip).toDinode = s.inodes (s.number ip) ∧ (s.icache ip).type ≠ 0
  busy : ∀ ip, (s.icache ip).busy = true ↔ ip ∈ locks
  locked : ∀ ip ∈ locks, 0 < refs ip ∧ (s.icache ip).valid = true

/-- Entries with references keep their inodes, and those that have been read keep their
types. -/
structure Stays (refs : InodeId → Int) (s next : Fs) : Prop where
  sb : next.sb = s.sb
  number : ∀ ip, 0 < refs ip → next.number ip = s.number ip
  valid : ∀ ip, 0 < refs ip → (s.icache ip).valid = true →
    (next.icache ip).valid = true ∧ (next.icache ip).type = (s.icache ip).type

/-- The state with another entry of the inode cache. -/
def withInode (s : Fs) (ip : InodeId) (inode : Inode) : Fs :=
  { s with icache := update s.icache ip inode }

@[simp] theorem withInode_self (s : Fs) (ip : InodeId) (inode : Inode) :
    (s.withInode ip inode).icache ip = inode :=
  update_self ..

theorem withInode_other (s : Fs) {ip jp : InodeId} (inode : Inode) (different : jp ≠ ip) :
    (s.withInode ip inode).icache jp = s.icache jp :=
  update_of_ne different ..

@[simp] theorem withInode_files (s : Fs) (ip : InodeId) (inode : Inode) :
    (s.withInode ip inode).files = s.files := rfl

@[simp] theorem withInode_inodes (s : Fs) (ip : InodeId) (inode : Inode) :
    (s.withInode ip inode).inodes = s.inodes := rfl

theorem mark_pos {item : Type} [DecidableEq item] {b c : item} (refs : item → Int) (nonneg : 0 ≤ refs c)
    (positive : 0 < refs c ∨ c = b) : 0 < (refs + mark (some b)) c := by
  rw [Pi.add_apply]
  have bound := mark_nonneg (some b) c
  rcases positive with positive | rfl
  · omega
  · rw [mark_self]
    omega

section

variable {item : Type} [DecidableEq item] {refs : item → Int}

theorem mark_own (nonneg : ∀ c, 0 ≤ refs c) (b : item) : 0 < (refs + mark (some b)) b :=
  mark_pos refs (nonneg b) (.inr rfl)

theorem mark_nonnegs (nonneg : ∀ c, 0 ≤ refs c) (b : item) : ∀ c, 0 ≤ (refs + mark (some b)) c :=
  fun c => Int.add_nonneg (nonneg c) (mark_nonneg _ _)

theorem mark_more (refs : item → Int) (b : item) :
    ∀ c, 0 < refs c → 0 < (refs + mark (some b)) c := by
  intro c held
  have bound := mark_nonneg (some b) c
  rw [Pi.add_apply]
  omega

end

variable {inode : Inode}

namespace Stays

variable {refs : InodeId → Int} {s next final : Fs}

theorem refl (refs : InodeId → Int) (s : Fs) : Stays refs s s :=
  ⟨rfl, fun _ _ => rfl, fun _ _ valid => ⟨valid, rfl⟩⟩

theorem trans (first : Stays refs s next) (second : Stays refs next final) : Stays refs s final :=
  ⟨second.sb.trans first.sb,
    fun ip held => (second.number ip held).trans (first.number ip held),
    fun ip held valid =>
      ⟨(second.valid ip held (first.valid ip held valid).1).1,
        (second.valid ip held (first.valid ip held valid).1).2.trans
          (first.valid ip held valid).2⟩⟩

theorem mono (stays : Stays refs s next) {fewer : InodeId → Int}
    (less : ∀ ip, 0 < fewer ip → 0 < refs ip) : Stays fewer s next :=
  ⟨stays.sb, fun ip held => stays.number ip (less ip held),
    fun ip held => stays.valid ip (less ip held)⟩

/-- One entry changes, to the same inode if it is in use. -/
theorem withInode (refs : InodeId → Int) (s : Fs) {ip : InodeId}
    (number : 0 < refs ip → inode.inum = (s.icache ip).inum)
    (valid : 0 < refs ip → (s.icache ip).valid = true →
      inode.valid = true ∧ inode.type = (s.icache ip).type) :
    Stays refs s (s.withInode ip inode) := by
  refine ⟨rfl, ?_, ?_⟩
  · intro jp held
    by_cases same : jp = ip
    · subst same
      rw [Fs.number, withInode_self, number held]
    · rw [Fs.number, withInode_other _ _ same]
  · intro jp held before
    by_cases same : jp = ip
    · subst same
      rw [withInode_self]
      exact valid held before
    · rw [withInode_other _ _ same]
      exact ⟨before, rfl⟩

end Stays

variable {list : List InodeId}

/-- What holds of one entry of the cache. -/
structure Entry (s : Fs) (refs : InodeId → Int) (locks : List InodeId) (ip : InodeId) : Prop where
  ref : (s.icache ip).ref = refs ip
  nonneg : 0 ≤ refs ip
  named : 0 < refs ip → (s.icache ip).dev = ROOTDEV ∧ s.number ip < s.sb.ninodes.toNat
  coherent : 0 < refs ip → (s.icache ip).valid = true →
    (s.icache ip).toDinode = s.inodes (s.number ip) ∧ (s.icache ip).type ≠ 0
  busy : (s.icache ip).busy = true ↔ ip ∈ locks
  locked : ip ∈ locks → 0 < refs ip ∧ (s.icache ip).valid = true

theorem Entry.congr {s next : Fs} {refs counts : InodeId → Int} {locks : List InodeId}
    {ip : InodeId} (entry : Entry s refs locks ip) (same : next.icache ip = s.icache ip)
    (sb : next.sb = s.sb)
    (inodes : 0 < refs ip → (s.icache ip).valid = true →
      next.inodes (s.number ip) = s.inodes (s.number ip))
    (count : counts ip = refs ip) (lock : ip ∈ list ↔ ip ∈ locks) : Entry next counts list ip := by
  have number : next.number ip = s.number ip := by rw [Fs.number, same]
  refine ⟨?_, ?_, ?_, ?_, ?_, ?_⟩
  · rw [same, count]
    exact entry.ref
  · rw [count]
    exact entry.nonneg
  · rw [number, same, sb, count]
    exact entry.named
  · intro held valid
    rw [count] at held
    rw [same] at valid ⊢
    rw [number, inodes held valid]
    exact entry.coherent held valid
  · rw [same, lock]
    exact entry.busy
  · rw [same, lock, count]
    exact entry.locked

theorem Sound.of_entries {s : Fs} {refs : InodeId → Int} {locks : List InodeId} (volume : Volume s)
    (entries : ∀ ip, Entry s refs locks ip)
    (distinct : ∀ ip jp, 0 < refs ip → 0 < refs jp → s.number ip = s.number jp → ip = jp) :
    Sound s refs locks :=
  ⟨volume, fun ip => (entries ip).ref, fun ip => (entries ip).nonneg, fun ip => (entries ip).named,
    distinct, fun ip => (entries ip).coherent, fun ip => (entries ip).busy,
    fun ip => (entries ip).locked⟩

namespace Sound

variable {s next : Fs} {refs : InodeId → Int} {locks : List InodeId} {ip : InodeId}

variable (sound : Sound s refs locks)
include sound

theorem congr {others : InodeId → Int} (counts : ∀ ip, others ip = refs ip)
    (same : ∀ ip, ip ∈ list ↔ ip ∈ locks) : Sound s others list := by
  obtain rfl : others = refs := funext counts
  exact ⟨sound.volume, sound.ref, sound.nonneg, sound.named, sound.distinct, sound.coherent,
    fun ip => (sound.busy ip).trans (same ip).symm,
    fun ip member => sound.locked ip ((same ip).mp member)⟩

theorem fresh (held : 0 < refs ip) (valid : (s.icache ip).valid = true) : Fresh s ip :=
  ⟨(sound.named ip held).1, (sound.named ip held).2, (sound.coherent ip held valid).2,
    (sound.coherent ip held valid).1⟩

theorem fresh_locked (member : ip ∈ locks) : Fresh s ip :=
  sound.fresh (sound.locked ip member).1 (sound.locked ip member).2

theorem entry (ip : InodeId) : Entry s refs locks ip :=
  ⟨sound.ref ip, sound.nonneg ip, sound.named ip, sound.coherent ip, sound.busy ip,
    sound.locked ip⟩

/-- One entry changes, and its references and its lock with it. -/
theorem withInode {counts : InodeId → Int} (others : ∀ jp, jp ≠ ip → counts jp = refs jp)
    (ref : inode.ref = counts ip) (nonneg : 0 ≤ counts ip)
    (named : 0 < counts ip → inode.dev = ROOTDEV ∧ inode.inum.toNat < s.sb.ninodes.toNat)
    (distinct : ∀ jp, jp ≠ ip → 0 < counts ip → 0 < refs jp → s.number jp ≠ inode.inum.toNat)
    (coherent : 0 < counts ip → inode.valid = true →
      inode.toDinode = s.inodes inode.inum.toNat ∧ inode.type ≠ 0)
    (busy : inode.busy = true ↔ ip ∈ list) (same : ∀ jp, jp ≠ ip → (jp ∈ list ↔ jp ∈ locks))
    (locked : ip ∈ list → 0 < counts ip ∧ inode.valid = true) :
    Sound (s.withInode ip inode) counts list := by
  refine .of_entries ⟨sound.volume.geometry, sound.volume.super, sound.volume.owned,
    sound.volume.full⟩ (fun jp => ?_) fun jp kp heldJ heldK equal => ?_
  · by_cases here : jp = ip
    · subst here
      refine ⟨?_, nonneg, ?_, ?_, ?_, ?_⟩
      all_goals simp only [number, withInode_self]
      · exact ref
      · exact named
      · exact coherent
      · exact busy
      · exact locked
    · exact (sound.entry jp).congr (withInode_other _ _ here) rfl (fun _ _ => rfl) (others jp here)
        (same jp here)
  by_cases isJ : jp = ip
  · by_cases isK : kp = ip
    · rw [isJ, isK]
    · subst isJ
      rw [number, number, withInode_self, withInode_other _ _ isK] at equal
      rw [others kp isK] at heldK
      exact absurd equal.symm (distinct kp isK heldJ heldK)
  rw [others jp isJ] at heldJ
  by_cases isK : kp = ip
  · subst isK
    rw [number, number, withInode_self, withInode_other _ _ isJ] at equal
    exact absurd equal (distinct jp isJ heldK heldJ)
  · rw [others kp isK] at heldK
    rw [number, number, withInode_other _ _ isJ, withInode_other _ _ isK] at equal
    exact sound.distinct jp kp heldJ heldK equal

/-- The inode of an entry has changed in memory and on disk. -/
theorem rewrites {din : Dinode} (held : 0 < refs ip) (valid : (s.icache ip).valid = true)
    (changed : Rewrites s next ip din) (type : din.type = (s.icache ip).type) :
    Sound next refs locks ∧ Stays refs s next := by
  have self : next.icache ip = { s.icache ip with toDinode := din } := by
    rw [changed.icache, update_self]
  have other : ∀ jp, jp ≠ ip → next.icache jp = s.icache jp := by
    intro jp different
    rw [changed.icache, update_of_ne different]
  have numbers : ∀ jp, next.number jp = s.number jp := by
    intro jp
    by_cases here : jp = ip
    · rw [here, number, self]
    · rw [number, other jp here]
  refine ⟨.of_entries changed.volume (fun jp => ?_) fun jp kp heldJ heldK equal => ?_,
    changed.sb, fun jp _ => numbers jp, fun jp _ readJ => ?_⟩
  · by_cases here : jp = ip
    · subst here
      refine ⟨?_, sound.nonneg jp, ?_, fun _ _ => ?_, ?_, ?_⟩
      · rw [self]
        exact sound.ref jp
      · rw [numbers, self, changed.sb]
        exact sound.named jp
      · rw [numbers, self, changed.inodes, update_self]
        exact ⟨rfl, by rw [type]; exact (sound.coherent jp held valid).2⟩
      · rw [self]
        exact sound.busy jp
      · rw [self]
        exact sound.locked jp
    · refine (sound.entry jp).congr (other jp here) changed.sb (fun heldJ _ => ?_) rfl Iff.rfl
      have different : s.number jp ≠ s.number ip :=
        fun equal => here (sound.distinct jp ip heldJ held equal)
      rw [changed.inodes, update_of_ne different]
  · rw [numbers, numbers] at equal
    exact sound.distinct jp kp heldJ heldK equal
  · by_cases here : jp = ip
    · subst here
      rw [self]
      exact ⟨valid, type⟩
    · rw [other jp here]
      exact ⟨readJ, rfl⟩

end Sound

/-- References and locks have changed, entries with the given references have stayed, and the
files are the same. -/
structure Calm (refs : InodeId → Int) (s next : Fs) (counts : InodeId → Int)
    (locks : List InodeId) : Prop where
  sound : Sound next counts locks
  stays : Stays refs s next
  files : next.files = s.files

/-- The last reference to a file without links. -/
def LastLink (s : Fs) (refs : InodeId → Int) (ip : InodeId) : Prop :=
  refs ip = 0 ∧ (s.icache ip).valid = true ∧
    ∃ node, s.files (s.number ip) = some node ∧ node.nlink = 0

/-- A reference has been given back, and with the last one to a file without links the file
has been removed. -/
structure Puts (refs : InodeId → Int) (s next : Fs) (locks : List InodeId) (ip : InodeId) :
    Prop where
  sound : Sound next refs locks
  stays : Stays refs s next
  kept : ¬ LastLink s refs ip → next.files = s.files
  gone : LastLink s refs ip → next.files = update s.files (s.number ip) none

/-- The file that the copy of an inode describes. -/
def node (s : Fs) (ip : InodeId) : FileNode :=
  { type := (s.icache ip).type
    major := (s.icache ip).major
    minor := (s.icache ip).minor
    nlink := (s.icache ip).nlink
    size := (s.icache ip).size.toNat
    byte := fun pos => if pos < (s.icache ip).size.toNat then s.byteOf ip pos else 0 }

/-- The file on disk is that of its cache entry, once it has been read. -/
theorem Fresh.file {s : Fs} {ip : InodeId} (fresh : Fresh s ip) :
    s.files (s.number ip) = some (s.node ip) := by
  rw [← fresh.file_self]
  exact if_neg fresh.live

theorem Volume.node_size {s : Fs} {ip : InodeId} (volume : Volume s) (fresh : Fresh s ip) :
    (s.node ip).size ≤ 71680 := by
  have live := fresh.live
  rw [fresh.copy] at live
  have bound := volume.size_le live
  rwa [← fresh.copy] at bound

variable {inum : UInt32}

section

variable {faults : FsFault → Prop} (tolerant : Tolerant faults) {s : Fs} {refs : InodeId → Int}
  {locks : List InodeId} {ip : InodeId}

theorem Sound.gain (sound : Sound s refs locks) (held : 0 < refs ip) :
    Calm refs s (s.withInode ip { s.icache ip with ref := (s.icache ip).ref + 1 })
      (refs + mark (some ip)) locks := by
  have bound := sound.nonneg ip
  refine ⟨sound.withInode (fun _ => mark_except refs) ?_ ?_ ?_ ?_ ?_ ?_ ?_ ?_,
    Stays.withInode _ _ (fun _ => rfl) fun _ valid => ⟨valid, rfl⟩, rfl⟩
  · rw [Pi.add_apply, mark_self, ← sound.ref]
  · rw [Pi.add_apply, mark_self]
    omega
  · exact fun _ => sound.named ip held
  · exact fun jp different _ heldJ equal => different (sound.distinct jp ip heldJ held equal)
  · exact fun _ => sound.coherent ip held
  · exact sound.busy ip
  · exact fun _ _ => Iff.rfl
  · intro member
    exact ⟨mark_pos refs bound (.inr rfl), (sound.locked ip member).2⟩

/-- `iget` takes the entry in use with the number, or else a free one. -/
theorem iget_cases {dev : UInt32} {post : InodeId → Fs → Prop}
    (full : (∀ ip, (s.icache ip).ref ≠ 0) → faults (.panic "iget: no inodes"))
    (found : ∀ ip, 0 < (s.icache ip).ref → (s.icache ip).dev = dev → (s.icache ip).inum = inum →
      post ip (s.withInode ip { s.icache ip with ref := (s.icache ip).ref + 1 }))
    (taken : ∀ ip, (s.icache ip).ref = 0 → (∀ jp, 0 < (s.icache jp).ref →
        (s.icache jp).dev = dev → (s.icache jp).inum ≠ inum) →
      post ip (s.withInode ip { s.icache ip with
        dev, inum, ref := 1, busy := false, valid := false })) :
    Ends post faults (iget dev inum) s := by
  apply Ends.read
  split
  · rename_i ip first
    have match_ := List.find?_some first
    rw [decide_eq_true_eq] at match_
    exact found ip match_.1 match_.2.1 match_.2.2
  rename_i absent
  split
  · rename_i none
    refine .fail (full fun ip => ?_)
    have used := List.find?_eq_none.mp none ip (List.mem_finRange ip)
    rwa [decide_eq_true_eq] at used
  rename_i ip first
  have unused := List.find?_some first
  rw [decide_eq_true_eq] at unused
  refine taken ip unused fun jp held root equal => ?_
  have missing := List.find?_eq_none.mp absent jp (List.mem_finRange jp)
  rw [decide_eq_true_eq] at missing
  exact missing ⟨held, root, equal⟩

include tolerant

theorem iget_ends (sound : Sound s refs locks) (inside : inum.toNat < s.sb.ninodes.toNat) :
    Ends (fun ip next => Calm refs s next (refs + mark (some ip)) locks ∧
      next.number ip = inum.toNat ∧ (refs ip = 0 → (next.icache ip).valid = false)) faults
      (iget ROOTDEV inum) s := by
  refine iget_cases (fun _ => tolerant.other (by decide)) (fun ip used _ number => ?_)
    fun ip unused absent => ?_
  · have held : 0 < refs ip := by
      rw [← sound.ref]
      exact used
    refine ⟨sound.gain held, ?_, fun zero => ?_⟩
    · show ((s.withInode ip _).icache ip).inum.toNat = inum.toNat
      rw [withInode_self]
      exact congrArg UInt32.toNat number
    · omega
  have zero : refs ip = 0 := by
    rw [← sound.ref, unused]
  have unlocked : ip ∉ locks := by
    intro member
    have held := (sound.locked ip member).1
    omega
  have one : (refs + mark (some ip)) ip = 1 := by
    rw [Pi.add_apply, mark_self, zero]
    rfl
  have result : Sound (s.withInode ip { s.icache ip with
      dev := ROOTDEV, inum, ref := 1, busy := false, valid := false })
      (refs + mark (some ip)) locks := by
    refine sound.withInode (fun _ => mark_except refs) ?_ ?_ ?_ ?_ ?_ ?_ ?_ ?_
    · exact one.symm
    · rw [one]
      decide
    · exact fun _ => ⟨rfl, inside⟩
    · intro jp different _ heldJ equal
      exact absent jp (by rw [sound.ref]; exact heldJ) (sound.named jp heldJ).1
        (UInt32.toNat_inj.mp equal)
    · intro _ valid
      cases valid
    · constructor
      · intro busy
        cases busy
      · exact fun member => absurd member unlocked
    · exact fun _ _ => Iff.rfl
    · exact fun member => absurd member unlocked
  refine ⟨⟨result, Stays.withInode _ _ (fun held => ?_) fun held => ?_, rfl⟩, ?_, fun _ => ?_⟩
  · omega
  · omega
  · show ((s.withInode ip _).icache ip).inum.toNat = inum.toNat
    rw [withInode_self]
  · rw [withInode_self]

omit tolerant in
theorem idup_ends (sound : Sound s refs locks) (held : 0 < refs ip) :
    Ends (fun dup next => dup = ip ∧ Calm refs s next (refs + mark (some ip)) locks) faults (idup ip)
      s :=
  ⟨rfl, sound.gain held⟩

theorem ilock_ends (sound : Sound s refs locks) (held : 0 < refs ip)
    (typed : s.files (s.number ip) ≠ none ∨ faults (.panic "ilock: no type")) :
    Ends (fun _ next => Calm refs s next refs (ip :: locks) ∧ ip ∉ locks) faults (ilock ip) s := by
  have named := sound.named ip held
  have disk : s.dinode (s.icache ip).dev (s.icache ip).inum = s.inodes (s.number ip) := by
    rw [named.1]
    exact (inodeTable_num named.2).symm
  apply Ends.read
  rw [sound.ref, if_neg (by omega)]
  by_cases busy : (s.icache ip).busy = true
  · rw [if_pos busy]
    exact tolerant.fail (by decide)
  have unlocked : ip ∉ locks := fun member => busy ((sound.busy ip).mpr member)
  have lock : ∀ inode : Inode, inode.dev = (s.icache ip).dev → inode.inum = (s.icache ip).inum →
      inode.ref = (s.icache ip).ref → inode.busy = true → inode.valid = true →
      inode.toDinode = s.inodes (s.number ip) → inode.type ≠ 0 →
      Calm refs s (s.withInode ip inode) refs (ip :: locks) := by
    intro inode dev inum ref isBusy isValid copy live
    refine ⟨sound.withInode ?_ ?_ ?_ ?_ ?_ ?_ ?_ ?_ ?_,
      Stays.withInode _ _ (fun _ => inum) fun _ valid => ⟨isValid, ?_⟩, rfl⟩
    · exact fun _ _ => rfl
    · rw [ref]
      exact sound.ref ip
    · omega
    · rw [dev, inum]
      exact fun _ => named
    · rw [inum]
      exact fun jp different _ heldJ equal => different (sound.distinct jp ip heldJ held equal)
    · rw [inum]
      exact fun _ _ => ⟨copy, live⟩
    · exact ⟨fun _ => List.mem_cons_self, fun _ => isBusy⟩
    · intro jp different
      rw [List.mem_cons]
      exact ⟨fun member => member.resolve_left different, .inr⟩
    · exact fun _ => ⟨held, isValid⟩
    · exact congrArg Dinode.type (copy.trans (sound.coherent ip held valid).1.symm)
  rw [if_neg busy]
  by_cases valid : (s.icache ip).valid = true
  · rw [if_pos valid]
    have coherent := sound.coherent ip held valid
    exact ⟨lock _ rfl rfl rfl rfl valid coherent.1 coherent.2, unlocked⟩
  rw [if_neg valid]
  by_cases free : (s.dinode (s.icache ip).dev (s.icache ip).inum).type = 0
  · rw [if_pos free]
    rw [disk] at free
    exact .fail (typed.resolve_left fun present => present (if_pos free))
  · rw [if_neg free]
    exact ⟨lock _ rfl rfl rfl rfl rfl disk free, unlocked⟩

theorem iunlock_ends (sound : Sound s refs (ip :: locks)) (once : ip ∉ locks) :
    Ends (fun _ next => Calm refs s next refs locks) faults (iunlock ip) s := by
  have held := (sound.locked ip List.mem_cons_self).1
  apply Ends.read
  by_cases bad : (s.icache ip).busy = false ∨ (s.icache ip).ref < 1
  · rw [if_pos bad]
    exact tolerant.fail (by decide)
  rw [if_neg bad]
  refine ⟨sound.withInode ?_ ?_ ?_ ?_ ?_ ?_ ?_ ?_ ?_,
    Stays.withInode _ _ (fun _ => rfl) fun _ valid => ⟨valid, rfl⟩, rfl⟩
  · exact fun _ _ => rfl
  · exact sound.ref ip
  · omega
  · exact fun _ => sound.named ip held
  · exact fun jp different _ heldJ equal => different (sound.distinct jp ip heldJ held equal)
  · exact fun _ => sound.coherent ip held
  · constructor
    · intro busy
      cases busy
    · exact fun member => absurd member once
  · intro jp different
    rw [List.mem_cons]
    exact ⟨.inr, fun member => member.resolve_left different⟩
  · exact fun member => absurd member once

end

variable {refs : InodeId → Int} {locks : List InodeId}

/-- The last reference to an entry is gone, and its inode may have changed. -/
theorem Sound.dismiss {s next : Fs} {ip : InodeId} (sound : Sound s (refs + mark (some ip)) locks)
    (none : refs ip = 0) (volume : Volume next) (sb : next.sb = s.sb)
    (others : ∀ jp, jp ≠ ip → next.icache jp = s.icache jp) (ref : (next.icache ip).ref = 0)
    (idle : (next.icache ip).busy = false) (unlocked : ip ∉ locks)
    (inodes : ∀ i, i ≠ s.number ip → next.inodes i = s.inodes i) :
    Sound next refs locks ∧ Stays refs s next := by
  have same : ∀ jp, jp ≠ ip → (refs + mark (some ip)) jp = refs jp := fun _ => mark_except refs
  have self : 0 < (refs + mark (some ip)) ip := by
    rw [Pi.add_apply, mark_self]
    omega
  have other : ∀ jp, 0 < refs jp → jp ≠ ip ∧ 0 < (refs + mark (some ip)) jp := by
    intro jp held
    have different : jp ≠ ip := by
      rintro rfl
      omega
    rw [same jp different]
    exact ⟨different, held⟩
  have number : ∀ jp, jp ≠ ip → next.number jp = s.number jp := by
    intro jp different
    rw [Fs.number, others jp different]
  refine ⟨.of_entries volume (fun jp => ?_) fun jp kp heldJ heldK equal => ?_, sb,
    fun jp held => number jp (other jp held).1,
    fun jp held valid => by rw [others jp (other jp held).1]; exact ⟨valid, rfl⟩⟩
  · by_cases here : jp = ip
    · subst here
      refine ⟨ref.trans none.symm, none.ge, fun held => ?_, fun held => ?_, ?_,
        fun member => absurd member unlocked⟩
      · omega
      · omega
      · rw [idle]
        exact ⟨fun busy => absurd busy Bool.false_ne_true, fun member => absurd member unlocked⟩
    · refine (sound.entry jp).congr (others jp here) sb (fun held _ => inodes _ ?_) (same jp here).symm
        Iff.rfl
      exact fun equal => here (sound.distinct jp ip held self equal)
  · rw [number jp (other jp heldJ).1, number kp (other kp heldK).1] at equal
    exact sound.distinct jp kp (other jp heldJ).2 (other kp heldK).2 equal

variable {change : Inode → Inode}

/-- An entry of the cache changes, and the program goes on. -/
theorem modifyInode_next {β : Type} {s : Fs} {ip : InodeId} {next : Unit → FsM β}
    {post : β → Fs → Prop} {faults : FsFault → Prop}
    (continues : Ends post faults (next ()) (s.withInode ip (change (s.icache ip)))) :
    Ends post faults (modifyInode ip change >>= next) s :=
  continues

theorem modifyInode_ends {s final : Fs} {ip : InodeId} {post : Unit → Fs → Prop}
    {faults : FsFault → Prop} (shape : final = s.withInode ip (change (s.icache ip)))
    (holds : post () final) : Ends post faults (modifyInode ip change) s := by
  rw [shape] at holds
  exact holds

theorem pointer_emptied (blocks : UInt32 → Block) (din : Dinode) (p : Nat) :
    din.emptied.pointer blocks p = 0 := by
  by_cases live : din.emptied.type = 0
  · exact pointer_free live p
  by_cases addr : p < NDIRECT + 1
  · exact pointer_addr live ⟨p, addr⟩
  · exact pointer_none (Nat.not_lt.mp addr) (.inl rfl)

section

variable {faults : FsFault → Prop} (tolerant : Tolerant faults) {s : Fs} {ip : InodeId}
include tolerant

/-- What `iput` does to the disk and to its entry with the last reference to a file without
links. -/
theorem ifree_ends (volume : Volume s) (fresh : Fresh s ip) :
    Ends (fun _ next => Volume next ∧ next.sb = s.sb ∧
      (∀ jp, jp ≠ ip → next.icache jp = s.icache jp) ∧
      (next.icache ip).ref = (s.icache ip).ref ∧ (next.icache ip).busy = false ∧
      (∀ i, i ≠ s.number ip → next.inodes i = s.inodes i) ∧
      next.files = update s.files (s.number ip) none) faults (ifree ip) s := by
  refine modifyInode_next ?_
  obtain ⟨busy, isBusy⟩ : ∃ busy, busy = s.withInode ip { s.icache ip with busy := true } := ⟨_, rfl⟩
  rw [← isBusy]
  have entry : busy.icache ip = { s.icache ip with busy := true } := by rw [isBusy, withInode_self]
  have number : busy.number ip = s.number ip := by rw [Fs.number, entry]
  have volumeBusy : Volume busy := by
    rw [isBusy]
    exact ⟨volume.geometry, volume.super, volume.owned, volume.full⟩
  have freshBusy : Fresh busy ip := by
    refine ⟨?_, ?_, ?_, ?_⟩
    · rw [entry]
      exact fresh.dev
    · rw [number, isBusy]
      exact fresh.inside
    · rw [entry]
      exact fresh.live
    · rw [number, entry, isBusy]
      exact fresh.copy
  refine (itrunc_ends tolerant volumeBusy freshBusy).seq fun _ empty rewrites => ?_
  have emptyEntry : empty.icache ip =
      { busy.icache ip with toDinode := (busy.icache ip).emptied } := by
    rw [rewrites.icache, update_self]
  have emptyNumber : empty.number ip = s.number ip := by
    rw [Fs.number, emptyEntry]
    exact number
  have emptyInode : empty.inodes (empty.number ip) = (busy.icache ip).emptied := by
    rw [rewrites.inodes, emptyNumber, number, update_self]
  obtain ⟨draft, working⟩ : Draft (empty.ahead ip empty.disk empty.log
      { (empty.icache ip).toDinode with type := 0 }) ip ∧ _ := by
    refine swap_draft rewrites.volume.geometry rewrites.volume.super ?_ ?_ rewrites.volume.owned
      rewrites.volume.full rfl (fun p => ?_) fun k live => absurd rfl live
    · rw [emptyEntry, entry]
      exact fresh.dev
    · rw [emptyNumber, rewrites.sb, isBusy]
      exact fresh.inside
    · rw [pointer_free rfl, emptyInode, pointer_emptied]
  refine modifyInode_next ?_
  refine (iupdate_ends tolerant.scarce draft).seq fun _ stored saved => ?_
  have others : ∀ jp, jp ≠ ip → stored.icache jp = s.icache jp := by
    intro jp different
    rw [saved.icache, ahead_icache_other _ _ _ _ different, rewrites.icache,
      update_of_ne different, isBusy, withInode_other _ _ different]
  have ref : (stored.icache ip).ref = (s.icache ip).ref := by
    rw [saved.icache, ahead_icache_self, emptyEntry, entry]
  have inodes : stored.inodes = update empty.inodes (empty.number ip)
      { (empty.icache ip).toDinode with type := 0 } := saved.inodes.trans working
  have files : stored.files = update s.files (s.number ip) none := by
    rw [saved.files, working]
    funext i
    show (update empty.inodes (empty.number ip) _ i).file empty.blocks = _
    by_cases own : i = s.number ip
    · rw [own, emptyNumber, update_self, update_self]
      exact if_pos rfl
    rw [update_of_ne (by rwa [emptyNumber]), update_of_ne own]
    have kept := rewrites.others i (by rwa [number])
    rw [isBusy, withInode_files] at kept
    exact kept
  obtain ⟨final, isFinal⟩ : ∃ final, final =
      stored.withInode ip { stored.icache ip with busy := false, valid := false } := ⟨_, rfl⟩
  refine modifyInode_ends isFinal ⟨?_, ?_, ?_, ?_, ?_, ?_, ?_⟩
  · rw [isFinal]
    exact ⟨saved.volume.geometry, saved.volume.super, saved.volume.owned, saved.volume.full⟩
  · rw [isFinal]
    show stored.sb = s.sb
    rw [saved.sb, ahead_sb, rewrites.sb, isBusy]
    rfl
  · intro jp different
    rw [isFinal, withInode_other _ _ different, others jp different]
  · rw [isFinal, withInode_self]
    exact ref
  · rw [isFinal, withInode_self]
  · intro i different
    rw [isFinal, withInode_inodes, inodes, update_of_ne (by rwa [emptyNumber]),
      rewrites.inodes, update_of_ne (by rwa [number]), isBusy, withInode_inodes]
  · rw [isFinal, withInode_files, files]

theorem iput_ends (sound : Sound s (refs + mark (some ip)) locks) (nonneg : 0 ≤ refs ip)
    (locked : ip ∈ locks → 0 < refs ip) :
    Ends (fun _ next => Puts refs s next locks ip) faults (iput ip) s := by
  have count : (s.icache ip).ref = refs ip + 1 := by
    rw [sound.ref, Pi.add_apply, mark_self]
  have held : 0 < (refs + mark (some ip)) ip := mark_pos refs nonneg (.inr rfl)
  apply Ends.read
  by_cases last : (s.icache ip).ref = 1 ∧ (s.icache ip).valid = true ∧ (s.icache ip).nlink = 0
  · have none : refs ip = 0 := by omega
    have unlocked : ip ∉ locks := by
      intro member
      have held := locked member
      omega
    have idle : (s.icache ip).busy = false := by
      cases busy : (s.icache ip).busy with
      | false => rfl
      | true => exact absurd ((sound.busy ip).mp busy) unlocked
    have gone : LastLink s refs ip :=
      ⟨none, last.2.1, s.node ip, (sound.fresh held last.2.1).file, last.2.2⟩
    rw [if_pos last, idle, if_neg Bool.false_ne_true]
    refine (ifree_ends tolerant sound.volume (sound.fresh held last.2.1)).seq ?_
    rintro _ freed ⟨volume, sb, entries, ref, notBusy, inodes, files⟩
    obtain ⟨final, isFinal⟩ : ∃ final, final =
        freed.withInode ip { freed.icache ip with ref := (freed.icache ip).ref - 1 } := ⟨_, rfl⟩
    obtain ⟨soundFinal, stays⟩ : Sound final refs locks ∧ Stays refs s final := by
      refine sound.dismiss none ?_ ?_ ?_ ?_ ?_ unlocked ?_
      · rw [isFinal]
        exact ⟨volume.geometry, volume.super, volume.owned, volume.full⟩
      · rw [isFinal]
        exact sb
      · intro jp different
        rw [isFinal, withInode_other _ _ different, entries jp different]
      · rw [isFinal, withInode_self]
        show (freed.icache ip).ref - 1 = 0
        omega
      · rw [isFinal, withInode_self]
        exact notBusy
      · intro i different
        rw [isFinal, withInode_inodes, inodes i different]
    refine modifyInode_ends isFinal ⟨soundFinal, stays, fun kept => absurd gone kept, fun _ => ?_⟩
    rw [isFinal, withInode_files, files]
  · have kept : ¬ LastLink s refs ip := by
      rintro ⟨none, valid, node, present, nlink⟩
      rw [(sound.fresh held valid).file] at present
      cases present
      exact last ⟨by omega, valid, nlink⟩
    rw [if_neg last]
    refine ⟨sound.withInode (fun _ other => (mark_except refs other).symm) ?_ nonneg ?_ ?_ ?_ ?_ ?_ ?_,
      Stays.withInode _ _ (fun _ => rfl) fun _ valid => ⟨valid, rfl⟩, fun _ => rfl,
      fun gone => absurd gone kept⟩
    · show (s.icache ip).ref - 1 = refs ip
      omega
    · exact fun _ => sound.named ip held
    · exact fun jp different _ heldJ equal => different (sound.distinct jp ip heldJ held equal)
    · exact fun _ => sound.coherent ip held
    · exact sound.busy ip
    · exact fun _ _ => Iff.rfl
    · exact fun member => ⟨locked member, (sound.locked ip member).2⟩

end

end RtXv6.Fs
