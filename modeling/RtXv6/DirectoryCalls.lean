import RtXv6.FsFrames
import RtXv6.PathLookup

/-!
# What `link`, `unlink` and `create` do to the files

These calls change a file and the directory that names it. When the files without links
are anchored before a call, what it does is one change of the files, after which files
without links may be removed; and the files without links are anchored again.
-/

namespace RtXv6

open Function (forall_update_iff update update_self update_of_ne update_idem update_eq_self
  update_comm)
open List (mem_cons_of_mem mem_cons_self mem_pair mem_singleton not_mem_nil)

variable {k i : Nat}

namespace FileNode

/-- A directory without an entry, and without the link from a directory that the entry named. -/
def without (dir : FileNode) (k : Nat) (node : FileNode) : FileNode :=
  if node.type = T_DIR then (dir.setDirent k Dirent.zero).relink (· - 1)
  else dir.setDirent k Dirent.zero

/-- A directory that is about to get an entry for a new file. -/
def parent (dir : FileNode) (type : Int16) : FileNode :=
  if type = T_DIR then dir.relink (· + 1) else dir

variable {type : Int16}

theorem Vacant.of_parent {dir : FileNode} (vacant : (dir.parent type).Vacant k) : dir.Vacant k := by
  unfold parent at vacant
  split at vacant
  · exact vacant
  · exact vacant

/-- A new file; a directory has entries for itself and its parent. -/
inductive Made (type major minor : Int16) (i d : Nat) : FileNode → Prop
  | file (file : type ≠ T_DIR) : Made type major minor i d ((Fs.newNode type).restamp major minor 1)
  | directory {j k : Nat} (directory : type = T_DIR)
      (self : ((Fs.newNode type).restamp major minor 1).Vacant j)
      (up : (((Fs.newNode type).restamp major minor 1).setDirent j
        (Dirent.make (UInt16.ofNat i) Fs.dot)).Vacant k) :
      Made type major minor i d ((((Fs.newNode type).restamp major minor 1).setDirent j
        (Dirent.make (UInt16.ofNat i) Fs.dot)).setDirent k
        (Dirent.make (UInt16.ofNat d) Fs.dotdot))

theorem Made.type_eq {major minor : Int16} {d : Nat} {made : FileNode}
    (new : Made type major minor i d made) : made.type = type := by
  cases new with
  | file => rfl
  | directory => rfl

end FileNode

variable {effect : (Nat → Option FileNode) → Prop} {files : Nat → Option FileNode}
  {others : InodeId → Int}

namespace Fs

open Stateful Tally PointUpdates

/-- The ways to change a name. -/
inductive Change where
  | link
  | unlink
  | make
  deriving DecidableEq, Repr

/-- A change of the files by one call, at a name that a path leads to. -/
inductive Effect (files : Nat → Option FileNode) (origin : Nat) (path : List UInt8) :
    Change → (Nat → Option FileNode) → Prop
  | nothing {change : Change} : Effect files origin path change files
  | link {i d k : Nat} {name : List UInt8} {node dir : FileNode}
      (leads : Leads files true origin path d name) (present : files i = some node)
      (file : node.type ≠ T_DIR) (directory : files d = some dir) (isDir : dir.type = T_DIR)
      (misses : dir.Misses name) (vacant : dir.Vacant k) :
      Effect files origin path .link (update (update files i
        (some (node.relink (· + 1)))) d
        (some (dir.setDirent k (Dirent.make (UInt16.ofNat i) name))))
  | unlink {d k : Nat} {name : List UInt8} {node dir : FileNode}
      (leads : Leads files true origin path d name) (directory : files d = some dir)
      (isDir : dir.type = T_DIR) (notDot : namecmp name dot ≠ 0)
      (notDotdot : namecmp name dotdot ≠ 0) (finds : dir.Finds name k)
      (other : dir.target k ≠ d) (present : files (dir.target k) = some node)
      (linked : ¬ node.nlink < 1)
      (empty : node.type = T_DIR → ∀ j, 2 ≤ j → 16 * j < node.size → node.target j = 0) :
      Effect files origin path .unlink (update (update files d
        (some (dir.without k node))) (dir.target k) (some (node.relink (· - 1))))
  | make {i d k : Nat} {name : List UInt8} {dir made : FileNode} {type major minor : Int16}
      (leads : Leads files true origin path d name) (directory : files d = some dir)
      (isDir : dir.type = T_DIR) (misses : dir.Misses name) (vacant : dir.Vacant k)
      (free : files i = none) (proper : 1 ≤ i) (typed : type ≠ 0)
      (new : FileNode.Made type major minor i d made) :
      Effect files origin path .make (update (update files i (some made)) d
        (some ((dir.parent type).setDirent k (Dirent.make (UInt16.ofNat i) name))))

/-- A call, or a part of it, has changed the files and left references and locks. -/
structure Settles (refs : InodeId → Int) (s next : Fs) (counts : InodeId → Int)
    (locks : List InodeId) (effect : (Nat → Option FileNode) → Prop) : Prop where
  sound : Sound next counts locks
  inside : Inside next
  stays : Stays refs s next
  anchored : Anchored refs s →
    Anchored counts next ∧ ∃ edited, effect edited ∧ Prunes edited next.files

/-- The files have become these, with the same references and locks. -/
structure Reaches (refs : InodeId → Int) (s next : Fs) (locks : List InodeId)
    (files : Nat → Option FileNode) : Prop where
  sound : Sound next refs locks
  inside : Inside next
  stays : Stays refs s next
  files : next.files = files
  anchored : Anchored refs s → Anchored refs next

/-- The end of a call that gives back a reference after a change of the files. -/
structure Drops (before refs : InodeId → Int) (s next : Fs) (locks : List InodeId)
    (edited : Nat → Option FileNode) : Prop where
  sound : Sound next refs locks
  inside : Inside next
  stays : Stays refs s next
  prunes : Prunes edited next.files
  anchored : Anchored before s → Anchored refs next

section

variable {s next : Fs} {refs counts : InodeId → Int} {locks : List InodeId} {ip : InodeId}

theorem Sound.logged (sound : Sound s refs locks) (log : Log) :
    Calm refs s { s with log } refs locks :=
  ⟨⟨⟨sound.volume.geometry, sound.volume.super, sound.volume.owned, sound.volume.full⟩, sound.ref,
    sound.nonneg, sound.named, sound.distinct, sound.coherent, sound.busy, sound.locked⟩,
    ⟨rfl, fun _ _ => rfl, fun _ _ valid => ⟨valid, rfl⟩⟩, rfl⟩

theorem Sound.present (sound : Sound s refs locks) (held : 0 < refs ip)
    (valid : (s.icache ip).valid = true) : s.files (s.number ip) = some (s.node ip) :=
  (sound.fresh held valid).file

theorem Sound.present_locked (sound : Sound s refs locks) (member : ip ∈ locks) :
    s.files (s.number ip) = some (s.node ip) :=
  (sound.fresh_locked member).file

variable {node : FileNode}

theorem Sound.node_eq (sound : Sound s refs locks) (member : ip ∈ locks)
    (file : s.files (s.number ip) = some node) : s.node ip = node := by
  rw [sound.present_locked member] at file
  exact Option.some.inj file

theorem Calm.node_eq (calm : Calm refs s next counts locks) (held : 0 < refs ip)
    (member : ip ∈ locks) (file : s.files (s.number ip) = some node) : next.node ip = node := by
  apply calm.sound.node_eq member
  rw [calm.files, calm.stays.number ip held]
  exact file

theorem Edits.node_eq (edits : Edits refs s next locks ip node) (member : ip ∈ locks) :
    next.node ip = node := by
  apply edits.sound.node_eq member
  rw [edits.files, edits.stays.number ip (edits.sound.locked ip member).1, update_self]

variable {middle : Fs}

theorem Edits.trans {first second : FileNode} (edits : Edits refs s middle locks ip first)
    (again : Edits refs middle next locks ip second) (member : ip ∈ locks) :
    Edits refs s next locks ip second := by
  refine ⟨again.sound, edits.stays.trans again.stays, ?_⟩
  rw [again.files, edits.files, edits.stays.number ip (edits.sound.locked ip member).1, update_idem]

theorem Edits.node_other (edits : Edits refs s next locks ip node) (sound : Sound s refs locks)
    {jp : InodeId} (member : ip ∈ locks) (also : jp ∈ locks) (different : jp ≠ ip) :
    next.node jp = s.node jp := by
  have locked := sound.locked jp also
  have apart : s.number jp ≠ s.number ip :=
    fun equal => different (sound.distinct jp ip locked.1 (sound.locked ip member).1 equal)
  apply edits.sound.node_eq also
  rw [edits.files, edits.stays.number jp locked.1, update_of_ne apart, sound.present_locked also]

variable {now : List InodeId}

theorem Stays.node_eq (stays : Stays refs s next) (prunes : Prunes s.files next.files)
    (before : Sound s counts locks) (after : Sound next others now) (held : 0 < refs ip)
    (had : 0 < counts ip) (has : 0 < others ip) (valid : (s.icache ip).valid = true) :
    next.node ip = s.node ip := by
  have present := after.present has (stays.valid ip held valid).1
  rw [stays.number ip held] at present
  rcases prunes (s.number ip) with same | ⟨gone, _⟩
  · rw [same, before.present had valid] at present
    exact (Option.some.inj present).symm
  · rw [gone] at present
    cases present

theorem Inside.bound (inside : Inside s) (present : s.files i = some node)
    (directory : node.type = T_DIR) (k : Nat) (within : 16 * k < node.size) :
    node.target k < s.sb.ninodes.toNat :=
  inside i node k present directory within

theorem Inside.relink (inside : Inside s) {change : Int16 → Int16}
    (edits : Edits refs s next locks ip (node.relink change))
    (present : s.files (s.number ip) = some node) : Inside next :=
  inside.edits edits fun directory k within => inside.bound present directory k within

theorem Inside.setDirent (inside : Inside s) {de : Dirent} (present : s.files i = some node)
    (room : 16 * k ≤ node.size) (bound : de.inum.toNat < s.sb.ninodes.toNat)
    (directory : (node.setDirent k de).type = T_DIR) (j : Nat)
    (within : 16 * j < (node.setDirent k de).size) :
    (node.setDirent k de).target j < s.sb.ninodes.toNat := by
  unfold FileNode.target
  by_cases same : j = k
  · rw [same, FileNode.setDirent_self]
    exact bound
  rw [FileNode.setDirent_other _ _ same]
  rw [FileNode.setDirent_size] at within
  exact inside i node j present directory (by omega)

theorem toUInt16_eq (inum : UInt32) : inum.toUInt16 = UInt16.ofNat inum.toNat := rfl

theorem toUInt16_le (inum : UInt32) : inum.toUInt16.toNat ≤ inum.toNat := by
  rw [UInt32.toNat_toUInt16]
  exact Nat.mod_le _ _

theorem Prunes.update {before after : Nat → Option FileNode} (prunes : Prunes before after)
    (i : Nat) (node : Option FileNode) :
    Prunes (Function.update before i node) (Function.update after i node) := by
  intro j
  by_cases same : j = i
  · rw [same, update_self, update_self]
    exact .inl rfl
  · rw [update_of_ne same, update_of_ne same]
    exact prunes j

theorem Reaches.edits (reaches : Reaches refs s middle locks files)
    (edits : Edits refs middle next locks ip node) (member : ip ∈ locks) (inside : Inside next) :
    Reaches refs s next locks (update files (middle.number ip) (some node)) :=
  ⟨edits.sound, inside, reaches.stays.trans edits.stays, by rw [edits.files, reaches.files],
    fun anchored => edits.anchored member (reaches.anchored anchored)⟩

theorem Reaches.node_eq (reaches : Reaches refs s next locks files) (member : ip ∈ locks)
    (file : files (next.number ip) = some node) : next.node ip = node := by
  apply reaches.sound.node_eq member
  rw [reaches.files, file]

theorem Calm.drops (calm : Calm refs s next refs locks) (inside : Inside s) :
    Drops refs refs s next locks s.files := by
  refine ⟨calm.sound, inside.calm calm, calm.stays, ?_, calm.anchored⟩
  rw [calm.files]
  exact Prunes.refl _

section

variable {before : InodeId → Int} {edited : Nat → Option FileNode}

theorem Drops.calm (drops : Drops before refs s middle locks edited)
    (calm : Calm refs middle next refs now) : Drops before refs s next now edited := by
  refine ⟨calm.sound, drops.inside.calm calm, drops.stays.trans calm.stays, ?_,
    fun anchored => calm.anchored (drops.anchored anchored)⟩
  rw [calm.files]
  exact drops.prunes

theorem Drops.edits (drops : Drops before refs s middle locks edited)
    (edits : Edits refs middle next locks ip node) (member : ip ∈ locks) (inside : Inside next) :
    Drops before refs s next locks (update edited (middle.number ip) (some node)) := by
  refine ⟨edits.sound, inside, drops.stays.trans edits.stays, ?_,
    fun anchored => edits.anchored member (drops.anchored anchored)⟩
  rw [edits.files]
  exact drops.prunes.update _ _

theorem Drops.puts (drops : Drops before (refs + mark (some ip)) s middle locks edited)
    (puts : Puts refs middle next now ip) (nonneg : ∀ ip, 0 ≤ refs ip) :
    Drops before refs s next now edited :=
  ⟨puts.sound, drops.inside.prunes puts.stays.sb puts.prunes,
    (drops.stays.mono (mark_more refs ip)).trans puts.stays, drops.prunes.trans puts.prunes,
    fun anchored => puts.anchored nonneg (drops.anchored anchored)⟩

/-- One more file changes, and references are given back. -/
theorem Drops.then (drops : Drops before counts s middle locks edited)
    (rest : Drops counts refs middle next now (update middle.files i (some node)))
    (more : ∀ ip, 0 < refs ip → 0 < counts ip) :
    Drops before refs s next now (update edited i (some node)) :=
  ⟨rest.sound, rest.inside, (drops.stays.mono more).trans rest.stays,
    (drops.prunes.update _ _).trans rest.prunes,
    fun anchored => rest.anchored (drops.anchored anchored)⟩

end

theorem relink_back (node : FileNode) : (node.relink (· + 1)).relink (· - 1) = node := by
  unfold FileNode.relink
  simp only [Int16.add_sub_cancel]

theorem Passes.settles (passes : Passes refs s next counts locks)
    (more : ∀ ip, 0 < refs ip → 0 < counts ip) {origin : Nat} {path : List UInt8}
    {change : Change} : Settles refs s next counts locks (Effect s.files origin path change) := by
  refine ⟨passes.sound, passes.inside, passes.stays, fun anchored =>
    ⟨(passes.anchored anchored).mono more, s.files, .nothing, ?_⟩⟩
  rw [passes.same anchored]
  exact Prunes.refl _

theorem Settles.calm (settles : Settles refs s middle counts locks effect)
    (calm : Calm counts middle next others now) (more : ∀ ip, 0 < refs ip → 0 < counts ip)
    (still : ∀ ip, 0 < counts ip → 0 < others ip) : Settles refs s next others now effect := by
  refine ⟨calm.sound, settles.inside.calm calm, settles.stays.trans (calm.stays.mono more),
    fun anchored => ?_⟩
  obtain ⟨anchors, edited, happens, prunes⟩ := settles.anchored anchored
  refine ⟨(calm.anchored anchors).mono still, edited, happens, ?_⟩
  rw [calm.files]
  exact prunes

theorem Settles.puts (settles : Settles refs s middle (counts + mark (some ip)) locks effect)
    (puts : Puts counts middle next now ip) (nonneg : ∀ ip, 0 ≤ counts ip)
    (more : ∀ ip, 0 < refs ip → 0 < counts ip) : Settles refs s next counts now effect := by
  refine ⟨puts.sound, settles.inside.prunes puts.stays.sb puts.prunes,
    settles.stays.trans (puts.stays.mono more), fun anchored => ?_⟩
  obtain ⟨anchors, edited, happens, prunes⟩ := settles.anchored anchored
  exact ⟨puts.anchored nonneg anchors, edited, happens, prunes.trans puts.prunes⟩

theorem Dense.edits (dense : Dense refs s)
    (edits : Edits refs s next locks ip node) (member : ip ∈ locks)
    (entries : node.type = T_DIR → ∀ k, 16 * k < node.size → node.target k ≠ 0 →
      s.files (node.target k) ≠ none) : Dense refs next := by
  have kept : ∀ i, s.files i ≠ none → next.files i ≠ none := by
    rw [edits.files]
    exact (forall_update_iff s.files fun i file => s.files i ≠ none → file ≠ none).mpr
      ⟨fun _ => Option.some_ne_none _, fun _ _ => id⟩
  refine ⟨kept _ dense.root, ?_, ?_, edits.anchored member dense.anchored⟩
  · intro i other k present directory within named
    rw [edits.files] at present
    rcases update_cases id present with ⟨_, now⟩ | ⟨_, already⟩
    · cases now
      exact kept _ (entries directory k within named)
    · exact kept _ (dense.entries i other k already directory within named)
  · intro jp held
    rw [edits.stays.number jp held]
    exact kept _ (dense.held jp held)

theorem Dense.gain (dense : Dense refs s) (present : s.files (s.number ip) ≠ none) :
    Dense (refs + mark (some ip)) s := by
  refine ⟨dense.root, dense.entries, fun jp held => ?_, dense.anchored.mono (mark_more refs ip)⟩
  by_cases same : jp = ip
  · rw [same]
    exact present
  · rw [mark_except refs same] at held
    exact dense.held jp held

end

section

variable {faults : FsFault → Prop} (tolerant : Tolerant faults) {s : Fs} {refs : InodeId → Int}
  {locks : List InodeId} {ip dp : InodeId} {process : Slot} {path name : List UInt8}
include tolerant

theorem beginOp_ends (sound : Sound s refs locks) :
    Ends (fun _ next => Calm refs s next refs locks) faults beginOp s := by
  apply Ends.read
  split
  · exact tolerant.fail (by decide)
  split
  · exact tolerant.fail (by decide)
  · exact sound.logged _

theorem endOp_ends (sound : Sound s refs locks) :
    Ends (fun _ next => Calm refs s next refs locks) faults endOp s := by
  apply Ends.read
  split
  · exact tolerant.fail (by decide)
  split
  · exact sound.logged _
  · exact sound.logged _

theorem ilock_valid (sound : Sound s refs locks) (held : 0 < refs ip)
    (valid : (s.icache ip).valid = true) :
    Ends (fun _ next => Calm refs s next refs (ip :: locks) ∧ ip ∉ locks) faults (ilock ip) s := by
  apply ilock_ends tolerant sound held
  rw [sound.present held valid]
  exact .inl (Option.some_ne_none _)

theorem linkBad_ends (sound : Sound s (refs + mark (some ip)) []) (inside : Inside s)
    (nonneg : ∀ ip, 0 ≤ refs ip) (valid : (s.icache ip).valid = true) :
    Ends (fun _ next => Drops (refs + mark (some ip)) refs s next []
      (update s.files (s.number ip) (some ((s.node ip).relink (· - 1))))) faults
      (linkBad ip) s := by
  have held := mark_own nonneg ip
  refine (ilock_valid tolerant sound held valid).seq ?_
  rintro _ locked ⟨calm, _⟩
  refine (relink_ends tolerant calm.sound mem_cons_self _).seq fun _ edited edits => ?_
  have drops := (calm.drops inside).edits edits mem_cons_self
    ((inside.calm calm).relink edits (calm.sound.present_locked mem_cons_self))
  rw [calm.stays.number ip held,
    calm.node_eq held mem_cons_self (sound.present held valid)] at drops
  refine (iunlockput_ends tolerant edits.sound (nonneg ip) not_mem_nil).seq
    fun _ put puts => ?_
  refine (endOp_ends tolerant puts.sound).seq fun _ next ends => ?_
  exact .ret ((drops.puts puts nonneg).calm ends)

theorem linkInto_ends (sound : Sound s (refs + mark (some ip) + mark (some dp)) [])
    (inside : Inside s) (nonneg : ∀ ip, 0 ≤ refs ip) (valid : (s.icache ip).valid = true)
    (typed : s.files (s.number dp) ≠ none ∨ faults (.panic "ilock: no type")) :
    Ends (fun _ next =>
      Drops (refs + mark (some ip) + mark (some dp)) refs s next []
        (update s.files (s.number ip) (some ((s.node ip).relink (· - 1)))) ∨
      ∃ k dir, s.files (s.number dp) = some dir ∧ dir.type = T_DIR ∧ dir.Misses name ∧
        dir.Vacant k ∧ Drops (refs + mark (some ip) + mark (some dp)) refs s next []
          (update s.files (s.number dp)
            (some (dir.setDirent k (Dirent.make (UInt16.ofNat (s.number ip)) name))))) faults
      (linkInto ip dp name) s := by
  have moreStill := mark_more (refs + mark (some ip)) dp
  have nonnegIp := mark_nonnegs nonneg ip
  have heldIp := mark_own nonneg ip
  have heldDp := mark_own nonnegIp dp
  refine (ilock_ends tolerant sound heldDp typed).seq ?_
  rintro _ locked ⟨calm, _⟩
  have begins := calm.drops inside
  have insideLocked := begins.inside
  have numberIp := calm.stays.number ip (moreStill ip heldIp)
  have numberDp := calm.stays.number dp heldDp
  have presentDp : s.files (s.number dp) = some (locked.node dp) := by
    rw [← calm.files, ← numberDp]
    exact calm.sound.present_locked mem_cons_self
  apply Ends.read
  have devices : ¬ (locked.icache dp).dev ≠ (locked.icache ip).dev := by
    rw [(calm.sound.named dp heldDp).1, (calm.sound.named ip (moreStill ip heldIp)).1]
    exact fun different => different rfl
  rw [if_neg devices]
  refine .andThen (dirlink_ends tolerant calm.sound insideLocked mem_cons_self ?_ ?_)
  · intro k looked _ _ again
    refine (iunlockput_ends tolerant again.sound (nonnegIp dp) not_mem_nil).seq
      fun _ put puts => ?_
    rw [if_pos (by decide)]
    have back := (begins.calm again).puts puts nonnegIp
    refine (linkBad_ends tolerant puts.sound back.inside nonneg
      (back.stays.valid ip heldIp valid).1).imp fun _ next drops => .inl ?_
    rw [back.stays.number ip heldIp, back.stays.node_eq back.prunes sound puts.sound heldIp
      (moreStill ip heldIp) heldIp valid] at drops
    exact back.then drops (mark_more refs ip)
  intro k linked directory misses vacant edits
  have insideLinked : Inside linked := by
    refine insideLocked.edits edits (insideLocked.setDirent
      (calm.sound.present_locked mem_cons_self) vacant.room ?_)
    rw [Dirent.inum_make]
    exact Nat.lt_of_le_of_lt (toUInt16_le _) (calm.sound.named ip (moreStill ip heldIp)).2
  refine (iunlockput_ends tolerant edits.sound (nonnegIp dp) not_mem_nil).seq
    fun _ put puts => ?_
  rw [if_neg (by decide)]
  refine (iput_ends tolerant puts.sound (nonneg ip) fun member => ?_).seq fun _ given gives => ?_
  · cases member
  refine (endOp_ends tolerant gives.sound).seq fun _ next ends => ?_
  have drops := begins.edits edits mem_cons_self insideLinked
  rw [numberDp, toUInt16_eq] at drops
  rw [← numberIp]
  exact .ret (.inr ⟨k, locked.node dp, presentDp, directory, misses, vacant,
    ((drops.puts puts nonnegIp).puts gives nonneg).calm ends⟩)

theorem sysLink_ends (able : Able s refs process faults) (old new : List UInt8) :
    Ends (fun _ next => Settles refs s next refs [] (Effect s.files (s.start process new) new .link))
      faults (sysLink process old new) s := by
  have nonneg := able.sound.nonneg
  refine Apart.along beginOp_apart ((beginOp_ends tolerant able.sound).imp
    fun _ begun calm frame => ?_)
  have begins := calm.passes able.inside
  refine Apart.along (namei_apart _ _) (namei_ends tolerant (able.passes begins frame.proc) ?_ ?_)
  · intro missed passes _
    refine (endOp_ends tolerant passes.sound).seq fun _ next ends => ?_
    exact .ret (((begins.trans passes).trans (ends.passes passes.inside)).settles fun _ had => had)
  intro ip found walked _ present frameFound
  have more := mark_more refs ip
  have held := mark_own nonneg ip
  have reached := begins.trans walked
  have typed := able.typed.imp_left fun dense => present (begins.dense dense)
  refine Apart.along (ilock_apart _) ((ilock_ends tolerant walked.sound held typed).imp ?_)
  rintro _ locked ⟨lock, _⟩ frameLocked
  have insideLocked := walked.inside.calm lock
  have presentLocked := lock.sound.present_locked mem_cons_self
  have arrives := reached.trans ((lock.passes walked.inside).mono more)
  apply Ends.read
  by_cases directory : (locked.icache ip).type = T_DIR
  · rw [if_pos directory]
    refine (iunlockput_ends tolerant lock.sound (nonneg ip) not_mem_nil).seq
      fun _ put puts => ?_
    refine (endOp_ends tolerant puts.sound).seq fun _ next ends => ?_
    have leaves := puts.passes insideLocked lock.sound nonneg
    exact .ret (((arrives.trans leaves).trans (ends.passes leaves.inside)).settles fun _ had => had)
  rw [if_neg directory]
  refine Apart.along (relink_apart _ _) ((relink_ends tolerant lock.sound mem_cons_self
    _).imp fun _ linked edits frameLinked => ?_)
  have insideLinked := insideLocked.relink edits presentLocked
  refine Apart.along (iunlock_apart _) ((iunlock_ends tolerant edits.sound
    not_mem_nil).imp fun _ open_ unlock frameOpen => ?_)
  have insideOpen := insideLinked.calm unlock
  have staysOpen := (lock.stays.trans edits.stays).trans unlock.stays
  have proc : open_.proc = s.proc := by
    rw [frameOpen.proc, frameLinked.proc, frameLocked.proc, frameFound.proc, frame.proc]
  have denseOpen : Dense refs s → Dense (refs + mark (some ip)) open_ := by
    intro dense
    have gained := (reached.dense dense).gain (present (begins.dense dense))
    have locks := (lock.passes walked.inside).dense gained
    have links := locks.edits edits mem_cons_self fun isDir => absurd isDir directory
    exact (unlock.passes insideLinked).dense links
  have anchoredOpen : Anchored refs s → Anchored (refs + mark (some ip)) open_ := by
    intro anchored
    have locks := (arrives.anchored anchored).mono more
    exact unlock.anchored (edits.anchored mem_cons_self locks)
  have filesOpen : Anchored refs s → open_.files = update s.files (locked.number ip)
      (some ((locked.node ip).relink (· + 1))) := by
    intro anchored
    rw [unlock.files, edits.files, arrives.same anchored]
  have numberOpen : open_.number ip = locked.number ip :=
    (unlock.stays.number ip held).trans (edits.stays.number ip held)
  have validOpen : (open_.icache ip).valid = true :=
    (unlock.stays.valid ip held (edits.sound.locked ip mem_cons_self).2).1
  have staysFar : Stays refs s open_ := reached.stays.trans (staysOpen.mono more)
  have ableOpen : Able open_ (refs + mark (some ip)) process faults := by
    refine ⟨unlock.sound, insideOpen, by rw [staysFar.sb]; exact able.root, ?_,
      able.typed.imp_left denseOpen⟩
    rw [proc]
    exact fun jp cwd => more jp (able.cwd jp cwd)
  have back : ∀ far counts, Passes (refs + mark (some ip)) open_ far counts [] →
      0 < counts ip → Anchored refs s → update far.files (far.number ip)
        (some ((far.node ip).relink (· - 1))) = s.files := by
    intro far counts passes has anchored
    have number : far.number ip = locked.number ip :=
      (passes.stays.number ip held).trans numberOpen
    have files := (passes.same (anchoredOpen anchored)).trans (filesOpen anchored)
    have node : far.node ip = (locked.node ip).relink (· + 1) := by
      have some := passes.sound.present has (passes.stays.valid ip held validOpen).1
      rw [files, number, update_self] at some
      exact (Option.some.inj some).symm
    rw [files, number, node, relink_back, update_idem, ← arrives.same anchored,
      ← presentLocked, update_eq_self]
  refine .andThen (namex_ends tolerant ableOpen ?_ ?_)
  · intro far passes
    refine (linkBad_ends tolerant passes.sound passes.inside nonneg
      (passes.stays.valid ip held validOpen).1).imp fun _ next drops => ?_
    refine ⟨drops.sound, drops.inside,
      (staysFar.trans (passes.stays.mono more)).trans drops.stays, fun anchored => ?_⟩
    refine ⟨drops.anchored (passes.anchored (anchoredOpen anchored)), s.files, .nothing, ?_⟩
    rw [← back far _ passes held anchored]
    exact drops.prunes
  intro dp name far passes leads presentDp
  have stays := staysFar.trans (passes.stays.mono more)
  have moreStill := mark_more (refs + mark (some ip)) dp
  have anchoredFar : Anchored refs s →
      Anchored (refs + mark (some ip) + mark (some dp)) far := by
    intro anchored
    exact (passes.anchored (anchoredOpen anchored)).mono moreStill
  refine (linkInto_ends tolerant passes.sound passes.inside nonneg
    (passes.stays.valid ip held validOpen).1
    (able.typed.imp_left fun dense => presentDp (denseOpen dense))).imp ?_
  rintro _ next (drops | ⟨k, dir, presentDir, isDir, misses, vacant, drops⟩)
  · refine ⟨drops.sound, drops.inside, stays.trans drops.stays, fun anchored => ?_⟩
    refine ⟨drops.anchored (anchoredFar anchored), s.files, .nothing, ?_⟩
    rw [← back far _ passes (moreStill ip held) anchored]
    exact drops.prunes
  · refine ⟨drops.sound, drops.inside, stays.trans drops.stays, fun anchored => ?_⟩
    have files := (passes.same (anchoredOpen anchored)).trans (filesOpen anchored)
    have number : far.number ip = locked.number ip :=
      (passes.stays.number ip held).trans numberOpen
    have route := leads (anchoredOpen anchored)
    rw [filesOpen anchored, able.start_eq staysFar proc] at route
    have same : ∀ j other, update s.files (locked.number ip)
        (some ((locked.node ip).relink (· + 1))) j = some other → other.type = T_DIR →
        s.files j = some other := by
      intro j other there isDirectory
      rcases update_cases id there with ⟨_, now⟩ | ⟨_, already⟩
      · cases now
        exact absurd isDirectory directory
      · exact already
    rw [files] at presentDir
    have presentIp : s.files (locked.number ip) = some (locked.node ip) := by
      rw [← arrives.same anchored]
      exact presentLocked
    refine ⟨drops.anchored (anchoredFar anchored), _, .link (route.congr same) presentIp directory
      (same _ _ presentDir isDir) isDir misses vacant, ?_⟩
    have prunes := drops.prunes
    rw [files, number] at prunes
    exact prunes

theorem unlinkEntry_ends (sound : Sound s (refs + mark (some dp) + mark (some ip)) [ip, dp])
    (inside : Inside s) (nonneg : ∀ ip, 0 ≤ refs ip) (different : ip ≠ dp)
    (directory : (s.node dp).type = T_DIR) (room : 16 * k ≤ (s.node dp).size) :
    Ends (fun _ next => Drops (refs + mark (some dp) + mark (some ip)) refs s next []
      (update (update s.files (s.number dp)
        (some ((s.node dp).without k (s.node ip)))) (s.number ip)
        (some ((s.node ip).relink (· - 1))))) faults (unlinkEntry dp ip (16 * k)) s := by
  rw [add_right_comm] at sound ⊢
  have memberIp : ip ∈ [ip, dp] := mem_cons_self
  have memberDp : dp ∈ [ip, dp] := mem_cons_of_mem _ mem_cons_self
  have presentDp := sound.present_locked memberDp
  have nonnegIp := mark_nonnegs nonneg ip
  have inhabited : 0 < s.sb.ninodes.toNat :=
    Nat.zero_lt_of_lt (sound.named dp (sound.locked dp memberDp).1).2
  -- the entry is cleared, and with it the link of a directory to its parent
  refine (writeDirent_ends tolerant sound memberDp (directory_file directory)
    (tolerant.other (by decide)) Dirent.zero room).seq fun _ cleared clears => ?_
  have insideCleared : Inside cleared := by
    refine inside.edits clears (inside.setDirent presentDp room ?_)
    rw [Dirent.inum_zero]
    exact inhabited
  have nodeIp := clears.node_other sound memberDp memberIp different
  have parent : Ends (fun _ next => Edits (refs + mark (some ip) + mark (some dp)) s next
      [ip, dp] dp ((s.node dp).without k (s.node ip)) ∧ Inside next) faults (unlinkDots dp ip)
      cleared := by
    unfold unlinkDots FileNode.without
    apply Ends.read
    rw [show (cleared.icache ip).type = (s.node ip).type from congrArg FileNode.type nodeIp]
    by_cases dots : (s.node ip).type = T_DIR
    · rw [if_pos dots, if_pos dots]
      refine (relink_ends tolerant clears.sound memberDp _).imp fun _ next edits => ?_
      refine ⟨?_, insideCleared.relink edits (clears.sound.present_locked memberDp)⟩
      rw [clears.node_eq memberDp] at edits
      exact clears.trans edits memberDp
    · rw [if_neg dots, if_neg dots]
      exact .ret ⟨clears, insideCleared⟩
  refine parent.seq ?_
  rintro _ left ⟨edits, insideLeft⟩
  have drops := (Calm.drops ⟨sound, Stays.refl _ _, rfl⟩ inside).edits edits memberDp insideLeft
  have soundLeft : Sound left (refs + mark (some ip) + mark (some dp)) (dp :: [ip]) :=
    edits.sound.congr (fun _ => rfl) fun jp => by rw [mem_pair, mem_pair, or_comm]
  refine (iunlockput_ends tolerant soundLeft (nonnegIp dp) ?_).seq fun _ put puts => ?_
  · rw [mem_singleton]
    exact different.symm
  -- then the file loses its link
  have removed := drops.puts puts nonnegIp
  have presentPut := puts.sound.present_locked mem_cons_self
  have number := removed.stays.number ip (mark_own nonneg ip)
  have numberDp : s.number ip ≠ s.number dp := fun equal => different
    (sound.distinct ip dp (sound.locked ip memberIp).1 (sound.locked dp memberDp).1 equal)
  have nodePut : put.node ip = s.node ip := by
    rcases removed.prunes (put.number ip) with same | ⟨gone, _⟩
    · apply puts.sound.node_eq mem_cons_self
      rw [same, number, update_of_ne numberDp, sound.present_locked memberIp]
    · rw [gone] at presentPut
      cases presentPut
  refine (relink_ends tolerant puts.sound mem_cons_self _).seq fun _ linked links => ?_
  have unlinked := removed.edits links mem_cons_self (removed.inside.relink links presentPut)
  rw [number, nodePut] at unlinked
  refine (iunlockput_ends tolerant links.sound (nonneg ip) not_mem_nil).seq
    fun _ given gives => ?_
  refine (endOp_ends tolerant gives.sound).seq fun _ next ends => ?_
  exact .ret ((unlinked.puts gives nonneg).calm ends)

theorem unlinkBad_ends (sound : Sound s (refs + mark (some dp)) [dp]) (inside : Inside s)
    (nonneg : ∀ ip, 0 ≤ refs ip) :
    Ends (fun _ next => Passes refs s next refs []) faults (unlinkBad dp) s := by
  refine (iunlockput_ends tolerant sound (nonneg dp) not_mem_nil).seq fun _ put puts => ?_
  have passes := puts.passes inside sound nonneg
  refine (endOp_ends tolerant puts.sound).seq fun _ next ends => ?_
  exact .ret (passes.trans (ends.passes passes.inside))

theorem unlinkFound_ends (sound : Sound s (refs + mark (some dp) + mark (some ip)) [dp])
    (inside : Inside s) (nonneg : ∀ ip, 0 ≤ refs ip) (directory : (s.node dp).type = T_DIR)
    (room : 16 * k ≤ (s.node dp).size)
    (typed : s.files (s.number ip) ≠ none ∨ faults (.panic "ilock: no type"))
    {post : Fs → Prop} (fails : ∀ next, Passes refs s next refs [] → post next)
    (removes : ∀ node next, s.files (s.number ip) = some node → s.number ip ≠ s.number dp →
      ¬ node.nlink < 1 →
      (node.type = T_DIR → ∀ j, 2 ≤ j → 16 * j < node.size → node.target j = 0) →
      Drops (refs + mark (some dp) + mark (some ip)) refs s next []
        (update (update s.files (s.number dp) (some ((s.node dp).without k node))) (s.number ip)
          (some (node.relink (· - 1)))) → post next) :
    Ends (fun _ => post) faults (unlinkFound dp ip (16 * k)) s := by
  have nonnegDp := mark_nonnegs nonneg dp
  have held := mark_own nonnegDp ip
  have heldDp := (sound.locked dp mem_cons_self).1
  refine (ilock_ends tolerant sound held typed).seq ?_
  rintro _ locked ⟨lock, unlocked⟩
  have insideLocked := inside.calm lock
  have different : ip ≠ dp := by
    rw [mem_singleton] at unlocked
    exact unlocked
  have memberDp : dp ∈ [ip, dp] := mem_cons_of_mem _ mem_cons_self
  have numberDp := lock.stays.number dp heldDp
  have numberIp := lock.stays.number ip held
  have present : s.files (s.number ip) = some (locked.node ip) := by
    rw [← lock.files, ← numberIp]
    exact lock.sound.present_locked mem_cons_self
  have nodeDp : locked.node dp = s.node dp :=
    lock.node_eq heldDp memberDp (sound.present_locked mem_cons_self)
  have apart : s.number ip ≠ s.number dp :=
    fun equal => different (sound.distinct ip dp held heldDp equal)
  have remove : ¬ (locked.node ip).nlink < 1 → ((locked.node ip).type = T_DIR →
      ∀ j, 2 ≤ j → 16 * j < (locked.node ip).size → (locked.node ip).target j = 0) →
      Ends (fun _ => post) faults (unlinkEntry dp ip (16 * k)) locked := by
    intro linked empty
    refine (unlinkEntry_ends tolerant lock.sound insideLocked nonneg different
      (by rw [nodeDp]; exact directory) (by rw [nodeDp]; exact room)).imp
      fun _ next drops => removes _ next present apart linked empty ?_
    refine ⟨drops.sound, drops.inside, ?_, ?_,
      fun anchored => drops.anchored (lock.anchored anchored)⟩
    · exact (lock.stays.mono fun jp had => mark_more _ ip jp (mark_more refs dp jp had)).trans
        drops.stays
    · have prunes := drops.prunes
      rw [lock.files, numberDp, numberIp, nodeDp] at prunes
      exact prunes
  apply Ends.read
  by_cases unlinked : (locked.icache ip).nlink < 1
  · rw [if_pos unlinked]
    exact tolerant.fail (by decide)
  rw [if_neg unlinked]
  by_cases isDir : (locked.icache ip).type = T_DIR
  · rw [if_pos isDir]
    refine (isdirempty_ends tolerant lock.sound mem_cons_self isDir).seq ?_
    rintro empty next ⟨unchanged, none⟩
    rw [unchanged]
    cases empty with
    | true => exact remove unlinked fun _ => none rfl
    | false =>
      rw [if_neg Bool.false_ne_true]
      have passesLock := (lock.passes inside).mono fun jp had =>
        mark_more (refs + mark (some dp)) ip jp (mark_more refs dp jp had)
      refine (iunlockput_ends tolerant lock.sound (nonnegDp ip) unlocked).seq fun _ put puts => ?_
      have passesPut := (puts.passes insideLocked lock.sound nonnegDp).mono (mark_more refs dp)
      exact (unlinkBad_ends tolerant puts.sound passesPut.inside nonneg).imp
        fun _ final passes => fails final ((passesLock.trans passesPut).trans passes)
  · rw [if_neg isDir]
    exact remove unlinked fun directory => absurd directory isDir

theorem sysUnlink_ends (able : Able s refs process faults) (path : List UInt8) :
    Ends (fun _ next => Settles refs s next refs [] (Effect s.files (s.start process path) path .unlink))
      faults (sysUnlink process path) s := by
  have nonneg := able.sound.nonneg
  refine Apart.along beginOp_apart ((beginOp_ends tolerant able.sound).imp
    fun _ begun calm frame => ?_)
  have begins := calm.passes able.inside
  refine .andThen (namex_ends tolerant (able.passes begins frame.proc) ?_ ?_)
  · intro missed passes
    refine (endOp_ends tolerant passes.sound).seq fun _ next ends => ?_
    exact .ret (((begins.trans passes).trans (ends.passes passes.inside)).settles fun _ had => had)
  intro dp name found walked leads present
  have more := mark_more refs dp
  have held := mark_own nonneg dp
  have typed := able.typed.imp_left fun dense => present (begins.dense dense)
  refine (ilock_ends tolerant walked.sound held typed).seq ?_
  rintro _ locked ⟨lock, _⟩
  have insideLocked := walked.inside.calm lock
  have arrives := (begins.trans walked).trans ((lock.passes walked.inside).mono more)
  have fails : ∀ state, Passes refs s state (refs + mark (some dp)) [dp] →
      Ends (fun _ next => Settles refs s next refs []
        (Effect s.files (s.start process path) path .unlink)) faults (unlinkBad dp) state := by
    intro state passes
    exact (unlinkBad_ends tolerant passes.sound passes.inside nonneg).imp
      fun _ next rest => (passes.trans rest).settles fun _ had => had
  by_cases dots : namecmp name dot = 0 ∨ namecmp name dotdot = 0
  · rw [if_pos dots]
    exact fails locked arrives
  rw [if_neg dots]
  refine .andThen (dirlookup_ends tolerant lock.sound insideLocked mem_cons_self ?_ ?_)
  · exact fun _ _ => fails locked arrives
  intro ip k looked directory finds gain target _
  have insideLooked := insideLocked.calm gain
  have reaches := arrives.trans ((gain.passes insideLocked).mono more)
  have whole := finds.whole
  have presentDp : locked.files (locked.number dp) = some (locked.node dp) :=
    lock.sound.present_locked mem_cons_self
  have numberDp : looked.number dp = locked.number dp := gain.stays.number dp held
  have nodeDp := gain.node_eq held mem_cons_self presentDp
  have typedIp : looked.files (looked.number ip) ≠ none ∨ faults (.panic "ilock: no type") := by
    refine able.typed.imp_left fun dense => ?_
    rw [gain.files, target]
    refine (arrives.dense dense).entries _ _ k presentDp directory (by omega) ?_
    exact fun zero => finds.same.1 (UInt16.toNat_inj.mp zero)
  refine unlinkFound_ends tolerant gain.sound insideLooked nonneg
    (by rw [nodeDp]; exact directory) (by rw [nodeDp]; omega) typedIp ?_ ?_
  · exact fun next passes => (reaches.trans passes).settles fun _ had => had
  intro node next there apart linked empty drops
  refine ⟨drops.sound, drops.inside, reaches.stays.trans drops.stays, fun anchored => ?_⟩
  have same := reaches.same anchored
  have route := leads (begins.anchored anchored)
  rw [calm.files, able.start_eq calm.stays frame.proc, ← lock.stays.number dp held] at route
  rw [same, target] at there
  rw [numberDp, target] at apart
  have presentDir : s.files (locked.number dp) = some (locked.node dp) := by
    rw [← arrives.same anchored]
    exact presentDp
  refine ⟨drops.anchored ((reaches.anchored anchored).mono fun jp had =>
    mark_more (refs + mark (some dp)) ip jp (more jp had)), _, .unlink route presentDir
    directory (fun equal => dots (.inl equal)) (fun equal => dots (.inr equal)) finds apart
    there linked empty, ?_⟩
  have prunes := drops.prunes
  rw [same, numberDp, nodeDp, target] at prunes
  exact prunes

theorem mustLink_ends (sound : Sound s refs locks) (inside : Inside s) (member : dp ∈ locks)
    {inum : UInt32} (proper : inum.toNat < s.sb.ninodes.toNat) {message : String}
    (possible : faults (.panic message)) :
    Ends (fun _ next => ∃ k, (s.node dp).Misses name ∧ (s.node dp).Vacant k ∧
      Edits refs s next locks dp
        ((s.node dp).setDirent k (Dirent.make (UInt16.ofNat inum.toNat) name)) ∧ Inside next) faults
      (mustLink dp name inum message) s := by
  refine .andThen (dirlink_ends tolerant sound inside member ?_ ?_)
  · intro k next _ _ _
    rw [if_pos (by decide)]
    exact .fail possible
  intro k next _ misses vacant edits
  rw [if_neg (by decide)]
  rw [toUInt16_eq] at edits
  refine .ret ⟨k, misses, vacant, edits, inside.edits edits (inside.setDirent
    (sound.present_locked member) vacant.room ?_)⟩
  rw [Dirent.inum_make, ← toUInt16_eq]
  exact Nat.lt_of_le_of_lt (toUInt16_le _) proper

variable {type : Int16}

theorem createDots_ends (sound : Sound s refs [ip, dp]) (inside : Inside s) (different : ip ≠ dp)
    {major minor : Int16} (base : s.node ip = (newNode type).restamp major minor 1) :
    Ends (fun _ next => ∃ made, FileNode.Made type major minor (s.number ip) (s.number dp) made ∧
      Reaches refs s next [ip, dp] (update (update s.files (s.number ip) (some made))
        (s.number dp) (some ((s.node dp).parent type)))) faults (createDots dp ip type) s := by
  have memberIp : ip ∈ [ip, dp] := mem_cons_self
  have memberDp : dp ∈ [ip, dp] := mem_cons_of_mem _ mem_cons_self
  have heldIp := (sound.locked ip memberIp).1
  have heldDp := (sound.locked dp memberDp).1
  have apart : s.number ip ≠ s.number dp :=
    fun equal => different (sound.distinct ip dp heldIp heldDp equal)
  have starts : Reaches refs s s [ip, dp] s.files :=
    ⟨sound, inside, Stays.refl _ _, rfl, fun anchored => anchored⟩
  unfold createDots FileNode.parent
  by_cases directory : type = T_DIR
  · rw [if_pos directory, if_pos directory]
    refine (relink_ends tolerant sound memberDp _).seq fun _ linked links => ?_
    have first := starts.edits links memberDp (inside.relink links (sound.present_locked memberDp))
    have numberIp : (linked.icache ip).inum.toNat = s.number ip := first.stays.number ip heldIp
    have numberDp : (linked.icache dp).inum.toNat = s.number dp := first.stays.number dp heldDp
    have nodeIp := links.node_other sound memberDp memberIp different
    apply Ends.read
    refine (mustLink_ends tolerant links.sound first.inside memberIp
      (links.sound.named ip heldIp).2 (tolerant.other (by decide))).seq ?_
    rintro _ dotted ⟨j, _, self, dots, insideDotted⟩
    have second := first.edits dots memberIp insideDotted
    have nodeDotted := dots.node_eq memberIp
    have number : dotted.number ip = s.number ip := second.stays.number ip heldIp
    refine (mustLink_ends tolerant dots.sound insideDotted memberIp
      (by rw [dots.stays.sb]; exact (links.sound.named dp heldDp).2)
      (tolerant.other (by decide))).imp ?_
    rintro _ next ⟨k, _, up, ends, insideNext⟩
    have third := second.edits ends memberIp insideNext
    rw [nodeDotted, nodeIp, base, numberIp] at third up
    rw [nodeIp, base] at self
    refine ⟨_, .directory directory self up, ?_⟩
    rw [numberDp, number, show linked.number ip = s.number ip from numberIp, update_idem,
      update_comm apart.symm] at third
    exact third
  · rw [if_neg directory, if_neg directory]
    refine .ret ⟨_, .file directory, ?_⟩
    rw [← base, ← sound.present_locked memberIp, update_eq_self,
      ← sound.present_locked memberDp, update_eq_self]
    exact starts

theorem createNew_ends (sound : Sound s (refs + mark (some dp)) [dp]) (inside : Inside s)
    (nonneg : ∀ ip, 0 ≤ refs ip) (typed : type ≠ 0) (major minor : Int16) :
    Ends (fun ip next => Sound next (refs + mark (some ip)) [ip] ∧ Inside next ∧
      Stays refs s next ∧ (next.node ip).type = type ∧
      (Anchored (refs + mark (some dp)) s → Anchored (refs + mark (some ip)) next) ∧
      ∃ i k made, s.files i = none ∧ 1 ≤ i ∧ (s.node dp).Vacant k ∧
        FileNode.Made type major minor i (s.number dp) made ∧
        Prunes (update (update s.files i (some made)) (s.number dp)
          (some (((s.node dp).parent type).setDirent k (Dirent.make (UInt16.ofNat i) name))))
          next.files) faults (createNew dp name type major minor) s := by
  have nonnegDp := mark_nonnegs nonneg dp
  have heldDp := (sound.locked dp mem_cons_self).1
  have presentDp := sound.present_locked mem_cons_self
  apply Ends.read
  rw [(sound.named dp heldDp).1]
  refine (ialloc_ends tolerant sound typed).seq fun ip allocated plants => ?_
  have moreIp := mark_more (refs + mark (some dp)) ip
  have held := mark_own nonnegDp ip
  have presentIp : allocated.files (allocated.number ip) = some (newNode type) := by
    rw [plants.files, update_self]
  have insideAllocated : Inside allocated := by
    intro i node k present directory within
    rw [plants.stays.sb]
    rw [plants.files] at present
    rcases update_cases id present with ⟨_, now⟩ | ⟨_, already⟩
    · cases now
      exact absurd within (Nat.not_lt_zero _)
    · exact inside i node k already directory within
  have typedIp : allocated.files (allocated.number ip) ≠ none := by
    rw [presentIp]
    exact Option.some_ne_none _
  refine (ilock_ends tolerant plants.sound held (.inl typedIp)).seq ?_
  rintro _ locked ⟨lock, unlocked⟩
  have different : ip ≠ dp := by
    rw [mem_singleton] at unlocked
    exact unlocked
  have memberIp : ip ∈ [ip, dp] := mem_cons_self
  have memberDp : dp ∈ [ip, dp] := mem_cons_of_mem _ mem_cons_self
  have numberIp := lock.stays.number ip held
  have nodeIp : locked.node ip = newNode type := lock.node_eq held memberIp presentIp
  have anchoredLocked : Anchored (refs + mark (some dp)) s →
      Anchored (refs + mark (some dp) + mark (some ip)) locked := by
    intro anchored i node there nlink
    rw [lock.files, plants.files] at there
    by_cases own : i = allocated.number ip
    · exact ⟨ip, held, numberIp.trans own.symm, (lock.sound.locked ip memberIp).2⟩
    rw [update_of_ne own] at there
    obtain ⟨jp, had, number, valid⟩ := anchored i node there nlink
    have stays := plants.stays.trans (lock.stays.mono moreIp)
    exact ⟨jp, moreIp jp had, (stays.number jp had).trans number, (stays.valid jp had valid).1⟩
  -- the new inode gets its fields, and its own entries if it is a directory
  have stamped := stamp_ends tolerant lock.sound memberIp
    (fun inode => { inode with major, minor, nlink := 1 }) major minor 1 rfl
  refine modifyInode_next (stamped.seq fun _ filled fills => ?_)
  have insideFilled : Inside filled := by
    refine (insideAllocated.calm lock).edits fills fun _ k within => ?_
    rw [nodeIp] at within
    exact absurd within (Nat.not_lt_zero _)
  have base : filled.node ip = (newNode type).restamp major minor 1 := by
    rw [fills.node_eq memberIp, nodeIp]
  refine (createDots_ends tolerant fills.sound insideFilled different base).seq ?_
  rintro _ dotted ⟨made, new, reaches⟩
  have staysFilled : Stays (refs + mark (some dp)) s filled :=
    plants.stays.trans ((lock.stays.trans fills.stays).mono moreIp)
  have numberFilled : filled.number ip = allocated.number ip :=
    (fills.stays.number ip held).trans numberIp
  have numberDp : filled.number dp = s.number dp := staysFilled.number dp heldDp
  have heldBoth : 0 < (refs + mark (some dp) + mark (some ip)) dp := moreIp dp heldDp
  have apart : filled.number ip ≠ filled.number dp :=
    fun equal => different (fills.sound.distinct ip dp held heldBoth equal)
  have filesFilled : update filled.files (filled.number ip) (some made) =
      update s.files (allocated.number ip) (some made) := by
    rw [fills.files, lock.files, plants.files, numberIp, numberFilled, update_idem, update_idem]
  have nodeDp : filled.node dp = s.node dp := by
    apply fills.sound.node_eq memberDp
    have numberS : s.number dp ≠ allocated.number ip := by
      rw [← numberDp, ← numberFilled]
      exact apart.symm
    rw [fills.files, lock.files, plants.files, numberIp, update_idem, numberDp,
      update_of_ne numberS, presentDp]
  have numberDotted : dotted.number dp = s.number dp :=
    (reaches.stays.number dp heldBoth).trans numberDp
  have nodeDotted : dotted.node dp = (s.node dp).parent type := by
    refine reaches.node_eq memberDp ?_
    rw [numberDotted, ← numberDp, update_self, nodeDp]
  apply Ends.read
  refine (mustLink_ends tolerant reaches.sound reaches.inside memberDp
    (reaches.sound.named ip held).2 (tolerant.other (by decide))).seq ?_
  rintro _ linked ⟨k, _, vacant, edits, insideLinked⟩
  have whole := reaches.edits edits memberDp insideLinked
  have swap : refs + mark (some dp) + mark (some ip) = refs + mark (some ip) + mark (some dp) :=
    add_right_comm _ _ _
  have nonnegIp := mark_nonnegs nonneg ip
  have soundLinked : Sound linked (refs + mark (some ip) + mark (some dp)) (dp :: [ip]) :=
    edits.sound.congr (fun jp => congrFun swap.symm jp) fun jp => by
      rw [mem_pair, mem_pair, or_comm]
  refine (iunlockput_ends tolerant soundLinked (nonnegIp dp) ?_).seq fun _ next puts => ?_
  · rw [mem_singleton]
    exact different.symm
  have numberIn : (dotted.icache ip).inum.toNat = allocated.number ip :=
    (reaches.stays.number ip held).trans numberFilled
  have prunes := puts.prunes
  rw [whole.files, filesFilled, numberDotted, numberDp, nodeDotted, numberIn, update_idem] at prunes
  rw [numberFilled, numberDp] at new apart
  rw [nodeDotted] at vacant
  have both : ∀ jp, 0 < refs jp → 0 < (refs + mark (some dp) + mark (some ip)) jp :=
    fun jp had => moreIp jp (mark_more refs dp jp had)
  have stays : Stays refs s next := by
    refine ((staysFilled.mono (mark_more refs dp)).trans
      ((reaches.stays.trans edits.stays).mono both)).trans (puts.stays.mono (mark_more refs ip))
  have numberNext : next.number ip = allocated.number ip := by
    have heldIp := mark_own nonneg ip
    rw [puts.stays.number ip heldIp, edits.stays.number ip held]
    exact numberIn
  have typeNext : (next.node ip).type = type := by
    have there := puts.sound.present_locked mem_cons_self
    rcases prunes (next.number ip) with same | ⟨gone, _⟩
    · rw [same, numberNext, update_of_ne apart, update_self] at there
      rw [← Option.some.inj there]
      exact new.type_eq
    · rw [gone] at there
      cases there
  refine .ret ⟨puts.sound, insideLinked.prunes puts.stays.sb puts.prunes, stays, typeNext,
    fun anchored => ?_, allocated.number ip, k, made, plants.free, plants.number, vacant.of_parent,
    new, prunes⟩
  have anchoredLinked := whole.anchored (fills.anchored memberIp (anchoredLocked anchored))
  rw [swap] at anchoredLinked
  exact puts.anchored nonnegIp anchoredLinked

variable (able : Able s refs process faults) (typed : type ≠ 0) (major minor : Int16)
include able typed

theorem create_ends {post : Option InodeId → Fs → Prop}
    (missing : ∀ next, Settles refs s next refs [] (Effect s.files (s.start process path) path .make) →
      post none next)
    (created : ∀ ip next, Settles refs s next (refs + mark (some ip)) [ip]
      (Effect s.files (s.start process path) path .make) → (next.node ip).type = type →
      post (some ip) next) : Ends post faults (create process path type major minor) s := by
  have nonneg := able.sound.nonneg
  refine .andThen (namex_ends tolerant able ?_ ?_)
  · exact fun next passes => .ret (missing next (passes.settles fun _ had => had))
  intro dp name found walked leads present
  have more := mark_more refs dp
  have held := mark_own nonneg dp
  refine (ilock_ends tolerant walked.sound held (able.typed.imp_left present)).seq ?_
  rintro _ locked ⟨lock, _⟩
  have insideLocked := walked.inside.calm lock
  have arrives := walked.trans ((lock.passes walked.inside).mono more)
  have presentDp : locked.files (locked.number dp) = some (locked.node dp) :=
    lock.sound.present_locked mem_cons_self
  refine .andThen (dirlookup_ends tolerant lock.sound insideLocked mem_cons_self ?_ ?_)
  · intro directory misses
    refine (createNew_ends tolerant lock.sound insideLocked nonneg typed major minor).seq ?_
    rintro ip next ⟨sound, inside, stays, isType, anchors, i, k, made, free, proper, vacant, new,
      prunes⟩
    refine .ret (created ip next ⟨sound, inside, arrives.stays.trans stays, fun anchored => ?_⟩
      isType)
    have same := arrives.same anchored
    have route := leads anchored
    rw [← lock.stays.number dp held] at route
    rw [same] at presentDp free prunes
    exact ⟨anchors ((arrives.anchored anchored).mono more), _, .make route presentDp directory
      misses vacant free proper typed new, prunes⟩
  intro ip k looked directory finds gain target _
  have insideLooked := insideLocked.calm gain
  have whole := finds.whole
  have reaches := arrives.trans ((gain.passes insideLocked).mono more)
  have swap : refs + mark (some dp) + mark (some ip) =
      refs + mark (some ip) + mark (some dp) := add_right_comm _ _ _
  have nonnegIp := mark_nonnegs nonneg ip
  have heldIp := mark_own nonneg ip
  have soundLooked := gain.sound
  rw [swap] at soundLooked
  refine (iunlockput_ends tolerant soundLooked (nonnegIp dp) not_mem_nil).seq
    fun _ put puts => ?_
  have moreIp := mark_more refs ip
  have leaves := reaches.trans ((puts.passes insideLooked soundLooked nonnegIp).mono moreIp)
  have typedIp : put.files (put.number ip) ≠ none ∨ faults (.panic "ilock: no type") := by
    refine able.typed.imp_left fun dense => ?_
    rw [leaves.same dense.anchored, puts.stays.number ip heldIp, target,
      ← arrives.same dense.anchored]
    refine (arrives.dense dense).entries _ _ k presentDp directory (by omega) ?_
    exact fun zero => finds.same.1 (UInt16.toNat_inj.mp zero)
  refine (ilock_ends tolerant puts.sound heldIp typedIp).seq ?_
  rintro _ opened ⟨again, _⟩
  have opens := leaves.trans ((again.passes leaves.inside).mono moreIp)
  apply Ends.read
  by_cases files : type = T_FILE ∧ (opened.icache ip).type = T_FILE
  · rw [if_pos files]
    refine .ret (created ip opened (opens.settles moreIp) ?_)
    rw [files.1]
    exact files.2
  rw [if_neg files]
  refine (iunlockput_ends tolerant again.sound (nonneg ip) not_mem_nil).seq
    fun _ next given => ?_
  refine .ret (missing next ((opens.trans
    (given.passes opens.inside again.sound nonneg)).settles fun _ had => had))

theorem sysMake_ends (path : List UInt8) :
    Ends (fun _ next => Settles refs s next refs [] (Effect s.files (s.start process path) path .make))
      faults (sysMake process path type major minor) s := by
  have nonneg := able.sound.nonneg
  refine Apart.along beginOp_apart ((beginOp_ends tolerant able.sound).imp
    fun _ begun calm frame => ?_)
  have begins := calm.passes able.inside
  have files : begun.files = s.files := calm.files
  have starts : begun.start process path = s.start process path :=
    able.start_eq calm.stays frame.proc path
  have earlier : ∀ next counts locks, Settles refs begun next counts locks
      (Effect begun.files (begun.start process path) path .make) →
      Settles refs s next counts locks (Effect s.files (s.start process path) path .make) := by
    intro next counts locks settles
    rw [files, starts] at settles
    exact ⟨settles.sound, settles.inside, calm.stays.trans settles.stays,
      fun anchored => settles.anchored (calm.anchored anchored)⟩
  refine .andThen (create_ends tolerant (able.passes begins frame.proc) typed major minor ?_ ?_)
  · intro missed settles
    refine (endOp_ends tolerant settles.sound).seq fun _ next ends => ?_
    exact .ret ((earlier _ _ _ settles).calm ends (fun _ had => had) fun _ had => had)
  intro ip made settles _
  refine (iunlockput_ends tolerant settles.sound (nonneg ip) not_mem_nil).seq
    fun _ put puts => ?_
  have given := (earlier _ _ _ settles).puts puts nonneg fun _ had => had
  refine (endOp_ends tolerant puts.sound).seq fun _ next ends => ?_
  exact .ret (given.calm ends (fun _ had => had) fun _ had => had)

end

end Fs

end RtXv6
