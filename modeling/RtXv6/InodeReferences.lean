import RtXv6.DirectoryCalls
import RtXv6.FileTable

/-!
# References to inodes

Open files and the directories of processes are what refers to inodes between calls.
While a call runs, it has references of its own: `extra` counts them. Every call gives
back those that it does not store in a file or a process.
-/

namespace RtXv6.Fs

open Stateful Tally

/-- The inode that a file in use refers to. -/
def opened (file : File) : Option InodeId :=
  if 0 < file.ref ∧ file.type = .inode then file.ip else none

/-- The references to inodes: the open files and the directories of the processes. -/
def references (s : Fs) : InodeId → Int :=
  tally (fun f => opened (s.ftable f)) + tally fun process => (s.proc process).cwd

variable {file : File}

theorem opened_none (other : file.type ≠ .inode) : opened file = none :=
  if_neg fun both => other both.2

theorem opened_some (held : 0 < file.ref) (type : file.type = .inode) :
    opened file = file.ip := if_pos ⟨held, type⟩

/-- The cache counts the references of files, processes and the running call; open files have
been locked once, and those open for writing are no directories. -/
structure Accounts (s : Fs) (extra : InodeId → Int) (locks : List InodeId) : Prop where
  sound : Sound s (s.references + extra) locks
  inside : Inside s
  root : ROOTINO.toNat < s.sb.ninodes.toNat
  idle : ∀ f, (s.ftable f).ref ≤ 0 → (s.ftable f).type = .none
  targets : ∀ f, 0 < (s.ftable f).ref → (s.ftable f).type = .inode →
    ∃ ip, (s.ftable f).ip = some ip ∧ (s.icache ip).valid = true ∧
      ((s.ftable f).writable = true → (s.icache ip).type ≠ T_DIR)

/-- A part of a call that gives names to no files. -/
structure Moves (s : Fs) (extra : InodeId → Int) (next : Fs) (spare : InodeId → Int)
    (locks : List InodeId) : Prop where
  accounts : Accounts next spare locks
  anchored : Anchored (s.references + extra) s → Anchored (next.references + spare) next
  prunes : Prunes s.files next.files

theorem references_nonneg (s : Fs) (ip : InodeId) : 0 ≤ s.references ip :=
  Int.add_nonneg (tally_nonneg _ _) (tally_nonneg _ _)

variable {s : Fs} {process : Slot}

theorem references_cwd {ip : InodeId} (cwd : (s.proc process).cwd = some ip) :
    0 < s.references ip := by
  have some : 0 < tally (fun process => (s.proc process).cwd) ip := tally_pos_iff.mpr ⟨process, cwd⟩
  have rest := tally_nonneg (fun f => opened (s.ftable f)) ip
  show 0 < tally _ ip + tally _ ip
  omega

variable {f : FileId}

theorem references_opened {ip : InodeId} (target : opened (s.ftable f) = some ip) :
    0 < s.references ip := by
  have some : 0 < tally (fun f => opened (s.ftable f)) ip := tally_pos_iff.mpr ⟨f, target⟩
  have rest := tally_nonneg (fun process => (s.proc process).cwd) ip
  show 0 < tally _ ip + tally _ ip
  omega

theorem references_frame {next : Fs} (frame : Frame s next) : next.references = s.references := by
  unfold references
  rw [frame.ftable, frame.proc]

theorem references_withFile (s : Fs) (f : FileId) (file : File) :
    (s.withFile f file).references =
      s.references - mark (opened (s.ftable f)) + mark (opened file) := by
  funext ip
  have files : (fun g => opened ((s.withFile f file).ftable g)) =
      Function.update (fun g => opened (s.ftable g)) f (opened file) :=
    Function.comp_update opened s.ftable f file
  show tally (fun g => opened ((s.withFile f file).ftable g)) ip +
    tally (fun process => (s.proc process).cwd) ip = tally (fun g => opened (s.ftable g)) ip +
    tally (fun process => (s.proc process).cwd) ip - mark (opened (s.ftable f)) ip +
    mark (opened file) ip
  rw [files, tally_update]
  omega

theorem references_withCwd (s : Fs) (process : Slot) (ip : Option InodeId) :
    (s.withCwd process ip).references =
      s.references - mark (s.proc process).cwd + mark ip := by
  funext jp
  have cwds : (fun other => ((s.withCwd process ip).proc other).cwd) =
      Function.update (fun other => (s.proc other).cwd) process ip :=
    Function.comp_update FileProc.cwd s.proc process _
  show tally (fun f => opened (s.ftable f)) jp +
    tally (fun other => ((s.withCwd process ip).proc other).cwd) jp =
    tally (fun f => opened (s.ftable f)) jp + tally (fun other => (s.proc other).cwd) jp -
    mark (s.proc process).cwd jp + mark ip jp
  rw [cwds, tally_update]
  omega

theorem withOfile_cwd (s : Fs) (process : Slot) (fd : Fin NOFILE) (f : Option FileId)
    (other : Slot) : ((s.withOfile process fd f).proc other).cwd = (s.proc other).cwd :=
  PointUpdates.update_same FileProc.cwd (by rfl) other

theorem references_withOfile (s : Fs) (process : Slot) (fd : Fin NOFILE) (f : Option FileId) :
    (s.withOfile process fd f).references = s.references := by
  have cwds : (fun other => ((s.withOfile process fd f).proc other).cwd) =
      fun other => (s.proc other).cwd := funext (withOfile_cwd s process fd f)
  unfold references
  rw [cwds]
  rfl

/-- Disk and cache are the same. -/
structure Tables (s next : Fs) : Prop where
  disk : next.disk = s.disk
  sb : next.sb = s.sb
  icache : next.icache = s.icache

section

variable {s middle next : Fs} {extra spare rest : InodeId → Int} {locks now : List InodeId}
  {refs : InodeId → Int}

theorem Tables.files (tables : Tables s next) : next.files = s.files := by
  unfold Fs.files Fs.inodes blocks
  rw [tables.disk, tables.sb]

theorem Sound.tables (sound : Sound s refs locks) (tables : Tables s next) :
    Sound next refs locks := by
  have blocks : next.blocks = s.blocks := by rw [Fs.blocks, tables.disk]
  have inodes : next.inodes = s.inodes := by rw [Fs.inodes, Fs.inodes, blocks, tables.sb]
  obtain ⟨volume, ref, nonneg, named, distinct, coherent, busy, locked⟩ := sound
  unfold number at named distinct coherent
  rw [← tables.icache] at ref named distinct coherent busy locked
  rw [← inodes] at coherent
  rw [← tables.sb] at named
  refine ⟨⟨?_, ?_, ?_, ?_⟩, ref, nonneg, named, distinct, coherent, busy, locked⟩
  · rw [tables.sb]
    exact volume.geometry
  · rw [tables.sb, blocks]
    exact volume.super
  · rw [tables.sb, blocks, inodes]
    exact volume.owned
  · rw [blocks, inodes]
    exact volume.full

theorem Tables.calm (tables : Tables s next) (sound : Sound s refs locks) :
    Calm refs s next refs locks := by
  refine ⟨sound.tables tables, ⟨tables.sb, fun ip _ => ?_, fun ip _ valid => ?_⟩, tables.files⟩
  · rw [number, number, tables.icache]
  · rw [tables.icache]
    exact ⟨valid, rfl⟩

/-- A file or a directory of a process has been replaced, with the references that this
takes. -/
theorem Accounts.tables (accounts : Accounts s extra locks) (tables : Tables s next)
    (counts : next.references + spare = s.references + extra)
    (idle : ∀ f, (next.ftable f).ref ≤ 0 → (next.ftable f).type = .none)
    (targets : ∀ f, 0 < (next.ftable f).ref → (next.ftable f).type = .inode →
      ∃ ip, (next.ftable f).ip = some ip ∧ (s.icache ip).valid = true ∧
        ((next.ftable f).writable = true → (s.icache ip).type ≠ T_DIR)) :
    Moves s extra next spare locks := by
  have calm := tables.calm accounts.sound
  refine ⟨⟨?_, accounts.inside.calm calm, ?_, idle, ?_⟩, fun anchored => ?_, ?_⟩
  · rw [counts]
    exact calm.sound
  · rw [tables.sb]
    exact accounts.root
  · rw [tables.icache]
    exact targets
  · rw [counts]
    exact calm.anchored anchored
  · rw [tables.files]
    exact Prunes.refl _

theorem Moves.refl (accounts : Accounts s extra locks) : Moves s extra s extra locks :=
  ⟨accounts, fun anchored => anchored, Prunes.refl _⟩

theorem Moves.trans (first : Moves s extra middle spare locks)
    (second : Moves middle spare next rest now) : Moves s extra next rest now :=
  ⟨second.accounts, fun anchored => second.anchored (first.anchored anchored),
    first.prunes.trans second.prunes⟩

section

variable (accounts : Accounts s extra locks)
include accounts

theorem Accounts.withFile (f : FileId) (file : File) (idle : file.ref ≤ 0 → file.type = .none)
    (targets : 0 < file.ref → file.type = .inode → ∃ ip, file.ip = some ip ∧
      (s.icache ip).valid = true ∧ (file.writable = true → (s.icache ip).type ≠ T_DIR))
    (counts : spare + mark (opened file) = extra + mark (opened (s.ftable f))) :
    Moves s extra (s.withFile f file) spare locks := by
  refine accounts.tables ⟨rfl, rfl, rfl⟩ ?_ (fun g => ?_) fun g => ?_
  · rw [references_withFile]
    funext ip
    have total := congrFun counts ip
    simp only [Pi.add_apply, Pi.sub_apply] at total ⊢
    omega
  · by_cases here : g = f
    · rw [here, withFile_self]
      exact idle
    · rw [withFile_other _ _ here]
      exact accounts.idle g
  · by_cases here : g = f
    · rw [here, withFile_self]
      exact targets
    · rw [withFile_other _ _ here]
      exact accounts.targets g

theorem Accounts.recount (held : 0 < (s.ftable f).ref) (still : 0 < file.ref)
    (type : file.type = (s.ftable f).type) (ip : file.ip = (s.ftable f).ip)
    (writable : file.writable = (s.ftable f).writable) :
    Moves s extra (s.withFile f file) extra locks := by
  have same : opened file = opened (s.ftable f) := by
    by_cases isInode : (s.ftable f).type = .inode
    · rw [opened_some still (type.trans isInode), opened_some held isInode, ip]
    · rw [opened_none isInode, opened_none (by rw [type]; exact isInode)]
  refine accounts.withFile f file (fun none => by omega) (fun _ isInode => ?_) (by rw [same])
  rw [type] at isInode
  rw [ip, writable]
  exact accounts.targets f held isInode

theorem Accounts.withOfile (process : Slot) (fd : Fin NOFILE) (f : Option FileId) :
    Moves s extra (s.withOfile process fd f) extra locks := by
  refine accounts.tables ⟨rfl, rfl, rfl⟩ ?_ accounts.idle accounts.targets
  rw [references_withOfile]

theorem Accounts.withCwd (process : Slot) (ip : Option InodeId)
    (counts : spare + mark ip = extra + mark (s.proc process).cwd) :
    Moves s extra (s.withCwd process ip) spare locks := by
  refine accounts.tables ⟨rfl, rfl, rfl⟩ ?_ accounts.idle accounts.targets
  rw [references_withCwd]
  funext jp
  have total := congrFun counts jp
  simp only [Pi.add_apply, Pi.sub_apply] at total ⊢
  omega

theorem Accounts.frame (frame : Frame s next) (stays : Stays s.references s next)
    (inside : Inside next) (sound : Sound next (s.references + spare) now) :
    Accounts next spare now := by
  refine ⟨?_, inside, ?_, ?_, fun f held type => ?_⟩
  · rw [references_frame frame]
    exact sound
  · rw [stays.sb]
    exact accounts.root
  · rw [frame.ftable]
    exact accounts.idle
  · rw [frame.ftable] at held type ⊢
    obtain ⟨ip, target, valid, proper⟩ := accounts.targets f held type
    have used : 0 < s.references ip := references_opened ((opened_some held type).trans target)
    have kept := stays.valid ip used valid
    refine ⟨ip, target, kept.1, fun writable => ?_⟩
    rw [kept.2]
    exact proper writable

theorem Accounts.pipes (pipes : Nat → Option Pipe) (kmem : List Nat) :
    Moves s extra { s with pipes, kmem } extra locks :=
  accounts.tables ⟨rfl, rfl, rfl⟩ rfl accounts.idle accounts.targets

theorem Accounts.calm (frame : Frame s next)
    (calm : Calm (s.references + extra) s next (s.references + spare) now)
    (more : ∀ ip, 0 ≤ extra ip)
    (still : ∀ ip, 0 < (s.references + extra) ip → 0 < (s.references + spare) ip) :
    Moves s extra next spare now := by
  have fewer : ∀ ip, 0 < s.references ip → 0 < (s.references + extra) ip := by
    intro ip held
    have bound := more ip
    rw [Pi.add_apply]
    omega
  refine ⟨accounts.frame frame (calm.stays.mono fewer) (accounts.inside.calm calm) calm.sound,
    fun anchored => ?_, ?_⟩
  · rw [references_frame frame]
    exact (calm.anchored anchored).mono still
  · rw [calm.files]
    exact Prunes.refl _

end

theorem Accounts.puts {ip : InodeId} (accounts : Accounts s (extra + mark (some ip)) locks)
    (frame : Frame s next) (puts : Puts (s.references + extra) s next now ip)
    (more : ∀ ip, 0 ≤ extra ip) : Moves s (extra + mark (some ip)) next extra now := by
  have nonneg : ∀ jp, 0 ≤ (s.references + extra) jp :=
    fun jp => Int.add_nonneg (references_nonneg s jp) (more jp)
  have fewer : ∀ jp, 0 < s.references jp → 0 < (s.references + extra) jp := by
    intro jp held
    have bound := more jp
    rw [Pi.add_apply]
    omega
  refine ⟨accounts.frame frame (puts.stays.mono fewer)
    (accounts.inside.prunes puts.stays.sb puts.prunes) puts.sound, fun anchored => ?_, puts.prunes⟩
  rw [references_frame frame]
  rw [← add_assoc] at anchored
  exact puts.anchored nonneg anchored

end

section

variable {faults : FsFault → Prop} (tolerant : Tolerant faults) {s : Fs} {extra : InodeId → Int}
  {locks : List InodeId}
include tolerant

theorem beginOp_moves (accounts : Accounts s extra locks) (more : ∀ ip, 0 ≤ extra ip) :
    Ends (fun _ next => Moves s extra next extra locks ∧ Frame s next) faults beginOp s :=
  ((beginOp_ends tolerant accounts.sound).and (beginOp_apart.ends s)).imp fun _ _ both =>
    ⟨accounts.calm both.2 both.1 more fun _ had => had, both.2⟩

theorem endOp_moves (accounts : Accounts s extra locks) (more : ∀ ip, 0 ≤ extra ip) :
    Ends (fun _ next => Moves s extra next extra locks ∧ Frame s next) faults endOp s :=
  ((endOp_ends tolerant accounts.sound).and (endOp_apart.ends s)).imp fun _ _ both =>
    ⟨accounts.calm both.2 both.1 more fun _ had => had, both.2⟩

variable {ip : InodeId}

theorem iput_moves (accounts : Accounts s (extra + mark (some ip)) locks)
    (more : ∀ ip, 0 ≤ extra ip) (locked : ip ∈ locks → 0 < extra ip) :
    Ends (fun _ next => Moves s (extra + mark (some ip)) next extra locks ∧ Frame s next) faults
      (iput ip) s := by
  have sound := accounts.sound
  rw [← add_assoc] at sound
  have nonneg := references_nonneg s ip
  refine ((iput_ends tolerant sound (Int.add_nonneg nonneg (more ip)) fun member => ?_).and
    ((iput_apart ip).ends s)).imp fun _ _ both => ⟨accounts.puts both.2 both.1 more, both.2⟩
  have spare := locked member
  rw [Pi.add_apply]
  omega

theorem iunlockput_moves (accounts : Accounts s (extra + mark (some ip)) (ip :: locks))
    (more : ∀ ip, 0 ≤ extra ip) (once : ip ∉ locks) :
    Ends (fun _ next => Moves s (extra + mark (some ip)) next extra locks ∧ Frame s next) faults
      (iunlockput ip) s := by
  have sound := accounts.sound
  rw [← add_assoc] at sound
  have nonneg := references_nonneg s ip
  exact ((iunlockput_ends tolerant sound (Int.add_nonneg nonneg (more ip)) once).and
    ((iunlockput_apart ip).ends s)).imp fun _ _ both => ⟨accounts.puts both.2 both.1 more, both.2⟩

theorem iunlock_moves (accounts : Accounts s extra (ip :: locks)) (more : ∀ ip, 0 ≤ extra ip)
    (once : ip ∉ locks) :
    Ends (fun _ next => Moves s extra next extra locks ∧ Frame s next) faults (iunlock ip) s :=
  ((iunlock_ends tolerant accounts.sound once).and ((iunlock_apart ip).ends s)).imp
    fun _ _ both => ⟨accounts.calm both.2 both.1 more fun _ had => had, both.2⟩

/-- The last reference of a file is gone, and the call has got its target. -/
theorem closeTarget_moves (accounts : Accounts s (extra + mark (opened file)) locks)
    (held : 0 < file.ref) (more : ∀ ip, 0 ≤ extra ip) (spare : ∀ ip ∈ locks, 0 < extra ip) :
    Ends (fun _ next => Moves s (extra + mark (opened file)) next extra locks ∧
      next.proc = s.proc) faults (closeTarget file) s := by
  unfold closeTarget
  have other : file.type ≠ .inode → extra + mark (opened file) = extra := by
    intro different
    rw [opened_none different, mark_none, add_zero]
  cases type : file.type with
  | pipe =>
    rw [other (by rw [type]; decide)] at accounts ⊢
    apply Ends.read
    split
    · exact tolerant.fail (by decide)
    split
    · exact ⟨accounts.pipes _ _, rfl⟩
    · exact ⟨accounts.pipes _ _, rfl⟩
  | inode =>
    rw [opened_some held type] at accounts ⊢
    refine (beginOp_moves tolerant accounts fun ip => Int.add_nonneg (more ip)
      (mark_nonneg _ _)).seq ?_
    rintro _ begun ⟨begins, frame⟩
    refine .andThen (deref_ends (tolerant.other (by decide)) fun ip target => ?_)
    rw [target] at begins ⊢
    refine (iput_moves tolerant begins.accounts more (spare ip)).seq ?_
    rintro _ put ⟨puts, framePut⟩
    refine (endOp_moves tolerant puts.accounts more).imp ?_
    rintro _ next ⟨ends, frameEnd⟩
    refine ⟨(begins.trans puts).trans ends, ?_⟩
    rw [frameEnd.proc, framePut.proc, frame.proc]
  | none =>
    rw [other (by rw [type]; decide)] at accounts ⊢
    exact .ret ⟨Moves.refl accounts, rfl⟩

theorem fileclose_moves (accounts : Accounts s extra locks) (f : FileId) (more : ∀ ip, 0 ≤ extra ip)
    (spare : ∀ ip ∈ locks, 0 < extra ip) :
    Ends (fun _ next => Moves s extra next extra locks ∧ next.proc = s.proc) faults (fileclose f)
      s := by
  by_cases held : 1 ≤ (s.ftable f).ref
  · refine fileclose_ends held (fun shared => ?_) fun last => ?_
    · exact ⟨accounts.recount (by omega) (show 0 < (s.ftable f).ref - 1 by omega) rfl rfl rfl, rfl⟩
    · have closes : Moves s extra (s.withFile f (closed (s.ftable f)))
          (extra + mark (opened (s.ftable f))) locks := by
        refine accounts.withFile f _ (fun _ => rfl) (fun none => absurd none (Int.lt_irrefl 0)) ?_
        have idle : FileType.none ≠ .inode := by decide
        rw [opened_none (show (closed (s.ftable f)).type ≠ .inode from idle), mark_none, add_zero]
      refine (closeTarget_moves tolerant closes.accounts (by omega) more spare).imp ?_
      rintro _ next ⟨moves, proc⟩
      exact ⟨closes.trans moves, proc⟩
  · apply Ends.read
    rw [if_pos (by omega)]
    exact tolerant.fail (by decide)

theorem filedup_moves (accounts : Accounts s extra locks) (f : FileId) :
    Ends (fun _ next => Moves s extra next extra locks ∧ next.proc = s.proc) faults (filedup f)
      s := by
  by_cases held : 1 ≤ (s.ftable f).ref
  · refine filedup_ends held ?_
    exact ⟨accounts.recount (by omega) (show 0 < (s.ftable f).ref + 1 by omega) rfl rfl rfl, rfl⟩
  apply Ends.read
  rw [if_pos (by omega)]
  exact tolerant.fail (by decide)

theorem closeBoth_moves (accounts : Accounts s 0 []) (rf wf : FileId) :
    Ends (fun _ next => Moves s 0 next 0 []) faults (closeBoth rf wf) s := by
  have none : ∀ ip ∈ ([] : List InodeId), 0 < (0 : InodeId → Int) ip := fun ip member => by
    cases member
  refine (fileclose_moves tolerant accounts rf (fun _ => Int.le_refl 0) none).seq ?_
  rintro _ half ⟨first, _⟩
  refine (fileclose_moves tolerant first.accounts wf (fun _ => Int.le_refl 0) none).imp ?_
  rintro _ next ⟨second, _⟩
  exact first.trans second

end

variable {ip : InodeId} {β : Type}

section

variable {faults : FsFault → Prop} (tolerant : Tolerant faults) {s : Fs} {extra : InodeId → Int}
  {locks : List InodeId}
include tolerant

theorem ilock_moves (accounts : Accounts s extra locks) (more : ∀ ip, 0 ≤ extra ip)
    (held : 0 < (s.references + extra) ip)
    (typed : s.files (s.number ip) ≠ none ∨ faults (.panic "ilock: no type")) :
    Ends (fun _ next => Moves s extra next extra (ip :: locks) ∧ Frame s next ∧ ip ∉ locks) faults
      (ilock ip) s :=
  ((ilock_ends tolerant accounts.sound held typed).and ((ilock_apart ip).ends s)).imp
    fun _ _ both => ⟨accounts.calm both.2 both.1.1 more fun _ had => had, both.2, both.1.2⟩

theorem leave_next {rest : FsM β} {post : β → Fs → Prop} (accounts : Accounts s extra [])
    (more : ∀ ip, 0 ≤ extra ip) {old : InodeId} (cwd : (s.proc process).cwd = some old)
    (continues : ∀ next, Moves s extra (next.withCwd process none) extra [] →
      Ends post faults rest next) :
    Ends post faults (do
      iput old
      endOp
      rest) s := by
  -- the directory is taken out of the record first, in another state with the same cache
  have takes : Moves s extra (s.withCwd process none) (extra + mark (some old)) [] := by
    refine accounts.withCwd process none ?_
    rw [cwd, mark_none, add_zero]
  have references : (s.withCwd process none).references + mark (some old) = s.references := by
    rw [references_withCwd, cwd, mark_none, add_zero, sub_add_cancel]
  have nonneg := references_nonneg (s.withCwd process none) old
  have sound : Sound s ((s.withCwd process none).references + extra + mark (some old)) [] := by
    rw [add_right_comm, references]
    exact accounts.sound
  refine ((iput_ends tolerant sound (Int.add_nonneg nonneg (more old)) fun member => ?_).and
    ((iput_apart old).ends s)).seq ?_
  · cases member
  rintro _ put ⟨puts, frame⟩
  have frameLeft : Frame (s.withCwd process none) (put.withCwd process none) := by
    refine ⟨frame.ftable, ?_, frame.pipes, frame.kmem⟩
    unfold withCwd withProc
    rw [frame.proc]
  have putsLeft : Puts ((s.withCwd process none).references + extra) (s.withCwd process none)
      (put.withCwd process none) [] old :=
    ⟨puts.sound.tables ⟨rfl, rfl, rfl⟩, ⟨puts.stays.sb, puts.stays.number, puts.stays.valid⟩,
      puts.kept, puts.gone⟩
  have gives := takes.trans (takes.accounts.puts frameLeft putsLeft more)
  have soundPut : Sound put ((put.withCwd process none).references + extra) [] :=
    gives.accounts.sound.tables ⟨rfl, rfl, rfl⟩
  refine ((endOp_ends tolerant soundPut).and (endOp_apart.ends put)).seq ?_
  rintro _ next ⟨ends, frameEnd⟩
  have frameNext : Frame (put.withCwd process none) (next.withCwd process none) := by
    refine ⟨frameEnd.ftable, ?_, frameEnd.pipes, frameEnd.kmem⟩
    unfold withCwd withProc
    rw [frameEnd.proc]
  have calm : Calm ((put.withCwd process none).references + extra) (put.withCwd process none)
      (next.withCwd process none) ((put.withCwd process none).references + extra) [] :=
    ⟨ends.sound.tables ⟨rfl, rfl, rfl⟩, ⟨ends.stays.sb, ends.stays.number, ends.stays.valid⟩,
      ends.files⟩
  exact continues next (gives.trans (gives.accounts.calm frameNext calm more fun _ had => had))

end

variable {locks : List InodeId}

theorem Accounts.passes {next : Fs} {spare : InodeId → Int} {now : List InodeId}
    (accounts : Accounts s 0 locks) (frame : Frame s next)
    (passes : Passes s.references s next (s.references + spare) now) (more : ∀ ip, 0 ≤ spare ip) :
    Moves s 0 next spare now := by
  refine ⟨accounts.frame frame passes.stays passes.inside passes.sound, fun anchored => ?_,
    passes.prunes⟩
  rw [add_zero] at anchored
  rw [references_frame frame]
  refine (passes.anchored anchored).mono fun ip held => ?_
  have bound := more ip
  rw [Pi.add_apply]
  omega

variable {extra : InodeId → Int}

/-- A file that could be the target of a descriptor is in use, or has no type. -/
theorem Accounts.held (accounts : Accounts s extra locks) (typed : (s.ftable f).type ≠ .none) :
    0 < (s.ftable f).ref := by
  by_contra unused
  exact typed (accounts.idle f (by omega))

theorem Accounts.filealloc (accounts : Accounts s extra locks) (unused : (s.ftable f).ref = 0) :
    Moves s extra (s.withFile f (counted (s.ftable f) 1)) extra locks := by
  have idle : (s.ftable f).type ≠ .inode := by
    rw [accounts.idle f (by omega)]
    decide
  refine accounts.withFile f _ (fun low => absurd low (by show ¬ (1 : Int) ≤ 0; decide))
    (fun _ type => absurd type idle) ?_
  rw [opened_none idle, opened_none (show (counted (s.ftable f) 1).type ≠ .inode from idle)]

theorem Accounts.plug (accounts : Accounts s extra locks) (held : 0 < (s.ftable f).ref)
    (idle : (s.ftable f).type = .none) (page : Nat) (writable : Bool) :
    Moves s extra (s.withFile f (plugged (s.ftable f) page writable)) extra locks := by
  have pipe : FileType.pipe ≠ .inode := by decide
  have none : (s.ftable f).type ≠ .inode := by
    rw [idle]
    decide
  refine accounts.withFile f _ (fun low => absurd held (Int.not_lt.mpr low))
    (fun _ type => absurd type pipe) ?_
  rw [opened_none none, opened_none (show (plugged _ page writable).type ≠ .inode from pipe)]

theorem modifyFile_next {change : File → File} {next : Unit → FsM β} {post : β → Fs → Prop}
    {faults : FsFault → Prop}
    (continues : Ends post faults (next ()) (s.withFile f (change (s.ftable f)))) :
    Ends post faults (modifyFile f change >>= next) s :=
  continues

section

variable {faults : FsFault → Prop} (tolerant : Tolerant faults) {s : Fs}
include tolerant

theorem pipealloc_moves (accounts : Accounts s 0 []) :
    Ends (fun _ next => Moves s 0 next 0 []) faults pipealloc s := by
  refine .andThen (filealloc_ends (Ends.ret (Moves.refl accounts)) fun f0 unused0 => ?_)
  have first := accounts.filealloc unused0
  refine .andThen (filealloc_ends ?_ fun f1 unused1 => ?_)
  · refine (fileclose_moves tolerant first.accounts f0 (fun _ => Int.le_refl 0) fun ip member => by
      cases member).seq ?_
    exact fun _ next closes => .ret (first.trans closes.1)
  have second := first.trans (first.accounts.filealloc unused1)
  refine .andThen (allocPage_ends ?_ fun page rest _ => ?_)
  · refine (closeBoth_moves tolerant second.accounts f0 f1).seq fun _ next closes => ?_
    exact .ret (second.trans closes)
  obtain ⟨state, shape⟩ : ∃ state, state =
      ((s.withFile f0 (counted (s.ftable f0) 1)).withFile f1 (counted
        ((s.withFile f0 (counted (s.ftable f0) 1)).ftable f1) 1)).withPipe page rest :=
    ⟨_, rfl⟩
  rw [← shape]
  have third : Moves s 0 state 0 [] := by
    rw [shape]
    exact second.trans (second.accounts.pipes _ rest)
  have different : f0 ≠ f1 := by
    rintro rfl
    rw [withFile_self] at unused1
    cases unused1
  have file0 : state.ftable f0 = counted (s.ftable f0) 1 := by
    rw [shape]
    exact (withFile_other _ _ different).trans (withFile_self ..)
  have file1 : state.ftable f1 = counted (s.ftable f1) 1 := by
    rw [shape]
    refine (withFile_self ..).trans ?_
    rw [withFile_other _ _ different.symm]
  rw [withFile_other _ _ different.symm] at unused1
  have plug0 : Moves state 0 (state.withFile f0 (plugged (state.ftable f0) page false)) 0 [] := by
    refine third.accounts.plug ?_ ?_ page false
    · rw [file0]
      exact Int.one_pos
    · rw [file0]
      exact accounts.idle f0 (Int.le_of_eq unused0)
  have plug1 := plug0.accounts.plug (f := f1) (by
    rw [withFile_other _ _ different.symm, file1]
    exact Int.one_pos) (by
    rw [withFile_other _ _ different.symm, file1]
    exact accounts.idle f1 (Int.le_of_eq unused1)) page true
  exact modifyFile_next (modifyFile_next (Ends.ret (third.trans (plug0.trans plug1))))

theorem forkFile_moves (accounts : Accounts s 0 []) (process child : Slot) (fd : Fin NOFILE) :
    Ends (fun _ next => Moves s 0 next 0 [] ∧
      ∀ other, (next.proc other).cwd = (s.proc other).cwd) faults (forkFile process child fd)
      s := by
  apply Ends.read
  split
  · exact .ret ⟨Moves.refl accounts, fun _ => rfl⟩
  rename_i f held
  refine (filedup_moves tolerant accounts f).seq ?_
  rintro _ next ⟨moves, proc⟩
  refine ⟨moves.trans (moves.accounts.withOfile child fd (some f)), fun other => ?_⟩
  exact (withOfile_cwd next child fd (some f) other).trans (by rw [proc])

theorem exitFile_moves (accounts : Accounts s 0 []) (process : Slot) (fd : Fin NOFILE) :
    Ends (fun _ next => Moves s 0 next 0 []) faults (exitFile process fd) s := by
  apply Ends.read
  split
  · exact .ret (Moves.refl accounts)
  rename_i f held
  refine (fileclose_moves tolerant accounts f (fun _ => Int.le_refl 0) fun ip member => ?_).seq ?_
  · cases member
  rintro _ next ⟨moves, _⟩
  exact moves.trans (moves.accounts.withOfile process fd none)

theorem openInode_moves (accounts : Accounts s (0 + mark (some ip)) [ip]) (process : Slot)
    {omode : UInt32}
    (proper : omode &&& O_WRONLY ≠ 0 ∨ omode &&& O_RDWR ≠ 0 → (s.node ip).type ≠ T_DIR) :
    Ends (fun _ next => Moves s (0 + mark (some ip)) next 0 []) faults (openInode process ip omode)
      s := by
  have more : ∀ jp, 0 ≤ ((0 : InodeId → Int) + mark (some ip)) jp := by
    intro jp
    rw [zero_add]
    exact mark_nonneg _ _
  have gives : ∀ middle, Moves s (0 + mark (some ip)) middle (0 + mark (some ip)) [ip] →
      Ends (fun _ next => Moves s (0 + mark (some ip)) next 0 []) faults (do
        iunlockput ip
        endOp
        pure (-1) : FsM Int32) middle := by
    intro middle moves
    refine (iunlockput_moves tolerant moves.accounts (fun _ => Int.le_refl 0)
      List.not_mem_nil).seq ?_
    rintro _ put ⟨puts, _⟩
    refine (endOp_moves tolerant puts.accounts fun _ => Int.le_refl 0).seq fun _ next ends => ?_
    exact .ret ((moves.trans puts).trans ends.1)
  refine .andThen (filealloc_ends (gives s (Moves.refl accounts)) fun f unused => ?_)
  have idle := accounts.idle f (Int.le_of_eq unused)
  obtain ⟨taken, shape⟩ : ∃ taken, taken = s.withFile f (counted (s.ftable f) 1) := ⟨_, rfl⟩
  have takes : Moves s (0 + mark (some ip)) taken (0 + mark (some ip)) [ip] := by
    rw [shape]
    exact accounts.filealloc unused
  have file : taken.ftable f = counted (s.ftable f) 1 := by rw [shape, withFile_self]
  have icache : taken.icache = s.icache := by rw [shape]; rfl
  rw [← shape]
  refine .andThen (fdalloc_ends ?_ fun fd _ => ?_)
  · refine (fileclose_moves tolerant takes.accounts f more fun jp member => ?_).seq ?_
    · rw [List.mem_singleton.mp member, zero_add, mark_self]
      exact Int.one_pos
    · rintro _ closed ⟨closes, _⟩
      exact gives closed (takes.trans closes)
  have names := takes.trans (takes.accounts.withOfile process fd (some f))
  have valid := (names.accounts.sound.locked ip List.mem_cons_self)
  refine ((iunlock_ends tolerant names.accounts.sound List.not_mem_nil).and
    ((iunlock_apart ip).ends _)).seq ?_
  rintro _ unlocked ⟨unlock, frame⟩
  have frees := names.trans (names.accounts.calm frame unlock more fun _ had => had)
  have validFree := unlock.stays.valid ip valid.1 valid.2
  have soundFree := frees.accounts.sound
  have heldFree : 0 < (unlocked.references + (0 + mark (some ip))) ip := by
    rw [zero_add]
    exact mark_pos _ (references_nonneg unlocked ip) (.inr rfl)
  refine ((endOp_ends tolerant soundFree).and (endOp_apart.ends _)).seq ?_
  rintro _ ended ⟨ends, frameEnd⟩
  have leaves := frees.trans (frees.accounts.calm frameEnd ends more fun _ had => had)
  have validEnd := ends.stays.valid ip heldFree validFree.1
  have fileEnd : ended.ftable f = counted (s.ftable f) 1 := by
    rw [frameEnd.ftable, frame.ftable]
    exact file
  have opens : ∀ new : File, new.ref = (ended.ftable f).ref → new.type = .inode →
      new.ip = some ip → (new.writable = true → omode &&& O_WRONLY ≠ 0 ∨ omode &&& O_RDWR ≠ 0) →
      Moves ended (0 + mark (some ip)) (ended.withFile f new) 0 [] := by
    intro new ref type target writable
    have used : 0 < new.ref := by
      rw [ref, fileEnd]
      exact Int.one_pos
    refine leaves.accounts.withFile f new (fun low => absurd used (Int.not_lt.mpr low))
      (fun _ _ => ⟨ip, target, validEnd.1, fun writes => ?_⟩) ?_
    · rw [validEnd.2, validFree.2]
      show (taken.icache ip).type ≠ T_DIR
      rw [icache]
      exact proper (writable writes)
    · have before : (ended.ftable f).type ≠ .inode := by
        rw [fileEnd]
        show (s.ftable f).type ≠ .inode
        rw [idle]
        decide
      rw [opened_none before, opened_some used type, target, mark_none, add_zero]
  refine modifyFile_next (Ends.ret (leaves.trans (opens _ rfl rfl rfl fun writes => ?_)))
  exact of_decide_eq_true writes

end

end RtXv6.Fs
