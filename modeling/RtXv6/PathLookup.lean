import RtXv6.DirectoryEntries
import RtXv6.PointUpdates

/-!
# Looking up a path

`namex` walks from directory to directory and gives back every reference on its way but
the last one. Where every file without links is anchored by the references of others, the
walk leaves the files and follows the entries that they have; then it can only meet an
inode without a type if an entry names one.
-/

namespace RtXv6.Fs

open Stateful Tally

/-- Where a path leads from an inode, with the name that is left for `nameiparent`. -/
inductive Leads (files : Nat → Option FileNode) (parent : Bool) :
    Nat → List UInt8 → Nat → List UInt8 → Prop
  | here {i : Nat} {path : List UInt8} (whole : parent = false) (ends : skipelem path = none) :
      Leads files parent i path i []
  | last {i : Nat} {path name : List UInt8} {node : FileNode} (asked : parent = true)
      (element : skipelem path = some (name, [])) (present : files i = some node)
      (directory : node.type = T_DIR) : Leads files parent i path i name
  | step {i j k : Nat} {path name rest left : List UInt8} {node : FileNode}
      (element : skipelem path = some (name, rest)) (present : files i = some node)
      (directory : node.type = T_DIR) (finds : node.Finds name k)
      (further : Leads files parent (node.target k) rest j left) :
      Leads files parent i path j left

variable {name : List UInt8} {parent : Bool}

theorem Leads.congr {files others : Nat → Option FileNode} {i j : Nat} {path : List UInt8}
    (leads : Leads files parent i path j name)
    (same : ∀ i node, files i = some node → node.type = T_DIR → others i = some node) :
    Leads others parent i path j name := by
  induction leads with
  | here whole ends => exact .here whole ends
  | last asked element present directory =>
    exact .last asked element (same _ _ present directory) directory
  | step element present directory finds further ih =>
    exact .step element (same _ _ present directory) directory finds ih

/-- Every name leads to a file, and so does every reference; every file without links is
anchored. -/
structure Dense (refs : InodeId → Int) (s : Fs) : Prop where
  root : s.files ROOTINO.toNat ≠ none
  entries : ∀ i node k, s.files i = some node → node.type = T_DIR → 16 * k < node.size →
    node.target k ≠ 0 → s.files (node.target k) ≠ none
  held : ∀ ip, 0 < refs ip → s.files (s.number ip) ≠ none
  anchored : Anchored refs s

theorem Dense.leads {refs : InodeId → Int} {s : Fs} (dense : Dense refs s) {i j : Nat}
    {path : List UInt8} (leads : Leads s.files parent i path j name) (begins : s.files i ≠ none) :
    s.files j ≠ none := by
  induction leads with
  | here | last => exact begins
  | step element present directory finds further ih =>
    have whole := finds.whole
    refine ih (dense.entries _ _ _ present directory (by omega) ?_)
    exact fun zero => finds.same.1 (UInt16.toNat_inj.mp zero)

/-- References and locks have changed, and files without links may have been removed, but not
those that others anchor. -/
structure Passes (refs : InodeId → Int) (s next : Fs) (counts : InodeId → Int)
    (locks : List InodeId) : Prop where
  sound : Sound next counts locks
  inside : Inside next
  stays : Stays refs s next
  prunes : Prunes s.files next.files
  same : Anchored refs s → next.files = s.files

section

variable {s middle next : Fs} {refs counts others : InodeId → Int} {locks now : List InodeId}
  {ip : InodeId}

theorem Inside.prunes (inside : Inside s) (sb : next.sb = s.sb)
    (prunes : Prunes s.files next.files) : Inside next := by
  intro i node k present directory within
  rw [sb]
  rcases prunes i with same | ⟨gone, _⟩
  · rw [same] at present
    exact inside i node k present directory within
  · rw [gone] at present
    cases present

theorem Inside.calm (inside : Inside s) (calm : Calm refs s next counts locks) : Inside next := by
  apply inside.prunes calm.stays.sb
  rw [calm.files]
  exact Prunes.refl _

/-- One file has changed, and it is no directory or its entries are inside. -/
theorem Inside.edits (inside : Inside s) {node : FileNode}
    (edits : Edits refs s next locks ip node)
    (bound : node.type = T_DIR → ∀ k, 16 * k < node.size → node.target k < s.sb.ninodes.toNat) :
    Inside next := by
  intro i other k present directory within
  rw [edits.stays.sb]
  rw [edits.files] at present
  rcases PointUpdates.update_cases id present with ⟨_, now⟩ | ⟨_, already⟩
  · cases now
    exact bound directory k within
  · exact inside i other k already directory within

theorem Calm.passes (calm : Calm refs s next counts locks) (inside : Inside s) :
    Passes refs s next counts locks := by
  refine ⟨calm.sound, inside.calm calm, calm.stays, ?_, fun _ => calm.files⟩
  rw [calm.files]
  exact Prunes.refl _

theorem Puts.passes (puts : Puts refs s next locks ip) (inside : Inside s)
    (sound : Sound s (refs + mark (some ip)) now) (nonneg : ∀ ip, 0 ≤ refs ip) :
    Passes refs s next refs locks :=
  ⟨puts.sound, inside.prunes puts.stays.sb puts.prunes, puts.stays, puts.prunes,
    puts.same sound nonneg⟩

theorem Passes.anchored (passes : Passes refs s next counts locks) (anchored : Anchored refs s) :
    Anchored refs next := by
  refine anchored.stays passes.stays fun i node present _ => .inl ?_
  rw [← passes.same anchored]
  exact present

theorem Passes.trans (first : Passes refs s middle counts locks)
    (second : Passes refs middle next others now) : Passes refs s next others now :=
  ⟨second.sound, second.inside, first.stays.trans second.stays, first.prunes.trans second.prunes,
    fun anchored => (second.same (first.anchored anchored)).trans (first.same anchored)⟩

theorem Passes.mono (passes : Passes refs s next counts locks)
    (fewer : ∀ ip, 0 < others ip → 0 < refs ip) : Passes others s next counts locks :=
  ⟨passes.sound, passes.inside, passes.stays.mono fewer, passes.prunes,
    fun anchored => passes.same (anchored.mono fewer)⟩

theorem Passes.dense (passes : Passes refs s next counts locks) (dense : Dense refs s) :
    Dense refs next := by
  have same := passes.same dense.anchored
  refine ⟨by rw [same]; exact dense.root, by rw [same]; exact dense.entries, fun ip held => ?_,
    passes.anchored dense.anchored⟩
  rw [same, passes.stays.number ip held]
  exact dense.held ip held

end

variable {post : Option (InodeId × List UInt8) → Fs → Prop}

section

variable {faults : FsFault → Prop} (tolerant : Tolerant faults)
include tolerant

theorem walk_ends {fuel : Nat} {s : Fs} {refs : InodeId → Int} {ip : InodeId} {path : List UInt8}
    (sound : Sound s (refs + mark (some ip)) []) (inside : Inside s) (nonneg : ∀ ip, 0 ≤ refs ip)
    (typed : Dense refs s ∧ s.files (s.number ip) ≠ none ∨ faults (.panic "ilock: no type"))
    (missing : ∀ next, Passes refs s next refs [] → post none next)
    (found : ∀ jp name next, Passes refs s next (refs + mark (some jp)) [] →
      (Anchored refs s → Leads s.files parent (s.number ip) path (next.number jp) name) →
      post (some (jp, name)) next) : Ends post faults (walk parent fuel ip path) s := by
  induction fuel generalizing s ip path with
  | zero => exact tolerant.fail (by decide)
  | succ fuel ih =>
    have held := mark_own nonneg ip
    unfold walk
    split
    · rename_i ends
      cases asked : parent with
      | true =>
        refine (iput_ends tolerant sound (nonneg ip) fun member => ?_).seq fun _ next puts => ?_
        · cases member
        · exact .ret (missing next (puts.passes inside sound nonneg))
      | false =>
        refine .ret (found ip [] s ?_ fun _ => .here asked ends)
        exact ⟨sound, inside, Stays.refl _ _, Prunes.refl _, fun _ => rfl⟩
    rename_i name rest element
    refine (ilock_ends tolerant sound held (typed.imp_left And.right)).seq ?_
    rintro _ locked ⟨calm, _⟩
    have number := calm.stays.number ip held
    have passes := (calm.passes inside).mono (mark_more refs ip)
    have present : s.files (s.number ip) = some (locked.node ip) := by
      rw [← calm.files, ← number]
      exact (calm.sound.fresh_locked List.mem_cons_self).file
    apply Ends.read
    by_cases directory : (locked.node ip).type = T_DIR
    · rw [if_neg (show ¬ (locked.icache ip).type ≠ T_DIR from not_not.mpr directory)]
      by_cases last : parent = true ∧ rest = []
      · rw [if_pos last]
        refine (iunlock_ends tolerant calm.sound List.not_mem_nil).seq fun _ next free => ?_
        have unlocked := (free.passes passes.inside).mono (mark_more refs ip)
        refine .ret (found ip name next (passes.trans unlocked) fun _ => ?_)
        rw [free.stays.number ip held, number]
        rw [last.2] at element
        exact .last last.1 element present directory
      rw [if_neg last]
      refine .andThen (dirlookup_ends tolerant calm.sound passes.inside List.mem_cons_self ?_ ?_)
      · intro _ _
        refine (iunlockput_ends tolerant calm.sound (nonneg ip) List.not_mem_nil).seq
          fun _ next puts => ?_
        exact .ret (missing next (passes.trans (puts.passes passes.inside calm.sound nonneg)))
      intro jp k looked _ finds gain target _
      have swap : refs + mark (some ip) + mark (some jp) =
          refs + mark (some jp) + mark (some ip) := add_right_comm _ _ _
      have more := mark_nonnegs nonneg jp
      have soundNow := gain.sound
      rw [swap] at soundNow
      have passesNow := passes.trans ((gain.passes passes.inside).mono (mark_more refs ip))
      refine (iunlockput_ends tolerant soundNow (more ip) List.not_mem_nil).seq
        fun _ next puts => ?_
      have onward := passesNow.trans
        ((puts.passes passesNow.inside soundNow more).mono (mark_more refs jp))
      have heldNext := mark_own nonneg jp
      have numberNext : next.number jp = (locked.node ip).target k := by
        rw [puts.stays.number jp heldNext, target]
      refine ih onward.sound onward.inside ?_ ?_ ?_
      · refine typed.imp_left fun dense => ⟨onward.dense dense.1, ?_⟩
        rw [onward.same dense.1.anchored, numberNext]
        refine dense.1.entries _ _ k present directory (by have := finds.whole; omega) ?_
        exact fun zero => finds.same.1 (UInt16.toNat_inj.mp zero)
      · exact fun final rest => missing final (onward.trans rest)
      · intro kp left final rest leads
        refine found kp left final (onward.trans rest) fun anchored => ?_
        have further := leads (onward.anchored anchored)
        rw [onward.same anchored, numberNext] at further
        exact .step element present directory finds further
    · rw [if_pos (show (locked.icache ip).type ≠ T_DIR from directory)]
      refine (iunlockput_ends tolerant calm.sound (nonneg ip) List.not_mem_nil).seq
        fun _ next puts => ?_
      exact .ret (missing next (passes.trans (puts.passes passes.inside calm.sound nonneg)))

end

/-- The number of the inode where `namex` starts. -/
def start (s : Fs) (process : Slot) (path : List UInt8) : Nat :=
  if path.head? = some slash then ROOTINO.toNat
  else ((s.proc process).cwd.map s.number).getD 0

/-- A state from which a process may look up a path. -/
structure Able (s : Fs) (refs : InodeId → Int) (process : Slot) (faults : FsFault → Prop) :
    Prop where
  sound : Sound s refs []
  inside : Inside s
  root : ROOTINO.toNat < s.sb.ninodes.toNat
  cwd : ∀ ip, (s.proc process).cwd = some ip → 0 < refs ip
  typed : Dense refs s ∨ faults (.panic "ilock: no type")

namespace Able

variable {faults : FsFault → Prop} {s next : Fs} {refs : InodeId → Int} {process : Slot}

theorem passes (able : Able s refs process faults) (passes : Passes refs s next refs [])
    (proc : next.proc = s.proc) : Able next refs process faults := by
  refine ⟨passes.sound, passes.inside, by rw [passes.stays.sb]; exact able.root, ?_,
    able.typed.imp_left passes.dense⟩
  rw [proc]
  exact able.cwd

theorem start_eq (able : Able s refs process faults) (stays : Stays refs s next)
    (proc : next.proc = s.proc) (path : List UInt8) :
    next.start process path = s.start process path := by
  unfold start
  rw [proc]
  cases cwd : (s.proc process).cwd with
  | none => rfl
  | some ip =>
    rw [Option.map_some, Option.map_some, stays.number ip (able.cwd ip cwd)]

end Able

section

variable {faults : FsFault → Prop} (tolerant : Tolerant faults) {s : Fs} {refs : InodeId → Int}
  {process : Slot} {path : List UInt8}
include tolerant

variable (able : Able s refs process faults)
include able

theorem origin_ends :
    Ends (fun ip next => Calm refs s next (refs + mark (some ip)) [] ∧
      next.number ip = s.start process path ∧
      (Dense refs s → s.files (s.start process path) ≠ none)) faults (origin process path) s := by
  unfold origin start
  apply Ends.read
  by_cases absolute : path.head? = some slash
  · rw [if_pos absolute, if_pos absolute]
    refine (iget_ends tolerant able.sound able.root).imp ?_
    rintro ip next ⟨calm, number, _⟩
    exact ⟨calm, number, fun dense => dense.root⟩
  rw [if_neg absolute, if_neg absolute]
  cases cwd : (s.proc process).cwd with
  | none => exact tolerant.fail (by decide)
  | some ip =>
    have held := able.cwd ip cwd
    refine (idup_ends able.sound held).imp ?_
    rintro jp next ⟨rfl, calm⟩
    exact ⟨calm, calm.stays.number jp held, fun dense => dense.held jp held⟩

theorem namex_ends (missing : ∀ next, Passes refs s next refs [] → post none next)
    (found : ∀ jp name next, Passes refs s next (refs + mark (some jp)) [] →
      (Anchored refs s →
        Leads s.files parent (s.start process path) path (next.number jp) name) →
      (Dense refs s → next.files (next.number jp) ≠ none) → post (some (jp, name)) next) :
    Ends post faults (namex process path parent) s := by
  refine (origin_ends tolerant able).seq ?_
  rintro ip begun ⟨calm, number, present⟩
  have passes := calm.passes able.inside
  refine walk_ends tolerant calm.sound passes.inside able.sound.nonneg ?_ ?_ ?_
  · refine able.typed.imp_left fun dense => ⟨passes.dense dense, ?_⟩
    rw [calm.files, number]
    exact present dense
  · exact fun next rest => missing next (passes.trans rest)
  intro jp name next rest leads
  have route : Anchored refs s →
      Leads s.files parent (s.start process path) path (next.number jp) name := by
    intro anchored
    have walked := leads (passes.anchored anchored)
    rw [calm.files, number] at walked
    exact walked
  refine found jp name next (passes.trans rest) route fun dense => ?_
  rw [(passes.trans rest).same dense.anchored]
  exact dense.leads (route dense.anchored) (present dense)

theorem namei_ends {post : Option InodeId → Fs → Prop}
    (missing : ∀ next, Passes refs s next refs [] → post none next)
    (found : ∀ ip next, Passes refs s next (refs + mark (some ip)) [] →
      (Anchored refs s →
        ∃ name, Leads s.files false (s.start process path) path (next.number ip) name) →
      (Dense refs s → next.files (next.number ip) ≠ none) → post (some ip) next) :
    Ends post faults (namei process path) s := by
  refine .andThen (namex_ends tolerant able ?_ ?_)
  · exact fun next passes => missing next passes
  · exact fun ip name next passes leads =>
      found ip next passes fun anchored => ⟨name, leads anchored⟩

end

end RtXv6.Fs
