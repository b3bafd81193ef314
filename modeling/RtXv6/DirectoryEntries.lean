import RtXv6.InodeFiles

/-!
# Entries of directories

A directory is a file of entries of sixteen bytes. `dirlookup` finds the first entry in
use that has a name, and `dirlink` fills the first entry that is free, or appends one.
-/

namespace RtXv6

variable {k : Nat}

namespace FileNode

/-- An entry of a directory. -/
def dirent (node : FileNode) (k : Nat) : Dirent := fun index => node.byte (16 * k + index)

/-- The number of the inode that an entry names, or zero. -/
def target (node : FileNode) (k : Nat) : Nat := (node.dirent k).inum.toNat

/-- An entry in use with a name. -/
def Matches (node : FileNode) (name : List UInt8) (k : Nat) : Prop :=
  (node.dirent k).inum ≠ 0 ∧ Fs.namecmp name (node.dirent k).name = 0

instance decidableMatches (node : FileNode) (name : List UInt8) (k : Nat) :
    Decidable (node.Matches name k) :=
  inferInstanceAs (Decidable ((node.dirent k).inum ≠ 0 ∧
    Fs.namecmp name (node.dirent k).name = 0))

/-- The first entry with a name. -/
structure Finds (node : FileNode) (name : List UInt8) (k : Nat) : Prop where
  whole : 16 * k + 16 ≤ node.size
  same : node.Matches name k
  first : ∀ j, j < k → ¬ node.Matches name j

/-- No entry has a name. -/
def Misses (node : FileNode) (name : List UInt8) : Prop :=
  ∀ k, 16 * k < node.size → ¬ node.Matches name k

/-- A free entry, or the end of the directory. -/
def Vacant (node : FileNode) (k : Nat) : Prop :=
  16 * k + 16 ≤ node.size ∧ node.target k = 0 ∨ node.size = 16 * k

theorem Vacant.room {node : FileNode} (vacant : node.Vacant k) : 16 * k ≤ node.size := by
  rcases vacant with ⟨fits, _⟩ | ends
  · omega
  · omega

/-- The directory with an entry written. -/
def setDirent (node : FileNode) (k : Nat) (de : Dirent) : FileNode :=
  node.write (Bytes.byte de) (16 * k) 16

theorem setDirent_size (node : FileNode) (k : Nat) (de : Dirent) :
    (node.setDirent k de).size = max node.size (16 * k + 16) := rfl

@[simp] theorem setDirent_self (node : FileNode) (k : Nat) (de : Dirent) :
    (node.setDirent k de).dirent k = de := by
  funext index
  have inside := index.isLt
  show (if 16 * k ≤ 16 * k + index.val ∧ 16 * k + index.val < 16 * k + 16 then
    Bytes.byte de (16 * k + index.val - 16 * k) else node.byte (16 * k + index.val)) = de index
  rw [if_pos (by omega), Nat.add_sub_cancel_left, Bytes.byte, dif_pos inside]

theorem setDirent_other (node : FileNode) {j : Nat} (de : Dirent) (different : j ≠ k) :
    (node.setDirent k de).dirent j = node.dirent j := by
  funext index
  have inside := index.isLt
  exact if_neg (show ¬ (16 * k ≤ 16 * j + index.val ∧ 16 * j + index.val < 16 * k + 16) by omega)

end FileNode

@[simp] theorem Dirent.inum_make (inum : UInt16) (name : List UInt8) :
    (Dirent.make inum name).inum = inum := by
  unfold Dirent.make Dirent.inum
  rw [Bytes.load_store_self _ _ _ _ (by decide),
    Nat.mod_eq_of_lt (Nat.lt_of_lt_of_le inum.toNat_lt (by decide)), UInt16.ofNat_toNat]

@[simp] theorem Dirent.inum_zero : Dirent.zero.inum = 0 := by
  unfold Dirent.zero Dirent.inum
  rw [Bytes.load_zero]
  rfl

variable {post : Option (InodeId × Nat) → Fs → Prop} {inum : UInt32}

namespace Fs

open Stateful Tally

/-- Entries of directories name inodes that the disk has. -/
def Inside (s : Fs) : Prop :=
  ∀ i node k, s.files i = some node → node.type = T_DIR → 16 * k < node.size →
    node.target k < s.sb.ninodes.toNat

/-- Where a loop over the entries of a directory ends. -/
structure Scanned (node : FileNode) (stop : Dirent → Bool) (start k : Nat)
    (found : Option Dirent) : Prop where
  from_start : start ≤ k
  passed : ∀ j, start ≤ j → j < k → 16 * j + 16 ≤ node.size ∧ stop (node.dirent j) = false
  ends : found = some (node.dirent k) ∧ 16 * k + 16 ≤ node.size ∧ stop (node.dirent k) = true ∨
    found = none ∧ node.size ≤ 16 * k

section

variable {s : Fs} {dp : InodeId} (volume : Volume s) (fresh : Fresh s dp)
include volume fresh

theorem Volume.toNat_offset {off : Nat} (inside : off ≤ (s.node dp).size) :
    (UInt32.ofNat off).toNat = off := by
  have bound := volume.node_size fresh
  exact UInt32.toNat_ofNat_of_lt' (show off < 4294967296 by omega)

/-- What `readi` delivers of an entry, unless the directory ends within it. -/
theorem readi_entry (file : (s.node dp).type ≠ T_DEV) (inside : 16 * k < (s.node dp).size) :
    ∃ read, readi dp (UInt32.ofNat (16 * k)) 16 s = .ok (read, s) ∧
      (read.1 = 16 ↔ 16 * k + 16 ≤ (s.node dp).size) ∧
      (16 * k + 16 ≤ (s.node dp).size → toDirent read.2 = (s.node dp).dirent k) := by
  have offset := volume.toNat_offset fresh (Nat.le_of_lt inside)
  have bound := volume.node_size fresh
  have size : (s.icache dp).size.toNat = (s.node dp).size := rfl
  have sum : (UInt32.ofNat (16 * k) + 16).toNat = 16 * k + 16 := by
    rw [UInt32.toNat_add, offset]
    exact Nat.mod_eq_of_lt (by show 16 * k + 16 < 4294967296; omega)
  have whole : ¬ UInt32.ofNat (16 * k) + 16 < UInt32.ofNat (16 * k) := by
    rw [UInt32.lt_iff_toNat_lt, sum, offset]
    omega
  have ends : (s.icache dp).size < UInt32.ofNat (16 * k) + 16 ↔
      ¬ 16 * k + 16 ≤ (s.node dp).size := by
    rw [UInt32.lt_iff_toNat_lt, sum, size]
    omega
  refine ⟨_, readi_run volume fresh file (by rw [offset, size]; omega) whole, ?_, fun fits => ?_⟩
  · by_cases fits : 16 * k + 16 ≤ (s.node dp).size
    · rw [readable, if_neg (mt ends.mp (not_not.mpr fits))]
      exact iff_of_true rfl fits
    · refine iff_of_false (fun full => ?_) fits
      have below : UInt32.ofNat (16 * k) ≤ (s.icache dp).size := by
        rw [UInt32.le_iff_toNat_le, offset, size]
        omega
      have count := congrArg (fun n => n.toUInt32.toNat) full
      simp only [UInt32.toUInt32_toInt32] at count
      rw [readable, if_pos (ends.mpr fits), UInt32.toNat_sub_of_le _ _ below, offset, size] at count
      have sixteen : (16 : Int32).toUInt32.toNat = 16 := rfl
      omega
  · have all : s.readable dp (UInt32.ofNat (16 * k)) 16 = 16 :=
      if_neg (mt ends.mp (not_not.mpr fits))
    funext index
    have limit := index.isLt
    have within : 16 * k + index.val < (s.icache dp).size.toNat := by
      rw [size]
      omega
    have stored : (s.node dp).dirent k index = s.byteOf dp (16 * k + index.val) := if_pos within
    rw [stored, toDirent, all, offset, List.getD_eq_getElem?_getD, List.getElem?_map,
      List.getElem?_range (show index.val < (16 : UInt32).toNat from limit)]
    rfl

variable {faults : FsFault → Prop}

section

variable (file : (s.node dp).type ≠ T_DEV) {message : String}
  (possible : (s.node dp).size % 16 ≠ 0 → faults (.panic message)) (stop : Dirent → Bool)
include file possible

theorem scan_ends {fuel start : Nat} (enough : (s.node dp).size ≤ 16 * (start + fuel)) :
    Ends (fun r next => next = s ∧ ∃ k, r.1 = 16 * k ∧ Scanned (s.node dp) stop start k r.2) faults
      (scan dp message stop fuel (16 * start)) s := by
  induction fuel generalizing start with
  | zero =>
    refine ⟨rfl, start, rfl, Nat.le_refl _, fun j low high => ?_, .inr ⟨rfl, enough⟩⟩
    omega
  | succ fuel ih =>
    apply Ends.read
    by_cases inside : 16 * start < (s.node dp).size
    · rw [if_pos (show 16 * start < (s.icache dp).size.toNat from inside)]
      obtain ⟨read, ran, whole, entry⟩ := readi_entry volume fresh file inside
      have reads : Ends (fun value next => value = read ∧ next = s) faults
          (readi dp (UInt32.ofNat (16 * start)) 16) s := Ends.of_run ran ⟨rfl, rfl⟩
      refine reads.seq ?_
      rintro value next ⟨isRead, unchanged⟩
      rw [isRead, unchanged]
      by_cases fits : 16 * start + 16 ≤ (s.node dp).size
      · rw [if_pos (whole.mpr fits), entry fits]
        by_cases stops : stop ((s.node dp).dirent start) = true
        · rw [if_pos stops]
          refine .ret ⟨rfl, start, rfl, Nat.le_refl _, fun j low high => ?_,
            .inl ⟨rfl, fits, stops⟩⟩
          omega
        rw [if_neg stops]
        have later : (s.node dp).size ≤ 16 * (start + 1 + fuel) := by omega
        refine (ih later).imp ?_
        rintro r final ⟨same, k, offset, scanned⟩
        refine ⟨same, k, offset, Nat.le_of_succ_le scanned.from_start, ?_, scanned.ends⟩
        intro j low high
        by_cases here : j = start
        · rw [here]
          exact ⟨fits, Bool.eq_false_iff.mpr stops⟩
        · exact scanned.passed j (by omega) high
      · rw [if_neg (mt whole.mp fits)]
        exact .fail (possible (by omega))
    · rw [if_neg (show ¬ 16 * start < (s.icache dp).size.toNat from inside)]
      refine .ret ⟨rfl, start, rfl, Nat.le_refl _, fun j low high => ?_, .inr ⟨rfl, ?_⟩⟩
      · omega
      · omega

theorem scan_all (start : Nat) :
    Ends (fun r next => next = s ∧ ∃ k, r.1 = 16 * k ∧ Scanned (s.node dp) stop start k r.2) faults
      (scan dp message stop (s.entries dp) (16 * start)) s := by
  apply scan_ends volume fresh file possible
  have size : (s.node dp).size = (s.icache dp).size.toNat := rfl
  unfold entries
  omega

end

omit volume fresh in
theorem directory_file (directory : (s.node dp).type = T_DIR) : (s.node dp).type ≠ T_DEV := by
  rw [directory]
  decide

variable {name : List UInt8} (kind : (s.node dp).type ≠ T_DIR → faults (.panic "dirlookup not DIR"))
  (whole : (s.node dp).size % 16 ≠ 0 → faults (.panic "dirlink read"))
include kind whole

/-- `dirlookup` gets the inode of the first entry with the name. -/
theorem dirlookup_scans
    (missing : (s.node dp).type = T_DIR → (s.node dp).Misses name → post none s)
    (found : ∀ k, (s.node dp).type = T_DIR → (s.node dp).Finds name k →
      Ends (fun ip next => post (some (ip, 16 * k)) next) faults
        (iget ROOTDEV ((s.node dp).dirent k).inum.toUInt32) s) :
    Ends post faults (dirlookup dp name) s := by
  apply Ends.read
  by_cases directory : (s.node dp).type = T_DIR
  · have isDir : ¬ (s.icache dp).type ≠ T_DIR := not_not.mpr directory
    rw [if_neg isDir]
    refine (scan_all volume fresh (directory_file directory) whole _ 0).seq ?_
    rintro ⟨off, entry⟩ next ⟨unchanged, k, offset, scanned⟩
    rw [unchanged]
    have earlier : ∀ j, j < k → ¬ (s.node dp).Matches name j := by
      intro j before matches_
      have passed := (scanned.passed j (Nat.zero_le _) before).2
      exact absurd matches_ (of_decide_eq_false passed)
    rcases scanned.ends with ⟨stopped, fits, stops⟩ | ⟨none, short⟩
    · simp only at stopped offset
      subst stopped offset
      rw [fresh.dev]
      exact (found k directory ⟨fits, of_decide_eq_true stops, earlier⟩).seq
        fun _ _ got => .ret got
    · simp only at none
      subst none
      refine .ret (missing directory fun j within => earlier j ?_)
      omega
  · rw [if_pos (show (s.icache dp).type ≠ T_DIR from directory)]
    exact .fail (kind directory)

/-- `dirlink` of a name that is absent writes an entry where there is room. -/
theorem dirlink_scans {post : Int32 → Fs → Prop}
    (present : ∀ k, (s.node dp).type = T_DIR → (s.node dp).Finds name k →
      Ends (fun ip middle => Ends (fun _ next => post (-1) next) faults (iput ip) middle) faults
        (iget ROOTDEV ((s.node dp).dirent k).inum.toUInt32) s)
    (added : ∀ k, (s.node dp).type = T_DIR → (s.node dp).Misses name → (s.node dp).Vacant k →
      Ends (fun _ next => post 0 next) faults
        (writeDirent dp "dirlink" (Dirent.make inum.toUInt16 name) (16 * k)) s) :
    Ends post faults (dirlink dp name inum) s := by
  refine .andThen (dirlookup_scans volume fresh kind whole ?_ fun k directory finds => ?_)
  · intro directory misses
    apply Ends.read
    refine (scan_all volume fresh (directory_file directory) whole _ 0).seq ?_
    rintro ⟨off, entry⟩ next ⟨unchanged, k, offset, scanned⟩
    simp only at offset
    rw [unchanged, offset]
    have vacant : (s.node dp).Vacant k := by
      rcases scanned.ends with ⟨_, fits, stops⟩ | ⟨_, short⟩
      · exact .inl ⟨fits, congrArg UInt16.toNat (of_decide_eq_true stops)⟩
      refine .inr ?_
      cases k with
      | zero => omega
      | succ j =>
        have last := (scanned.passed j (Nat.zero_le _) (Nat.lt_succ_self j)).1
        omega
    exact (added k directory misses vacant).seq fun _ _ holds => .ret holds
  · exact (present k directory finds).imp fun ip middle ends => ends.seq fun _ _ holds => .ret holds

end

variable {name : List UInt8}

section

variable {s : Fs} {refs : InodeId → Int} {locks : List InodeId} {dp : InodeId}
  {faults : FsFault → Prop}

theorem Inside.finds (inside : Inside s) (fresh : Fresh s dp)
    (directory : (s.node dp).type = T_DIR) (finds : (s.node dp).Finds name k) :
    ((s.node dp).dirent k).inum.toUInt32.toNat < s.sb.ninodes.toNat := by
  have whole := finds.whole
  exact inside _ _ k fresh.file directory (by omega)

variable (tolerant : Tolerant faults)
include tolerant

variable (sound : Sound s refs locks)
include sound

theorem dirlookup_ends (inside : Inside s) (member : dp ∈ locks)
    (missing : (s.node dp).type = T_DIR → (s.node dp).Misses name → post none s)
    (found : ∀ ip k next, (s.node dp).type = T_DIR → (s.node dp).Finds name k →
      Calm refs s next (refs + mark (some ip)) locks → next.number ip = (s.node dp).target k →
      (refs ip = 0 → (next.icache ip).valid = false) → post (some (ip, 16 * k)) next) :
    Ends post faults (dirlookup dp name) s := by
  have fresh := sound.fresh_locked member
  refine dirlookup_scans sound.volume fresh (fun _ => tolerant.other (by decide))
    (fun _ => tolerant.other (by decide)) missing fun k directory finds => ?_
  refine (iget_ends tolerant sound (inside.finds fresh directory finds)).imp ?_
  rintro ip next ⟨calm, equal, invalid⟩
  exact found ip k next directory finds calm equal invalid

theorem writeDirent_ends (member : dp ∈ locks) (file : (s.node dp).type ≠ T_DEV)
    {message : String} (possible : faults (.panic message)) (de : Dirent)
    (room : 16 * k ≤ (s.node dp).size) :
    Ends (fun _ next => Edits refs s next locks dp ((s.node dp).setDirent k de)) faults
      (writeDirent dp message de (16 * k)) s := by
  have offset := sound.volume.toNat_offset (sound.fresh_locked member) room
  refine (writei_edits tolerant sound member (Bytes.byte de) (UInt32.ofNat (16 * k)) 16).seq ?_
  rintro r next (⟨_, device | failed⟩ | ⟨_, written, _, edits⟩)
  · exact absurd device file
  · rw [failed, if_neg (by decide)]
    exact .fail possible
  · rw [written, if_pos (by decide)]
    rw [offset] at edits
    exact .ret edits

theorem dirlink_ends (inside : Inside s) (member : dp ∈ locks) {post : Int32 → Fs → Prop}
    (present : ∀ k next, (s.node dp).type = T_DIR → (s.node dp).Finds name k →
      Calm refs s next refs locks → post (-1) next)
    (added : ∀ k next, (s.node dp).type = T_DIR → (s.node dp).Misses name →
      (s.node dp).Vacant k → Edits refs s next locks dp
        ((s.node dp).setDirent k (Dirent.make inum.toUInt16 name)) → post 0 next) :
    Ends post faults (dirlink dp name inum) s := by
  have fresh := sound.fresh_locked member
  refine dirlink_scans sound.volume fresh (fun _ => tolerant.other (by decide))
    (fun _ => tolerant.other (by decide)) (fun k directory finds => ?_)
    fun k directory misses vacant => ?_
  · refine (iget_ends tolerant sound (inside.finds fresh directory finds)).imp ?_
    rintro ip middle ⟨calm, _, invalid⟩
    have held : ip ∈ locks → 0 < refs ip := fun locked => (sound.locked ip locked).1
    refine (iput_ends tolerant calm.sound (sound.nonneg ip) held).imp fun _ next puts => ?_
    have kept : ¬ LastLink middle refs ip := by
      rintro ⟨none, valid, _⟩
      rw [invalid none] at valid
      cases valid
    refine present k next directory finds ⟨puts.sound, calm.stays.trans puts.stays, ?_⟩
    rw [puts.kept kept, calm.files]
  · exact (writeDirent_ends tolerant sound member (directory_file directory)
      (tolerant.other (by decide)) _ vacant.room).imp fun _ final edits =>
        added k final directory misses vacant edits

theorem isdirempty_ends (member : dp ∈ locks) (directory : (s.node dp).type = T_DIR) :
    Ends (fun empty next => next = s ∧
      (empty = true → ∀ k, 2 ≤ k → 16 * k < (s.node dp).size → (s.node dp).target k = 0)) faults
      (isdirempty dp) s := by
  apply Ends.read
  refine (scan_all sound.volume (sound.fresh_locked member) (directory_file directory)
    (fun _ => tolerant.other (by decide)) _ 2).seq ?_
  rintro ⟨off, entry⟩ next ⟨unchanged, k, offset, scanned⟩
  refine .ret ⟨unchanged, fun none j low within => ?_⟩
  have before : j < k := by
    rcases scanned.ends with ⟨stopped, _⟩ | ⟨_, short⟩
    · simp only at stopped none
      rw [stopped] at none
      cases none
    · omega
  have passed := of_decide_eq_false (scanned.passed j low before).2
  exact congrArg UInt16.toNat (not_not.mp passed)

end

end Fs

end RtXv6
