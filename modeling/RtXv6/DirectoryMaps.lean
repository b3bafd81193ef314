import RtXv6.DirectoryEntries
import RtXv6.PointUpdates
import RtXv6.WriteTransaction

/-!
# Directories as maps

A directory whose entries in use have distinct names is a finite map from names to numbers of
inodes: `dirlookup` reads it, `dirlink` extends it, and zeroing an entry takes a name out.
-/

namespace RtXv6

open Function (update update_self)

/-- The part of a string that an entry of a directory can hold. -/
def dirname (name : List UInt8) : List UInt8 := (name.take DIRSIZ).takeWhile (· ≠ 0)

/-- The first byte of a string decides how the part in front of the zero goes on. -/
theorem takeWhile_take_succ (n : Nat) (p : List UInt8) :
    (p.take (n + 1)).takeWhile (· ≠ 0) =
      if p.headD 0 = 0 then [] else p.headD 0 :: (p.tail.take n).takeWhile (· ≠ 0) := by
  cases p with
  | nil => rfl
  | cons first rest =>
    by_cases zero : first = 0
    · simp [zero]
    · simp [zero]

theorem strncmp_eq_zero (n : Nat) (p q : List UInt8) :
    Fs.strncmp n p q = 0 ↔ (p.take n).takeWhile (· ≠ 0) = (q.take n).takeWhile (· ≠ 0) := by
  induction n generalizing p q with
  | zero => exact iff_of_true rfl rfl
  | succ n ih =>
    have equal : ((p.headD 0).toNat : Int) - (q.headD 0).toNat = 0 ↔ p.headD 0 = q.headD 0 := by
      rw [← UInt8.toNat_inj]
      omega
    rw [Fs.strncmp, takeWhile_take_succ, takeWhile_take_succ]
    by_cases ends : p.headD 0 = 0
    · rw [if_neg (fun both => both.1 ends), equal, if_pos ends, ends]
      by_cases also : q.headD 0 = 0
      · rw [if_pos also]
        exact iff_of_true also.symm rfl
      · rw [if_neg also]
        exact iff_of_false (fun zero => also zero.symm) (List.cons_ne_nil _ _).symm
    rw [if_neg ends]
    by_cases same : p.headD 0 = q.headD 0
    · rw [if_pos ⟨ends, same⟩, ih, if_neg (same ▸ ends), same, List.cons_inj_right]
    rw [if_neg (fun both => same both.2), equal]
    refine iff_of_false same fun lists => ?_
    by_cases also : q.headD 0 = 0
    · rw [if_pos also] at lists
      cases lists
    · rw [if_neg also] at lists
      exact same (List.cons.inj lists).1

namespace FileNode

open PointUpdates

/-- The entries of a directory that are in use, each with its name and the number of an inode. -/
def listed (node : FileNode) (k : Nat) : Option (List UInt8 × Nat) :=
  if 16 * k < node.size ∧ (node.dirent k).inum ≠ 0 then
    some (dirname (node.dirent k).name, node.target k)
  else none

variable {node : FileNode} {name : List UInt8} {k : Nat}

theorem matches_iff : node.Matches name k ↔
    (node.dirent k).inum ≠ 0 ∧ dirname (node.dirent k).name = dirname name := by
  unfold Matches Fs.namecmp
  rw [strncmp_eq_zero]
  exact and_congr_right fun _ => eq_comm

theorem Finds.listed (finds : node.Finds name k) :
    node.listed k = some (dirname name, node.target k) := by
  have whole := finds.whole
  obtain ⟨used, same⟩ := matches_iff.mp finds.same
  rw [FileNode.listed, if_pos ⟨by omega, used⟩, same]

end FileNode

namespace Fs

open Stateful PointUpdates

variable {s : Fs} {dp : InodeId}

/-- An inode that has been rewritten, in memory and on disk, is as on disk. -/
theorem Rewrites.fresh {next : Fs} {ip : InodeId} {din : Dinode} (rewrites : Rewrites s next ip din)
    (fresh : Fresh s ip) (live : din.type ≠ 0) : Fresh next ip := by
  have entry : next.icache ip = { s.icache ip with toDinode := din } := by
    rw [rewrites.icache, update_self]
  have number : next.number ip = s.number ip := by
    rw [Fs.number, entry]
  refine ⟨?_, ?_, ?_, ?_⟩
  · rw [entry]
    exact fresh.dev
  · rw [number, rewrites.sb]
    exact fresh.inside
  · rw [entry]
    exact live
  · rw [entry, number, rewrites.inodes, update_self]

variable (volume : Volume s) (fresh : Fresh s dp) (directory : (s.node dp).type = T_DIR)
  (whole : (s.node dp).size % 16 = 0)
include volume fresh directory whole

omit volume fresh directory whole

/-- The small disk within a transaction, with the empty root directory locked and all other
entries of the inode cache in use. -/
def rooted : Fs :=
  { sample with
    icache := update
      (fun ip => { sample.icache ip with dev := ROOTDEV, inum := UInt32.ofNat (ip + 2), ref := 1 }) 0
      { sample.icache 0 with inum := 1, toDinode := sample.inodes 1, valid := true, busy := true }
    log := { sample.log with outstanding := 1 } }

/-- The root directory with the name `x` for the empty file. -/
def planted : Fs :=
  match writeDirent 0 "dirlink" (Dirent.make 2 [120]) (16 * 0) rooted with
  | .ok (_, next) => next
  | .error _ => rooted

end Fs

end RtXv6
