import RtXv6.InodeContents

/-!
# Reading and writing inodes

The loop of `writei` fills a stretch of bytes of the working inode's file, block by
block, and leaves the blocks of every other file. A longer file is stored by `iupdate`,
after which the inode on disk is the copy in memory. `readi` finds every block below the
end of a file and changes nothing.
-/

namespace RtXv6.Fs

open Function (update update_self update_of_ne update_eq_self update_idem)
open Stateful Ownership

/-- A place of the working inodes. -/
abbrev lead (s : Fs) (ip : InodeId) (place : Nat × Nat) : UInt32 :=
  leads s.blocks (s.working ip) place

/-- A byte of the working inode's file. -/
abbrev byteOf (s : Fs) (ip : InodeId) (pos : Nat) : UInt8 := (s.icache ip).byteAt s.blocks pos

/-- The bytes from an offset on have been replaced, and everything else is as before. -/
structure Writes (s next : Fs) (ip : InodeId) (src : Nat → UInt8) (off count : Nat) : Prop where
  ahead : ∃ disk log addrs, next = s.ahead ip disk log { (s.icache ip).toDinode with addrs }
  work : Work next ip
  inodes : next.inodes = s.inodes
  places : ∀ place, s.lead ip place ≠ 0 → next.lead ip place = s.lead ip place
  others : ∀ i k, i ≠ s.number ip → s.lead ip (i, slot k) ≠ 0 →
    next.blocks (s.lead ip (i, slot k)) = s.blocks (s.lead ip (i, slot k))
  set : ∀ pos, off ≤ pos → pos < off + count →
    next.lead ip (s.number ip, slot (pos / BSIZE)) ≠ 0
  inner : ∀ pos, off ≤ pos → pos < off + count → next.byteOf ip pos = src (pos - off)
  outer : ∀ pos, pos < off ∨ off + count ≤ pos →
    s.lead ip (s.number ip, slot (pos / BSIZE)) ≠ 0 → next.byteOf ip pos = s.byteOf ip pos
  same : (∀ pos, off ≤ pos → pos < off + count →
    s.lead ip (s.number ip, slot (pos / BSIZE)) ≠ 0) →
      (next.icache ip).toDinode = (s.icache ip).toDinode
  spare : ∀ k, s.lead ip (s.number ip, slot k) = 0 → next.lead ip (s.number ip, slot k) ≠ 0 →
    ∃ pos, off ≤ pos ∧ pos < off + count ∧ pos / BSIZE = k
  logs : s.sb.size.toNat ≤ BPB → ∀ c, c ∈ next.log.lh ↔ c ∈ s.log.lh ∨
    ∃ pos, off ≤ pos ∧ pos < off + count ∧ (c = next.lead ip (s.number ip, slot (pos / BSIZE)) ∨
      s.lead ip (s.number ip, slot (pos / BSIZE)) = 0 ∧ (c = s.sb.bmapstart ∨
        NDIRECT ≤ pos / BSIZE ∧ c = next.lead ip (s.number ip, NDIRECT)))

variable {s : Fs} {ip : InodeId}

theorem ahead_number {next : Fs} (ahead : ∃ disk log din, next = s.ahead ip disk log din) :
    next.number ip = s.number ip := by
  obtain ⟨disk, log, din, rfl⟩ := ahead
  rw [number, ahead_icache_self]

theorem lead_self (s : Fs) (ip : InodeId) (p : Nat) :
    s.lead ip (s.number ip, p) = (s.icache ip).pointer s.blocks p := by
  show (s.working ip (s.number ip)).pointer s.blocks p = _
  rw [working_self]

/-- A byte of the working inode lies in the block that its place leads to. -/
theorem byteOf_eq (s : Fs) (ip : InodeId) (pos : Nat) :
    s.byteOf ip pos =
      Bytes.byte (s.blocks (s.lead ip (s.number ip, slot (pos / BSIZE)))) (pos % BSIZE) := by
  rw [lead_self]
  rfl

theorem Work.set (work : Work s ip) {k : Nat} (inside : k * BSIZE < (s.icache ip).size.toNat) :
    s.lead ip (s.number ip, slot k) ≠ 0 := by
  apply work.full
  · rw [working_self]
    exact work.live
  · rw [working_self]
    exact inside

variable {pos : Nat}

theorem Work.set_at (work : Work s ip) (inside : pos < (s.icache ip).size.toNat) :
    s.lead ip (s.number ip, slot (pos / BSIZE)) ≠ 0 :=
  work.set (Nat.lt_of_le_of_lt (Nat.div_mul_le_self pos BSIZE) inside)

namespace Writes

variable {s middle next : Fs} {ip : InodeId} {src : Nat → UInt8} {off count more : Nat}

theorem number_eq (writes : Writes s next ip src off count) : next.number ip = s.number ip := by
  obtain ⟨disk, log, addrs, shape⟩ := writes.ahead
  exact ahead_number ⟨disk, log, _, shape⟩

theorem refl (work : Work s ip) (src : Nat → UInt8) (off : Nat) : Writes s s ip src off 0 := by
  refine ⟨⟨s.disk, s.log, _, (ahead_refl s ip).symm⟩, work, rfl, fun _ _ => rfl, fun _ _ _ _ => rfl,
    ?_, ?_, fun _ _ _ => rfl, fun _ => rfl, fun _ none some => absurd none some, fun _ c => ?_⟩
  · intro pos low high
    omega
  · intro pos low high
    omega
  · refine ⟨.inl, ?_⟩
    rintro (old | ⟨pos, low, high, _⟩)
    · exact old
    · omega

theorem append (first : Writes s middle ip src off count)
    (second : Writes middle next ip (fun index => src (index + count)) (off + count) more) :
    Writes s next ip src off (count + more) := by
  have number := first.number_eq
  have kept : ∀ place, s.lead ip place ≠ 0 → next.lead ip place = s.lead ip place := by
    intro place pointing
    have stays := first.places place pointing
    rw [second.places place (by rwa [stays]), stays]
  refine ⟨?_, second.work, second.inodes.trans first.inodes, kept, ?_, ?_, ?_, ?_, ?_, ?_, ?_⟩
  · obtain ⟨disk, log, addrs, shape⟩ := first.ahead
    obtain ⟨disk', log', addrs', shape'⟩ := second.ahead
    refine ⟨disk', log', addrs', ?_⟩
    rw [shape', shape, ahead_ahead, ahead_icache_self]
  · intro i k other pointing
    have stays := first.places (i, slot k) pointing
    have later := second.others i k (by rwa [number]) (by rwa [stays])
    rw [stays] at later
    rw [later, first.others i k other pointing]
  · intro pos low high
    by_cases early : pos < off + count
    · have pointing := first.set pos low early
      rwa [second.places _ pointing]
    · have pointing := second.set pos (by omega) (by omega)
      rwa [number] at pointing
  · intro pos low high
    by_cases early : pos < off + count
    · rw [second.outer pos (.inl early) (by rw [number]; exact first.set pos low early),
        first.inner pos low early]
    · rw [second.inner pos (by omega) (by omega)]
      exact congrArg src (by omega)
  · intro pos outside pointing
    have stays := first.places _ pointing
    rw [second.outer pos (by omega) (by rw [number, stays]; exact pointing),
      first.outer pos (by omega) pointing]
  · intro pointing
    have early : ∀ pos, off ≤ pos → pos < off + count →
        s.lead ip (s.number ip, slot (pos / BSIZE)) ≠ 0 :=
      fun pos low high => pointing pos low (by omega)
    have late : ∀ pos, off + count ≤ pos → pos < off + count + more →
        middle.lead ip (middle.number ip, slot (pos / BSIZE)) ≠ 0 := by
      intro pos low high
      have set := pointing pos (by omega) (by omega)
      rw [number, first.places _ set]
      exact set
    rw [second.same late, first.same early]
  · intro k none now
    by_cases early : middle.lead ip (s.number ip, slot k) = 0
    · rw [← number] at early now
      obtain ⟨pos, low, high, block⟩ := second.spare k early now
      exact ⟨pos, by omega, by omega, block⟩
    · obtain ⟨pos, low, high, block⟩ := first.spare k none early
      exact ⟨pos, low, by omega, block⟩
  · intro one c
    have sb : middle.sb = s.sb := by
      obtain ⟨disk, log, addrs, shape⟩ := first.ahead
      rw [shape, ahead_sb]
    have same : ∀ pos, off ≤ pos → pos < off + count →
        next.lead ip (s.number ip, slot (pos / BSIZE)) =
          middle.lead ip (s.number ip, slot (pos / BSIZE)) :=
      fun pos low high => second.places _ (first.set pos low high)
    have table : ∀ pos, off ≤ pos → pos < off + count → NDIRECT ≤ pos / BSIZE →
        next.lead ip (s.number ip, NDIRECT) = middle.lead ip (s.number ip, NDIRECT) := by
      intro pos low high beyond
      refine second.places _ fun none => first.set pos low high ?_
      rw [← number, lead_self] at none ⊢
      exact table_missing first.work.live beyond none
    rw [second.logs (by rwa [sb]), first.logs one, number, sb]
    constructor
    · rintro ((old | ⟨pos, low, high, new | ⟨none, new | ⟨beyond, new⟩⟩⟩) |
        ⟨pos, low, high, new | ⟨none, new⟩⟩)
      · exact .inl old
      · exact .inr ⟨pos, low, by omega, .inl (by rw [new, same pos low high])⟩
      · exact .inr ⟨pos, low, by omega, .inr ⟨none, .inl new⟩⟩
      · exact .inr ⟨pos, low, by omega, .inr ⟨none, .inr ⟨beyond,
          by rw [new, table pos low high beyond]⟩⟩⟩
      · exact .inr ⟨pos, by omega, by omega, .inl new⟩
      · refine .inr ⟨pos, by omega, by omega, .inr ⟨?_, new⟩⟩
        by_contra set
        exact set ((first.places _ set).symm.trans none)
    · rintro (old | ⟨pos, low, high, new⟩)
      · exact .inl (.inl old)
      · by_cases early : pos < off + count
        · refine .inl (.inr ⟨pos, low, early, ?_⟩)
          rw [← same pos low early]
          refine new.imp_right (And.imp_right (Or.imp_right fun far => ⟨far.1, ?_⟩))
          rw [far.2, table pos low early far.1]
        · rcases new with new | ⟨none, new⟩
          · exact .inr ⟨pos, by omega, by omega, .inl new⟩
          · by_cases still : middle.lead ip (s.number ip, slot (pos / BSIZE)) = 0
            · exact .inr ⟨pos, by omega, by omega, .inr ⟨still, new⟩⟩
            · obtain ⟨earlier, start, stop, block⟩ := first.spare _ none still
              refine .inl (.inr ⟨earlier, start, stop, .inr ?_⟩)
              rw [block]
              refine ⟨none, new.imp_right fun far => ⟨far.1, ?_⟩⟩
              rw [far.2, table earlier start stop (by rw [block]; exact far.1)]

/-- The positions of a stretch within one block lie in that block. -/
theorem same_block (within : off % BSIZE + count ≤ BSIZE) (start : off ≤ pos)
    (stop : pos < off + count) : pos / BSIZE = off / BSIZE := by
  have split := Nat.div_add_mod off BSIZE
  have lower : off / BSIZE ≤ pos / BSIZE := Nat.div_le_div_right start
  have upper : pos / BSIZE < off / BSIZE + 1 := by
    rw [Nat.div_lt_iff_lt_mul (by decide), Nat.add_mul, Nat.mul_comm (off / BSIZE)]
    omega
  omega

/-- A stretch within one block, which `bmap` has provided. -/
theorem block {b : UInt32} (provides : Provides s middle ip (slot (off / BSIZE)) b)
    (within : off % BSIZE + count ≤ BSIZE) (some : 0 < count) :
    Writes s (middle.put b (Bytes.move (middle.blocks b) (off % BSIZE) count src)
      (middle.noted b)) ip src off count := by
  have number := ahead_number provides.ahead
  have work := provides.work
  have owned : Owned middle.sb middle.blocks (middle.lead ip) := work.owned
  have here : middle.lead ip (middle.number ip, slot (off / BSIZE)) = b := by
    rw [number]
    exact provides.place
  have low : middle.sb.datastart ≤ b.toNat := by
    rw [← here]
    exact (owned.bounds (by rw [here]; exact provides.set)).1
  have order := work.geometry.datastart_le
  have unique : ∀ place, middle.lead ip place = b →
      place = (middle.number ip, slot (off / BSIZE)) := by
    intro place equal
    exact owned.owns.unique place _ (by rw [equal]; exact provides.set) (equal.trans here.symm)
  obtain ⟨next, shape⟩ : ∃ next, next =
      middle.put b (Bytes.move (middle.blocks b) (off % BSIZE) count src) (middle.noted b) :=
    ⟨_, rfl⟩
  have blocks : next.blocks = update middle.blocks b
      (Bytes.move (middle.blocks b) (off % BSIZE) count src) := by
    rw [shape, put_blocks]
  have sb : next.sb = middle.sb := by rw [shape, put_sb]
  have cache : next.icache = middle.icache := by rw [shape, put_icache]
  have inodes : next.inodes = middle.inodes := by
    apply inodes_of_far work.geometry sb
    intro c near
    rw [blocks, update_of_ne]
    rintro rfl
    omega
  have working : next.working ip = middle.working ip := by
    unfold Fs.working
    rw [inodes, cache]
  have lead : next.lead ip = middle.lead ip := by
    show leads next.blocks (next.working ip) = leads middle.blocks (middle.working ip)
    rw [working, blocks]
    apply leads_update_block
    intro i equal
    exact slot_ne _ (Prod.mk.inj (unique (i, NDIRECT) equal)).2.symm
  have nextNumber : next.number ip = s.number ip := by
    rw [← number, Fs.number, cache]
  have others : ∀ place, place ≠ (middle.number ip, slot (off / BSIZE)) →
      next.blocks (middle.lead ip place) = middle.blocks (middle.lead ip place) := by
    intro place different
    rw [blocks, update_of_ne fun equal => different (unique place equal)]
  have grown : ∀ place, s.lead ip place ≠ 0 → middle.lead ip place = s.lead ip place :=
    provides.grows.places
  have byte : ∀ pos, next.byteOf ip pos =
      if off ≤ pos ∧ pos < off + count then src (pos - off) else middle.byteOf ip pos := by
    intro pos
    rw [byteOf_eq, byteOf_eq, lead, nextNumber, number]
    by_cases same : pos / BSIZE = off / BSIZE
    · rw [same, ← number, here, blocks, update_self, Bytes.byte_move]
      have split := Nat.div_add_mod pos BSIZE
      have split' := Nat.div_add_mod off BSIZE
      rw [same] at split
      by_cases within' : off ≤ pos ∧ pos < off + count
      · rw [if_pos within', if_pos (by omega)]
        exact congrArg src (by omega)
      · rw [if_neg within', if_neg (by omega)]
    · have outside : ¬ (off ≤ pos ∧ pos < off + count) :=
        fun both => same (same_block within both.1 both.2)
      have different : (s.number ip, slot (pos / BSIZE)) ≠ (middle.number ip, slot (off / BSIZE)) :=
        fun equal => same (slot_inj (Prod.mk.inj equal).2)
      rw [if_neg outside, others _ different]
  rw [← shape]
  refine ⟨?_, ?_, inodes.trans provides.inodes, ?_, ?_, ?_, ?_, ?_, ?_, ?_, ?_⟩
  · obtain ⟨disk, earlier, din, ahead⟩ := provides.ahead
    obtain ⟨addrs, fields⟩ := provides.grows.fields (s.number ip)
    rw [working_self, ← number, working_self, ahead, ahead_icache_self] at fields
    refine ⟨next.disk, next.log, addrs, ?_⟩
    rw [← fields, shape, ahead]
    rfl
  · have one : next.blocks 1 = middle.blocks 1 := by
      rw [blocks, update_of_ne]
      rintro rfl
      exact absurd low (by simp; omega)
    have full : Full next.blocks (next.working ip) := by
      intro i k live inside
      have same : (next.working ip i).pointer next.blocks (slot k) =
          (middle.working ip i).pointer middle.blocks (slot k) := congrFun lead (i, slot k)
      rw [same]
      rw [working] at live inside
      exact work.full i k live inside
    refine ⟨by rw [sb]; exact work.geometry, by rw [one, sb]; exact work.super, ?_, ?_, ?_, ?_, full⟩
    · rw [cache]
      exact work.dev
    · rw [cache, sb]
      exact work.inside
    · rw [cache]
      exact work.live
    · show Owned next.sb next.blocks (next.lead ip)
      rw [lead, sb, blocks]
      exact owned.update_block work.geometry _ (.inr low)
  · intro place pointing
    rw [lead, grown place pointing]
  · intro i k other pointing
    have different : (i, slot k) ≠ (middle.number ip, slot (off / BSIZE)) := by
      rw [number]
      exact fun equal => other (Prod.mk.inj equal).1
    have untouched := others (i, slot k) different
    rw [grown _ pointing] at untouched
    rw [untouched]
    exact provides.grows.data i k pointing
  · intro pos start stop
    rw [same_block within start stop, lead, ← number, here]
    exact provides.set
  · intro pos start stop
    rw [byte, if_pos ⟨start, stop⟩]
  · intro pos outside pointing
    rw [byte, if_neg (by omega), byteOf_eq, byteOf_eq, number, grown _ pointing]
    exact congrArg (Bytes.byte · (pos % BSIZE)) (provides.grows.data _ _ pointing)
  · intro pointing
    rw [cache, provides.same (pointing off (Nat.le_refl off) (by omega))]
  · intro k none now
    by_cases own : slot k = slot (off / BSIZE)
    · exact ⟨off, Nat.le_refl off, by omega, (slot_inj own).symm⟩
    · rw [lead] at now
      exact absurd ((provides.spare k own).trans none) now
  · intro one c
    have member : c ∈ next.log.lh ↔ c ∈ middle.log.lh ∨ c = b := by
      rw [shape]
      exact mem_noted
    have place := provides.place
    rw [member, provides.logs one, lead]
    constructor
    · rintro ((old | ⟨none, new | new | ⟨beyond, new⟩⟩) | new)
      · exact .inl old
      · exact .inr ⟨off, Nat.le_refl off, by omega, .inr ⟨none, .inl new⟩⟩
      · exact .inr ⟨off, Nat.le_refl off, by omega, .inl (new.trans place.symm)⟩
      · exact .inr ⟨off, Nat.le_refl off, by omega, .inr ⟨none, .inr ⟨lt_slot.mp beyond, new⟩⟩⟩
      · exact .inr ⟨off, Nat.le_refl off, by omega, .inl (new.trans place.symm)⟩
    · rintro (old | ⟨pos, low, high, new⟩)
      · exact .inl (.inl old)
      · rw [same_block within low high] at new
        rcases new with new | ⟨none, new | ⟨beyond, new⟩⟩
        · exact .inr (new.trans place)
        · exact .inl (.inr ⟨none, .inl new⟩)
        · exact .inl (.inr ⟨none, .inr (.inr ⟨lt_slot.mpr beyond, new⟩)⟩)

end Writes

section

variable {faults : FsFault → Prop} (scarce : Scarce faults)
include scarce

theorem writeLoop_ends (work : Work s ip) {fuel off left : Nat} {src : Nat → UInt8}
    (enough : left ≤ fuel) (inside : off + left ≤ MAXFILE * BSIZE) :
    Ends (fun _ next => Writes s next ip src off left) faults (writeLoop ip fuel src off left) s := by
  induction fuel generalizing s src off left with
  | zero =>
    obtain rfl : left = 0 := by omega
    exact .ret (Writes.refl work src off)
  | succ fuel ih =>
    rw [writeLoop]
    by_cases done : left = 0
    · rw [if_pos done, done]
      exact .ret (Writes.refl work src off)
    rw [if_neg done]
    have index : off / BSIZE < MAXFILE := (Nat.div_lt_iff_lt_mul (by decide)).mpr (by omega)
    refine (bmap_ends scarce work index).seq fun b middle provides => Ends.read ?_
    rw [provides.work.dev]
    refine Ends.read (Ends.andThen (logWrite_ends scarce ?_))
    obtain ⟨count, chosen⟩ : ∃ count, count = min left (BSIZE - off % BSIZE) := ⟨_, rfl⟩
    have position : off % BSIZE < BSIZE := Nat.mod_lt _ (by decide)
    have least : count ≤ left := by
      rw [chosen]
      exact Nat.min_le_left _ _
    have room : off % BSIZE + count ≤ BSIZE := by
      omega
    have some : 0 < count := by
      have := Nat.sub_pos_of_lt position
      rw [chosen]
      exact Nat.lt_min.mpr ⟨by omega, this⟩
    have progress : left - count ≤ fuel := by omega
    rw [← chosen]
    have first : Writes s (middle.put b (Bytes.move (middle.blocks b) (off % BSIZE) count src)
        (middle.noted b)) ip src off count := Writes.block provides room some
    refine (ih first.work progress (by omega)).imp fun _ next second => ?_
    have whole := first.append second
    rwa [Nat.add_sub_cancel' least] at whole

end

/-- The disk holds a file system: its inodes own their blocks and have no holes. -/
structure Volume (s : Fs) : Prop where
  geometry : s.sb.Geometry
  super : Superblock.read (s.blocks 1) = s.sb
  owned : Owned s.sb s.blocks (leads s.blocks s.inodes)
  full : Full s.blocks s.inodes

/-- The files on disk, by the numbers of their inodes. -/
def files (s : Fs) : Nat → Option FileNode := RtXv6.files s.blocks s.inodes

/-- A cached inode is as on disk. -/
structure Fresh (s : Fs) (ip : InodeId) : Prop where
  dev : (s.icache ip).dev = ROOTDEV
  inside : s.number ip < s.sb.ninodes.toNat
  live : (s.icache ip).type ≠ 0
  copy : (s.icache ip).toDinode = s.inodes (s.number ip)

theorem Fresh.working (fresh : Fresh s ip) : s.working ip = s.inodes := by
  unfold Fs.working
  rw [fresh.copy]
  exact update_eq_self _ _

/-- The inode of a cache entry has changed, in memory and on disk, and the other files have
stayed. -/
structure Rewrites (s next : Fs) (ip : InodeId) (din : Dinode) : Prop where
  volume : Volume next
  sb : next.sb = s.sb
  icache : next.icache = update s.icache ip { s.icache ip with toDinode := din }
  inodes : next.inodes = update s.inodes (s.number ip) din
  others : ∀ i, i ≠ s.number ip → next.files i = s.files i

variable {din : Dinode}

theorem Rewrites.files_eq {next : Fs} (rewrites : Rewrites s next ip din) :
    next.files = update s.files (s.number ip) (din.file next.blocks) := by
  funext i
  by_cases same : i = s.number ip
  · rw [same, update_self]
    show (next.inodes (s.number ip)).file next.blocks = _
    rw [rewrites.inodes, update_self]
  · rw [update_of_ne same, rewrites.others i same]

/-- The disk would hold a file system with the copy of one inode. -/
structure Draft (s : Fs) (ip : InodeId) : Prop where
  geometry : s.sb.Geometry
  super : Superblock.read (s.blocks 1) = s.sb
  dev : (s.icache ip).dev = ROOTDEV
  inside : s.number ip < s.sb.ninodes.toNat
  owned : Owned s.sb s.blocks (leads s.blocks (s.working ip))
  full : Full s.blocks (s.working ip)

/-- The disk has come to hold these inodes. -/
structure Saved (s next : Fs) (table : Nat → Dinode) : Prop where
  volume : Volume next
  inodes : next.inodes = table
  icache : next.icache = s.icache
  sb : next.sb = s.sb
  files : next.files = RtXv6.files s.blocks table

/-- The copy of an inode has been stored. -/
abbrev Stored (s next : Fs) (ip : InodeId) : Prop := Saved s next (s.working ip)

variable {faults : FsFault → Prop}

theorem writeDinode_ends (scarce : Scarce faults) (geometry : s.sb.Geometry)
    (super : Superblock.read (s.blocks 1) = s.sb) {inum : UInt32}
    (inside : inum.toNat < s.sb.ninodes.toNat)
    (owned : Owned s.sb s.blocks (leads s.blocks (update s.inodes inum.toNat din)))
    (full : Full s.blocks (update s.inodes inum.toNat din)) :
    Ends (fun _ next => Saved s next (update s.inodes inum.toNat din)) faults
      (writeDinode ROOTDEV inum din) s := by
  have bounds := geometry.iblock_bounds inside
  have order := geometry.datastart_le
  refine Ends.read (logWrite_ends scarce ?_)
  generalize s.noted (s.sb.iblock inum) = log
  obtain ⟨next, shape⟩ : ∃ next, next = s.put (s.sb.iblock inum)
      (din.write (s.blocks (s.sb.iblock inum)) (inum.toNat % IPB)) log := ⟨_, rfl⟩
  rw [← shape]
  have blocks : next.blocks = update s.blocks (s.sb.iblock inum)
      (din.write (s.blocks (s.sb.iblock inum)) (inum.toNat % IPB)) := by
    rw [shape, put_blocks]
  have sb : next.sb = s.sb := by rw [shape, put_sb]
  have far : ∀ c : UInt32, s.sb.datastart ≤ c.toNat → next.blocks c = s.blocks c := by
    intro c high
    rw [blocks, update_of_ne]
    rintro rfl
    omega
  have inodes : next.inodes = update s.inodes inum.toNat din := by
    show inodeTable next.sb next.blocks = _
    rw [sb, blocks, inodeTable_write geometry inside]
    rfl
  have one : next.blocks 1 = s.blocks 1 := by
    rw [blocks, update_of_ne]
    intro equal
    rw [← equal] at bounds
    exact absurd bounds.1 (by decide)
  have leads := leads_of_far owned far
  refine ⟨⟨by rw [sb]; exact geometry, by rw [one, sb]; exact super, ?_, ?_⟩, inodes,
    by rw [shape, put_icache], sb, ?_⟩
  · rw [sb, inodes, leads, blocks]
    exact owned.update_block geometry _ (.inl bounds.2)
  · rw [inodes]
    exact full_of_leads full leads
  · unfold files
    rw [inodes]
    exact files_of_far owned full far

theorem iupdate_ends (scarce : Scarce faults) (draft : Draft s ip) :
    Ends (fun _ next => Stored s next ip) faults (iupdate ip) s := by
  apply Ends.read
  rw [draft.dev]
  exact writeDinode_ends scarce draft.geometry draft.super draft.inside draft.owned draft.full

theorem iupdate_logs (scarce : Scarce faults) (dev : (s.icache ip).dev = ROOTDEV) :
    Ends (fun _ next => ∀ c, c ∈ next.log.lh ↔
      c ∈ s.log.lh ∨ c = s.sb.iblock (s.icache ip).inum) faults (iupdate ip) s := by
  apply Ends.read
  rw [dev]
  exact Ends.read (logWrite_ends scarce fun _ => mem_noted)

variable {table : Nat → Dinode} {i : Nat}

/-- An inode may be replaced by one with the same places. -/
theorem swap_inode {sb : Superblock} {blocks : UInt32 → Block}
    (owned : Owned sb blocks (leads blocks table)) (full : Full blocks table)
    (pointer : ∀ p, din.pointer blocks p = (table i).pointer blocks p)
    (covered : ∀ k, din.type ≠ 0 → k * BSIZE < din.size.toNat → din.pointer blocks (slot k) ≠ 0) :
    Owned sb blocks (leads blocks (update table i din)) ∧ Full blocks (update table i din) := by
  have same : leads blocks (update table i din) = leads blocks table := by
    funext place
    obtain ⟨j, p⟩ := place
    rw [leads_update_inode]
    by_cases own : j = i
    · rw [if_pos own, own]
      exact pointer p
    · rw [if_neg own]
  constructor
  · rw [same]
    exact owned
  · intro j k live inside
    by_cases own : j = i
    · rw [own, update_self] at live inside ⊢
      exact covered k live inside
    · rw [update_of_ne own] at live inside ⊢
      exact full j k live inside

/-- The copy of an inode may be replaced by one with the same places. The other inodes may be
those on disk or the working ones. -/
theorem swap_draft (geometry : s.sb.Geometry) (super : Superblock.read (s.blocks 1) = s.sb)
    (dev : (s.icache ip).dev = ROOTDEV) (inside : s.number ip < s.sb.ninodes.toNat)
    (owned : Owned s.sb s.blocks (leads s.blocks table)) (full : Full s.blocks table)
    (others : update table (s.number ip) din = update s.inodes (s.number ip) din)
    (pointer : ∀ p, din.pointer s.blocks p = (table (s.number ip)).pointer s.blocks p)
    (covered : ∀ k, din.type ≠ 0 → k * BSIZE < din.size.toNat → din.pointer s.blocks (slot k) ≠ 0) :
    Draft (s.ahead ip s.disk s.log din) ip ∧ (s.ahead ip s.disk s.log din).working ip =
      update s.inodes (s.number ip) din := by
  have working : (s.ahead ip s.disk s.log din).working ip =
      update s.inodes (s.number ip) din := by
    unfold Fs.working
    rw [ahead_icache_self]
    rfl
  have swapped := swap_inode owned full pointer covered
  rw [others] at swapped
  refine ⟨⟨geometry, super, ?_, ?_, ?_, ?_⟩, working⟩
  · rw [ahead_icache_self]
    exact dev
  · rw [Fs.number, ahead_icache_self]
    exact inside
  · rw [working, ahead_blocks]
    exact swapped.1
  · rw [working, ahead_blocks]
    exact swapped.2

/-- A change of the copy that keeps its type, size and addresses can be stored. -/
theorem ahead_draft (volume : Volume s) (fresh : Fresh s ip) (type : din.type = (s.icache ip).type)
    (addrs : din.addrs = (s.icache ip).addrs) (size : din.size = (s.icache ip).size) :
    Draft (s.ahead ip s.disk s.log din) ip ∧ (s.ahead ip s.disk s.log din).working ip =
      update s.inodes (s.number ip) din := by
  have pointer : ∀ p, din.pointer s.blocks p = (s.inodes (s.number ip)).pointer s.blocks p := by
    intro p
    rw [← fresh.copy]
    unfold Dinode.pointer
    rw [type, addrs]
  refine swap_draft volume.geometry volume.super fresh.dev fresh.inside volume.owned volume.full rfl
    pointer fun k live inside => ?_
  rw [pointer]
  rw [type, fresh.copy] at live
  rw [size, fresh.copy] at inside
  exact volume.full _ k live inside

theorem restamp_ends (scarce : Scarce faults)
    (volume : Volume s) (fresh : Fresh s ip) {change : Inode → Inode} {major minor nlink : Int16}
    (stamps : change (s.icache ip) =
      { s.icache ip with toDinode := (s.icache ip).restamp major minor nlink }) :
    Ends (fun _ next => Rewrites s next ip ((s.icache ip).restamp major minor nlink) ∧
      next.files = update s.files (s.number ip)
        ((s.files (s.number ip)).map (FileNode.restamp · major minor nlink))) faults (iupdate ip)
      { s with icache := update s.icache ip (change (s.icache ip)) } := by
  obtain ⟨draft, working⟩ :
      Draft (s.ahead ip s.disk s.log ((s.icache ip).restamp major minor nlink)) ip ∧ _ :=
    ahead_draft volume fresh rfl rfl rfl
  have state : ({ s with icache := update s.icache ip (change (s.icache ip)) } : Fs) =
      s.ahead ip s.disk s.log ((s.icache ip).restamp major minor nlink) := by
    rw [stamps]
    rfl
  rw [state]
  refine (iupdate_ends scarce draft).imp fun _ next stored => ?_
  have files : next.files = update s.files (s.number ip)
      ((s.files (s.number ip)).map (FileNode.restamp · major minor nlink)) := by
    rw [stored.files, working]
    refine (files_update ..).trans (congrArg (update s.files (s.number ip)) ?_)
    rw [Dinode.file_restamp, fresh.copy]
    rfl
  refine ⟨⟨stored.volume, stored.sb, stored.icache, stored.inodes.trans working, ?_⟩, files⟩
  intro i other
  rw [files, update_of_ne other]

theorem Fresh.work (volume : Volume s) (fresh : Fresh s ip) : Work s ip := by
  refine ⟨volume.geometry, volume.super, fresh.dev, fresh.inside, fresh.live, ?_, ?_⟩
  · rw [fresh.working]
    exact volume.owned
  · rw [fresh.working]
    exact volume.full

namespace Writes

variable {s next : Fs} {ip : InodeId} {src : Nat → UInt8} {off count : Nat}

theorem files_other (work : Work s ip) (writes : Writes s next ip src off count)
    (other : i ≠ s.number ip) :
    RtXv6.files next.blocks (next.working ip) i = RtXv6.files s.blocks (s.working ip) i := by
  have number := writes.number_eq
  have same : next.working ip i = s.working ip i := by
    unfold Fs.working
    rw [writes.inodes]
    exact (update_of_ne (show i ≠ next.number ip by rwa [number]) ..).trans
      (update_of_ne other ..).symm
  unfold RtXv6.files
  by_cases free : (s.working ip i).type = 0
  · rw [same]
    simp [Dinode.file, free]
  apply file_congr
  all_goals try rw [same]
  intro k inside
  have set : s.lead ip (i, slot k) ≠ 0 := work.full i k free inside
  have kept : (s.working ip i).pointer next.blocks (slot k) = s.lead ip (i, slot k) := by
    rw [← same]
    exact writes.places _ set
  unfold Dinode.block
  rw [kept]
  exact writes.others i k other set

/-- The bytes of the written file, once its inode has a size that covers the stretch. -/
theorem file_self (writes : Writes s next ip src off count) (work : Work s ip) {length : UInt32}
    (size : length.toNat = max (s.icache ip).size.toNat (off + count))
    (adjacent : off ≤ (s.icache ip).size.toNat) :
    ((next.icache ip).resized length).file next.blocks =
      ((s.icache ip).file s.blocks).map (FileNode.write · src off count) := by
  obtain ⟨disk, log, addrs, ahead⟩ := writes.ahead
  have copy : (next.icache ip).toDinode = { (s.icache ip).toDinode with addrs } := by
    rw [ahead, ahead_icache_self]
  have live : (next.icache ip).type ≠ 0 := by
    rw [copy]
    exact work.live
  have bytes : ∀ pos, (if pos < length.toNat then
      ((next.icache ip).resized length).byteAt next.blocks pos else 0) =
      if off ≤ pos ∧ pos < off + count then src (pos - off)
      else if pos < (s.icache ip).size.toNat then (s.icache ip).byteAt s.blocks pos else 0 := by
    intro pos
    have reading : ((next.icache ip).resized length).byteAt next.blocks pos =
        next.byteOf ip pos := rfl
    rw [reading]
    by_cases within : off ≤ pos ∧ pos < off + count
    · rw [if_pos within, if_pos (by rw [size]; omega), writes.inner pos within.1 within.2]
    rw [if_neg within]
    by_cases inside : pos < (s.icache ip).size.toNat
    · rw [if_pos inside, if_pos (by rw [size]; omega),
        writes.outer pos (by omega) (work.set_at inside)]
    · rw [if_neg inside, if_neg (by rw [size]; omega)]
  have fields : ((next.icache ip).resized length).type = (s.icache ip).type ∧
      ((next.icache ip).resized length).major = (s.icache ip).major ∧
      ((next.icache ip).resized length).minor = (s.icache ip).minor ∧
      ((next.icache ip).resized length).nlink = (s.icache ip).nlink := by
    rw [copy]
    exact ⟨rfl, rfl, rfl, rfl⟩
  have still : ((next.icache ip).resized length).type ≠ 0 := live
  rw [Dinode.file, Dinode.file, if_neg work.live, if_neg still, Option.map_some, fields.1, fields.2.1,
    fields.2.2.1, fields.2.2.2]
  refine congrArg some ?_
  rw [FileNode.mk.injEq]
  exact ⟨rfl, rfl, rfl, rfl, size, funext bytes⟩

end Writes

variable {length : UInt32}

theorem Work.resize (work : Work s ip)
    (set : ∀ k, k * BSIZE < length.toNat → s.lead ip (s.number ip, slot k) ≠ 0) :
    Draft (s.ahead ip s.disk s.log ((s.icache ip).resized length)) ip ∧
      (s.ahead ip s.disk s.log ((s.icache ip).resized length)).working ip =
        update s.inodes (s.number ip) ((s.icache ip).resized length) := by
  refine swap_draft work.geometry work.super work.dev work.inside work.owned work.full
    (update_idem ..) ?_ ?_
  · intro p
    rw [working_self]
    rfl
  intro k _ inside
  have pointing := set k inside
  rw [lead_self] at pointing
  exact pointing

theorem Fresh.files_working (fresh : Fresh s ip) :
    RtXv6.files s.blocks (s.working ip) = s.files := by
  rw [fresh.working]
  rfl

theorem Fresh.file_self (fresh : Fresh s ip) :
    (s.icache ip).file s.blocks = s.files (s.number ip) := by
  rw [fresh.copy]
  rfl

/-- A stretch has been written to the file of a cache entry. -/
structure Extends (s next : Fs) (ip : InodeId) (src : Nat → UInt8) (off count : Nat) : Prop where
  rewrites : ∃ din, Rewrites s next ip din ∧ din.type = (s.icache ip).type
  files : next.files = update s.files (s.number ip)
    ((s.files (s.number ip)).map (FileNode.write · src off count))
  logs : ∃ middle, Writes s middle ip src off count ∧ ∀ c, c ∈ next.log.lh ↔ c ∈ middle.log.lh ∨
    (s.icache ip).size.toNat < off + count ∧ c = s.sb.iblock (s.icache ip).inum

section

variable {s middle : Fs} {ip : InodeId} {src : Nat → UInt8} {off count : Nat}

theorem Writes.covered (work : Work s ip) (writes : Writes s middle ip src off count)
    (adjacent : off ≤ (s.icache ip).size.toNat) {k : Nat} (inside : k * BSIZE < off + count) :
    middle.lead ip (s.number ip, slot k) ≠ 0 := by
  have index : k * BSIZE / BSIZE = k := Nat.mul_div_cancel k (by decide)
  by_cases written : off ≤ k * BSIZE
  · have set := writes.set (k * BSIZE) written inside
    rwa [index] at set
  have set := work.set (Nat.lt_of_lt_of_le (Nat.not_le.mp written) adjacent)
  rw [writes.places _ set]
  exact set

theorem Writes.within (volume : Volume s) (fresh : Fresh s ip)
    (writes : Writes s middle ip src off count) (inside : off + count ≤ (s.icache ip).size.toNat) :
    Extends s middle ip src off count := by
  have work := fresh.work volume
  have copy : (middle.icache ip).toDinode = (s.icache ip).toDinode :=
    writes.same fun pos low high => work.set_at (by omega)
  have number := writes.number_eq
  have working : middle.working ip = middle.inodes := by
    unfold Fs.working
    rw [copy, writes.inodes, fresh.copy]
    refine (congrArg (fun i => update s.inodes i (s.inodes (s.number ip))) number).trans ?_
    exact update_eq_self _ _
  have others : ∀ i, i ≠ s.number ip → middle.files i = s.files i := by
    intro i other
    have same := writes.files_other work other
    rw [working, fresh.working] at same
    exact same
  obtain ⟨disk, log, addrs, ahead⟩ := writes.ahead
  have size : (s.icache ip).size.toNat = max (s.icache ip).size.toNat (off + count) := by omega
  have own := writes.file_self work size (by omega)
  rw [fresh.file_self] at own
  have rewrites : Rewrites s middle ip (s.icache ip).toDinode := by
    refine ⟨⟨writes.work.geometry, writes.work.super, ?_, ?_⟩, by rw [ahead, ahead_sb], ?_, ?_, others⟩
    · rw [← working]
      exact writes.work.owned
    · rw [← working]
      exact writes.work.full
    · rw [ahead, ahead_icache_self] at copy
      rw [ahead, ← copy]
      rfl
    · rw [writes.inodes, fresh.copy, update_eq_self]
  refine ⟨⟨_, rewrites, rfl⟩, ?_, middle, writes, fun c => ?_⟩
  · rw [rewrites.files_eq, ← own, copy]
    rfl
  · simp [Nat.not_lt.mpr inside]

theorem Writes.beyond (scarce : Scarce faults) (volume : Volume s) (fresh : Fresh s ip)
    (writes : Writes s middle ip src off count) (adjacent : off ≤ (s.icache ip).size.toNat)
    (size : length.toNat = off + count) (grows : (s.icache ip).size.toNat < off + count) :
    Ends (fun _ next => Extends s next ip src off count) faults (iupdate ip)
      (middle.ahead ip middle.disk middle.log ((middle.icache ip).resized length)) := by
  have work := fresh.work volume
  have number := writes.number_eq
  have covered : ∀ k, k * BSIZE < length.toNat → middle.lead ip (middle.number ip, slot k) ≠ 0 := by
    intro k inside
    rw [number]
    exact writes.covered work adjacent (by omega)
  obtain ⟨draft, working⟩ := writes.work.resize covered
  obtain ⟨disk, log, addrs, ahead⟩ := writes.ahead
  have longest : length.toNat = max (s.icache ip).size.toNat (off + count) := by omega
  have own := writes.file_self work longest adjacent
  rw [fresh.file_self] at own
  refine ((iupdate_ends scarce draft).and (iupdate_logs scarce draft.dev)).imp
    fun _ next both => ?_
  obtain ⟨stored, logs⟩ := both
  have inodes : next.inodes =
      update s.inodes (s.number ip) ((middle.icache ip).resized length) := by
    rw [stored.inodes, working, writes.inodes]
    exact congrArg (fun i => update s.inodes i _) number
  have files : next.files = update s.files (s.number ip)
      ((s.files (s.number ip)).map (FileNode.write · src off count)) := by
    rw [stored.files, working, ← own]
    funext i
    show ((update middle.inodes (middle.number ip) _) i).file middle.blocks = _
    rw [number]
    by_cases same : i = s.number ip
    · rw [same, update_self, update_self]
    have other := writes.files_other work same
    have entry : middle.working ip i = middle.inodes i :=
      update_of_ne (show i ≠ middle.number ip by rwa [number]) ..
    rw [update_of_ne same, update_of_ne same, ← fresh.files_working, ← other, RtXv6.files, entry]
  refine ⟨⟨_, ⟨stored.volume, ?_, ?_, inodes, ?_⟩, ?_⟩, files, middle, writes, fun c => ?_⟩
  · rw [stored.sb, ahead_sb, ahead, ahead_sb]
  · rw [stored.icache, ahead]
    simp [Fs.ahead]
  · intro i other
    rw [files, update_of_ne other]
  · rw [ahead, ahead_icache_self]
    rfl
  · rw [logs, ahead_icache_self, ahead_sb, ahead, ahead_icache_self, ahead_sb, and_iff_right grows]
    rfl

end

/-- The stretches that `writei` accepts. -/
structure Accepts (din : Dinode) (off n : UInt32) : Prop where
  file : din.type ≠ T_DEV
  place : ¬ (din.size < off ∨ off + n < off)
  small : ¬ UInt32.ofNat (MAXFILE * BSIZE) < off + n

instance Accepts.decidable (din : Dinode) (off n : UInt32) : Decidable (Accepts din off n) :=
  decidable_of_iff (din.type ≠ T_DEV ∧ ¬ (din.size < off ∨ off + n < off) ∧
    ¬ UInt32.ofNat (MAXFILE * BSIZE) < off + n)
    ⟨fun all => ⟨all.1, all.2.1, all.2.2⟩, fun all => ⟨all.file, all.place, all.small⟩⟩

variable {off n : UInt32}

theorem Accepts.adjacent (accepts : Accepts din off n) : off.toNat ≤ din.size.toNat := by
  by_contra beyond
  exact accepts.place (.inl (UInt32.lt_iff_toNat_lt.mpr (by omega)))

theorem toNat_add_of_whole (whole : ¬ off + n < off) : (off + n).toNat = off.toNat + n.toNat := by
  have limit := n.toNat_lt
  rw [UInt32.lt_iff_toNat_lt, UInt32.toNat_add] at whole
  rw [UInt32.toNat_add]
  omega

theorem writei_accepts (scarce : Scarce faults) (volume : Volume s) (fresh : Fresh s ip)
    (src : Nat → UInt8) (accepts : Accepts (s.icache ip).toDinode off n) :
    Ends (fun r next => r = n.toInt32 ∧ Extends s next ip src off.toNat n.toNat) faults
      (writei ip src off n) s := by
  have adjacent := accepts.adjacent
  have sum := toNat_add_of_whole (not_or.mp accepts.place).2
  apply Ends.read
  rw [if_neg accepts.file, if_neg accepts.place, if_neg accepts.small]
  have inside : off.toNat + n.toNat ≤ MAXFILE * BSIZE := by
    have small := Nat.not_lt.mp (mt UInt32.lt_iff_toNat_lt.mpr accepts.small)
    rwa [sum] at small
  refine (writeLoop_ends scarce (fresh.work volume) (Nat.le_refl _) inside).seq
    fun _ middle writes => ?_
  have extended : Ends (fun _ next => Extends s next ip src off.toNat n.toNat) faults
      (grow ip (off + n) n) middle := by
    have size : (middle.icache ip).size = (s.icache ip).size := by
      obtain ⟨disk, log, addrs, ahead⟩ := writes.ahead
      rw [ahead, ahead_icache_self]
    apply Ends.read
    rw [size]
    by_cases grows : 0 < n ∧ (s.icache ip).size < off + n
    · have longer := UInt32.lt_iff_toNat_lt.mp grows.2
      rw [sum] at longer
      rw [if_pos grows]
      exact Ends.change (writes.beyond scarce volume fresh adjacent sum longer)
    · rw [if_neg grows]
      refine .ret (writes.within volume fresh ?_)
      rw [UInt32.lt_iff_toNat_lt, UInt32.lt_iff_toNat_lt, sum, UInt32.toNat_zero] at grows
      omega
  exact extended.seq fun _ next extends_ => .ret ⟨rfl, extends_⟩

theorem writei_refuses {src : Nat → UInt8} (refused : ¬ Accepts (s.icache ip).toDinode off n) :
    Ends (fun r next => next = s ∧ ((s.icache ip).type = T_DEV ∨ r = -1)) faults
      (writei ip src off n) s := by
  apply Ends.read
  split
  · next device => exact .ret ⟨rfl, .inl device⟩
  next file =>
  split
  · exact .ret ⟨rfl, .inr rfl⟩
  next place =>
  split
  · exact .ret ⟨rfl, .inr rfl⟩
  · next small => exact absurd ⟨file, place, small⟩ refused

theorem writei_ends (scarce : Scarce faults) (volume : Volume s) (fresh : Fresh s ip)
    (src : Nat → UInt8) (off n : UInt32) :
    Ends (fun r next => next = s ∧ ((s.icache ip).type = T_DEV ∨ r = -1) ∨
      (s.icache ip).type ≠ T_DEV ∧ r = n.toInt32 ∧ off.toNat ≤ (s.icache ip).size.toNat ∧
        Extends s next ip src off.toNat n.toNat) faults (writei ip src off n) s := by
  by_cases accepts : Accepts (s.icache ip).toDinode off n
  · refine (writei_accepts scarce volume fresh src accepts).imp fun r next wrote => ?_
    exact .inr ⟨accepts.file, wrote.1, accepts.adjacent, wrote.2⟩
  · exact (writei_refuses accepts).imp fun _ _ => .inl

theorem Volume.size_le (volume : Volume s) (live : (s.inodes i).type ≠ 0) :
    (s.inodes i).size.toNat ≤ MAXFILE * BSIZE := by
  by_contra longer
  have set := volume.full i MAXFILE live (by omega)
  have place : slot MAXFILE = MAXFILE + 1 := if_neg (by decide)
  exact set (pointer_none (by decide) (.inr (by omega)))

/-- How many bytes `readi` delivers of a file that is no device. -/
def readable (s : Fs) (ip : InodeId) (off n : UInt32) : UInt32 :=
  if (s.icache ip).size < off + n then (s.icache ip).size - off else n

/-- `readi` delivers the bytes of a file without holes and changes nothing. -/
theorem readi_run_of_full (dev : (s.icache ip).dev = ROOTDEV) (live : (s.icache ip).type ≠ 0)
    (file : (s.icache ip).type ≠ T_DEV)
    (full : ∀ k, k * BSIZE < (s.icache ip).size.toNat → (s.icache ip).pointer s.blocks (slot k) ≠ 0)
    (within : off.toNat ≤ (s.icache ip).size.toNat) (whole : ¬ off + n < off) :
    readi ip off n s = .ok (((s.readable ip off n).toInt32,
      (List.range (s.readable ip off n).toNat).map fun index => s.byteOf ip (off.toNat + index)),
      s) := by
  have good : ¬ ((s.icache ip).size < off ∨ off + n < off) := by
    rintro (beyond | wraps)
    · have less := UInt32.lt_iff_toNat_lt.mp beyond
      omega
    · exact whole wraps
  have sum := toNat_add_of_whole whole
  have inside : off.toNat + (s.readable ip off n).toNat ≤ (s.icache ip).size.toNat := by
    unfold readable
    split
    · rw [UInt32.toNat_sub_of_le _ _ (UInt32.le_iff_toNat_le.mpr within)]
      omega
    rename_i short
    have bound : ¬ (s.icache ip).size.toNat < (off + n).toNat :=
      fun less => short (UInt32.lt_iff_toNat_lt.mpr less)
    omega
  have set : ∀ k, k * BSIZE < off.toNat + (s.readable ip off n).toNat →
      (s.icache ip).pointer s.blocks (slot k) ≠ 0 :=
    fun k below => full k (Nat.lt_of_lt_of_le below inside)
  rw [readi, get_bind, if_neg file, if_neg good]
  exact bind_run (readLoop_run dev live (Nat.le_refl _) set)

theorem readi_run (volume : Volume s) (fresh : Fresh s ip) (file : (s.icache ip).type ≠ T_DEV)
    (within : off.toNat ≤ (s.icache ip).size.toNat) (whole : ¬ off + n < off) :
    readi ip off n s = .ok (((s.readable ip off n).toInt32,
      (List.range (s.readable ip off n).toNat).map fun index => s.byteOf ip (off.toNat + index)),
      s) := by
  refine readi_run_of_full fresh.dev fresh.live file ?_ within whole
  intro k below
  have live := fresh.live
  rw [fresh.copy] at live below ⊢
  exact volume.full _ k live below

theorem readi_ends (volume : Volume s) (fresh : Fresh s ip) (off n : UInt32) :
    Ends (fun _ next => next = s) (fun _ => False) (readi ip off n) s := by
  by_cases file : (s.icache ip).type = T_DEV
  · apply Ends.read
    rw [if_pos file]
    exact .ret rfl
  by_cases bad : (s.icache ip).size < off ∨ off + n < off
  · apply Ends.read
    rw [if_neg file, if_pos bad]
    exact .ret rfl
  · have within : off.toNat ≤ (s.icache ip).size.toNat := by
      by_contra beyond
      exact bad (.inl (UInt32.lt_iff_toNat_lt.mpr (by omega)))
    exact Ends.of_run (readi_run volume fresh file within fun wraps => bad (.inr wraps)) rfl

end RtXv6.Fs
