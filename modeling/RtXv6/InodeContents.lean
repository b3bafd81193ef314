import RtXv6.BlockMap
import RtXv6.Inodes

/-!
# What the code on inodes does to the blocks

While `bmap`, `writei` and `itrunc` work on an inode, its copy in memory is ahead of
the inode on disk. The facts of this file are about the inodes with that copy in the
place of the one on disk: which blocks they own, that they have no holes, and what
their files hold. `iupdate` brings the disk up to them.
-/

namespace RtXv6.Fs

open Function (update update_self update_of_ne update_idem update_eq_self)
open Stateful Ownership

/-- The blocks of the file system's device. -/
abbrev blocks (s : Fs) : UInt32 → Block := s.disk ROOTDEV

/-- The inodes on disk. -/
def inodes (s : Fs) : Nat → Dinode := inodeTable s.sb s.blocks

/-- The inodes with the copy of a cached one in its place. -/
def working (s : Fs) (ip : InodeId) : Nat → Dinode :=
  update s.inodes (s.icache ip).inum.toNat (s.icache ip).toDinode

/-- The state with other blocks, log and copy of one inode. -/
def ahead (s : Fs) (ip : InodeId) (disk : Disk) (log : Log) (din : Dinode) : Fs :=
  { s with
    disk
    log
    icache := update s.icache ip { s.icache ip with toDinode := din } }

/-- The state after `log_write` of a block. -/
def put (s : Fs) (b : UInt32) (data : Block) (log : Log) : Fs :=
  { s with disk := assign s.disk ROOTDEV b data, log }

/-- The log after `log_write` of a block. -/
def noted (s : Fs) (b : UInt32) : Log := { s.log with lh := Journal.absorb s.log.lh b }

variable {c : UInt32}

@[simp] theorem mem_noted {s : Fs} {b : UInt32} :
    c ∈ (s.noted b).lh ↔ c ∈ s.log.lh ∨ c = b := Journal.mem_absorb

section

variable (s : Fs)

section

variable (b : UInt32) (data : Block) (log : Log)

@[simp] theorem put_blocks : (s.put b data log).blocks = update s.blocks b data := by
  simp [put, blocks, assign]

@[simp] theorem put_sb : (s.put b data log).sb = s.sb := rfl

@[simp] theorem put_icache : (s.put b data log).icache = s.icache := rfl

end

variable (ip : InodeId) (disk : Disk) (log : Log) (din : Dinode)

@[simp] theorem ahead_sb : (s.ahead ip disk log din).sb = s.sb := rfl

@[simp] theorem ahead_blocks : (s.ahead ip disk log din).blocks = disk ROOTDEV := rfl

@[simp] theorem ahead_icache_self :
    (s.ahead ip disk log din).icache ip = { s.icache ip with toDinode := din } := by
  simp [ahead]

end

variable {ip : InodeId}

theorem ahead_icache_other (s : Fs) {other : InodeId} (disk : Disk) (log : Log) (din : Dinode)
    (different : other ≠ ip) : (s.ahead ip disk log din).icache other = s.icache other := by
  simp [ahead, update_of_ne different]

@[simp] theorem ahead_ahead (s : Fs) (ip : InodeId) (disk before : Disk) (log earlier : Log)
    (din copy : Dinode) :
    (s.ahead ip before earlier copy).ahead ip disk log din = s.ahead ip disk log din := by
  simp [ahead]

/-- Nothing but blocks and the log changes if the copy stays. -/
theorem ahead_same (s : Fs) (ip : InodeId) (disk : Disk) (log : Log) :
    s.ahead ip disk log (s.icache ip).toDinode = { s with disk, log } := by
  have same : update s.icache ip { s.icache ip with toDinode := (s.icache ip).toDinode } =
      s.icache := update_eq_self ip s.icache
  simp only [ahead, same]

theorem ahead_refl (s : Fs) (ip : InodeId) : s.ahead ip s.disk s.log (s.icache ip).toDinode = s :=
  ahead_same s ip s.disk s.log

/-- The state after `balloc` of a block. -/
def allocated (s : Fs) (b : UInt32) (log : Log) : Fs :=
  (s.put (s.sb.bblock b) (Bytes.setBit (s.blocks (s.sb.bblock b)) (b.toNat % BPB)) log).put b
    zeroes log

@[simp] theorem allocated_blocks (s : Fs) (b : UInt32) (log : Log) :
    (s.allocated b log).blocks =
      update (update s.blocks (s.sb.bblock b)
        (Bytes.setBit (s.blocks (s.sb.bblock b)) (b.toNat % BPB))) b zeroes := by
  simp [allocated]

@[simp] theorem allocated_icache (s : Fs) (b : UInt32) (log : Log) :
    (s.allocated b log).icache = s.icache := rfl

/-- The faults that the file system's own consistency does not exclude. -/
def Tolerant (faults : FsFault → Prop) : Prop :=
  ∀ fault, fault ≠ .panic "freeing free block" → fault ≠ .panic "ilock: no type" → faults fault

section

variable {faults : FsFault → Prop} (tolerant : Tolerant faults) {fault : FsFault}
  (sound : fault ≠ .panic "freeing free block" ∧ fault ≠ .panic "ilock: no type")
include tolerant sound

theorem Tolerant.other : faults fault :=
  tolerant fault sound.1 sound.2

theorem Tolerant.fail {value : Type} {post : value → Fs → Prop} {s : Fs} :
    Ends post faults (throw fault) s :=
  Ends.fail (tolerant.other sound)

end

/-- The faults of a write for which the disk or the log has run out, or which is not part of a
transaction. -/
structure Scarce (faults : FsFault → Prop) : Prop where
  blocks : faults (.panic "balloc: out of blocks")
  log : faults (.panic "too big a transaction")
  outside : faults (.panic "log_write outside of trans")

theorem Tolerant.scarce {faults : FsFault → Prop} (tolerant : Tolerant faults) : Scarce faults :=
  ⟨tolerant.other (by decide), tolerant.other (by decide), tolerant.other (by decide)⟩

section

variable {faults : FsFault → Prop} (scarce : Scarce faults)
include scarce

variable {s : Fs} {post : Unit → Fs → Prop}

theorem logWrite_ends {b : UInt32} {data : Block} (holds : post () (s.put b data (s.noted b))) :
    Ends post faults (logWrite ROOTDEV b data) s := by
  apply Ends.read
  split
  · exact .fail scarce.log
  split
  · exact .fail scarce.outside
  · exact holds

theorem balloc_ends {post : UInt32 → Fs → Prop}
    (holds : ∀ b log, b.toNat < s.sb.size.toNat → inUse s.sb s.blocks b = false →
      (∀ c, c ∈ log.lh ↔ c ∈ s.log.lh ∨ c = s.sb.bblock b ∨ c = b) →
      post b (s.allocated b log)) : Ends post faults (balloc ROOTDEV) s := by
  apply Ends.read
  split
  · exact .fail scarce.blocks
  rename_i b found
  have inside : b < s.sb.size.toNat := List.mem_range.mp (List.mem_of_find?_eq_some found)
  have number : (UInt32.ofNat b).toNat = b :=
    UInt32.toNat_ofNat_of_lt' (Nat.lt_trans inside s.sb.size.toNat_lt)
  have free : inUse s.sb s.blocks (UInt32.ofNat b) = false := by
    simpa [used, inUse] using List.find?_some found
  refine .andThen (logWrite_ends scarce ?_)
  refine .andThen (logWrite_ends scarce ?_)
  have ends := holds (UInt32.ofNat b)
    (noted { s with log := s.noted (s.sb.bblock (UInt32.ofNat b)) } (UInt32.ofNat b))
    (by rwa [number]) free fun c => mem_noted.trans ((or_congr_left mem_noted).trans or_assoc)
  rw [allocated, number] at ends
  exact ends

omit scarce in
theorem readsb_ends (super : Superblock.read (s.blocks 1) = s.sb) (holds : post () s) :
    Ends post faults (readsb ROOTDEV) s := by
  have same : ({ s with sb := Superblock.read (s.disk ROOTDEV 1) } : Fs) = s := by
    rw [super]
  unfold readsb
  refine Ends.of_run (modify_run _ s) ?_
  rwa [same]

theorem bfree_ends (super : Superblock.read (s.blocks 1) = s.sb) {b : UInt32}
    (taken : inUse s.sb s.blocks b = true)
    (holds : ∀ log, post () (s.put (s.sb.bblock b)
      (Bytes.clearBit (s.blocks (s.sb.bblock b)) (b.toNat % BPB)) log)) :
    Ends post faults (bfree ROOTDEV b) s := by
  have set : s.used ROOTDEV b = true := taken
  refine .andThen (readsb_ends super ?_)
  apply Ends.read
  rw [if_pos set]
  exact logWrite_ends scarce (holds _)

end

/-- Places keep what they lead to, and the data blocks that they lead to keep their
contents. -/
structure Grows (blocks : UInt32 → Block) (inodes : Nat → Dinode) (others : UInt32 → Block)
    (next : Nat → Dinode) : Prop where
  fields : ∀ i, ∃ addrs, next i = { inodes i with addrs }
  places : ∀ place, leads blocks inodes place ≠ 0 →
    leads others next place = leads blocks inodes place
  data : ∀ i k, leads blocks inodes (i, slot k) ≠ 0 →
    others (leads blocks inodes (i, slot k)) = blocks (leads blocks inodes (i, slot k))

namespace Grows

variable {blocks others last : UInt32 → Block} {inodes next final : Nat → Dinode}

theorem refl : Grows blocks inodes blocks inodes :=
  ⟨fun i => ⟨(inodes i).addrs, rfl⟩, fun _ _ => rfl, fun _ _ _ => rfl⟩

theorem trans (first : Grows blocks inodes others next) (second : Grows others next last final) :
    Grows blocks inodes last final := by
  refine ⟨?_, ?_, ?_⟩
  · intro i
    obtain ⟨addrs, same⟩ := first.fields i
    obtain ⟨more, again⟩ := second.fields i
    exact ⟨more, by rw [again, same]⟩
  · intro place set
    have kept := first.places place set
    rw [second.places place (by rwa [kept]), kept]
  · intro i k set
    have kept := first.places (i, slot k) set
    have later := second.data i k (by rwa [kept])
    rw [kept] at later
    rw [later, first.data i k set]

theorem full (grows : Grows blocks inodes others next) (full : Full blocks inodes) :
    Full others next := by
  intro i k live inside
  obtain ⟨addrs, same⟩ := grows.fields i
  rw [same] at live inside
  have set : leads blocks inodes (i, slot k) ≠ 0 := full i k live inside
  have kept : (next i).pointer others (slot k) = leads blocks inodes (i, slot k) :=
    grows.places (i, slot k) set
  rwa [kept]

end Grows

/-- The inodes with the copy of a cached one own their blocks and have no holes. -/
structure Work (s : Fs) (ip : InodeId) : Prop where
  geometry : s.sb.Geometry
  super : Superblock.read (s.blocks 1) = s.sb
  dev : (s.icache ip).dev = ROOTDEV
  inside : (s.icache ip).inum.toNat < s.sb.ninodes.toNat
  live : (s.icache ip).type ≠ 0
  owned : Owned s.sb s.blocks (leads s.blocks (s.working ip))
  full : Full s.blocks (s.working ip)

/-- The number of a cached inode. -/
abbrev number (s : Fs) (ip : InodeId) : Nat := (s.icache ip).inum.toNat

@[simp] theorem working_self (s : Fs) (ip : InodeId) :
    s.working ip (s.number ip) = (s.icache ip).toDinode :=
  update_self ..

variable {s : Fs} {next : Fs}

/-- What a change of blocks beyond the inode blocks leaves. -/
theorem inodes_of_far (geometry : s.sb.Geometry) (sb : next.sb = s.sb)
    (far : ∀ c : UInt32, c.toNat < s.sb.bmapstart.toNat → next.blocks c = s.blocks c) :
    next.inodes = s.inodes := by
  unfold inodes
  rw [sb]
  exact inodeTable_of_near geometry far

variable {b : UInt32} {log : Log}

theorem allocated_near (geometry : s.sb.Geometry) (inside : b.toNat < s.sb.size.toNat)
    (low : s.sb.datastart ≤ b.toNat) (near : c.toNat < s.sb.bmapstart.toNat) :
    (s.allocated b log).blocks c = s.blocks c := by
  have bounds := geometry.bblock_bounds inside
  have notBlock : c ≠ b := by
    rintro rfl
    omega
  have notBitmap : c ≠ s.sb.bblock b := by
    rintro rfl
    omega
  rw [allocated_blocks, update_of_ne notBlock, update_of_ne notBitmap]

theorem allocated_data (geometry : s.sb.Geometry) (inside : b.toNat < s.sb.size.toNat)
    (different : c ≠ b) (data : s.sb.datastart ≤ c.toNat) :
    (s.allocated b log).blocks c = s.blocks c := by
  have bounds := geometry.bblock_bounds inside
  have notBitmap : c ≠ s.sb.bblock b := by
    rintro rfl
    omega
  rw [allocated_blocks, update_of_ne different, update_of_ne notBitmap]

/-- What an allocation leaves of places that led to owned blocks. -/
theorem leads_allocated (geometry : s.sb.Geometry) {inodes : Nat → Dinode}
    (owned : Owned s.sb s.blocks (leads s.blocks inodes)) (inside : b.toNat < s.sb.size.toNat)
    (free : inUse s.sb s.blocks b = false) :
    leads (s.allocated b log).blocks inodes = leads s.blocks inodes := by
  obtain ⟨_, set, unowned⟩ := owned.free_bounds geometry free
  have bounds := geometry.bblock_bounds inside
  have order := geometry.datastart_le
  have table : ∀ i, leads s.blocks inodes (i, NDIRECT) ≠ s.sb.bblock b := by
    intro i equal
    have nonzero : leads s.blocks inodes (i, NDIRECT) ≠ 0 := by
      rw [equal]
      intro zero
      rw [zero, UInt32.toNat_zero] at bounds
      omega
    have low := (owned.bounds nonzero).1
    rw [equal] at low
    omega
  rw [allocated_blocks, leads_update_block, leads_update_block _ table]
  intro i
  exact unowned (i, NDIRECT)

/-- An allocated block may be given to any place that has none. -/
theorem owned_allocated (geometry : s.sb.Geometry) {pointer : Nat × Nat → UInt32}
    (owned : Owned s.sb s.blocks pointer) (inside : b.toNat < s.sb.size.toNat)
    (free : inUse s.sb s.blocks b = false) {place : Nat × Nat} (empty : pointer place = 0) :
    Owned s.sb (s.allocated b log).blocks (update pointer place b) := by
  have low := (owned.free_bounds geometry free).1
  exact (owned.allocate geometry inside free empty).update_block geometry zeroes (.inr low)

/-- A place of the working inode leads to a block, which may be new. -/
structure Provides (s next : Fs) (ip : InodeId) (p : Nat) (b : UInt32) : Prop where
  ahead : ∃ disk log din, next = s.ahead ip disk log din
  work : Work next ip
  inodes : next.inodes = s.inodes
  grows : Grows s.blocks (s.working ip) next.blocks (next.working ip)
  place : leads next.blocks (next.working ip) (s.number ip, p) = b
  set : b ≠ 0
  same : leads s.blocks (s.working ip) (s.number ip, p) ≠ 0 → next = s
  spare : ∀ k, slot k ≠ p → leads next.blocks (next.working ip) (s.number ip, slot k) =
    leads s.blocks (s.working ip) (s.number ip, slot k)
  logs : s.sb.size.toNat ≤ BPB → ∀ c, c ∈ next.log.lh ↔ c ∈ s.log.lh ∨
    leads s.blocks (s.working ip) (s.number ip, p) = 0 ∧ (c = s.sb.bmapstart ∨ c = b ∨
      NDIRECT < p ∧ c = leads next.blocks (next.working ip) (s.number ip, NDIRECT))

theorem Provides.refl (work : Work s ip) {p : Nat}
    (place : leads s.blocks (s.working ip) (s.number ip, p) = b) (set : b ≠ 0) :
    Provides s s ip p b :=
  ⟨⟨_, _, _, (ahead_refl s ip).symm⟩, work, rfl, Grows.refl, place, set, fun _ => rfl,
    fun _ _ => rfl, by simp [place, set]⟩

theorem Provides.assign (work : Work s ip) {p : Nat}
    (empty : leads s.blocks (s.working ip) (s.number ip, p) = 0) (set : b ≠ 0)
    (ahead : ∃ disk log addrs, next = s.ahead ip disk log { (s.icache ip).toDinode with addrs })
    (near : ∀ c : UInt32, c.toNat < s.sb.bmapstart.toNat → next.blocks c = s.blocks c)
    (places : leads next.blocks (next.working ip) =
      update (leads s.blocks (s.working ip)) (s.number ip, p) b)
    (owned : Owned s.sb next.blocks (update (leads s.blocks (s.working ip)) (s.number ip, p) b))
    (data : ∀ i k, leads s.blocks (s.working ip) (i, slot k) ≠ 0 →
      next.blocks (leads s.blocks (s.working ip) (i, slot k)) =
        s.blocks (leads s.blocks (s.working ip) (i, slot k)))
    (logs : ∀ c, c ∈ next.log.lh ↔ c ∈ s.log.lh ∨ c = s.sb.bblock b ∨ c = b ∨
      NDIRECT < p ∧ c = leads next.blocks (next.working ip) (s.number ip, NDIRECT)) :
    Provides s next ip p b := by
  obtain ⟨disk, log, addrs, shape⟩ := ahead
  have sb : next.sb = s.sb := by rw [shape]; rfl
  have entry : next.icache ip =
      { s.icache ip with toDinode := { (s.icache ip).toDinode with addrs } } := by
    rw [shape, ahead_icache_self]
  have inodes : next.inodes = s.inodes := inodes_of_far work.geometry sb near
  have working : next.working ip =
      update s.inodes (s.number ip) { (s.icache ip).toDinode with addrs } := by
    unfold Fs.working
    rw [inodes, entry]
  have grows : Grows s.blocks (s.working ip) next.blocks (next.working ip) := by
    refine ⟨?_, ?_, data⟩
    · intro i
      by_cases same : i = s.number ip
      · rw [same, working_self, working, update_self]
        exact ⟨addrs, rfl⟩
      · rw [working, update_of_ne same, Fs.working, update_of_ne same]
        exact ⟨_, rfl⟩
    · intro place pointing
      have different : place ≠ (s.number ip, p) := by
        rintro rfl
        exact pointing empty
      rw [places, update_of_ne different]
  refine ⟨⟨disk, log, _, shape⟩, ?_, inodes, grows, ?_, set, fun pointing => absurd empty pointing,
    ?_, ?_⟩
  · have one := near 1 (Nat.lt_of_lt_of_le (by decide) work.geometry.datastart_le.1)
    refine ⟨by rw [sb]; exact work.geometry, by rw [one, sb]; exact work.super, ?_, ?_, ?_, ?_,
      grows.full work.full⟩
    · rw [entry]
      exact work.dev
    · rw [entry, sb]
      exact work.inside
    · rw [entry]
      exact work.live
    · rw [sb, places]
      exact owned
  · rw [places, update_self]
  · intro k other
    rw [places, update_of_ne fun equal => other (Prod.mk.inj equal).2]
  · intro one c
    have inside : b.toNat < s.sb.size.toNat := by
      have self := update_self (s.number ip, p) b (leads s.blocks (s.working ip))
      exact self ▸ (owned.bounds (self.symm ▸ set)).2
    rw [logs, work.geometry.bblock_one inside one, and_iff_right empty]

variable {bn : Nat}

section

variable {faults : FsFault → Prop} (scarce : Scarce faults)
include scarce

variable {s : Fs} {ip : InodeId}

theorem address_ends (work : Work s ip) (index : Fin (NDIRECT + 1)) :
    Ends (fun b next => Provides s next ip index b) faults (address ip index) s := by
  have live : (s.working ip (s.number ip)).type ≠ 0 := by
    rw [working_self]
    exact work.live
  have place : leads s.blocks (s.working ip) (s.number ip, index.val) =
      (s.icache ip).addrs index := by
    unfold leads
    rw [pointer_addr live index, working_self]
  apply Ends.read
  by_cases empty : (s.icache ip).addrs index = 0
  · rw [if_pos empty, work.dev]
    refine .andThen (balloc_ends scarce fun b log inside free logged => ?_)
    obtain ⟨low, set, unowned⟩ := work.owned.free_bounds work.geometry free
    have holds : Provides s (s.ahead ip (s.allocated b log).disk log
        ((s.icache ip).toDinode.setAddr index b)) ip index b := by
      have near : ∀ c : UInt32, c.toNat < s.sb.bmapstart.toNat →
          (s.allocated b log).blocks c = s.blocks c :=
        fun c near => allocated_near work.geometry inside low near
      have working : (s.ahead ip (s.allocated b log).disk log
          ((s.icache ip).toDinode.setAddr index b)).working ip =
          update (s.working ip) (s.number ip)
            ((s.working ip (s.number ip)).setAddr index b) := by
        have inodes : (s.ahead ip (s.allocated b log).disk log
            ((s.icache ip).toDinode.setAddr index b)).inodes = s.inodes :=
          inodes_of_far work.geometry rfl near
        unfold Fs.working
        rw [inodes, ahead_icache_self, update_idem, update_self]
      have shape : ∃ disk later addrs, s.ahead ip (s.allocated b log).disk log
          ((s.icache ip).toDinode.setAddr index b) =
            s.ahead ip disk later { (s.icache ip).toDinode with addrs } := ⟨_, _, _, rfl⟩
      apply Provides.assign work (place.trans empty) set shape near
      · rw [working, ahead_blocks]
        show leads (s.allocated b log).blocks _ = _
        rw [← leads_allocated work.geometry work.owned inside free]
        by_cases last : index = Fin.last NDIRECT
        · subst last
          apply leads_set_table live
          · rw [working_self]
            exact empty
          · rw [allocated_blocks, update_self]
        · exact leads_set_addr live last b
      · exact owned_allocated work.geometry work.owned inside free (place.trans empty)
      · intro i k pointing
        exact allocated_data work.geometry inside (unowned _) (work.owned.bounds pointing).1
      · intro c
        have direct : ¬ NDIRECT < index.val := by omega
        refine (logged c).trans ?_
        simp [direct]
    exact holds
  · rw [if_neg empty]
    exact .ret (Provides.refl work place empty)

/-- A word of the working inode's indirect block, allocated if it is missing. -/
theorem indirect_ends (work : Work s ip) (table : (s.icache ip).table ≠ 0)
    (small : bn < NINDIRECT) :
    Ends (fun b next => Provides s next ip (NDIRECT + 1 + bn) b) faults
      (indirect ROOTDEV (s.icache ip).table bn) s := by
  have live : (s.working ip (s.number ip)).type ≠ 0 := by
    rw [working_self]
    exact work.live
  have copy : (s.working ip (s.number ip)).table = (s.icache ip).table := by
    rw [working_self]
  have here : leads s.blocks (s.working ip) (s.number ip, NDIRECT) =
      (s.icache ip).table := (pointer_table live).trans copy
  have place : leads s.blocks (s.working ip) (s.number ip, NDIRECT + 1 + bn) =
      word (s.blocks (s.icache ip).table) bn := by
    rw [← copy]
    exact pointer_word live (by rw [copy]; exact table) small
  have own : ∀ other, leads s.blocks (s.working ip) other =
      (s.icache ip).table → other = (s.number ip, NDIRECT) := by
    intro other equal
    exact work.owned.owns.unique other _ (by rw [equal]; exact table) (equal.trans here.symm)
  have low : s.sb.datastart ≤ (s.icache ip).table.toNat := by
    rw [← here]
    exact (work.owned.bounds (by rw [here]; exact table)).1
  apply Ends.read
  by_cases empty : word (s.blocks (s.icache ip).table) bn = 0
  · rw [if_pos empty]
    refine .andThen (balloc_ends scarce fun b log inside free logged => ?_)
    refine .andThen (logWrite_ends scarce (Ends.ret ?_))
    obtain ⟨start, set, unowned⟩ := work.owned.free_bounds work.geometry free
    have order := work.geometry.datastart_le
    have different : (s.icache ip).table ≠ b := by
      rw [← here]
      exact unowned _
    have read : s.blocks (s.icache ip).table = (s.allocated b log).blocks (s.icache ip).table :=
      (allocated_data work.geometry inside different low).symm
    have leadsAllocated : leads (s.allocated b log).blocks (s.working ip) =
        leads s.blocks (s.working ip) := leads_allocated work.geometry work.owned inside free
    obtain ⟨next, shape⟩ : ∃ next, next = (s.allocated b log).put
        (s.icache ip).table (setWord (s.blocks (s.icache ip).table) bn b)
        ((s.allocated b log).noted (s.icache ip).table) := ⟨_, rfl⟩
    rw [← shape]
    have blocks : next.blocks = update (s.allocated b log).blocks (s.icache ip).table
        (setWord (s.blocks (s.icache ip).table) bn b) := by
      rw [shape, put_blocks]
    have ahead : ∃ disk log addrs,
        next = s.ahead ip disk log { (s.icache ip).toDinode with addrs } := by
      refine ⟨next.disk, next.log, (s.icache ip).addrs, ?_⟩
      rw [ahead_same, shape]
      rfl
    have near : ∀ c : UInt32, c.toNat < s.sb.bmapstart.toNat → next.blocks c = s.blocks c := by
      intro c near
      have other : c ≠ (s.icache ip).table := by
        rintro rfl
        omega
      rw [blocks, update_of_ne other]
      exact allocated_near work.geometry inside start near
    have working : next.working ip = s.working ip := by
      unfold Fs.working
      rw [inodes_of_far work.geometry (by rw [shape]; rfl) near, shape, put_icache,
        allocated_icache]
    have places : leads next.blocks (next.working ip) =
        update (leads s.blocks (s.working ip)) (s.number ip, NDIRECT + 1 + bn) b := by
      rw [working, blocks, read, ← copy, ← leadsAllocated]
      apply leads_set_word live (by rw [copy]; exact table) _ small
      intro j equal
      rw [copy, leadsAllocated] at equal
      exact (Prod.mk.inj (own (j, NDIRECT) equal)).1
    apply Provides.assign work (place.trans empty) set ahead near places
    · rw [blocks]
      exact (owned_allocated work.geometry work.owned inside free
        (place.trans empty)).update_block work.geometry _ (.inr low)
    · intro i k pointing
      have other : leads s.blocks (s.working ip) (i, slot k) ≠ (s.icache ip).table :=
        fun equal => slot_ne k (Prod.mk.inj (own _ equal)).2
      rw [blocks, update_of_ne other]
      exact allocated_data work.geometry inside (unowned _) (work.owned.bounds pointing).1
    · intro c
      have beyond : NDIRECT < NDIRECT + 1 + bn := by omega
      have member : c ∈ next.log.lh ↔ c ∈ log.lh ∨ c = (s.icache ip).table := by
        rw [shape]
        exact mem_noted
      rw [member, logged, places, update_of_ne (by simp; omega), here]
      simp [beyond, or_assoc]
  · rw [if_neg empty]
    exact .ret (Provides.refl work place empty)

theorem bmap_ends (work : Work s ip) (inside : bn < MAXFILE) :
    Ends (fun b next => Provides s next ip (slot bn) b) faults (bmap ip bn) s := by
  unfold bmap
  by_cases direct : bn < NDIRECT
  · rw [dif_pos direct]
    have same : slot bn = bn := if_pos direct
    rw [same]
    exact address_ends scarce work ⟨bn, Nat.lt_succ_of_lt direct⟩
  rw [dif_neg direct]
  have shifted : slot bn = NDIRECT + 1 + (bn - NDIRECT) := by
    rw [slot, if_neg direct]
    omega
  have small : bn - NDIRECT < NINDIRECT := by
    simp only [MAXFILE] at inside
    omega
  rw [if_pos small, shifted]
  refine (address_ends scarce work (Fin.last NDIRECT)).seq ?_
  rintro table middle (first : Provides s middle ip NDIRECT table)
  apply Ends.read
  rw [first.work.dev]
  have number : middle.number ip = s.number ip := by
    obtain ⟨disk, log, din, rfl⟩ := first.ahead
    rw [number, ahead_icache_self]
  have found : (middle.icache ip).table = table := by
    have live : (middle.working ip (middle.number ip)).type ≠ 0 := by
      rw [working_self]
      exact first.work.live
    have place := first.place
    rw [← number] at place
    rw [← place, ← working_self middle ip]
    exact (pointer_table live).symm
  have set : (middle.icache ip).table ≠ 0 := by
    rw [found]
    exact first.set
  rw [← found]
  refine (indirect_ends scarce first.work set small).imp ?_
  intro b next second
  obtain ⟨disk, log, din, shape⟩ := second.ahead
  obtain ⟨disk', log', din', shape'⟩ := first.ahead
  have liveNow : (s.working ip (s.number ip)).type ≠ 0 := by
    rw [working_self]
    exact work.live
  have spare : leads middle.blocks (middle.working ip) (s.number ip, NDIRECT + 1 + (bn - NDIRECT)) =
      leads s.blocks (s.working ip) (s.number ip, NDIRECT + 1 + (bn - NDIRECT)) := by
    rw [← shifted]
    exact first.spare bn (slot_ne bn)
  have tableNone : leads s.blocks (s.working ip) (s.number ip, NDIRECT) = 0 →
      leads s.blocks (s.working ip) (s.number ip, NDIRECT + 1 + (bn - NDIRECT)) = 0 := by
    rw [← shifted]
    exact table_missing liveNow (by omega)
  have tableKept : leads next.blocks (next.working ip) (s.number ip, NDIRECT) = table := by
    rw [← first.place]
    exact second.grows.places _ (by rw [first.place]; exact first.set)
  refine ⟨⟨disk, log, din, by rw [shape, shape', ahead_ahead]⟩, second.work,
    second.inodes.trans first.inodes, first.grows.trans second.grows, ?_, second.set, ?_, ?_, ?_⟩
  · rw [← number]
    exact second.place
  · intro pointing
    have unchanged := first.same fun zero => pointing (tableNone zero)
    subst unchanged
    exact second.same pointing
  · intro k other
    rw [← first.spare k (slot_ne k), ← number]
    exact second.spare k other
  intro one c
  have sb : middle.sb = s.sb := by rw [shape']; rfl
  have later := second.logs (by rwa [sb]) c
  rw [number, spare, tableKept, sb] at later
  have beyond : NDIRECT < NDIRECT + 1 + (bn - NDIRECT) := by omega
  rw [later, first.logs one c, tableKept]
  by_cases missing : leads s.blocks (s.working ip) (s.number ip, NDIRECT + 1 + (bn - NDIRECT)) = 0
  · simp only [missing, beyond, true_and, Nat.lt_irrefl, false_and, or_false]
    refine ⟨?_, fun new => new.imp_left .inl⟩
    rintro ((old | ⟨_, new | new⟩) | new)
    · exact .inl old
    · exact .inr (.inl new)
    · exact .inr (.inr (.inr new))
    · exact .inr new
  · simp [missing, mt tableNone missing]

end

theorem bmap_run (dev : (s.icache ip).dev = ROOTDEV) (live : (s.icache ip).type ≠ 0)
    (set : (s.icache ip).pointer s.blocks (slot bn) ≠ 0) :
    bmap ip bn s = .ok ((s.icache ip).pointer s.blocks (slot bn), s) := by
  have run : ∀ index, (s.icache ip).addrs index ≠ 0 →
      address ip index s = .ok ((s.icache ip).addrs index, s) := by
    intro index nonzero
    rw [address, get_bind, if_neg nonzero, pure_run]
  unfold bmap
  by_cases direct : bn < NDIRECT
  · have same : slot bn = bn := if_pos direct
    have place : (s.icache ip).pointer s.blocks bn =
        (s.icache ip).addrs ⟨bn, Nat.lt_succ_of_lt direct⟩ :=
      pointer_addr live ⟨bn, Nat.lt_succ_of_lt direct⟩
    rw [same] at set ⊢
    rw [dif_pos direct, run _ (by rw [← place]; exact set), ← place]
  have shifted : slot bn = NDIRECT + 1 + (bn - NDIRECT) := by
    rw [slot, if_neg direct]
    omega
  rw [shifted] at set ⊢
  have table : (s.icache ip).table ≠ 0 := fun zero => set (pointer_none (by omega) (.inl zero))
  have small : bn - NDIRECT < NINDIRECT := by
    by_contra large
    exact set (pointer_none (by omega) (.inr (by simp only [MAXFILE]; omega)))
  rw [pointer_word live table small] at set ⊢
  rw [dif_neg direct, if_pos small, bind_run (run _ table), get_bind, dev, indirect, bread,
    bind_run (get_bind _ s), if_neg set]
  rfl

@[simp] theorem bread_run (dev b : UInt32) (s : Fs) : bread dev b s = .ok (s.disk dev b, s) := rfl

variable {off : Nat}

theorem slice_eq {count : Nat} (within : off % BSIZE + count ≤ BSIZE) :
    slice ((s.icache ip).block s.blocks (off / BSIZE)) (off % BSIZE) count =
      (List.range count).map (fun index => (s.icache ip).byteAt s.blocks (off + index)) := by
  apply List.map_congr_left
  intro index member
  have small := List.mem_range.mp member
  simp only [BSIZE] at within
  have block : (off + index) / BSIZE = off / BSIZE := by simp only [BSIZE]; omega
  have position : (off + index) % BSIZE = off % BSIZE + index := by simp only [BSIZE]; omega
  rw [Dinode.byteAt, block, position]

/-- The loop of `readi` over blocks that are there delivers their bytes and changes
nothing. -/
theorem readLoop_run (dev : (s.icache ip).dev = ROOTDEV) (live : (s.icache ip).type ≠ 0)
    {fuel left : Nat} (enough : left ≤ fuel)
    (set : ∀ k, k * BSIZE < off + left → (s.icache ip).pointer s.blocks (slot k) ≠ 0) :
    readLoop ip fuel off left s =
      .ok ((List.range left).map (fun index => (s.icache ip).byteAt s.blocks (off + index)), s) := by
  induction fuel generalizing off left with
  | zero =>
    obtain rfl : left = 0 := by omega
    rfl
  | succ fuel ih =>
    rw [readLoop]
    by_cases done : left = 0
    · rw [if_pos done, done]
      rfl
    have position : off % BSIZE < BSIZE := Nat.mod_lt _ (by decide)
    have start : off / BSIZE * BSIZE < off + left := by
      have := Nat.div_mul_le_self off BSIZE
      omega
    obtain ⟨count, chosen⟩ : ∃ count, count = min left (BSIZE - off % BSIZE) := ⟨_, rfl⟩
    have least : count ≤ left := by
      rw [chosen]
      exact Nat.min_le_left _ _
    have room : off % BSIZE + count ≤ BSIZE := by
      omega
    have progress : left - count ≤ fuel := by
      omega
    have whole : off + count + (left - count) = off + left := by omega
    have rest : readLoop ip fuel (off + count) (left - count) s = .ok ((List.range (left - count)).map
        (fun index => (s.icache ip).byteAt s.blocks (off + count + index)), s) :=
      ih progress (fun k inside => set k (by rwa [whole] at inside))
    have split : List.range left =
        List.range count ++ (List.range (left - count)).map (count + ·) := by
      rw [← List.range_add, Nat.add_sub_cancel' least]
    rw [if_neg done, bind_run (bmap_run dev live (set _ start)), get_bind, dev,
      bind_run (bread_run _ _ s), ← chosen, bind_run rest, pure_run, split, List.map_append,
      List.map_map]
    refine congrArg (fun bytes => Except.ok (bytes, s)) ?_
    refine congrArg₂ (· ++ ·) (slice_eq room) (List.map_congr_left ?_)
    intro index _
    rw [Function.comp_apply, Nat.add_assoc]

end RtXv6.Fs
