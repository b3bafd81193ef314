import RtXv6.InodeWrites

/-!
# Truncating inodes

`itrunc` clears the bit of every block of its inode: first those of the direct
addresses, then those that the indirect block lists, then that of the indirect block.
While the words of the indirect block are freed, they still are in the block; the places
that own blocks are those that have not been drained yet.
-/

namespace RtXv6.Fs

open Function (update update_self update_of_ne update_idem update_eq_self)
open Stateful Ownership

/-- Bits of the bitmap have been cleared and addresses of one copy have changed; the places
own what is left. -/
structure Drains (s next : Fs) (ip : InodeId) (pointer : Nat × Nat → UInt32) : Prop where
  ahead : ∃ disk log addrs, next = s.ahead ip disk log { (s.icache ip).toDinode with addrs }
  far : ∀ c : UInt32, c.toNat < s.sb.bmapstart.toNat ∨ s.sb.datastart ≤ c.toNat →
    next.blocks c = s.blocks c
  owned : Owned s.sb next.blocks pointer

/-- The inode whose blocks are freed. -/
structure Doomed (s : Fs) (ip : InodeId) : Prop where
  geometry : s.sb.Geometry
  super : Superblock.read (s.blocks 1) = s.sb
  dev : (s.icache ip).dev = ROOTDEV
  inside : s.number ip < s.sb.ninodes.toNat
  live : (s.icache ip).type ≠ 0
  owned : Owned s.sb s.blocks (s.lead ip)

variable {place : Nat × Nat} {next : Fs}

namespace Drains

variable {s middle : Fs} {ip : InodeId} {pointer : Nat × Nat → UInt32}

theorem refl (doomed : Doomed s ip) : Drains s s ip (s.lead ip) :=
  ⟨⟨s.disk, s.log, _, (ahead_refl s ip).symm⟩, fun _ _ => rfl, doomed.owned⟩

section

variable (drains : Drains s middle ip pointer)
include drains

theorem sb : middle.sb = s.sb := by
  obtain ⟨disk, log, addrs, rfl⟩ := drains.ahead
  rfl

theorem number : middle.number ip = s.number ip := by
  obtain ⟨disk, log, addrs, shape⟩ := drains.ahead
  exact ahead_number ⟨disk, log, _, shape⟩

theorem type : (middle.icache ip).type = (s.icache ip).type := by
  obtain ⟨disk, log, addrs, rfl⟩ := drains.ahead
  rw [ahead_icache_self]

theorem dev : (middle.icache ip).dev = (s.icache ip).dev := by
  obtain ⟨disk, log, addrs, rfl⟩ := drains.ahead
  rw [ahead_icache_self]

end

section

variable (doomed : Doomed s ip) (drains : Drains s middle ip pointer)
include doomed drains

theorem super : Superblock.read (middle.blocks 1) = middle.sb := by
  have order := doomed.geometry.datastart_le
  have near : (1 : UInt32).toNat < s.sb.bmapstart.toNat := Nat.lt_of_lt_of_le (by decide) order.1
  rw [drains.far 1 (.inl near), drains.sb, doomed.super]

theorem inodes : middle.inodes = s.inodes :=
  inodes_of_far doomed.geometry drains.sb fun c near => drains.far c (.inl near)

theorem working :
    middle.working ip = update s.inodes (s.number ip) (middle.icache ip).toDinode := by
  unfold Fs.working
  rw [drains.inodes doomed]
  exact congrArg (fun number => update s.inodes number _) drains.number

theorem free (set : pointer place ≠ 0) (log : Log) :
    Drains s (middle.put (s.sb.bblock (pointer place)) (Bytes.clearBit
      (middle.blocks (s.sb.bblock (pointer place))) ((pointer place).toNat % BPB)) log) ip
      (update pointer place 0) := by
  have bounds := doomed.geometry.bblock_bounds (drains.owned.bounds set).2
  refine ⟨?_, ?_, ?_⟩
  · obtain ⟨disk, earlier, addrs, shape⟩ := drains.ahead
    refine ⟨(middle.put (s.sb.bblock (pointer place)) (Bytes.clearBit
      (middle.blocks (s.sb.bblock (pointer place))) ((pointer place).toNat % BPB)) log).disk, log,
      addrs, ?_⟩
    rw [shape]
    rfl
  · intro c outside
    rw [put_blocks, update_of_ne]
    · exact drains.far c outside
    · rintro rfl
      omega
  · rw [put_blocks]
    exact drains.owned.free doomed.geometry set

end

theorem clear (drains : Drains s middle ip pointer) (index : Fin (NDIRECT + 1)) :
    Drains s (middle.ahead ip middle.disk middle.log ((middle.icache ip).setAddr index 0)) ip
      pointer := by
  refine ⟨?_, drains.far, drains.owned⟩
  obtain ⟨disk, log, addrs, shape⟩ := drains.ahead
  refine ⟨middle.disk, middle.log, update addrs index 0, ?_⟩
  rw [shape, ahead_ahead, ahead_icache_self]
  rfl

theorem lead_eq (doomed : Doomed s ip) (first : Drains s middle ip (middle.lead ip))
    (second : Drains s next ip pointer) (same : next.icache = middle.icache) :
    next.lead ip = middle.lead ip := by
  have working : next.working ip = middle.working ip := by
    rw [first.working doomed, second.working doomed, same]
  show leads next.blocks (next.working ip) = leads middle.blocks (middle.working ip)
  rw [working]
  refine leads_of_far first.owned fun c high => ?_
  rw [second.far c (.inr high), first.far c (.inr high)]

/-- The inodes after an address of the copy has been cleared. -/
theorem working_clear (doomed : Doomed s ip) (drains : Drains s middle ip pointer)
    (index : Fin (NDIRECT + 1)) :
    (middle.ahead ip middle.disk middle.log ((middle.icache ip).setAddr index 0)).working ip =
      update (middle.working ip) (middle.number ip)
        ((middle.working ip (middle.number ip)).setAddr index 0) := by
  have cleared := (drains.clear index).working doomed
  rw [cleared, ahead_icache_self, working_self, drains.number, drains.working doomed, update_idem]

end Drains

variable {s : Fs} {ip : InodeId}

theorem drained_empty (empty : (s.icache ip).table = 0) :
    drained (s.lead ip) (s.number ip) NINDIRECT = s.lead ip := by
  funext place
  obtain ⟨i, p⟩ := place
  unfold drained
  split
  · rename_i masked
    obtain ⟨here, beyond, _⟩ := masked
    rw [show i = s.number ip from here, lead_self]
    exact (pointer_none beyond (.inl empty)).symm
  · rfl

variable {pointer : Nat × Nat → UInt32} {now : Fs}

section

variable {faults : FsFault → Prop} (tolerant : Tolerant faults)
include tolerant

variable {s middle : Fs} {ip : InodeId}

variable (doomed : Doomed s ip)
include doomed

theorem bfree_drains (drains : Drains s middle ip pointer) (set : pointer place ≠ 0) :
    Ends (fun _ next => Drains s next ip (update pointer place 0) ∧
      next.icache = middle.icache) faults (bfree ROOTDEV (pointer place)) middle := by
  have taken : inUse middle.sb middle.blocks (pointer place) = true := by
    rw [drains.sb]
    exact (drains.owned.owns.held place set).2.2
  refine bfree_ends tolerant.scarce (drains.super doomed) taken fun log => ?_
  rw [drains.sb]
  exact ⟨drains.free doomed set log, rfl⟩

theorem freeAddr_direct (drains : Drains s middle ip (middle.lead ip)) {index : Fin (NDIRECT + 1)}
    (direct : index ≠ Fin.last NDIRECT) :
    Ends (fun _ next => Drains s next ip (next.lead ip) ∧
      (next.icache ip).addrs = update (middle.icache ip).addrs index 0) faults
      (freeAddr ip index) middle := by
  have live : (middle.icache ip).type ≠ 0 := by
    rw [drains.type]
    exact doomed.live
  have place : middle.lead ip (middle.number ip, index.val) = (middle.icache ip).addrs index := by
    rw [lead_self]
    exact pointer_addr live index
  apply Ends.read
  by_cases empty : (middle.icache ip).addrs index = 0
  · rw [if_pos empty]
    refine .ret ⟨drains, ?_⟩
    rw [← empty, update_eq_self]
  rw [if_neg empty, drains.dev, doomed.dev, ← place]
  have set : middle.lead ip (middle.number ip, index.val) ≠ 0 := by
    rw [place]
    exact empty
  refine (bfree_drains tolerant doomed drains set).seq fun _ next freed => ?_
  have cleared := freed.1.clear index
  have same := Drains.lead_eq doomed drains freed.1 freed.2
  have still : (next.working ip (next.number ip)).type ≠ 0 := by
    rw [working_self, freed.2]
    exact live
  have number : next.number ip = middle.number ip := by rw [Fs.number, freed.2]
  obtain ⟨final, shape⟩ : ∃ final, final =
      next.ahead ip next.disk next.log ((next.icache ip).setAddr index 0) := ⟨_, rfl⟩
  have lead : final.lead ip =
      update (middle.lead ip) (middle.number ip, index.val) 0 := by
    show leads final.blocks (final.working ip) = _
    rw [shape, freed.1.working_clear doomed, ahead_blocks, leads_set_addr still direct, number]
    exact congrArg (update · (middle.number ip, index.val) 0) same
  have holds : Drains s final ip (final.lead ip) ∧
      (final.icache ip).addrs = update (middle.icache ip).addrs index 0 := by
    rw [lead, shape]
    refine ⟨cleared, ?_⟩
    rw [ahead_icache_self, freed.2]
    rfl
  rw [shape] at holds
  exact holds

theorem freeDirects_ends :
    Ends (fun _ next => Drains s next ip (next.lead ip) ∧
      ∀ index : Fin NDIRECT, (next.icache ip).addrs index.castSucc = 0) faults
      ((List.finRange NDIRECT).forM fun index => freeAddr ip index.castSucc) s := by
  refine (Ends.loop (fun rest next => Drains s next ip (next.lead ip) ∧
    ∀ index : Fin NDIRECT, index ∉ rest → (next.icache ip).addrs index.castSucc = 0)
    ⟨Drains.refl doomed, fun index missing => absurd (List.mem_finRange index) missing⟩ ?_).imp
    fun _ next done => ⟨done.1, fun index => done.2 index List.not_mem_nil⟩
  rintro first rest middle ⟨drains, zero⟩
  refine (freeAddr_direct tolerant doomed drains (Fin.castSucc_ne_last first)).imp ?_
  rintro _ next ⟨drained, addrs⟩
  refine ⟨drained, fun index missing => ?_⟩
  rw [addrs]
  by_cases same : index = first
  · rw [same, update_self]
  · rw [update_of_ne fun equal => same (Fin.castSucc_injective _ equal)]
    exact zero index fun member => (List.mem_cons.mp member).elim same missing

variable (drains : Drains s middle ip (middle.lead ip))
include drains

theorem freeWord_ends {count : Nat}
    (drainsNow : Drains s next ip (drained (middle.lead ip) (middle.number ip) count))
    (same : next.icache = middle.icache) (table : (middle.icache ip).table ≠ 0)
    {rest : List Nat} (following : rest = List.range' (count + 1) rest.length)
    (total : count + (rest.length + 1) = NINDIRECT) :
    Ends (fun _ final => ∃ later, rest = List.range' later rest.length ∧
      later + rest.length = NINDIRECT ∧
      Drains s final ip (drained (middle.lead ip) (middle.number ip) later) ∧
      final.icache = middle.icache) faults
      (freeWord ROOTDEV (middle.blocks (middle.icache ip).table) count)
      next := by
  have live : (middle.icache ip).type ≠ 0 := by
    rw [drains.type]
    exact doomed.live
  have unmasked : drained (middle.lead ip) (middle.number ip) count
      (middle.number ip, NDIRECT + 1 + count) =
      middle.lead ip (middle.number ip, NDIRECT + 1 + count) := if_neg (by omega)
  have place : drained (middle.lead ip) (middle.number ip) count
      (middle.number ip, NDIRECT + 1 + count) =
      word (middle.blocks (middle.icache ip).table) count := by
    rw [unmasked, lead_self]
    exact pointer_word live table (by omega)
  unfold freeWord
  by_cases empty : word (middle.blocks (middle.icache ip).table) count = 0
  · rw [if_pos empty]
    refine .ret ⟨count + 1, following, by omega, ?_, same⟩
    rw [drained_succ, ← empty, ← place, update_eq_self]
    exact drainsNow
  rw [if_neg empty, ← place]
  have set : drained (middle.lead ip) (middle.number ip) count
      (middle.number ip, NDIRECT + 1 + count) ≠ 0 := by
    rw [place]
    exact empty
  refine (bfree_drains tolerant doomed drainsNow set).imp fun _ final freed => ?_
  refine ⟨count + 1, following, by omega, ?_, freed.2.trans same⟩
  rw [drained_succ]
  exact freed.1

theorem freeTable_ends :
    Ends (fun _ next => Drains s next ip (drained (middle.lead ip) (middle.number ip) NINDIRECT) ∧
      next.icache = middle.icache) faults (freeTable ip) middle := by
  apply Ends.read
  by_cases empty : (middle.icache ip).table = 0
  · rw [if_pos empty]
    rw [drained_empty empty]
    exact .ret ⟨drains, rfl⟩
  rw [if_neg empty, drains.dev, doomed.dev]
  apply Ends.read
  refine (Ends.loop (fun rest next => ∃ count, rest = List.range' count rest.length ∧
    count + rest.length = NINDIRECT ∧
    Drains s next ip (drained (middle.lead ip) (middle.number ip) count) ∧
    next.icache = middle.icache) ⟨0, ?_, ?_, ?_, rfl⟩ ?_).imp ?_
  · rw [List.length_range, List.range_eq_range']
  · rw [List.length_range, Nat.zero_add]
  · rw [drained_zero]
    exact drains
  · rintro first rest next ⟨count, sequence, total, drainsNow, same⟩
    rw [List.length_cons, List.range'_succ] at sequence
    obtain ⟨rfl, following⟩ := List.cons.inj sequence
    rw [List.length_cons] at total
    exact freeWord_ends tolerant doomed drains drainsNow same empty following total
  · rintro _ next ⟨count, _, total, drainsNow, same⟩
    rw [List.length_nil, Nat.add_zero] at total
    rw [total] at drainsNow
    exact ⟨drainsNow, same⟩

theorem freeAddr_table
    (drainsNow : Drains s now ip (drained (middle.lead ip) (middle.number ip) NINDIRECT))
    (same : now.icache = middle.icache) :
    Ends (fun _ final => Drains s final ip (final.lead ip) ∧ (final.icache ip).addrs =
      update (middle.icache ip).addrs (Fin.last NDIRECT) 0) faults
      (freeAddr ip (Fin.last NDIRECT)) now := by
  have live : (middle.icache ip).type ≠ 0 := by
    rw [drains.type]
    exact doomed.live
  have unmasked : drained (middle.lead ip) (middle.number ip) NINDIRECT
      (middle.number ip, NDIRECT) = middle.lead ip (middle.number ip, NDIRECT) := if_neg (by omega)
  have place : drained (middle.lead ip) (middle.number ip) NINDIRECT (middle.number ip, NDIRECT) =
      (middle.icache ip).addrs (Fin.last NDIRECT) := by
    rw [unmasked, lead_self]
    exact pointer_table live
  have stays := Drains.lead_eq doomed drains drainsNow same
  apply Ends.read
  rw [same]
  by_cases empty : (middle.icache ip).table = 0
  · rw [if_pos empty]
    refine .ret ⟨?_, ?_⟩
    · rw [stays, ← drained_empty empty]
      exact drainsNow
    · rw [same, ← empty, update_eq_self]
  rw [if_neg empty, drains.dev, doomed.dev, ← place]
  have set : drained (middle.lead ip) (middle.number ip) NINDIRECT
      (middle.number ip, NDIRECT) ≠ 0 := by
    rw [place]
    exact empty
  refine (bfree_drains tolerant doomed drainsNow set).seq fun _ next freed => ?_
  have cache : next.icache = middle.icache := freed.2.trans same
  have kept := Drains.lead_eq doomed drains freed.1 cache
  have cleared := freed.1.clear (Fin.last NDIRECT)
  have still : (next.working ip (next.number ip)).type ≠ 0 := by
    rw [working_self, cache]
    exact live
  have number : next.number ip = middle.number ip := by rw [Fs.number, cache]
  obtain ⟨final, shape⟩ : ∃ final, final = next.ahead ip next.disk next.log
      ((next.icache ip).setAddr (Fin.last NDIRECT) 0) := ⟨_, rfl⟩
  have lead : final.lead ip = update
      (drained (middle.lead ip) (middle.number ip) NINDIRECT) (middle.number ip, NDIRECT) 0 := by
    show leads final.blocks (final.working ip) = _
    rw [shape, freed.1.working_clear doomed, ahead_blocks, leads_clear_table still, number]
    exact congrArg (fun pointer => update
      (drained pointer (middle.number ip) NINDIRECT) (middle.number ip, NDIRECT) 0) kept
  have holds : Drains s final ip (final.lead ip) ∧ (final.icache ip).addrs =
      update (middle.icache ip).addrs (Fin.last NDIRECT) 0 := by
    rw [lead, shape]
    refine ⟨cleared, ?_⟩
    rw [ahead_icache_self, cache]
    rfl
  rw [shape] at holds
  exact holds

end

theorem Drains.files_other (volume : Volume s) (drains : Drains s now ip pointer) :
    RtXv6.files now.blocks s.inodes = s.files :=
  files_of_far volume.owned volume.full fun c high => drains.far c (.inr high)

theorem Drains.cleared (drains : Drains s now ip pointer)
    (zero : (now.icache ip).addrs = fun _ => 0) :
    now.ahead ip now.disk now.log { (now.icache ip).toDinode with size := 0 } =
      s.ahead ip now.disk now.log (s.icache ip).emptied := by
  obtain ⟨disk, log, addrs, ahead⟩ := drains.ahead
  have same : addrs = fun _ => 0 := by
    rw [← zero, ahead, ahead_icache_self]
  rw [ahead, ahead_ahead, ahead_icache_self, same]
  rfl

theorem Drains.draft (volume : Volume s) (doomed : Doomed s ip)
    (drains : Drains s now ip (now.lead ip)) (zero : (now.icache ip).addrs = fun _ => 0) :
    Draft (s.ahead ip now.disk now.log (s.icache ip).emptied) ip ∧
      (s.ahead ip now.disk now.log (s.icache ip).emptied).working ip =
        update s.inodes (s.number ip) (s.icache ip).emptied := by
  obtain ⟨final, shape⟩ : ∃ final, final = s.ahead ip now.disk now.log (s.icache ip).emptied :=
    ⟨_, rfl⟩
  have sb : final.sb = s.sb := by rw [shape, ahead_sb]
  have blocks : final.blocks = now.blocks := by rw [shape]; rfl
  have number : final.number ip = s.number ip := by rw [Fs.number, shape, ahead_icache_self]
  have inodes : final.inodes = s.inodes := by
    rw [← drains.inodes doomed, Fs.inodes, sb, blocks, ← drains.sb]
    rfl
  have working : final.working ip =
      update s.inodes (s.number ip) (s.icache ip).emptied := by
    unfold Fs.working
    rw [inodes, shape, ahead_icache_self]
  have copy : (now.icache ip).toDinode = { (s.icache ip).emptied with size := (s.icache ip).size } := by
    obtain ⟨disk, log, addrs, ahead⟩ := drains.ahead
    have same : addrs = fun _ => 0 := by
      rw [← zero, ahead, ahead_icache_self]
    rw [ahead, ahead_icache_self, same]
    rfl
  have lead : final.lead ip = now.lead ip := by
    funext place
    obtain ⟨i, p⟩ := place
    show leads final.blocks (final.working ip) (i, p) = leads now.blocks (now.working ip) (i, p)
    rw [working, blocks, drains.working doomed, leads_update_inode, leads_update_inode, copy]
    rfl
  rw [← shape]
  refine ⟨⟨by rw [sb]; exact doomed.geometry, ?_, ?_, by rw [sb, number]; exact doomed.inside, ?_, ?_⟩,
    working⟩
  · rw [blocks, drains.super doomed, drains.sb, sb]
  · rw [shape, ahead_icache_self]
    exact doomed.dev
  · show Owned final.sb final.blocks (final.lead ip)
    rw [sb, blocks, lead]
    exact drains.owned
  · intro i k live inside
    by_cases own : i = s.number ip
    · rw [own, working, update_self] at inside
      exact absurd inside (Nat.not_lt_zero _)
    rw [working, update_of_ne own] at live inside ⊢
    have place : (s.inodes i).pointer now.blocks (slot k) =
        (s.inodes i).pointer s.blocks (slot k) :=
      congrFun (leads_of_far volume.owned fun c high => drains.far c (.inr high)) (i, slot k)
    rw [blocks, place]
    exact volume.full i k live inside

theorem itrunc_ends {faults : FsFault → Prop} (tolerant : Tolerant faults) (volume : Volume s)
    (fresh : Fresh s ip) :
    Ends (fun _ next => Rewrites s next ip (s.icache ip).emptied) faults (itrunc ip) s := by
  have doomed : Doomed s ip := by
    refine ⟨volume.geometry, volume.super, fresh.dev, fresh.inside, fresh.live, ?_⟩
    show Owned s.sb s.blocks (leads s.blocks (s.working ip))
    rw [fresh.working]
    exact volume.owned
  refine (freeDirects_ends tolerant doomed).seq fun _ first direct => ?_
  refine (freeTable_ends tolerant doomed direct.1).seq fun _ second table => ?_
  refine (freeAddr_table tolerant doomed direct.1 table.1 table.2).seq fun _ third last => ?_
  have zero : (third.icache ip).addrs = fun _ => 0 := by
    rw [last.2]
    funext index
    by_cases isLast : index = Fin.last NDIRECT
    · rw [isLast, update_self]
    · rw [update_of_ne isLast, ← Fin.castSucc_castPred index isLast]
      exact direct.2 _
  obtain ⟨draft, working⟩ := last.1.draft volume doomed zero
  have state := last.1.cleared zero
  have store : Ends (fun _ next => Rewrites s next ip (s.icache ip).emptied) faults (iupdate ip)
      (third.ahead ip third.disk third.log { (third.icache ip).toDinode with size := 0 }) := by
    rw [state]
    refine (iupdate_ends tolerant.scarce draft).imp fun _ next stored => ?_
    refine ⟨stored.volume, stored.sb, stored.icache, stored.inodes.trans working, ?_⟩
    intro i other
    rw [stored.files, working]
    show (update s.inodes (s.number ip) _ i).file third.blocks = s.files i
    rw [update_of_ne other]
    exact congrFun (last.1.files_other volume) i
  exact store

end RtXv6.Fs
