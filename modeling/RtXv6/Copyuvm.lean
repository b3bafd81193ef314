import RtXv6.KernelMap
import RtXv6.PageGrowth

/-!
# Copying an address space

`fork` copies the pages of the parent one by one into a directory that `setupkvm` has made. What
the copy takes comes off the free list, so nothing that was in use before is written. When a
page cannot be had, `freevm` gives back the directory, its page tables and the pages mapped in
it. It does not find the page for which no page table could be made, and it is not called at
all when `setupkvm` fails.
-/

namespace RtXv6.Vm

open Stateful
open List (length_append length_cons mem_append mem_append_right mem_cons nodup_range')

variable {image : Image} {m : Memory} {d : Nat}

/-- Some page tables of a directory have been freed. -/
structure Shed (m next : Memory) (d : Nat) (indices : List Nat) : Prop where
  root : next.page d = m.page d
  free : next.freelist = (indices.filterMap (m.tableAt d)).reverse ++ m.freelist
  pages : ∀ frame, (∀ index ∈ indices, m.tableAt d index ≠ some frame) →
    next.page frame = m.page frame

section

variable (owned : Owned image m d) (usable : ∀ frame, m.Tree d frame → image.Usable frame)
  {now : Memory} {done : List Nat} (shed : Shed m now d done)
include owned usable shed

theorem freeTable_ends (index : Nat) :
    ∃ next, freeTable image d index now = .ok ((), next) ∧ Shed m next d (done ++ [index]) := by
  have entry : now.entryAt d index = m.entryAt d index := Memory.entryAt_congr shed.root index
  rw [freeTable, bind_run (readEntry_run _ now), entry]
  by_cases present : Present (m.entryAt d index)
  · have table : m.tableAt d index = some (pteAddr (m.entryAt d index)) := if_pos present
    have different : d ≠ pteAddr (m.entryAt d index) := fun same =>
      owned.root index (table.trans (congrArg some same.symm))
    rw [if_pos present]
    refine ⟨_, kfree_run (usable _ (.inr ⟨index, table⟩)) now, ?_, ?_, ?_⟩
    · exact (Memory.setPage_other now _ different).trans shed.root
    · rw [List.filterMap_append, List.reverse_append]
      simp only [List.filterMap_cons, table, List.filterMap_nil, List.reverse_singleton,
        List.cons_append, List.nil_append]
      exact congrArg (List.cons _) shed.free
    intro frame outside
    have other : frame ≠ pteAddr (m.entryAt d index) := by
      rintro rfl
      exact outside index (mem_append_right _ List.mem_cons_self) table
    exact (Memory.setPage_other now _ other).trans
      (shed.pages frame fun index member => outside index (List.mem_append_left _ member))
  · have table : m.tableAt d index = none := if_neg present
    rw [if_neg present]
    refine ⟨now, rfl, shed.root, ?_, ?_⟩
    · rw [List.filterMap_append]
      simp only [List.filterMap_cons, table, List.filterMap_nil, List.append_nil]
      exact shed.free
    · exact fun frame outside =>
        shed.pages frame fun index member => outside index (List.mem_append_left _ member)

theorem freeTables_end (indices : List Nat) :
    ∃ next, indices.forM (freeTable image d) now = .ok (PUnit.unit, next) ∧
      Shed m next d (done ++ indices) := by
  induction indices generalizing now done with
  | nil => exact ⟨now, rfl, by rwa [List.append_nil]⟩
  | cons index rest ih =>
    obtain ⟨middle, ran, stepped⟩ := freeTable_ends owned usable shed index
    obtain ⟨next, finished, whole⟩ := ih stepped
    rw [List.append_assoc] at whole
    refine ⟨next, ?_, whole⟩
    change (freeTable image d index >>= fun _ => rest.forM (freeTable image d)) now = _
    rw [bind_run ran]
    exact finished

end

/-- A page that `freevm` gives back: the directory, a page table, or a page mapped below the
kernel. -/
def Memory.Frees (m : Memory) (d frame : Nat) : Prop :=
  m.Tree d frame ∨ ∃ v, v < USERPAGES ∧ Present (m.pteAt d v) ∧ m.frameAt d v = frame

/-- `freevm` gives back every page of an address space, and writes no other. -/
theorem freevm_ends (owned : Owned image m d) (personal : Private image m d (· < USERPAGES))
    (usable : ∀ frame, m.Tree d frame → image.Usable frame) :
    ∃ next, freevm image d m = .ok ((), next) ∧
      (∀ frame, frame ∈ next.freelist ↔ frame ∈ m.freelist ∨ m.Frees d frame) ∧
      ∀ frame, ¬ m.Frees d frame → next.page frame = m.page frame := by
  have range : ∀ v, pageCeil 0 ≤ v ∧ v < pageCeil KERNBASE → v < USERPAGES := fun v both => both.2
  obtain ⟨middle, pages, emptied, released, _, freed⟩ := deallocuvm_ends owned (Nat.le_refl _)
    (by decide : 0 < KERNBASE) (personal.narrow range)
  have mapped : ∀ v, v ∈ pages ↔ v < USERPAGES ∧ Present (m.pteAt d v) := by
    intro v
    rw [freed]
    refine ⟨fun both => ⟨both.1, both.2.2⟩, fun both => ⟨both.1, ⟨Nat.zero_le _, ?_, ?_⟩, both.2⟩⟩
    · obtain ⟨pgtab, found⟩ := Memory.exists_table both.2
      rw [found]
      exact Option.some_ne_none _
    · exact .inr (.inl (Nat.zero_le _))
  have trees := released.tree
  have start : Shed middle middle d [] := ⟨rfl, rfl, fun _ _ => rfl⟩
  obtain ⟨last, shedding, shed⟩ := freeTables_end released.owned
    (fun frame tree => usable frame ((trees frame).mp tree)) start (List.range NPDENTRIES)
  rw [List.nil_append] at shed
  refine ⟨last.release d, ?_, ?_, ?_⟩
  · rw [freevm, bind_run emptied, bind_run shedding]
    exact kfree_run (usable d (.inl rfl)) last
  · intro frame
    have tables : (∃ index, index ∈ List.range NPDENTRIES ∧ middle.tableAt d index = some frame) ↔
        ∃ index, m.tableAt d index = some frame := by
      constructor
      · rintro ⟨index, _, found⟩
        exact ⟨index, (released.tables index).symm.trans found⟩
      · rintro ⟨index, found⟩
        exact ⟨index, List.mem_range.mpr (Memory.tableAt_lt found),
          (released.tables index).trans found⟩
    have users : (∃ v, v ∈ pages ∧ m.frameAt d v = frame) ↔
        ∃ v, v < USERPAGES ∧ Present (m.pteAt d v) ∧ m.frameAt d v = frame := by
      simp only [mapped, and_assoc]
    rw [Memory.release, mem_cons, shed.free, mem_append, List.mem_reverse,
      List.mem_filterMap, tables, released.free, mem_append, List.mem_reverse, List.mem_map,
      users, Memory.Frees, Memory.Tree]
    constructor
    · rintro (root | table | user | free)
      · exact .inr (.inl (.inl root))
      · exact .inr (.inl (.inr table))
      · exact .inr (.inr user)
      · exact .inl free
    · rintro (free | (root | table) | user)
      · exact .inr (.inr (.inr free))
      · exact .inl root
      · exact .inr (.inl table)
      · exact .inr (.inr (.inl user))
  · intro frame kept
    have notTree : ¬ m.Tree d frame := fun tree => kept (.inl tree)
    rw [Memory.release, Memory.setPage_other _ _ (fun same => notTree (.inl same)), shed.pages,
      released.kept frame notTree]
    · intro v member same
      obtain ⟨user, present⟩ := (mapped v).mp member
      exact kept (.inr ⟨v, user, present, same⟩)
    · intro index _ found
      exact notTree (.inr ⟨index, (released.tables index).symm.trans found⟩)

theorem length_le_of_lt {frames : List Nat} {bound : Nat} (nodup : frames.Nodup)
    (below : ∀ frame ∈ frames, frame < bound) : frames.length ≤ bound := by
  have subset : frames ⊆ List.range bound := fun frame member =>
    List.mem_range.mpr (below frame member)
  have length := (nodup.subperm subset).length_le
  rwa [List.length_range] at length

theorem or_present {flags : Nat} (odd : flags % 2 = 1) : flags ||| PTE_P = flags := by
  refine Nat.eq_of_testBit_eq fun bit => ?_
  rw [Nat.testBit_or]
  cases bit with
  | zero =>
    rw [Nat.testBit_zero, odd]
    rfl
  | succ bit =>
    have higher : PTE_P.testBit (bit + 1) = false := by
      rw [Nat.testBit_succ]
      exact Nat.zero_testBit bit
    rw [higher, Bool.or_false]

/-- The parent's pages, as `copyuvm` copies them. -/
abbrev Copies (image : Image) (m start next : Memory) (pgdir d count : Nat) (taken : List Nat) :
    Prop :=
  Grown image start next d 0 count (fun v => pteFlags (m.pteAt pgdir v))
    (fun v => m.page (m.frameAt pgdir v)) taken

variable {flags : Nat → Nat} {contents : Nat → Page} {next : Memory} {sz v frame fuel : Nat}

section

variable {start now : Memory} {pgdir count : Nat} {tables taken : List Nat}

section

variable (space : KernelSpace image m start d tables)
include space

theorem KernelSpace.unchanged (extended : Extends start now d taken) (used : frame ∉ m.freelist) :
    now.page frame = m.page frame := by
  have split := space.free
  rw [extended.free] at split
  rw [split] at used
  simp only [mem_append, mem_cons, not_or] at used
  have outside : frame ∉ d :: tables := by
    rw [mem_cons, not_or]
    exact used.1
  rw [extended.pages frame (fun tree => outside ((space.tree frame).mp tree)) used.2.1,
    space.pages frame outside]

theorem KernelSpace.personal (grown : Grown image start now d 0 count flags contents taken) :
    Private image now d (· < USERPAGES) :=
  (grown.personal space.owned fun v _ user => space.user v user).narrow fun v user =>
    ⟨Nat.zero_le v, user⟩

/-- `freevm` at the end of a copy that failed gives back everything that is in the directory. -/
theorem KernelSpace.freed (usable : ∀ frame ∈ m.freelist, image.Usable frame)
    (grown : Grown image start now d 0 count flags contents taken) (user : count ≤ USERPAGES)
    {lost : Memory} (owned : Owned image lost d)
    (same : ∀ index, lost.tableAt d index = now.tableAt d index)
    (ptes : ∀ v, lost.pteAt d v = now.pteAt d v)
    (fewer : ∀ frame ∈ lost.freelist, frame ∈ now.freelist) :
    ∃ next, freevm image d lost = .ok ((), next) ∧
      ∀ frame, frame ∈ next.freelist ↔
        frame ∈ m.freelist ∧ (frame ∈ now.freelist → frame ∈ lost.freelist) := by
  have pool : ∀ frame, frame ∈ m.freelist ↔
      start.Tree d frame ∨ frame ∈ taken ∨ frame ∈ now.freelist := fun frame => by
    rw [space.free, grown.extends_.free, mem_append, mem_append, space.tree]
  have personal := space.personal grown
  have trees : ∀ frame, lost.Tree d frame ↔ now.Tree d frame := fun frame => by
    simp only [Memory.Tree, same]
  have inTree : ∀ frame, now.Tree d frame → frame ∈ m.freelist := by
    intro frame tree
    rw [pool]
    exact (grown.extends_.fresh frame tree).imp_right .inl
  have mapped : ∀ v, Present (lost.pteAt d v) → v < USERPAGES →
      lost.frameAt d v = now.frameAt d v ∧ Present (now.pteAt d v) ∧ now.frameAt d v ∈ taken := by
    intro v present below
    rw [ptes] at present
    refine ⟨by rw [Memory.frameAt, Memory.frameAt, ptes], present, ?_⟩
    by_cases inside : v < count
    · exact (grown.inside v (Nat.zero_le v) (by omega)).2.2.1
    · rw [grown.outside v (by omega)] at present
      exact absurd present (space.user v below)
  obtain ⟨next, ran, freed, _⟩ := freevm_ends owned (personal.congr same ptes fewer)
    (fun frame tree => usable frame (inTree frame ((trees frame).mp tree)))
  refine ⟨next, ran, fun frame => ?_⟩
  rw [freed]
  constructor
  · rintro (free | tree | ⟨v, below, present, rfl⟩)
    · exact ⟨(pool frame).mpr (.inr (.inr (fewer frame free))), fun _ => free⟩
    · have tree := (trees frame).mp tree
      exact ⟨inTree frame tree, fun free => absurd tree (grown.owned.apart frame free)⟩
    · obtain ⟨frames, present, member⟩ := mapped v present below
      rw [frames]
      exact ⟨(pool _).mpr (.inr (.inl member)),
        fun free => absurd free (personal.free v below present)⟩
  · rintro ⟨member, still⟩
    rcases (pool frame).mp member with tree | new | free
    · exact .inr (.inl ((trees frame).mpr (grown.extends_.tree tree)))
    · rcases grown.accounted frame new with tree | ⟨v, low, high, rfl⟩
      · exact .inr (.inl ((trees frame).mpr tree))
      · obtain ⟨_, present, _⟩ := grown.inside v low high
        rw [← ptes] at present
        have below : v < USERPAGES := by omega
        exact .inr (.inr ⟨v, below, present, (mapped v present below).1⟩)
    · exact .inl (still free)

end

theorem walkpgdir_present (inside : v < PAGES) (present : Present (now.pteAt pgdir v)) :
    ∃ pte, walkpgdir pgdir (v * PGSIZE) false now = .ok (some pte, now) ∧
      readEntry pte now = .ok (now.pteAt pgdir v, now) := by
  obtain ⟨pgtab, found⟩ := Memory.exists_table present
  refine ⟨(pgtab, v % NPTENTRIES), ?_, ?_⟩
  · rw [walkpgdir_find, pdx_page v inside, found, ptx_page]
    rfl
  · rw [readEntry_run, Memory.pteAt_some found]

/-- `copyuvm` panics at a page that the parent does not have. -/
theorem copyLoop_absent (image : Image) (d fuel : Nat) (inside : v < PAGES)
    (more : v * PGSIZE < sz) (missing : ¬ Present (now.pteAt pgdir v)) :
    ∃ fault, copyLoop image pgdir sz d (fuel + 1) (v * PGSIZE) now = .error fault := by
  rw [copyLoop, if_pos more, bind_run (walkpgdir_find now pgdir _), pdx_page v inside, ptx_page]
  cases found : now.tableAt pgdir (v / NPTENTRIES) with
  | none => exact ⟨_, rfl⟩
  | some pgtab =>
    rw [Option.map_some]
    dsimp only
    rw [bind_run (readEntry_run _ now), ← Memory.pteAt_some found, if_neg missing]
    exact ⟨_, rfl⟩

/-- Without a free page for the contents `copyuvm` frees the copy. -/
theorem copyLoop_refuses (inside : v < PAGES) (more : v * PGSIZE < sz)
    (present : Present (now.pteAt pgdir v)) (empty : now.freelist = [])
    (freed : freevm image d now = .ok ((), next)) :
    copyLoop image pgdir sz d (fuel + 1) (v * PGSIZE) now = .ok (none, next) := by
  obtain ⟨pte, walked, found⟩ := walkpgdir_present inside present
  rw [copyLoop, if_pos more, bind_run walked]
  dsimp only
  rw [bind_run found, if_pos present, bind_run (kalloc_none empty)]
  dsimp only
  rw [bind_run freed]
  rfl

theorem copyLoop_maps {rest : List Nat} {result : Int} (inside : v < PAGES)
    (more : v * PGSIZE < sz) (present : Present (now.pteAt pgdir v))
    (first : now.freelist = frame :: rest)
    (mapped : mappages d (v * PGSIZE) PGSIZE (frame * PGSIZE) (pteFlags (now.pteAt pgdir v))
      ((now.drop rest).setPage frame (now.page (now.frameAt pgdir v))) = .ok (result, next)) :
    copyLoop image pgdir sz d (fuel + 1) (v * PGSIZE) now =
      (if result < 0 then freevm image d >>= fun _ => pure none
      else copyLoop image pgdir sz d fuel (uint (v * PGSIZE + PGSIZE))) next := by
  obtain ⟨pte, walked, found⟩ := walkpgdir_present inside present
  rw [copyLoop, if_pos more, bind_run walked]
  dsimp only
  rw [bind_run found, if_pos present, bind_run (kalloc_some first)]
  dsimp only
  rw [get_bind, bind_run (writePage_run _ _ _)]
  exact bind_run mapped

end

/-- How the loop of `copyuvm` ends: with a copy of every page, without one because no page was
free for its contents, with one lost because none was free for its page table, or in a panic
at a page that the parent does not have. -/
inductive CopyEnd (image : Image) (m start : Memory) (pgdir d stop : Nat) :
    Except VmFault (Option Nat × Memory) → Prop
  | copied (next : Memory) (taken : List Nat) (copies : Copies image m start next pgdir d stop taken) :
      CopyEnd image m start pgdir d stop (.ok (some d, next))
  | refused (count : Nat) (next : Memory) (before : count < stop)
      (free : start.freelist.length = start.demand d 0 count)
      (restored : ∀ frame, frame ∈ next.freelist ↔ frame ∈ m.freelist) :
      CopyEnd image m start pgdir d stop (.ok (none, next))
  | leaked (count : Nat) (next : Memory) (before : count < stop)
      (whole : ∀ v, v ≤ count → Present (m.pteAt pgdir v)) (needs : start.NeedsTable d 0 count)
      (free : start.freelist.length = start.demand d 0 count + 1)
      (lost : ∃ frame ∈ m.freelist, frame ∉ next.freelist) :
      CopyEnd image m start pgdir d stop (.ok (none, next))
  | absent (count : Nat) (fault : VmFault) (before : count < stop)
      (missing : ¬ Present (m.pteAt pgdir count))
      (enough : start.demand d 0 count ≤ start.freelist.length) :
      CopyEnd image m start pgdir d stop (.error fault)

section

variable {start now : Memory} {pgdir count : Nat} {tables taken : List Nat}

theorem KernelSpace.count_le (space : KernelSpace image m start d tables)
    (grown : Grown image start now d 0 count flags contents taken) : count ≤ 57344 := by
  have length : start.freelist.length ≤ 57344 :=
    length_le_of_lt space.owned.nodup fun frame member => (space.owned.usable frame member).lt
  have pages := le_demand start d 0 count
  rw [grown.extends_.free, length_append, grown.count] at length
  omega

/-- The loop of `copyuvm` when no page is free for the page table of a copy. -/
theorem copyLoop_starves (fuel : Nat) {contents : Page} {pages : Nat → Page}
    (space : KernelSpace image m start d tables)
    (usable : ∀ frame ∈ m.freelist, image.Usable frame)
    (grown : Grown image start now d 0 count flags pages taken) (inside : count < PAGES)
    (more : count * PGSIZE < sz) (present : Present (now.pteAt pgdir count))
    (first : now.freelist = [frame]) (same : contents = now.page (now.frameAt pgdir count))
    (mapped : mappages d (count * PGSIZE) PGSIZE (frame * PGSIZE) (pteFlags (now.pteAt pgdir count))
      ((now.drop []).setPage frame contents) = .ok (-1, (now.drop []).setPage frame contents)) :
    ∃ next, copyLoop image pgdir sz d (fuel + 1) (count * PGSIZE) now = .ok (none, next) ∧
      ∃ frame ∈ m.freelist, frame ∉ next.freelist := by
  have member : frame ∈ now.freelist := first ▸ List.mem_cons_self
  have outside := grown.owned.apart frame member
  have user : count ≤ USERPAGES := by
    have := space.count_le grown
    simp only [USERPAGES]
    omega
  obtain ⟨next, freed, free⟩ := space.freed usable grown user
    ((grown.owned.drop first).setPage outside contents)
    (Memory.tableAt_setPage (m := now.drop []) outside contents)
    (Memory.pteAt_setPage (m := now.drop []) outside contents)
    (fun _ none => absurd none List.not_mem_nil)
  refine ⟨next, ?_, frame, ?_, ?_⟩
  · rw [copyLoop_maps inside more present first (same ▸ mapped), if_pos (by decide),
      bind_run (same ▸ freed)]
    rfl
  · rw [space.free, grown.extends_.free]
    exact mem_append_right _ (mem_append_right _ member)
  · intro back
    exact absurd (((free frame).mp back).2 member) List.not_mem_nil

/-- The loop of `copyuvm` from a page on, with the pages before it copied. -/
theorem copyLoop_ends (fuel : Nat) (space : KernelSpace image m start d tables)
    (owned : Owned image m pgdir)
    (used : ∀ v, v < pageCeil sz → Present (m.pteAt pgdir v) → m.frameAt pgdir v ∉ m.freelist)
    (copies : Copies image m start now pgdir d count taken) (within : count ≤ pageCeil sz)
    (whole : ∀ v, v < count → Present (m.pteAt pgdir v)) (enough : 57344 < count + fuel) :
    CopyEnd image m start pgdir d (pageCeil sz)
      (copyLoop image pgdir sz d fuel (count * PGSIZE) now) := by
  induction fuel generalizing now count taken with
  | zero =>
    have bound := space.count_le copies
    omega
  | succ fuel ih =>
    have bound := space.count_le copies
    have length : start.freelist.length = start.demand d 0 count + now.freelist.length := by
      rw [copies.extends_.free, length_append, copies.count]
    have entries : ∀ v, now.pteAt pgdir v = m.pteAt pgdir v := Memory.pteAt_congr fun frame tree =>
      space.unchanged copies.extends_ fun free => owned.apart frame free tree
    have frames : ∀ v, now.frameAt pgdir v = m.frameAt pgdir v := fun v =>
      congrArg pteAddr (entries v)
    have inside : count < PAGES := by
      simp only [PAGES]
      omega
    by_cases more : count < pageCeil sz
    · have below := (page_lt_iff count sz).mpr more
      by_cases present : Present (m.pteAt pgdir count)
      · have here : Present (now.pteAt pgdir count) := by rwa [entries]
        have upTo : ∀ v, v < count + 1 → Present (m.pteAt pgdir v) := by
          intro v before
          rcases Nat.lt_succ_iff_lt_or_eq.mp before with less | same
          · exact whole v less
          · exact same ▸ present
        have contents : now.page (now.frameAt pgdir count) = m.page (m.frameAt pgdir count) := by
          rw [frames]
          exact space.unchanged copies.extends_ (used count more present)
        have odd : pteFlags (m.pteAt pgdir count) % 2 = 1 := by
          rw [present_iff] at present
          simp only [pteFlags, PGSIZE]
          omega
        have small : pteFlags (m.pteAt pgdir count) < PGSIZE := Nat.mod_lt _ (by decide)
        cases first : now.freelist with
        | nil =>
          have user : count ≤ USERPAGES := by
            simp only [USERPAGES]
            omega
          obtain ⟨next, freed, free⟩ := space.freed owned.usable copies user copies.owned
            (fun _ => rfl) (fun _ => rfl) (fun _ member => member)
          rw [copyLoop_refuses inside below here first freed]
          refine .refused count next more ?_ fun frame => ?_
          · rw [length, first]
            rfl
          · rw [free]
            exact and_iff_left id
        | cons frame rest =>
          have absent : ¬ Present (now.pteAt d count) := by
            rw [copies.outside count (by omega)]
            exact space.user count (by simp only [USERPAGES]; omega)
          rcases place copies.owned (m.page (m.frameAt pgdir count)) first inside absent small with
            ⟨missing, last, mapped⟩ | ⟨next, tables, placed, mapped⟩
          · subst last
            rw [← entries] at mapped
            obtain ⟨next, ran, lost⟩ := copyLoop_starves fuel space owned.usable copies
              inside below here first contents.symm mapped
            rw [ran]
            refine .leaked count next more (fun v before => upTo v (by omega)) ?_ ?_ lost
            · have needs := copies.missing_iff.mp (by rwa [Nat.zero_add])
              rwa [Nat.zero_add] at needs
            · rw [length, first]
              rfl
          · rw [← entries, ← contents] at mapped
            rw [or_present odd] at placed
            have step : uint (count * PGSIZE + PGSIZE) = (count + 1) * PGSIZE := by
              simp only [uint, PGSIZE]
              omega
            rw [copyLoop_maps inside below here first mapped, if_neg (by decide), step]
            have grown : Copies image m start next pgdir d (count + 1) (taken ++ frame :: tables) :=
              copies.step (by simpa only [Nat.zero_add] using placed)
                (by simpa only [Nat.zero_add] using odd) (by simpa only [Nat.zero_add] using small)
            exact ih grown more upTo (by omega)
      · obtain ⟨fault, ran⟩ := copyLoop_absent image d fuel inside below
          (by rwa [entries] : ¬ Present (now.pteAt pgdir count))
        rw [ran]
        exact .absent count fault more present (by omega)
    · have all : count = pageCeil sz := by omega
      have past : ¬ count * PGSIZE < sz := by
        rw [page_lt_iff]
        exact more
      rw [copyLoop, if_neg past]
      exact .copied now taken (all ▸ copies)

/-- A fresh directory has no page table for user memory, so each span takes one more page. -/
theorem KernelSpace.needs_iff (space : KernelSpace image m start d tables) (user : v < USERPAGES) :
    start.NeedsTable d 0 v ↔ v % NPTENTRIES = 0 := by
  have missing : start.tableAt d (v / NPTENTRIES) = none := by
    by_contra found
    have member := mem_spans.mpr found
    rw [space.spans, mem_kernelSpans] at member
    simp only [NPTENTRIES, USERPAGES] at member user
    omega
  rw [Memory.NeedsTable]
  constructor
  · rintro ⟨_, rfl | first⟩
    · rfl
    · exact first
  · exact fun first => ⟨missing, .inr first⟩

theorem KernelSpace.demand_eq (space : KernelSpace image m start d tables)
    (user : count ≤ USERPAGES) : start.demand d 0 count = count + (count + 1023) / 1024 := by
  induction count with
  | zero => rfl
  | succ count ih =>
    rw [Memory.demand, ih (by omega), Nat.zero_add]
    simp only [space.needs_iff (v := count) user, NPTENTRIES]
    split <;> omega

end

variable {pgdir : Nat}

theorem copyuvm_ends (sz : Nat) (owned : Owned image m pgdir)
    (used : ∀ v, v < pageCeil sz → Present (m.pteAt pgdir v) → m.frameAt pgdir v ∉ m.freelist) :
    (m.freelist = [] ∧ copyuvm image pgdir sz m = .ok (none, m)) ∨
      (0 < m.freelist.length ∧ m.freelist.length < 65 ∧
        ∃ next, copyuvm image pgdir sz m = .ok (none, next) ∧ next.freelist = []) ∨
      (65 ≤ m.freelist.length ∧ ∃ d start tables, KernelSpace image m start d tables ∧
        CopyEnd image m start pgdir d (pageCeil sz) (copyuvm image pgdir sz m)) := by
  rcases setupkvm_ends owned.nodup owned.usable with
    ⟨empty, ran⟩ | ⟨some_, few, next, ran, none⟩ | ⟨enough, d, start, tables, ran, space⟩
  · refine .inl ⟨empty, ?_⟩
    rw [copyuvm, bind_run ran]
    rfl
  · refine .inr (.inl ⟨some_, few, next, ?_, none⟩)
    rw [copyuvm, bind_run ran]
    rfl
  · refine .inr (.inr ⟨enough, d, start, tables, space, ?_⟩)
    rw [copyuvm, bind_run ran]
    have ended := copyLoop_ends (PAGES + 1) space owned used (.zero space.owned)
      (Nat.zero_le _) (fun v before => absurd before (Nat.not_lt_zero v)) (by decide)
    rwa [Nat.zero_mul] at ended

/-- The same pages are free. -/
def SameFree (m next : Memory) : Prop := ∀ frame, frame ∈ next.freelist ↔ frame ∈ m.freelist

theorem not_sameFree (some_ : 0 < m.freelist.length) (none : next.freelist = []) :
    ¬ SameFree m next := by
  intro same
  obtain ⟨frame, member⟩ := List.exists_mem_of_length_pos some_
  have free := (same frame).mpr member
  rw [none] at free
  cases free

variable {tables : List Nat} {start : Memory}

/-- A fresh directory whose free pages end at a page table: no number of copies takes them all. -/
theorem KernelSpace.gap {span : Nat} (space : KernelSpace image m start d tables)
    (free : m.freelist.length = 66 + 1025 * span) (other : Nat) :
    start.freelist.length = 1025 * span + 1 ∧
      ((other ≤ 1024 * span ∧ start.demand d 0 other ≤ 1025 * span) ∨
        (1024 * span < other ∧ 1025 * span + 2 ≤ start.demand d 0 other)) := by
  have length : start.freelist.length = 1025 * span + 1 := by
    have split := congrArg List.length space.free
    rw [length_append, length_cons, space.count] at split
    omega
  have few : start.freelist.length ≤ 57344 :=
    length_le_of_lt space.owned.nodup fun frame member => (space.owned.usable frame member).lt
  have user : 1024 * span < USERPAGES := by
    simp only [USERPAGES]
    omega
  have needs : start.NeedsTable d 0 (0 + 1024 * span) := by
    rw [Nat.zero_add, space.needs_iff user]
    exact Nat.mul_mod_right 1024 span
  have gap := demand_gap needs other
  have demand := space.demand_eq (Nat.le_of_lt user)
  exact ⟨length, by omega⟩

/-- The free pages run out just when the copy needs a page table. -/
def CopyStarves (m : Memory) (pgdir sz : Nat) : Prop :=
  ∃ span, 1024 * span < pageCeil sz ∧ (∀ v, v ≤ 1024 * span → Present (m.pteAt pgdir v)) ∧
    m.freelist.length = 66 + 1025 * span

/-- A copy that does not get the pages it has begun with leaks one exactly when it starves. -/
theorem CopyEnd.leaks_iff {outcome : Except VmFault (Option Nat × Memory)}
    (space : KernelSpace image m start d tables)
    (ended : CopyEnd image m start pgdir d (pageCeil sz) outcome) :
    (∀ next, outcome = .ok (none, next) → SameFree m next) ↔ ¬ CopyStarves m pgdir sz := by
  cases ended with
  | copied final taken copies =>
    refine iff_of_true (fun next returned => ?_) ?_
    · cases returned
    rintro ⟨span, before, _, free⟩
    have gap := space.gap free (pageCeil sz)
    have length : start.freelist.length = taken.length + final.freelist.length := by
      rw [copies.extends_.free, length_append]
    have count := copies.count
    omega
  | refused count final before exhausted restored =>
    refine iff_of_true (fun next returned => ?_) ?_
    · cases returned
      exact restored
    rintro ⟨span, _, _, free⟩
    have gap := space.gap free count
    omega
  | leaked count final before whole needs exhausted lost =>
    refine iff_of_false (fun same => ?_) (not_not_intro ?_)
    · obtain ⟨frame, member, missing⟩ := lost
      exact missing ((same final rfl frame).mpr member)
    have few : start.freelist.length ≤ 57344 :=
      length_le_of_lt space.owned.nodup fun frame member => (space.owned.usable frame member).lt
    have pages := le_demand start d 0 count
    have user : count < USERPAGES := by
      simp only [USERPAGES]
      omega
    have first := (space.needs_iff user).mp needs
    have demand := space.demand_eq (Nat.le_of_lt user)
    have split := congrArg List.length space.free
    rw [length_append, length_cons, space.count] at split
    simp only [NPTENTRIES] at first
    refine ⟨count / 1024, by omega, fun v below => whole v (by omega), by omega⟩
  | absent count fault before missing enough =>
    refine iff_of_true (fun next returned => ?_) ?_
    · cases returned
    rintro ⟨span, _, present, free⟩
    have gap := space.gap free count
    have beyond : 1024 * span < count := by
      by_contra within
      exact missing (present count (by omega))
    omega

/-- A failing `setupkvm` gives its pages back if and only if it fails at once or does not fail.
A failing `copyuvm` does if and only if, moreover, the free pages do not run out just when the
copy needs a page table: sixty-five pages go to the kernel part, and every span of four megabytes
before that one takes a page table and 1024 pages. -/
theorem construction_leaks_nothing_iff (image : Image) (m : Memory) (pgdir sz : Nat)
    (owned : Owned image m pgdir)
    (used : ∀ v, v < pageCeil sz → Present (m.pteAt pgdir v) → m.frameAt pgdir v ∉ m.freelist) :
    ((∀ next, setupkvm image m = .ok (none, next) → SameFree m next) ↔
        m.freelist.length = 0 ∨ 65 ≤ m.freelist.length) ∧
      ((∀ next, copyuvm image pgdir sz m = .ok (none, next) → SameFree m next) ↔
        m.freelist.length = 0 ∨ 65 ≤ m.freelist.length ∧ ¬ CopyStarves m pgdir sz) := by
  constructor
  · rcases setupkvm_ends owned.nodup owned.usable with
      ⟨empty, ran⟩ | ⟨some_, few, final, ran, none⟩ | ⟨enough, d, start, tables, ran, _⟩
    · refine iff_of_true (fun next returned => ?_) (.inl (List.length_eq_zero_iff.mpr empty))
      rw [ran] at returned
      cases returned
      exact fun _ => Iff.rfl
    · exact iff_of_false (fun same => not_sameFree some_ none (same final ran)) (by omega)
    · refine iff_of_true (fun next returned => ?_) (.inr enough)
      rw [ran] at returned
      cases returned
  · rcases copyuvm_ends sz owned used with
      ⟨empty, ran⟩ | ⟨some_, few, final, ran, none⟩ | ⟨enough, d, start, tables, space, ended⟩
    · refine iff_of_true (fun next returned => ?_) (.inl (List.length_eq_zero_iff.mpr empty))
      rw [ran] at returned
      cases returned
      exact fun _ => Iff.rfl
    · exact iff_of_false (fun same => not_sameFree some_ none (same final ran)) (by omega)
    · rw [ended.leaks_iff space]
      constructor
      · exact fun fed => .inr ⟨enough, fed⟩
      · rintro (empty | both)
        · omega
        · exact both.2

/-- A parent with one page, at virtual address zero. -/
def parent (free : List Nat) : Memory := (single 0).drop free

variable {free : List Nat}

theorem parent_owned (nodup : free.Nodup) (usable : ∀ frame ∈ free, kernelImage.Usable frame)
    (apart : ∀ frame ∈ free, 1002 < frame) : Owned kernelImage (parent free) 1000 := by
  obtain ⟨owned, tree, _⟩ := single_owned (by decide : 0 < PAGES)
  refine ⟨nodup, usable, ?_, owned.root, owned.injective⟩
  intro frame member inTree
  have above := apart frame member
  rcases (tree frame).mp inTree with root | table <;> omega

theorem parent_present (free : List Nat) (v : Nat) : Present ((parent free).pteAt 1000 v) ↔ v = 0 :=
  single_present (by decide : 0 < PAGES) v

theorem parent_used (apart : ∀ frame ∈ free, 1002 < frame) (v : Nat)
    (present : Present ((parent free).pteAt 1000 v)) : (parent free).frameAt 1000 v ∉ free := by
  have here : (parent free).frameAt 1000 v = 1002 := by
    have entry := (single_owned (by decide : 0 < PAGES)).2.2 v
    rw [if_pos ((parent_present free v).mp present)] at entry
    exact (congrArg pteAddr entry).trans (by decide)
  rw [here]
  exact fun member => absurd (apart 1002 member) (by decide)

/-- As many free pages as a directory with the kernel part takes: the copy fails at its first
page and gives them all back. -/
theorem construction_leaks_nothing_sixtyFive :
    (∀ next, setupkvm kernelImage (parent (List.range' 2000 65)) = .ok (none, next) →
        SameFree (parent (List.range' 2000 65)) next) ∧
      ∀ next, copyuvm kernelImage 1000 PGSIZE (parent (List.range' 2000 65)) = .ok (none, next) →
        SameFree (parent (List.range' 2000 65)) next := by
  have length : (parent (List.range' 2000 65)).freelist.length = 65 := List.length_range'
  have apart : ∀ frame ∈ List.range' 2000 65, 1002 < frame := by decide
  have both := construction_leaks_nothing_iff kernelImage (parent (List.range' 2000 65)) 1000 PGSIZE
    (parent_owned nodup_range' (by decide) apart) (fun v _ => parent_used apart v)
  refine ⟨both.1.mpr (.inr (by omega)), both.2.mpr (.inr ⟨by omega, ?_⟩)⟩
  rintro ⟨span, _, _, free⟩
  omega

/-- With one free page `setupkvm` takes it for the directory and keeps it when there is none for
a page table. With sixty-six, `copyuvm` takes the last one for the contents of the first page
and keeps it when there is none for its page table. -/
theorem construction_leaks :
    (Owned kernelImage (parent [2000]) 1000 ∧
        ∃ next, setupkvm kernelImage (parent [2000]) = .ok (none, next) ∧
          ¬ SameFree (parent [2000]) next) ∧
      Owned kernelImage (parent (List.range' 2000 66)) 1000 ∧
        ∃ next, copyuvm kernelImage 1000 PGSIZE (parent (List.range' 2000 66)) = .ok (none, next) ∧
          ¬ SameFree (parent (List.range' 2000 66)) next := by
  have one : Owned kernelImage (parent [2000]) 1000 :=
    parent_owned (by decide) (by decide) (by decide)
  have apart : ∀ frame ∈ List.range' 2000 66, 1002 < frame := by decide
  have many : Owned kernelImage (parent (List.range' 2000 66)) 1000 :=
    parent_owned nodup_range' (by decide) apart
  have length : (parent (List.range' 2000 66)).freelist.length = 66 := List.length_range'
  refine ⟨⟨one, ?_⟩, many, ?_⟩
  · rcases setupkvm_ends one.nodup one.usable with ⟨empty, _⟩ | ⟨some_, _, next, ran, none⟩ | ⟨all, _⟩
    · cases empty
    · exact ⟨next, ran, not_sameFree some_ none⟩
    · exact absurd all (by decide)
  · rcases copyuvm_ends PGSIZE many (fun v _ => parent_used apart v) with
      ⟨empty, _⟩ | ⟨_, few, _⟩ | ⟨_, d, start, tables, space, ended⟩
    · rw [empty] at length
      cases length
    · omega
    · by_contra kept
      refine (ended.leaks_iff space).mp ?_ ⟨0, by decide, ?_, length⟩
      · intro next returned
        by_contra lost
        exact kept ⟨next, returned, lost⟩
      · intro v first
        rw [parent_present]
        omega

/-- A copy of an address space: the same pages with the same flags and contents, in pages that
were free, and nothing else in the range of user memory. Every page that was in use, so all
memory of the parent with its directory and page tables, is as it was. -/
structure FaithfulCopy (m next : Memory) (pgdir d stop : Nat) : Prop where
  present : ∀ v, v < stop → Present (next.pteAt d v)
  flags : ∀ v, v < stop → pteFlags (next.pteAt d v) = pteFlags (m.pteAt pgdir v)
  user : ∀ v, v < stop → (User (next.pteAt d v) ↔ User (m.pteAt pgdir v))
  contents : ∀ v, v < stop → next.page (next.frameAt d v) = m.page (m.frameAt pgdir v)
  fresh : ∀ v, v < stop → next.frameAt d v ∈ m.freelist ∧ next.frameAt d v ∉ next.freelist
  injective : ∀ v u, v < stop → u < stop → next.frameAt d v = next.frameAt d u → v = u
  others : ∀ v, stop ≤ v → v < USERPAGES → ¬ Present (next.pteAt d v)
  unchanged : ∀ frame, frame ∉ m.freelist → next.page frame = m.page frame
  parent : ∀ v, next.pteAt pgdir v = m.pteAt pgdir v

theorem user_congr {entry other : Nat} (same : pteFlags entry = pteFlags other) :
    User entry ↔ User other := by
  rw [user_iff, user_iff]
  simp only [pteFlags, PGSIZE] at same
  omega

/-- The pages that the loop of `copyuvm` has filled are a copy of the parent's. -/
theorem KernelSpace.faithful {stop : Nat} {taken : List Nat}
    (space : KernelSpace image m start d tables) (owned : Owned image m pgdir)
    (copies : Copies image m start next pgdir d stop taken) : FaithfulCopy m next pgdir d stop := by
  have inside : ∀ v, v < stop → _ := fun v before =>
    copies.inside v (Nat.zero_le v) (by omega)
  have flags : ∀ v, v < stop → pteFlags (next.pteAt d v) = pteFlags (m.pteAt pgdir v) := by
    intro v before
    rw [(inside v before).1]
    exact pteFlags_add _ _ (Nat.mod_lt _ (by decide))
  have unchanged : ∀ frame, frame ∉ m.freelist → next.page frame = m.page frame :=
    fun frame => space.unchanged copies.extends_
  refine ⟨fun v before => (inside v before).2.1, flags, fun v before => user_congr (flags v before),
    fun v before => (inside v before).2.2.2.2, ?_, ?_, ?_, unchanged, ?_⟩
  · intro v before
    have member := (inside v before).2.2.1
    refine ⟨?_, fun free => ?_⟩
    · rw [space.free, copies.extends_.free]
      exact mem_append_right _ (List.mem_append_left _ member)
    · have nodup := copies.nodup
      rw [copies.extends_.free, List.nodup_append] at nodup
      exact nodup.2.2 _ member _ free rfl
  · exact fun v u left right =>
      copies.injective v u (Nat.zero_le v) (by omega) (Nat.zero_le u) (by omega)
  · intro v beyond user
    rw [copies.outside v (by omega)]
    exact space.user v user
  · exact Memory.pteAt_congr fun frame tree => unchanged frame fun free => owned.apart frame free tree

/-- `copyuvm` of a parent that has all its pages returns, and a directory that it returns holds
a faithful copy. It returns one when there are free pages for the kernel part, for every page
and for a page table of every four megabytes. -/
theorem copyuvm_faithful (image : Image) (m : Memory) (pgdir sz : Nat) (owned : Owned image m pgdir)
    (present : ∀ v, v < pageCeil sz → Present (m.pteAt pgdir v))
    (used : ∀ v, v < pageCeil sz → m.frameAt pgdir v ∉ m.freelist) :
    ∃ result next, copyuvm image pgdir sz m = .ok (result, next) ∧
      (∀ d, result = some d → FaithfulCopy m next pgdir d (pageCeil sz)) ∧
      (65 + pageCeil sz + (pageCeil sz + 1023) / 1024 ≤ m.freelist.length → result ≠ none) := by
  rcases copyuvm_ends sz owned (fun v before _ => used v before) with
    ⟨empty, ran⟩ | ⟨_, few, next, ran, _⟩ | ⟨_, d, start, tables, space, ended⟩
  · refine ⟨none, m, ran, fun d returned => ?_, fun enough => ?_⟩
    · cases returned
    · rw [empty, List.length_nil] at enough
      omega
  · refine ⟨none, next, ran, fun d returned => ?_, fun enough => ?_⟩
    · cases returned
    · omega
  have split := congrArg List.length space.free
  rw [length_append, length_cons, space.count] at split
  have few : start.freelist.length ≤ 57344 :=
    length_le_of_lt space.owned.nodup fun frame member => (space.owned.usable frame member).lt
  have fed : 65 + pageCeil sz + (pageCeil sz + 1023) / 1024 ≤ m.freelist.length →
      start.demand d 0 (pageCeil sz) ≤ start.freelist.length := by
    intro enough
    have user : pageCeil sz ≤ USERPAGES := by
      simp only [USERPAGES]
      omega
    rw [space.demand_eq user]
    omega
  generalize copyuvm image pgdir sz m = outcome at ended ⊢
  cases ended with
  | copied next taken copies =>
    refine ⟨some d, next, rfl, fun other returned => ?_, fun _ => Option.some_ne_none d⟩
    cases returned
    exact space.faithful owned copies
  | refused count next before exhausted restored =>
    refine ⟨none, next, rfl, fun other returned => ?_, fun enough => ?_⟩
    · cases returned
    · have less := demand_lt start d 0 before
      have all := fed enough
      omega
  | leaked count next before whole needs exhausted lost =>
    refine ⟨none, next, rfl, fun other returned => ?_, fun enough => ?_⟩
    · cases returned
    · rw [← Nat.zero_add count] at needs
      have gap := demand_gap needs (pageCeil sz)
      have all := fed enough
      omega
  | absent count fault before missing enough => exact absurd (present count before) missing

/-- A parent with one page, and free pages for the kernel part, the copy and its page table. -/
theorem copyuvm_faithful_onePage :
    ∃ d next, copyuvm kernelImage 1000 PGSIZE (parent (List.range' 2000 67)) = .ok (some d, next) ∧
      FaithfulCopy (parent (List.range' 2000 67)) next 1000 d 1 := by
  have apart : ∀ frame ∈ List.range' 2000 67, 1002 < frame := by decide
  have present : ∀ v, v < pageCeil PGSIZE →
      Present ((parent (List.range' 2000 67)).pteAt 1000 v) := by
    intro v first
    exact (parent_present _ v).mpr (Nat.lt_one_iff.mp first)
  obtain ⟨result, next, ran, faithful, enough⟩ := copyuvm_faithful kernelImage
    (parent (List.range' 2000 67)) 1000 PGSIZE (parent_owned nodup_range' (by decide) apart)
    present (fun v first => parent_used apart v (present v first))
  cases result with
  | none => exact absurd rfl (enough (by decide))
  | some d => exact ⟨d, next, ran, faithful d rfl⟩

end RtXv6.Vm
