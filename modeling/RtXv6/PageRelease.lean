import Mathlib.Data.List.Nodup
import RtXv6.AddressSpaces

/-!
# User pages given back

`deallocuvm` walks a range of virtual pages upwards and frees the page behind every present
entry. Where an address has no page table it goes on a whole table further, from wherever in
the span it stood. Starting in the middle of a span without a table, it comes to the middle
of the first span that has one, and the entries of that span below are never looked at.

Which entries the loop reaches is a property of the directory at the beginning, since the loop
changes no page table's place. It frees exactly the pages it reaches.
-/

namespace RtXv6.Vm

open Stateful

variable {image : Image} {m : Memory} {d : Nat}

/-- The pages behind the present entries of a set of virtual pages belong to these alone: they
can be freed, are neither free nor tables, and no two entries name the same one. -/
structure Private (image : Image) (m : Memory) (d : Nat) (range : Nat → Prop) : Prop where
  usable : ∀ v, range v → Present (m.pteAt d v) → image.Usable (m.frameAt d v)
  free : ∀ v, range v → Present (m.pteAt d v) → m.frameAt d v ∉ m.freelist
  tree : ∀ v, range v → Present (m.pteAt d v) → ¬ m.Tree d (m.frameAt d v)
  injective : ∀ v u, range v → range u → Present (m.pteAt d v) → Present (m.pteAt d u) →
    m.frameAt d v = m.frameAt d u → v = u

variable {range : Nat → Prop}

theorem Private.narrow {part : Nat → Prop} (personal : Private image m d range)
    (within : ∀ v, part v → range v) : Private image m d part where
  usable := fun v inside => personal.usable v (within v inside)
  free := fun v inside => personal.free v (within v inside)
  tree := fun v inside => personal.tree v (within v inside)
  injective := fun v u left right => personal.injective v u (within v left) (within u right)

/-- What is private stays so when the entries stay and no page becomes free. -/
theorem Private.congr {next : Memory} (personal : Private image m d range)
    (tables : ∀ index, next.tableAt d index = m.tableAt d index)
    (ptes : ∀ v, next.pteAt d v = m.pteAt d v) (free : ∀ frame ∈ next.freelist, frame ∈ m.freelist) :
    Private image next d range := by
  have frames : ∀ v, next.frameAt d v = m.frameAt d v := fun v => by
    rw [Memory.frameAt, Memory.frameAt, ptes]
  refine ⟨?_, ?_, ?_, ?_⟩
  · simpa only [ptes, frames] using personal.usable
  · intro v within present member
    rw [ptes] at present
    exact personal.free v within present (frames v ▸ free _ member)
  · simpa only [ptes, frames, Memory.Tree, tables] using personal.tree
  · simpa only [ptes, frames] using personal.injective

/-- The entries of some virtual pages have been cleared and the pages behind them freed. -/
structure Released (image : Image) (m next : Memory) (d : Nat) (pages : List Nat) : Prop where
  free : next.freelist = (pages.map (m.frameAt d)).reverse ++ m.freelist
  tables : ∀ index, next.tableAt d index = m.tableAt d index
  ptes : ∀ u, next.pteAt d u = if u ∈ pages then 0 else m.pteAt d u
  kept : ∀ frame, ¬ m.Tree d frame → (∀ v ∈ pages, m.frameAt d v ≠ frame) →
    next.page frame = m.page frame
  owned : Owned image next d

variable {v : Nat} {middle : Memory}

namespace Released

theorem refl (owned : Owned image m d) : Released image m m d [] :=
  ⟨rfl, fun _ => rfl, fun _ => (if_neg List.not_mem_nil).symm, fun _ _ _ => rfl, owned⟩

variable {next : Memory} {pages : List Nat}

theorem tree (released : Released image m next d pages) (frame : Nat) :
    next.Tree d frame ↔ m.Tree d frame := by
  simp only [Memory.Tree, released.tables]

theorem frameAt (released : Released image m next d pages) (other : v ∉ pages) :
    next.frameAt d v = m.frameAt d v := by
  rw [Memory.frameAt, Memory.frameAt, released.ptes, if_neg other]

theorem append {more : List Nat} (first : Released image m middle d pages)
    (rest : Released image middle next d more) (disjoint : ∀ v ∈ more, v ∉ pages) :
    Released image m next d (pages ++ more) := by
  have frames : ∀ v ∈ more, middle.frameAt d v = m.frameAt d v := fun v member =>
    first.frameAt (disjoint v member)
  refine ⟨?_, ?_, ?_, ?_, rest.owned⟩
  · rw [rest.free, first.free, List.map_congr_left frames, List.map_append, List.reverse_append,
      List.append_assoc]
  · intro index
    rw [rest.tables, first.tables]
  · intro u
    rw [rest.ptes, first.ptes]
    by_cases later : u ∈ more
    · rw [if_pos later, if_pos (List.mem_append_right _ later)]
    · rw [if_neg later]
      simp only [List.mem_append, later, or_false]
  · intro frame outside different
    rw [rest.kept frame (fun tree => outside ((first.tree frame).mp tree)), first.kept frame outside]
    · exact fun v member => different v (List.mem_append_left _ member)
    · intro v member
      rw [frames v member]
      exact different v (List.mem_append_right _ member)

end Released

theorem Owned.release (owned : Owned image m d) {frame : Nat} (usable : image.Usable frame)
    (free : frame ∉ m.freelist) (tree : ¬ m.Tree d frame) : Owned image (m.release frame) d := by
  have same : (m.release frame).page d = m.page d :=
    Memory.setPage_other m _ (fun equal => tree (.inl equal.symm))
  refine ⟨List.nodup_cons.mpr ⟨free, owned.nodup⟩, ?_, ?_, ?_, ?_⟩
  · intro other member
    rcases List.mem_cons.mp member with equal | old
    · exact equal ▸ usable
    · exact owned.usable other old
  · intro other member
    rw [Memory.Tree.congr same]
    rcases List.mem_cons.mp member with equal | old
    · exact equal ▸ tree
    · exact owned.apart other old
  · simpa only [Memory.tableAt_congr same] using owned.root
  · simpa only [Memory.tableAt_congr same] using owned.injective

theorem releaseEntry_ends (owned : Owned image m d) (personal : Private image m d range)
    {pgtab : Nat} (within : range v) (found : m.tableAt d (v / NPTENTRIES) = some pgtab) :
    ∃ next, releaseEntry image (pgtab, v % NPTENTRIES) m = .ok ((), next) ∧
      Released image m next d (if Present (m.pteAt d v) then [v] else []) := by
  have entry : m.entryAt pgtab (v % NPTENTRIES) = m.pteAt d v := (Memory.pteAt_some found).symm
  rw [releaseEntry, bind_run (readEntry_run _ m), entry]
  by_cases present : Present (m.pteAt d v)
  · have usable := personal.usable v within present
    have free := personal.free v within present
    have outside := personal.tree v within present
    have freed := owned.release usable free outside
    have pages : ∀ frame, m.Tree d frame →
        (m.release (m.frameAt d v)).page frame = m.page frame := fun frame tree =>
      Memory.setPage_other m _ (fun equal => outside (equal ▸ tree))
    have tables := Memory.tableAt_congr (pages d (.inl rfl))
    have still := (tables _).trans found
    have positive : pteAddr (m.pteAt d v) ≠ 0 := Nat.pos_iff_ne_zero.mp usable.pos
    have ran : kfree image (pteAddr (m.pteAt d v)) m = .ok ((), m.release (m.frameAt d v)) :=
      kfree_run usable m
    rw [if_pos present, if_pos present, if_neg positive, bind_run ran]
    refine ⟨_, rfl, rfl, ?_, ?_, ?_, freed.setEntry still _ _⟩
    · intro index
      rw [Memory.tableAt_congr (freed.page_setEntry still _ _), tables]
    · intro u
      rw [freed.pteAt_setEntry still (by decide), Memory.pteAt_congr pages]
      simp only [List.mem_singleton]
    · intro frame apart different
      have notTable : frame ≠ pgtab := fun same => apart (.inr ⟨_, same ▸ found⟩)
      have notFrame : frame ≠ m.frameAt d v :=
        fun same => different v List.mem_cons_self same.symm
      rw [Memory.setEntry_other _ _ _ _ notTable]
      exact Memory.setPage_other m _ notFrame
  · rw [if_neg present, if_neg present]
    exact ⟨m, rfl, .refl owned⟩

/-- What was private to a set of entries still is after some of them have been cleared. -/
theorem Private.released {next : Memory} {pages : List Nat} (personal : Private image m d range)
    (released : Released image m next d pages)
    (within : ∀ v ∈ pages, range v ∧ Present (m.pteAt d v)) : Private image next d range := by
  have other : ∀ u, Present (next.pteAt d u) → u ∉ pages ∧ Present (m.pteAt d u) := by
    intro u still
    rw [released.ptes] at still
    split at still
    · rw [present_iff] at still
      cases still
    · rename_i different
      exact ⟨different, still⟩
  refine ⟨?_, ?_, ?_, ?_⟩
  · intro u inside still
    obtain ⟨different, before⟩ := other u still
    rw [released.frameAt different]
    exact personal.usable u inside before
  · intro u inside still
    obtain ⟨different, before⟩ := other u still
    rw [released.frameAt different, released.free, List.mem_append, List.mem_reverse, List.mem_map]
    rintro (⟨v, member, same⟩ | free)
    · obtain ⟨also, present⟩ := within v member
      exact different (personal.injective v u also inside present before same ▸ member)
    · exact personal.free u inside before free
  · intro u inside still
    obtain ⟨different, before⟩ := other u still
    rw [released.frameAt different, released.tree]
    exact personal.tree u inside before
  · intro u w insideLeft insideRight left right same
    obtain ⟨different, before⟩ := other u left
    obtain ⟨alsoDifferent, also⟩ := other w right
    rw [released.frameAt different, released.frameAt alsoDifferent] at same
    exact personal.injective u w insideLeft insideRight before also same

/-- The loop of `deallocuvm`, started at one virtual page, comes to another one that has a page
table: it does unless the first page has none, stands at a higher index in its span, and no
span in between has one either. -/
def Memory.Reaches (m : Memory) (d start v : Nat) : Prop :=
  start ≤ v ∧ m.tableAt d (v / NPTENTRIES) ≠ none ∧
    (m.tableAt d (start / NPTENTRIES) ≠ none ∨ start % NPTENTRIES ≤ v % NPTENTRIES ∨
      ∃ index, start / NPTENTRIES < index ∧ index < v / NPTENTRIES ∧ m.tableAt d index ≠ none)

variable {start : Nat}

theorem reaches_step (found : m.tableAt d (start / NPTENTRIES) ≠ none) :
    m.Reaches d start v ↔ v = start ∨ m.Reaches d (start + 1) v := by
  simp only [Memory.Reaches]
  constructor
  · rintro ⟨low, here, _⟩
    by_cases same : v = start
    · exact .inl same
    refine .inr ⟨by omega, here, ?_⟩
    by_cases span : (start + 1) / NPTENTRIES = start / NPTENTRIES
    · exact .inl (span ▸ found)
    refine .inr (.inl ?_)
    simp only [NPTENTRIES] at span ⊢
    omega
  · rintro (same | ⟨low, here, _⟩)
    · subst same
      exact ⟨Nat.le_refl _, found, .inl found⟩
    · exact ⟨by omega, here, .inl found⟩

/-- From a page without a page table the loop skips the entries of one. -/
theorem reaches_jump (missing : m.tableAt d (start / NPTENTRIES) = none) :
    m.Reaches d start v ↔ m.Reaches d (start + NPTENTRIES) v := by
  have span : (start + NPTENTRIES) / NPTENTRIES = start / NPTENTRIES + 1 :=
    Nat.add_div_right _ (by decide)
  have index : (start + NPTENTRIES) % NPTENTRIES = start % NPTENTRIES := Nat.add_mod_right _ _
  simp only [Memory.Reaches, span, index, missing, ne_eq, not_true_eq_false, false_or]
  constructor
  · rintro ⟨low, here, onward⟩
    have beyond : start / NPTENTRIES ≠ v / NPTENTRIES := fun same => here (same ▸ missing)
    rcases onward with above | ⟨between, after, before, there⟩
    · refine ⟨?_, here, .inr (.inl above)⟩
      simp only [NPTENTRIES] at beyond above ⊢
      omega
    refine ⟨?_, here, ?_⟩
    · simp only [NPTENTRIES] at after before ⊢
      omega
    · by_cases next : between = start / NPTENTRIES + 1
      · exact .inl (next ▸ there)
      · exact .inr (.inr ⟨between, by omega, before, there⟩)
  · rintro ⟨low, here, onward⟩
    refine ⟨by omega, here, ?_⟩
    rcases onward with next | above | ⟨between, after, before, there⟩
    · by_cases adjacent : v / NPTENTRIES = start / NPTENTRIES + 1
      · left
        simp only [NPTENTRIES] at low adjacent ⊢
        omega
      · refine .inr ⟨_, Nat.lt_succ_self _, ?_, next⟩
        simp only [NPTENTRIES] at low adjacent ⊢
        omega
    · exact .inl above
    · exact .inr ⟨between, by omega, before, there⟩

/-- The first virtual page at or above an address. -/
def pageCeil (size : Nat) : Nat := (size + (PGSIZE - 1)) / PGSIZE

theorem page_lt_iff (v size : Nat) : v * PGSIZE < size ↔ v < pageCeil size := by
  simp only [pageCeil, PGSIZE]
  omega

/-- The pages that a loop of `deallocuvm` over part of a range frees. -/
def Memory.Freed (m : Memory) (d start stop v : Nat) : Prop :=
  v < stop ∧ m.Reaches d start v ∧ Present (m.pteAt d v)

variable {stop : Nat}

/-- Nothing is left to free from the end of the range on. -/
theorem not_freed (past : stop ≤ start) : ¬ m.Freed d start stop v := by
  rintro ⟨below, reached, _⟩
  have above := reached.1
  omega

/-- The page at the start is freed if it is present, and the others after it. -/
theorem freed_step (below : start < stop) (found : m.tableAt d (start / NPTENTRIES) ≠ none)
    (first : Released image m middle d (if Present (m.pteAt d start) then [start] else [])) :
    m.Freed d start stop v ↔
      v ∈ (if Present (m.pteAt d start) then [start] else []) ∨
        middle.Freed d (start + 1) stop v := by
  have reaches : middle.Reaches d (start + 1) v ↔ m.Reaches d (start + 1) v := by
    simp only [Memory.Reaches, first.tables]
  rw [Memory.Freed, Memory.Freed, reaches_step found, reaches]
  by_cases same : v = start
  · subst same
    have past : ¬ m.Reaches d (v + 1) v := fun reached => absurd reached.1 (by omega)
    by_cases present : Present (m.pteAt d v)
    · simp [present, below]
    · simp [present, past]
  have kept : middle.pteAt d v = m.pteAt d v := by
    rw [first.ptes, if_neg]
    split
    · exact fun member => same (List.mem_singleton.mp member)
    · exact List.not_mem_nil
  rw [kept]
  split <;> simp [same]

variable {oldsz : Nat}

/-- The loop of `deallocuvm` frees exactly the present pages it reaches, each once. -/
theorem deallocLoop_ends {fuel : Nat} (owned : Owned image m d)
    (personal : Private image m d range) (within : ∀ v, start ≤ v → v < pageCeil oldsz → range v)
    (user : oldsz ≤ KERNBASE) (enough : pageCeil oldsz - start < fuel) :
    ∃ next pages, deallocLoop image d oldsz fuel (start * PGSIZE) m = .ok ((), next) ∧
      Released image m next d pages ∧ pages.Nodup ∧
      ∀ v, v ∈ pages ↔ m.Freed d start (pageCeil oldsz) v := by
  have bound : pageCeil oldsz ≤ 524288 := by
    simp only [pageCeil, PGSIZE, KERNBASE] at user ⊢
    omega
  induction fuel generalizing start m with
  | zero => exact absurd enough (Nat.not_lt_zero _)
  | succ fuel ih =>
    rw [deallocLoop]
    by_cases more : start * PGSIZE < oldsz
    · have below : start < pageCeil oldsz := (page_lt_iff start oldsz).mp more
      have inside : start < PAGES := by
        simp only [PAGES]
        omega
      have walked := walkpgdir_find m d (start * PGSIZE)
      rw [pdx_page start inside, ptx_page] at walked
      rw [if_pos more, bind_run walked]
      cases found : m.tableAt d (start / NPTENTRIES) with
      | none =>
        have jump : uint (uint (start * PGSIZE + (NPTENTRIES - 1) * PGSIZE) + PGSIZE) =
            (start + NPTENTRIES) * PGSIZE := by
          simp only [uint, PGSIZE, NPTENTRIES]
          omega
        simp only [Option.map_none, jump]
        have fewer : pageCeil oldsz - (start + NPTENTRIES) < fuel := by
          simp only [NPTENTRIES]
          omega
        obtain ⟨next, pages, ran, released, nodup, freed⟩ := ih owned personal
          (fun v low => within v (Nat.le_of_add_right_le low)) fewer
        refine ⟨next, pages, ran, released, nodup, ?_⟩
        intro v
        rw [freed, Memory.Freed, Memory.Freed, reaches_jump found]
      | some pgtab =>
        have step : uint (start * PGSIZE + PGSIZE) = (start + 1) * PGSIZE := by
          simp only [uint, PGSIZE]
          omega
        obtain ⟨middle, ended, first⟩ := releaseEntry_ends owned personal
          (within start (Nat.le_refl _) below) found
        simp only [Option.map_some, step]
        rw [bind_run ended]
        have here : ∀ v ∈ (if Present (m.pteAt d start) then [start] else []),
            v = start ∧ Present (m.pteAt d v) := by
          intro v member
          split at member
          · rename_i present
            obtain rfl := List.mem_singleton.mp member
            exact ⟨rfl, present⟩
          · cases member
        have personalNext := personal.released first (fun v member =>
          ⟨(here v member).1 ▸ within start (Nat.le_refl _) below, (here v member).2⟩)
        obtain ⟨next, pages, ran, released, nodup, freed⟩ := ih first.owned
          personalNext (fun v low => within v (Nat.le_of_succ_le low)) (by omega)
        have later : ∀ v ∈ pages, start < v := fun v member => ((freed v).mp member).2.1.1
        have disjoint : ∀ v ∈ pages, v ∉ (if Present (m.pteAt d start) then [start] else []) := by
          intro v member also
          have equal := (here v also).1
          have less := later v member
          omega
        refine ⟨next, _, ran, first.append released disjoint, ?_, ?_⟩
        · rw [List.nodup_append]
          refine ⟨?_, nodup, fun v member u also equal => disjoint u also (equal ▸ member)⟩
          split
          · exact List.nodup_singleton start
          · exact List.nodup_nil
        · intro v
          rw [List.mem_append, freed,
            freed_step below (by rw [found]; exact Option.some_ne_none _) first]
    · rw [if_neg more]
      have past : pageCeil oldsz ≤ start := by
        rw [page_lt_iff] at more
        omega
      refine ⟨m, [], rfl, .refl owned, List.nodup_nil, ?_⟩
      intro v
      simp only [List.not_mem_nil, false_iff]
      exact not_freed past

theorem pgRoundUp_page {size : Nat} (user : size ≤ KERNBASE) :
    pgRoundUp size = pageCeil size * PGSIZE := by
  simp only [pgRoundUp, pageCeil, uint, PGSIZE, KERNBASE] at user ⊢
  omega

theorem deallocuvm_ends {newsz : Nat} (owned : Owned image m d) (user : oldsz ≤ KERNBASE)
    (less : newsz < oldsz)
    (personal : Private image m d fun v => pageCeil newsz ≤ v ∧ v < pageCeil oldsz) :
    ∃ next pages, deallocuvm image d oldsz newsz m = .ok (newsz, next) ∧
      Released image m next d pages ∧ pages.Nodup ∧
      ∀ v, v ∈ pages ↔ m.Freed d (pageCeil newsz) (pageCeil oldsz) v := by
  have enough : pageCeil oldsz - pageCeil newsz < PAGES + 1 := by
    simp only [pageCeil, PGSIZE, KERNBASE, PAGES] at user ⊢
    omega
  obtain ⟨next, pages, ran, released, nodup, freed⟩ :=
    deallocLoop_ends owned personal (fun v low high => ⟨low, high⟩) user enough
  refine ⟨next, pages, ?_, released, nodup, freed⟩
  rw [deallocuvm, if_neg (by omega), pgRoundUp_page (by omega), bind_run ran]
  rfl

/-- `deallocuvm` leaves no page mapped in its range and nothing changed outside it, and has
freed each page mapped there once, if and only if its loop reaches every present page of the
range: the first page has a page table or stands at the start of a span, or no present page
stands at a lower index in the first span with a page table. -/
theorem deallocuvm_complete_iff (image : Image) (m : Memory) (d oldsz newsz : Nat)
    (owned : Owned image m d) (user : oldsz ≤ KERNBASE) (less : newsz < oldsz)
    (personal : Private image m d fun v => pageCeil newsz ≤ v ∧ v < pageCeil oldsz) :
    (∃ next, deallocuvm image d oldsz newsz m = .ok (newsz, next) ∧
        (∀ v, pageCeil newsz ≤ v → v < pageCeil oldsz → ¬ Present (next.pteAt d v)) ∧
        (∃ pages : List Nat, pages.Nodup ∧
          (∀ v, v ∈ pages ↔ pageCeil newsz ≤ v ∧ v < pageCeil oldsz ∧ Present (m.pteAt d v)) ∧
          next.freelist = (pages.map (m.frameAt d)).reverse ++ m.freelist) ∧
        next.freelist.Nodup ∧
        ∀ v, ¬ (pageCeil newsz ≤ v ∧ v < pageCeil oldsz) → next.pteAt d v = m.pteAt d v) ↔
      ∀ v, pageCeil newsz ≤ v → v < pageCeil oldsz → Present (m.pteAt d v) →
        m.Reaches d (pageCeil newsz) v := by
  obtain ⟨next, pages, ran, released, nodup, freed⟩ := deallocuvm_ends owned user less personal
  constructor
  · rintro ⟨final, finished, empty, _⟩ v low high present
    obtain rfl : next = final := (Prod.mk.inj (Except.ok.inj (ran.symm.trans finished))).2
    have cleared := empty v low high
    rw [released.ptes] at cleared
    by_cases member : v ∈ pages
    · exact ((freed v).mp member).2.1
    · rw [if_neg member] at cleared
      exact absurd present cleared
  · intro complete
    have mapped : ∀ v, v ∈ pages ↔
        pageCeil newsz ≤ v ∧ v < pageCeil oldsz ∧ Present (m.pteAt d v) := by
      intro v
      rw [freed]
      constructor
      · rintro ⟨high, reached, present⟩
        exact ⟨reached.1, high, present⟩
      · rintro ⟨low, high, present⟩
        exact ⟨high, complete v low high present, present⟩
    refine ⟨next, ran, ?_, ⟨pages, nodup, mapped, released.free⟩, released.owned.nodup, ?_⟩
    · intro v low high
      rw [released.ptes]
      split
      · rw [present_iff]
        decide
      · rename_i absent
        exact fun present => absent ((mapped v).mpr ⟨low, high, present⟩)
    · intro v outside
      rw [released.ptes, if_neg]
      intro member
      obtain ⟨low, high, _⟩ := (mapped v).mp member
      exact outside ⟨low, high⟩

/-- A kernel of 72 kilobytes, the second half of it data. -/
def kernelImage : Image where
  data := 0x80109000
  endAddr := 0x80112000
  aligned := by decide
  text := by decide
  order := by decide
  fits := by decide

/-- Zeroed memory, with some free pages. -/
def blank (free : List Nat) : Memory := ⟨fun _ => filled 0, free⟩

theorem blank_owned (free : List Nat) (nodup : free.Nodup)
    (usable : ∀ frame ∈ free, kernelImage.Usable frame) (apart : 1000 ∉ free) :
    Owned kernelImage (blank free) 1000 :=
  .of_zero rfl nodup usable apart

theorem blank_absent (free : List Nat) (v : Nat) : ¬ Present ((blank free).pteAt 1000 v) := by
  rw [Memory.pteAt_none (Memory.tableAt_zero (blank free) rfl _), present_iff]
  decide

/-- A directory with one page table and one page. -/
def single (page : Nat) : Memory :=
  ((blank []).addTable 1000 (page / NPTENTRIES) 1001).setEntry (1001, page % NPTENTRIES)
    (1002 * PGSIZE + 7)

variable {page : Nat}

theorem single_owned (inside : page < PAGES) :
    Owned kernelImage (single page) 1000 ∧
      (∀ frame, (single page).Tree 1000 frame ↔ frame = 1000 ∨ frame = 1001) ∧
      ∀ v, (single page).pteAt 1000 v = if v = page then 1002 * PGSIZE + 7 else 0 := by
  have empty : Owned kernelImage (blank []) 1000 :=
    .of_zero rfl List.nodup_nil (fun _ member => absurd member List.not_mem_nil) List.not_mem_nil
  have missing := Memory.tableAt_zero (blank []) (d := 1000) rfl
  have outside : ¬ (blank []).Tree 1000 1001 := by
    rintro (root | ⟨index, found⟩)
    · cases root
    · rw [missing] at found
      cases found
  have different : 1001 ≠ 1000 := by decide
  have span : page / NPTENTRIES < NPDENTRIES := by
    simp only [PAGES, NPTENTRIES, NPDENTRIES] at inside ⊢
    omega
  have tables := Memory.tableAt_addTable (blank []) different span (by decide : 1001 < PAGES)
  have opened := empty.addTable outside List.not_mem_nil span (by decide) (missing _)
  have found := (tables (page / NPTENTRIES)).trans (if_pos rfl)
  refine ⟨opened.setEntry found _ _, ?_, ?_⟩
  · intro frame
    rw [single, Memory.Tree.congr (opened.page_setEntry found _ _),
      Memory.tree_addTable different span (by decide) (missing _)]
    simp only [Memory.Tree, missing, reduceCtorEq, exists_false, or_false]
  · intro v
    rw [single, opened.pteAt_setEntry found (by decide),
      Memory.pteAt_addTable outside span (by decide) (missing _) empty.root,
      Memory.pteAt_none (missing _)]

theorem single_present (inside : page < PAGES) (v : Nat) :
    Present ((single page).pteAt 1000 v) ↔ v = page := by
  rw [(single_owned inside).2.2]
  by_cases same : v = page
  · rw [if_pos same]
    exact iff_of_true (by decide) same
  · rw [if_neg same]
    exact iff_of_false (by decide) same

theorem single_private (inside : page < PAGES) (range : Nat → Prop) :
    Private kernelImage (single page) 1000 range := by
  obtain ⟨_, tree, ptes⟩ := single_owned inside
  have here : ∀ v, Present ((single page).pteAt 1000 v) → (single page).frameAt 1000 v = 1002 := by
    intro v present
    rw [Memory.frameAt, ptes, if_pos ((single_present inside v).mp present)]
    rfl
  refine ⟨?_, ?_, ?_, ?_⟩
  · intro v _ present
    rw [here v present]
    constructor <;> decide
  · exact fun _ _ _ => List.not_mem_nil
  · intro v _ present
    rw [here v present, tree]
    decide
  · intro v u _ _ left right _
    exact ((single_present inside v).mp left).trans ((single_present inside u).mp right).symm

/-- From size zero the loop reaches a page at four megabytes, the first of its span. -/
theorem deallocuvm_complete_single :
    ∃ next, deallocuvm kernelImage 1000 (1025 * PGSIZE) 0 (single 1024) = .ok (0, next) ∧
      ¬ Present (next.pteAt 1000 1024) := by
  obtain ⟨next, ran, empty, _⟩ := (deallocuvm_complete_iff kernelImage (single 1024) 1000
    (1025 * PGSIZE) 0 (single_owned (by decide)).1 (by decide) (by decide)
    (single_private (by decide) _)).mpr (by
      intro v low high present
      refine ⟨low, ?_, .inr (.inl (Nat.zero_le _))⟩
      obtain ⟨pgtab, found⟩ := Memory.exists_table present
      rw [found]
      exact Option.some_ne_none _)
  exact ⟨next, ran, empty 1024 (by decide) (by decide)⟩

/-- From a size of one page it jumps over that page, which stays mapped. -/
theorem deallocuvm_misses_page :
    Owned kernelImage (single 1024) 1000 ∧
      (∀ range, Private kernelImage (single 1024) 1000 range) ∧
      Present ((single 1024).pteAt 1000 1024) ∧
      ∃ next, deallocuvm kernelImage 1000 (1025 * PGSIZE) PGSIZE (single 1024) =
        .ok (PGSIZE, next) ∧ Present (next.pteAt 1000 1024) := by
  have inside : 1024 < PAGES := by decide
  have owned := (single_owned inside).1
  have present := (single_present inside 1024).mpr rfl
  refine ⟨owned, single_private inside, present, ?_⟩
  obtain ⟨next, pages, ran, released, _, freed⟩ :=
    deallocuvm_ends owned (by decide) (by decide : PGSIZE < 1025 * PGSIZE)
      (single_private inside _)
  refine ⟨next, ran, ?_⟩
  rw [released.ptes, if_neg]
  · exact present
  · intro member
    have missing : (single 1024).tableAt 1000 0 = none := by decide +kernel
    obtain ⟨_, ⟨_, _, table | above | ⟨index, after, before, _⟩⟩, _⟩ := (freed 1024).mp member
    · exact table missing
    · exact absurd above (by decide)
    have low : 0 < index := after
    have high : index < 1 := before
    omega

end RtXv6.Vm
