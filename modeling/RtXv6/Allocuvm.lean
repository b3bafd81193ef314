import RtXv6.PageGrowth

/-!
# Growing and shrinking a process

`allocuvm` takes a page, fills it with zeros and maps it, page after page. When no page is free
for the contents it undoes what it has mapped and reports failure. When no page is free for a
page table it goes on as if nothing had happened: the page just taken is lost, and either the
next page fails, or this was the last one and the call succeeds with a hole in the memory.

Which of these happens is decided by the number of free pages. The first page table for which
none is left is a property of the directory and of the range.
-/

namespace RtXv6.Vm

open Stateful

variable {image : Image} {m : Memory} {d : Nat}

/-- The entry bits of a page of `allocuvm`. -/
abbrev userFlags : Nat := PTE_W ||| PTE_U ||| PTE_P

/-- The present entries are the same. -/
def SameMappings (m next : Memory) (d : Nat) : Prop :=
  ∀ v, Present (next.pteAt d v) ∨ Present (m.pteAt d v) → next.pteAt d v = m.pteAt d v

/-- Every page of a range is present, writable and open to user code, with a zeroed page of its
own that was free before, and the other entries are unchanged. -/
structure Granted (m next : Memory) (d start stop : Nat) : Prop where
  mapped : ∀ v, start ≤ v → v < stop →
    next.pteAt d v = next.frameAt d v * PGSIZE + userFlags ∧
      next.page (next.frameAt d v) = filled 0 ∧ next.frameAt d v ∈ m.freelist ∧
      next.frameAt d v ∉ next.freelist ∧ ¬ next.Tree d (next.frameAt d v)
  injective : ∀ v u, start ≤ v → v < stop → start ≤ u → u < stop →
    next.frameAt d v = next.frameAt d u → v = u
  others : ∀ v, ¬ (start ≤ v ∧ v < stop) → next.pteAt d v = m.pteAt d v

/-- The mappings are as before, and every page that was free is free again or has become a page
table of the directory. -/
structure Refused (m next : Memory) (d : Nat) : Prop where
  same : SameMappings m next d
  free : ∀ frame ∈ m.freelist, frame ∈ next.freelist ∨
    ∃ index, m.tableAt d index = none ∧ next.tableAt d index = some frame

/-- The pages from a start on, as `allocuvm` fills them. -/
abbrev Zeroed (image : Image) (m next : Memory) (d start count : Nat) (taken : List Nat) : Prop :=
  Grown image m next d start count (fun _ => userFlags) (fun _ => filled 0) taken

variable {contents : Nat → Page} {flags : Nat → Nat} {oldsz newsz fuel : Nat}

section

variable {start count stop : Nat} {taken : List Nat} {now next : Memory}

theorem Grown.undone {pages : List Nat}
    (grown : Grown image m now d start count flags contents taken) (owned : Owned image m d)
    (absent : ∀ v, start ≤ v → v < stop → ¬ Present (m.pteAt d v)) (within : start + count ≤ stop)
    {lost : Memory} (tables : ∀ index, lost.tableAt d index = now.tableAt d index)
    (ptes : ∀ v, lost.pteAt d v = now.pteAt d v) (released : Released image lost next d pages)
    (freed : ∀ v, v ∈ pages ↔ lost.Freed d start stop v) :
    SameMappings m next d ∧
      ∀ frame ∈ m.freelist, frame ∈ now.freelist ∨ frame ∈ next.freelist ∨
        ∃ index, m.tableAt d index = none ∧ next.tableAt d index = some frame := by
  have mapped : ∀ v, v ∈ pages ↔ start ≤ v ∧ v < start + count := by
    intro v
    rw [freed, Memory.Freed, ptes]
    constructor
    · rintro ⟨high, reached, present⟩
      refine ⟨reached.1, ?_⟩
      by_contra beyond
      rw [grown.outside v (fun both => beyond both.2)] at present
      exact absent v reached.1 high present
    · rintro ⟨low, high⟩
      have present : ∀ u, start ≤ u → u < start + count → Present (now.pteAt d u) :=
        fun u above below => (grown.inside u above below).2.1
      have table : ∀ u, start ≤ u → u < start + count → lost.tableAt d (u / NPTENTRIES) ≠ none := by
        intro u above below
        obtain ⟨pgtab, found⟩ := Memory.exists_table (present u above below)
        rw [tables, found]
        exact Option.some_ne_none _
      exact ⟨by omega, ⟨low, table v low high, .inl (table start (Nat.le_refl _) (by omega))⟩,
        present v low high⟩
  refine ⟨?_, ?_⟩
  · intro v either
    rw [released.ptes, ptes] at either ⊢
    by_cases range : start ≤ v ∧ v < start + count
    · rw [if_pos ((mapped v).mpr range), present_iff] at either
      rcases either with cleared | before
      · cases cleared
      · exact absurd before (absent v range.1 (by omega))
    · rw [if_neg (fun member => range ((mapped v).mp member)), grown.outside v range]
  · intro frame member
    rcases grown.whereabouts owned member with free | ⟨index, missing, found⟩ | ⟨v, low, high, same⟩
    · exact .inl free
    · exact .inr (.inr ⟨index, missing, (released.tables index).trans ((tables index).trans found)⟩)
    refine .inr (.inl ?_)
    rw [released.free, List.mem_append, List.mem_reverse, List.mem_map]
    refine .inl ⟨v, (mapped v).mpr ⟨low, high⟩, ?_⟩
    rw [Memory.frameAt, ptes]
    exact same

/-- How `allocuvm` ends: with every page, without one because no page was free for its contents,
or, because none was free for its page table, with a hole at the last page or with a page
lost. -/
inductive AllocEnd (image : Image) (m : Memory) (d start stop newsz result : Nat)
    (next : Memory) : Prop
  | granted (taken : List Nat) (returned : result = newsz)
      (grown : Zeroed image m next d start (stop - start) taken)
  | refused (count : Nat) (before : start + count < stop)
      (free : m.freelist.length = m.demand d start count) (returned : result = 0)
      (refused : Refused m next d)
  | holed (count : Nat) (last : start + count + 1 = stop)
      (needs : m.NeedsTable d start (start + count))
      (free : m.freelist.length = m.demand d start count + 1) (returned : result = newsz)
      (absent : ¬ Present (next.pteAt d (start + count)))
  | leaked (count : Nat) (before : start + count + 1 < stop)
      (needs : m.NeedsTable d start (start + count))
      (free : m.freelist.length = m.demand d start count + 1) (returned : result = 0)
      (same : SameMappings m next d)
      (lost : ∃ frame ∈ m.freelist, frame ∉ next.freelist ∧
        ∀ index, next.tableAt d index ≠ some frame)

/-- Without a free page the loop of `allocuvm` undoes its work. -/
theorem allocLoop_refuses {a result : Nat} (empty : m.freelist = []) (more : a < newsz)
    (ran : deallocuvm image d newsz oldsz m = .ok (result, next)) :
    allocLoop image d oldsz newsz (fuel + 1) a m = .ok (0, next) := by
  rw [allocLoop, if_pos more, bind_run (kalloc_none empty)]
  dsimp only
  rw [bind_run ran]
  rfl

/-- A page is lost when none is free for its page table: the loop of `allocuvm` goes on without
a free page. -/
theorem allocLoop_starves {frame : Nat} (owned : Owned image m d) (user : newsz < KERNBASE)
    (absent : ∀ v, pageCeil oldsz ≤ v → v < pageCeil newsz → ¬ Present (m.pteAt d v))
    (grown : Zeroed image m now d (pageCeil oldsz) count taken)
    (more : pageCeil oldsz + count < pageCeil newsz) (first : now.freelist = [frame])
    (missing : now.tableAt d ((pageCeil oldsz + count) / NPTENTRIES) = none) (enough : 0 < fuel) :
    ∃ result next, allocLoop image d oldsz newsz fuel ((pageCeil oldsz + (count + 1)) * PGSIZE)
        ((now.drop []).setPage frame (filled 0)) = .ok (result, next) ∧
      AllocEnd image m d (pageCeil oldsz) (pageCeil newsz) newsz result next := by
  have needs := grown.missing_iff.mp missing
  have member : frame ∈ now.freelist := first ▸ List.mem_cons_self
  have free : m.freelist.length = m.demand d (pageCeil oldsz) count + 1 := by
    rw [grown.extends_.free, List.length_append, grown.count, first]
    rfl
  have outside := grown.owned.apart frame member
  have tables := Memory.tableAt_setPage (m := now.drop []) outside (filled 0)
  have ptes := Memory.pteAt_setPage (m := now.drop []) outside (filled 0)
  obtain ⟨fuel, rfl⟩ : ∃ less, fuel = less + 1 := ⟨fuel - 1, by omega⟩
  by_cases last : pageCeil oldsz + count + 1 = pageCeil newsz
  · have past : ¬ (pageCeil oldsz + (count + 1)) * PGSIZE < newsz := by
      rw [page_lt_iff]
      omega
    refine ⟨newsz, _, by rw [allocLoop, if_neg past]; rfl, .holed count last needs free rfl ?_⟩
    rw [ptes, Memory.drop_pteAt, grown.outside _ (by omega)]
    exact absent _ (by omega) more
  have below : (pageCeil oldsz + (count + 1)) * PGSIZE < newsz := by
    rw [page_lt_iff]
    omega
  have grows : oldsz < newsz := by
    simp only [pageCeil, PGSIZE] at more
    omega
  have lost : Owned image ((now.drop []).setPage frame (filled 0)) d :=
    (grown.owned.drop first).setPage outside (filled 0)
  have personal := (grown.personal owned absent).congr tables ptes
    (fun _ none => absurd none List.not_mem_nil)
  obtain ⟨next, pages, ran, released, _, freed⟩ :=
    deallocuvm_ends lost (Nat.le_of_lt user) grows personal
  obtain ⟨same, _⟩ := grown.undone owned absent (by omega) tables ptes released freed
  refine ⟨0, next, allocLoop_refuses rfl below ran,
    .leaked count (by omega) needs free rfl same ⟨frame, ?_, ?_, ?_⟩⟩
  · exact grown.extends_.free ▸ List.mem_append_right _ member
  · rw [released.free, List.mem_append, List.mem_reverse, List.mem_map]
    rintro (⟨v, freedPage, equal⟩ | none)
    · obtain ⟨high, reached, present⟩ := (freed v).mp freedPage
      refine (grown.personal owned absent).free v ⟨reached.1, high⟩ (ptes v ▸ present) ?_
      rw [Memory.frameAt, ptes] at equal
      have itself : now.frameAt d v = frame := equal
      rwa [itself]
    · cases none
  · intro index found
    rw [released.tables, tables] at found
    exact outside (.inr ⟨index, found⟩)

/-- The loop of `allocuvm` from a page on, with the pages before it filled. -/
theorem allocLoop_ends (owned : Owned image m d) (user : newsz < KERNBASE) (order : oldsz ≤ newsz)
    (absent : ∀ v, pageCeil oldsz ≤ v → v < pageCeil newsz → ¬ Present (m.pteAt d v))
    (grown : Zeroed image m now d (pageCeil oldsz) count taken)
    (within : pageCeil oldsz + count ≤ pageCeil newsz)
    (enough : pageCeil newsz - (pageCeil oldsz + count) < fuel) :
    ∃ result next, allocLoop image d oldsz newsz fuel ((pageCeil oldsz + count) * PGSIZE) now =
        .ok (result, next) ∧
      AllocEnd image m d (pageCeil oldsz) (pageCeil newsz) newsz result next := by
  have bound : pageCeil newsz ≤ 524288 := by
    simp only [pageCeil, PGSIZE, KERNBASE] at user ⊢
    omega
  induction fuel generalizing now count taken with
  | zero => exact absurd enough (Nat.not_lt_zero _)
  | succ fuel ih =>
    have length : m.freelist.length = m.demand d (pageCeil oldsz) count + now.freelist.length := by
      rw [grown.extends_.free, List.length_append, grown.count]
    by_cases more : pageCeil oldsz + count < pageCeil newsz
    · have below := (page_lt_iff _ newsz).mpr more
      have grows : oldsz < newsz := by
        simp only [pageCeil, PGSIZE] at more
        omega
      cases first : now.freelist with
      | nil =>
        obtain ⟨next, pages, ran, released, _, freed⟩ :=
          deallocuvm_ends grown.owned (Nat.le_of_lt user) grows (grown.personal owned absent)
        obtain ⟨same, free⟩ := grown.undone owned absent within (fun _ => rfl) (fun _ => rfl)
          released freed
        refine ⟨0, next, allocLoop_refuses first below ran, .refused count more ?_ rfl ⟨same, ?_⟩⟩
        · rw [length, first]
          rfl
        · intro frame member
          rcases free frame member with none | back
          · rw [first] at none
            cases none
          · exact back
      | cons frame rest =>
        have inside : pageCeil oldsz + count < PAGES := by
          simp only [PAGES]
          omega
        have unmapped : ¬ Present (now.pteAt d (pageCeil oldsz + count)) := by
          rw [grown.outside _ (by omega)]
          exact absent _ (by omega) more
        have step : uint ((pageCeil oldsz + count) * PGSIZE + PGSIZE) =
            (pageCeil oldsz + (count + 1)) * PGSIZE := by
          simp only [uint, PGSIZE]
          omega
        rw [allocLoop, if_pos below, bind_run (kalloc_some first)]
        dsimp only
        rw [bind_run (writePage_run _ _ _), step]
        rcases place grown.owned (filled 0) first inside unmapped
            (by decide : PTE_W ||| PTE_U < PGSIZE) with
          ⟨missing, last, ran⟩ | ⟨next, tables, placed, ran⟩
        · subst last
          rw [bind_run ran]
          exact allocLoop_starves owned user absent grown more first missing (by omega)
        · rw [bind_run ran]
          exact ih (grown.step placed (by decide) (by decide)) (by omega) (by omega)
    · have whole : pageCeil newsz - pageCeil oldsz = count := by omega
      have past : ¬ (pageCeil oldsz + count) * PGSIZE < newsz := by
        rw [page_lt_iff]
        exact more
      refine ⟨newsz, now, by rw [allocLoop, if_neg past]; rfl, .granted taken rfl ?_⟩
      rw [whole]
      exact grown

theorem allocuvm_ends (owned : Owned image m d) (user : newsz < KERNBASE) (order : oldsz ≤ newsz)
    (absent : ∀ v, pageCeil oldsz ≤ v → v < pageCeil newsz → ¬ Present (m.pteAt d v)) :
    ∃ result next, allocuvm image d oldsz newsz m = .ok (result, next) ∧
      AllocEnd image m d (pageCeil oldsz) (pageCeil newsz) newsz result next := by
  have enough : pageCeil newsz - (pageCeil oldsz + 0) < PAGES + 1 := by
    simp only [pageCeil, PGSIZE, KERNBASE, PAGES] at user ⊢
    omega
  have within : pageCeil oldsz + 0 ≤ pageCeil newsz := by
    simp only [pageCeil, PGSIZE]
    omega
  obtain ⟨result, next, ran, ended⟩ :=
    allocLoop_ends owned user order absent (.zero owned) within enough
  refine ⟨result, next, ?_, ended⟩
  rw [allocuvm, if_neg (by omega), if_neg (by omega), pgRoundUp_page (by omega)]
  exact ran

/-- The free pages run out exactly when a page table is asked for. -/
def Memory.Starves (m : Memory) (d start stop : Nat) : Prop :=
  ∃ count, start + count < stop ∧ m.NeedsTable d start (start + count) ∧
    m.freelist.length = m.demand d start count + 1

/-- A free list that ends at a page table does not end at a page's contents. -/
theorem not_starves_of_demand (free : m.freelist.length = m.demand d start count) :
    ¬ m.Starves d start stop := by
  rintro ⟨other, _, needs, also⟩
  have gap := demand_gap needs count
  omega

/-- With free pages for the whole range, none is missing for a page table. -/
theorem not_starves_of_grown
    (grown : Grown image m next d start (stop - start) flags contents taken) :
    ¬ m.Starves d start stop := by
  rintro ⟨other, before, needs, free⟩
  have length : m.freelist.length = taken.length + next.freelist.length := by
    rw [grown.extends_.free, List.length_append]
  have counted := grown.count
  have gap := demand_gap needs (stop - start)
  omega

theorem Grown.granted (grown : Zeroed image m next d start (stop - start) taken) :
    Granted m next d start stop := by
  have bounds : ∀ v, start ≤ v → v < stop → v < start + (stop - start) := by omega
  refine ⟨?_, ?_, ?_⟩
  · intro v low high
    obtain ⟨entry, _, member, apart, page⟩ := grown.inside v low (bounds v low high)
    refine ⟨entry, page, grown.extends_.free ▸ List.mem_append_left _ member, ?_, apart⟩
    intro free
    have nodup := grown.nodup
    rw [grown.extends_.free, List.nodup_append] at nodup
    exact nodup.2.2 _ member _ free rfl
  · exact fun v u lowLeft highLeft lowRight highRight =>
      grown.injective v u lowLeft (bounds v lowLeft highLeft) lowRight (bounds u lowRight highRight)
  · intro v other
    exact grown.outside v (fun both => other ⟨both.1, by omega⟩)

theorem Grown.refused (grown : Zeroed image m next d start 0 taken) (owned : Owned image m d) :
    Refused m next d := by
  refine ⟨fun v _ => grown.outside v (by omega), ?_⟩
  intro frame member
  rcases grown.whereabouts owned member with free | table | ⟨v, low, high, _⟩
  · exact .inl free
  · exact .inr table
  · omega

end

/-- `allocuvm` keeps its word, to return the new size only with every page of the range in
place and zero only with everything undone, if and only if the free pages do not run out just
when a page table is asked for. -/
theorem allocuvm_sound_iff (image : Image) (m : Memory) (d oldsz newsz : Nat)
    (owned : Owned image m d) (order : oldsz ≤ newsz) (user : newsz < KERNBASE)
    (absent : ∀ v, pageCeil oldsz ≤ v → v < pageCeil newsz → ¬ Present (m.pteAt d v)) :
    (∃ result next, allocuvm image d oldsz newsz m = .ok (result, next) ∧
        (result = newsz ∨ result = 0) ∧
        (result = newsz → Granted m next d (pageCeil oldsz) (pageCeil newsz)) ∧
        (result = 0 → Refused m next d)) ↔
      ¬ m.Starves d (pageCeil oldsz) (pageCeil newsz) := by
  obtain ⟨result, next, ran, ended⟩ := allocuvm_ends owned user order absent
  constructor
  · rintro ⟨other, final, finished, _, granted, refused⟩
    obtain ⟨rfl, rfl⟩ := Prod.mk.inj (Except.ok.inj (ran.symm.trans finished))
    cases ended with
    | granted taken returned grown => exact not_starves_of_grown grown
    | refused count before free returned undone => exact not_starves_of_demand free
    | holed count last needs free returned hole =>
      have mapped := ((granted returned).mapped _ (Nat.le_add_right _ count) (by omega)).1
      rw [mapped] at hole
      exact absurd (present_mapped _ _) hole
    | leaked count before needs free returned same lost =>
      obtain ⟨frame, member, notFree, notTable⟩ := lost
      rcases (refused returned).free frame member with back | ⟨index, _, table⟩
      · exact absurd back notFree
      · exact absurd table (notTable index)
  · intro fed
    refine ⟨result, next, ran, ?_⟩
    cases ended with
    | granted taken returned grown =>
      refine ⟨.inl returned, fun _ => grown.granted, fun zero => ?_⟩
      have nothing : pageCeil newsz - pageCeil oldsz = 0 := by
        simp only [pageCeil, PGSIZE]
        omega
      rw [nothing] at grown
      exact grown.refused owned
    | refused count before free returned undone =>
      refine ⟨.inr returned, fun also => ?_, fun _ => undone⟩
      simp only [pageCeil, PGSIZE] at before
      omega
    | holed count last needs free | leaked count before needs free =>
      exact absurd ⟨count, by omega, needs, free⟩ fed

/-- The first page of a process, with a free page for it and one for its page table. -/
theorem allocuvm_sound_two_pages :
    ∃ result next, allocuvm kernelImage 1000 0 PGSIZE (blank [1001, 1002]) = .ok (result, next) ∧
      (result = PGSIZE ∨ result = 0) ∧
      (result = PGSIZE → Granted (blank [1001, 1002]) next 1000 0 1) ∧
      (result = 0 → Refused (blank [1001, 1002]) next 1000) := by
  refine (allocuvm_sound_iff kernelImage (blank [1001, 1002]) 1000 0 PGSIZE
    (blank_owned _ (by decide) (by decide) (by decide)) (by decide) (by decide)
    (fun v _ _ => blank_absent _ v)).mpr ?_
  rintro ⟨count, within, _, free⟩
  have first : count = 0 := by
    have stop : pageCeil PGSIZE = 1 := rfl
    omega
  subst first
  exact absurd free (by decide)

/-- With one free page, which the contents take, the call succeeds without mapping the page. -/
theorem allocuvm_leaves_hole :
    Owned kernelImage (blank [1001]) 1000 ∧
      ∃ next, allocuvm kernelImage 1000 0 PGSIZE (blank [1001]) = .ok (PGSIZE, next) ∧
        ¬ Present (next.pteAt 1000 0) := by
  have owned : Owned kernelImage (blank [1001]) 1000 :=
    blank_owned _ (by decide) (by decide) (by decide)
  obtain ⟨result, next, ran, ended⟩ := allocuvm_ends owned (by decide : PGSIZE < KERNBASE)
    (Nat.zero_le _) (fun v _ _ => blank_absent _ v)
  refine ⟨owned, next, ?_⟩
  have stop : pageCeil PGSIZE = 1 := rfl
  have start : pageCeil 0 = 0 := rfl
  have two : (blank [1001]).demand 1000 0 1 = 2 := by decide +kernel
  rw [stop, start] at ended
  cases ended with
  | granted taken returned grown =>
    have counted := grown.count
    have length : [1001].length = taken.length + next.freelist.length := by
      rw [← List.length_append, ← grown.extends_.free]
      rfl
    simp only [two, List.length_singleton] at counted length
    omega
  | refused count before free returned refused =>
    obtain rfl : count = 0 := by omega
    exact absurd free (by decide)
  | holed count last needs free returned hole =>
    obtain rfl : count = 0 := by omega
    exact ⟨returned ▸ ran, hole⟩
  | leaked count before needs free returned same lost => omega

end RtXv6.Vm
