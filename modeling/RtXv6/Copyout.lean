import RtXv6.PageRelease

/-!
# Copying to user memory

`copyout` writes a buffer to user addresses page by page, through the page that `uva2ka` finds
for each. The pages it writes are apart from the tables, so the directory says the same all the
time, and the call ends at the first page that user code cannot use. If that page has no page
table, `uva2ka` reads an entry through a null pointer.
-/

namespace RtXv6.Vm

open Stateful

variable {m : Memory} {d : Nat}

/-- User code can use a virtual page. -/
def Memory.Accessible (m : Memory) (d v : Nat) : Prop :=
  Present (m.pteAt d v) ∧ User (m.pteAt d v)

instance accessible_decidable (m : Memory) (d v : Nat) : Decidable (m.Accessible d v) :=
  inferInstanceAs (Decidable (Present (m.pteAt d v) ∧ User (m.pteAt d v)))

/-- The pages open to user code are neither tables nor shared between two addresses. -/
structure Unaliased (m : Memory) (d : Nat) : Prop where
  tree : ∀ v, m.Accessible d v → ¬ m.Tree d (m.frameAt d v)
  injective : ∀ v u, m.Accessible d v → m.Accessible d u → m.frameAt d v = m.frameAt d u → v = u

/-- The virtual page of a byte of a range of addresses, which may go round the end of the
address space. -/
def pageOf (va offset : Nat) : Nat := uint (va + offset) / PGSIZE

/-- The place of a byte in its page. -/
def placeOf (va offset : Nat) : Fin PGSIZE := ⟨(va + offset) % PGSIZE, Nat.mod_lt _ (by decide)⟩

/-- A buffer has been copied to a range of user addresses: reading them gives the buffer, and
no other byte has changed. -/
structure Copied (m next : Memory) (d va : Nat) (buf : Nat → UInt8) (len : Nat) : Prop where
  tables : ∀ index, next.tableAt d index = m.tableAt d index
  ptes : ∀ v, next.pteAt d v = m.pteAt d v
  written : ∀ j, j < len → next.page (next.frameAt d (pageOf va j)) (placeOf va j) = buf j
  others : ∀ frame place,
    (∀ j, j < len → ¬ (frame = m.frameAt d (pageOf va j) ∧ place = placeOf va j)) →
      next.page frame place = m.page frame place
  free : next.freelist = m.freelist

namespace Copied

variable {next : Memory} {va len : Nat} {buf : Nat → UInt8}

theorem frameAt (copied : Copied m next d va buf len) (v : Nat) :
    next.frameAt d v = m.frameAt d v := by
  rw [Memory.frameAt, Memory.frameAt, copied.ptes]

theorem accessible (copied : Copied m next d va buf len) (v : Nat) :
    next.Accessible d v ↔ m.Accessible d v := by
  rw [Memory.Accessible, Memory.Accessible, copied.ptes]

theorem unaliased (copied : Copied m next d va buf len) (unaliased : Unaliased m d) :
    Unaliased next d := by
  refine ⟨?_, ?_⟩
  · simpa only [copied.accessible, copied.frameAt, Memory.Tree, copied.tables] using unaliased.tree
  · simpa only [copied.accessible, copied.frameAt] using unaliased.injective

theorem refl (m : Memory) (d va : Nat) (buf : Nat → UInt8) : Copied m m d va buf 0 :=
  ⟨fun _ => rfl, fun _ => rfl, fun _ below => absurd below (Nat.not_lt_zero _),
    fun _ _ _ => rfl, rfl⟩

/-- Two bytes of a range that is not longer than the address space have different addresses. -/
theorem distinct {va i j : Nat} (left : i < 4294967296) (right : j < 4294967296)
    (page : pageOf va i = pageOf va j) (place : placeOf va i = placeOf va j) : i = j := by
  have offset : (va + i) % PGSIZE = (va + j) % PGSIZE := Fin.mk.inj place
  simp only [pageOf, uint, PGSIZE] at page offset
  omega

theorem append {middle : Memory} {count : Nat} (unaliased : Unaliased m d)
    (open_ : ∀ j, j < len → m.Accessible d (pageOf va j)) (within : count ≤ len)
    (short : len < 4294967296) (first : Copied m middle d va buf count)
    (rest : Copied middle next d (uint (va + count)) (fun index => buf (index + count))
      (len - count)) : Copied m next d va buf len := by
  have page : ∀ j, pageOf (uint (va + count)) j = pageOf va (j + count) := by
    intro j
    simp only [pageOf, uint, PGSIZE]
    omega
  have place : ∀ j, placeOf (uint (va + count)) j = placeOf va (j + count) := by
    intro j
    apply Fin.ext
    simp only [placeOf, uint, PGSIZE]
    omega
  refine ⟨?_, ?_, ?_, ?_, rest.free.trans first.free⟩
  · intro index
    rw [rest.tables, first.tables]
  · intro v
    rw [rest.ptes, first.ptes]
  · intro j below
    by_cases early : j < count
    · have written := first.written j early
      rw [rest.frameAt, rest.others, written]
      rintro i inside ⟨sameFrame, samePlace⟩
      rw [first.frameAt, first.frameAt, page] at sameFrame
      rw [place] at samePlace
      have samePage := unaliased.injective _ _ (open_ j below) (open_ (i + count) (by omega))
        sameFrame
      have equal := distinct (by omega) (by omega) samePage samePlace
      omega
    · have written := rest.written (j - count) (by omega)
      rw [page, place, Nat.sub_add_cancel (by omega)] at written
      exact written
  · intro frame spot untouched
    rw [rest.others, first.others]
    · exact fun j below => untouched j (by omega)
    · rintro j below ⟨sameFrame, samePlace⟩
      rw [first.frameAt, page] at sameFrame
      rw [place] at samePlace
      exact untouched (j + count) (by omega) ⟨sameFrame, samePlace⟩

theorem chunk (unaliased : Unaliased m d) {va count : Nat} (buf : Nat → UInt8)
    (address : va < 4294967296) (open_ : m.Accessible d (va / PGSIZE))
    (within : va % PGSIZE + count ≤ PGSIZE) :
    Copied m (m.setPage (m.frameAt d (va / PGSIZE))
      (Bytes.move (m.page (m.frameAt d (va / PGSIZE))) (va % PGSIZE) count buf)) d va buf count := by
  have outside := unaliased.tree _ open_
  have page : ∀ j, j < count → pageOf va j = va / PGSIZE := by
    intro j below
    simp only [pageOf, uint, PGSIZE] at within ⊢
    omega
  have place : ∀ j, j < count → (placeOf va j).val = va % PGSIZE + j := by
    intro j below
    simp only [placeOf, PGSIZE] at within ⊢
    omega
  refine ⟨Memory.tableAt_setPage outside _, Memory.pteAt_setPage outside _, ?_, ?_, rfl⟩
  · intro j below
    rw [page j below, Memory.frameAt_setPage outside, Memory.setPage_self, Bytes.move,
      if_pos (by rw [place j below]; omega), place j below, Nat.add_sub_cancel_left]
  · intro frame spot untouched
    by_cases same : frame = m.frameAt d (va / PGSIZE)
    · subst same
      rw [Memory.setPage_self, Bytes.move, if_neg]
      rintro ⟨low, high⟩
      refine untouched (spot.val - va % PGSIZE) (by omega) ⟨by rw [page _ (by omega)], ?_⟩
      apply Fin.ext
      rw [place _ (by omega)]
      omega
    · rw [Memory.setPage_other m _ same]

end Copied

theorem uva2ka_null {v : Nat} (inside : v < PAGES) (missing : m.tableAt d (v / NPTENTRIES) = none) :
    uva2ka d (v * PGSIZE) m = .error .null := by
  have walked := walkpgdir_find m d (v * PGSIZE)
  rw [pdx_page v inside, missing] at walked
  rw [uva2ka, bind_run walked]
  rfl

theorem uva2ka_table {v pgtab : Nat} (inside : v < PAGES)
    (found : m.tableAt d (v / NPTENTRIES) = some pgtab) :
    uva2ka d (v * PGSIZE) m =
      .ok (if m.Accessible d v then some (m.frameAt d v) else none, m) := by
  have walked := walkpgdir_find m d (v * PGSIZE)
  rw [pdx_page v inside, ptx_page, found] at walked
  rw [uva2ka, bind_run walked]
  dsimp only [Option.map_some]
  rw [bind_run (readEntry_run _ m), ← Memory.pteAt_some found]
  by_cases present : Present (m.pteAt d v)
  · by_cases user : User (m.pteAt d v)
    · rw [if_pos present, if_pos user, if_pos ⟨present, user⟩]
      rfl
    · rw [if_pos present, if_neg user, if_neg (fun both => user both.2)]
      rfl
  · rw [if_neg present, if_neg (fun both => present both.1)]
    rfl

/-- The first byte of a range whose page user code cannot use. -/
def Memory.FirstClosed (m : Memory) (d va len j : Nat) : Prop :=
  j < len ∧ (∀ i, i < j → m.Accessible d (pageOf va i)) ∧ ¬ m.Accessible d (pageOf va j)

/-- Without bytes left, the loop does not look at the address. -/
theorem copyoutLoop_nil (fuel va other : Nat) (buf : Nat → UInt8) :
    copyoutLoop d fuel va buf 0 m = copyoutLoop d fuel other buf 0 m := by
  cases fuel with
  | zero => rfl
  | succ fuel => rw [copyoutLoop, copyoutLoop, if_neg (by decide), if_neg (by decide)]

/-- One iteration of the loop of `copyout` at a page that user code can use: the part of the
buffer for that page is copied, and the loop goes on with the rest. -/
theorem copyoutLoop_step (unaliased : Unaliased m d) {va len : Nat} (buf : Nat → UInt8)
    (address : va < 4294967296) (some_ : 0 < len) (open_ : m.Accessible d (va / PGSIZE)) :
    ∃ count middle, 0 < count ∧ count ≤ len ∧
      (∀ j, j < count → pageOf va j = va / PGSIZE) ∧ Copied m middle d va buf count ∧
      ∀ fuel, copyoutLoop d (fuel + 1) va buf len m =
        copyoutLoop d fuel (uint (va + count)) (fun index => buf (index + count)) (len - count)
          middle := by
  have inside : va / PGSIZE < PAGES := by
    simp only [PGSIZE, PAGES]
    omega
  obtain ⟨pgtab, found⟩ := Memory.exists_table open_.1
  have found' := uva2ka_table inside found
  rw [if_pos open_] at found'
  have offset : va - pgRoundDown va = va % PGSIZE := by
    simp only [pgRoundDown, PGSIZE]
    omega
  have within : va % PGSIZE + min (PGSIZE - va % PGSIZE) len ≤ PGSIZE := by
    simp only [PGSIZE]
    omega
  refine ⟨min (PGSIZE - va % PGSIZE) len, _, ?_, Nat.min_le_right _ _, ?_,
    .chunk unaliased buf address open_ within, ?_⟩
  · simp only [PGSIZE]
    omega
  · intro j below
    simp only [pageOf, uint, PGSIZE] at below ⊢
    omega
  · intro fuel
    rw [copyoutLoop, if_pos some_]
    dsimp only
    rw [pgRoundDown, bind_run found']
    dsimp only
    rw [get_bind, ← pgRoundDown, offset, bind_run (writePage_run _ _ _)]
    by_cases last : len ≤ PGSIZE - va % PGSIZE
    · rw [Nat.min_eq_right last, Nat.sub_self]
      exact copyoutLoop_nil _ _ _ _
    rw [Nat.min_eq_left (by omega)]
    have next : uint (pgRoundDown va + PGSIZE) = uint (va + (PGSIZE - va % PGSIZE)) := by
      simp only [uint, pgRoundDown, PGSIZE]
      omega
    rw [next]

/-- The loop of `copyout`: it copies everything when all pages are open to user code, and
otherwise ends at the first one that is not, by reading through a null pointer if that page has
no page table. -/
theorem copyoutLoop_ends (unaliased : Unaliased m d) {fuel va len : Nat} (buf : Nat → UInt8)
    (address : va < 4294967296) (short : len < 4294967296) (enough : len < fuel) :
    ((∀ j, j < len → m.Accessible d (pageOf va j)) →
        ∃ next, copyoutLoop d fuel va buf len m = .ok (0, next) ∧ Copied m next d va buf len) ∧
      ∀ j, m.FirstClosed d va len j →
        (m.tableAt d (pageOf va j / NPTENTRIES) = none →
          copyoutLoop d fuel va buf len m = .error .null) ∧
        (m.tableAt d (pageOf va j / NPTENTRIES) ≠ none →
          ∃ next, copyoutLoop d fuel va buf len m = .ok (-1, next)) := by
  induction fuel generalizing m va len buf with
  | zero => exact absurd enough (Nat.not_lt_zero _)
  | succ fuel ih =>
    have here : pageOf va 0 = va / PGSIZE := by
      simp only [pageOf, uint, PGSIZE]
      omega
    have inside : va / PGSIZE < PAGES := by
      simp only [PGSIZE, PAGES]
      omega
    by_cases some_ : 0 < len
    · by_cases open_ : m.Accessible d (va / PGSIZE)
      · obtain ⟨count, middle, positive, within, page, copied, ran⟩ :=
          copyoutLoop_step unaliased buf address some_ open_
        obtain ⟨whole, stops⟩ := @ih middle (copied.unaliased unaliased)
          (uint (va + count)) (len - count) (fun index => buf (index + count))
          (Nat.mod_lt _ (by decide)) (by omega) (by omega)
        have shift : ∀ j, pageOf (uint (va + count)) j = pageOf va (j + count) := by
          intro j
          simp only [pageOf, uint, PGSIZE]
          omega
        rw [ran]
        refine ⟨?_, ?_⟩
        · intro all
          obtain ⟨next, finished, rest⟩ := whole (fun j below => by
            rw [copied.accessible, shift]
            exact all (j + count) (by omega))
          exact ⟨next, finished, .append unaliased all within short copied rest⟩
        · rintro j ⟨below, before, closed⟩
          have later : count ≤ j := by
            by_contra early
            rw [page j (by omega)] at closed
            exact closed open_
          have first : middle.FirstClosed d (uint (va + count)) (len - count) (j - count) := by
            refine ⟨by omega, ?_, ?_⟩
            · intro i earlier
              rw [copied.accessible, shift]
              exact before (i + count) (by omega)
            · rw [copied.accessible, shift, Nat.sub_add_cancel later]
              exact closed
          have stopped := stops (j - count) first
          rw [shift, Nat.sub_add_cancel later, copied.tables] at stopped
          exact stopped
      · refine ⟨fun all => absurd (here ▸ all 0 some_) open_, ?_⟩
        rintro j ⟨below, before, closed⟩
        have first : j = 0 := by
          by_contra later
          exact open_ (here ▸ before 0 (by omega))
        subst first
        rw [here, copyoutLoop, if_pos some_]
        dsimp only
        rw [pgRoundDown]
        refine ⟨fun missing => ?_, fun found => ?_⟩
        · rw [bind_error (uva2ka_null inside missing)]
        · obtain ⟨pgtab, table⟩ := Option.ne_none_iff_exists'.mp found
          have looked := uva2ka_table inside table
          rw [if_neg open_] at looked
          rw [bind_run looked]
          exact ⟨m, rfl⟩
    · obtain rfl : len = 0 := by omega
      refine ⟨fun _ => ⟨m, rfl, .refl m d va buf⟩, ?_⟩
      rintro j ⟨below, _⟩
      exact absurd below (Nat.not_lt_zero _)

/-- A range that is not open to user code all over has a first byte where it is not. -/
theorem exists_firstClosed {va len : Nat}
    (closed : ¬ ∀ j, j < len → m.Accessible d (pageOf va j)) : ∃ j, m.FirstClosed d va len j := by
  induction len with
  | zero => exact absurd (fun j below => absurd below (Nat.not_lt_zero _)) closed
  | succ len ih =>
    by_cases before : ∀ j, j < len → m.Accessible d (pageOf va j)
    · refine ⟨len, Nat.lt_succ_self _, before, fun last => closed fun j below => ?_⟩
      rcases Nat.lt_succ_iff_lt_or_eq.mp below with less | same
      · exact before j less
      · exact same ▸ last
    · obtain ⟨j, below, first⟩ := ih before
      exact ⟨j, Nat.lt_succ_of_lt below, first⟩

/-- `copyout` returns, with zero exactly when every page of the range is open to user code, in
which case the buffer is there and nothing else has changed, and with minus one otherwise; this
holds if and only if the first page that is not open to user code, if any, has a page table. -/
theorem copyout_total_iff (m : Memory) (d va : Nat) (buf : Nat → UInt8) (len : Nat)
    (unaliased : Unaliased m d) (address : va < 4294967296) (short : len < 4294967296) :
    (∃ result next, copyout d va buf len m = .ok (result, next) ∧
        (result = 0 ↔ ∀ j, j < len → m.Accessible d (pageOf va j)) ∧
        (result = 0 → Copied m next d va buf len) ∧ (result ≠ 0 → result = -1)) ↔
      ∀ j, m.FirstClosed d va len j → m.tableAt d (pageOf va j / NPTENTRIES) ≠ none := by
  obtain ⟨whole, stops⟩ :=
    copyoutLoop_ends unaliased buf address short (Nat.lt_succ_self len)
  by_cases all : ∀ j, j < len → m.Accessible d (pageOf va j)
  · refine iff_of_true ?_ ?_
    · obtain ⟨next, ran, copied⟩ := whole all
      exact ⟨0, next, ran, iff_of_true rfl all, fun _ => copied, fun wrong => absurd rfl wrong⟩
    · rintro j ⟨below, _, closed⟩
      exact absurd (all j below) closed
  obtain ⟨j, first⟩ := exists_firstClosed all
  obtain ⟨null, refused⟩ := stops j first
  constructor
  · rintro ⟨result, next, ran, _⟩ other alsoFirst missing
    have faulted := (stops other alsoFirst).1 missing
    rw [copyout, faulted] at ran
    cases ran
  · intro tables
    obtain ⟨next, ran⟩ := refused (tables j first)
    exact ⟨-1, next, ran, iff_of_false (by decide) all, fun zero => absurd zero (by decide),
      fun _ => rfl⟩

theorem single_unaliased {page : Nat} (inside : page < PAGES) : Unaliased (single page) 1000 :=
  have personal := single_private inside fun _ => True
  ⟨fun v open_ => personal.tree v trivial open_.1,
    fun v u left right => personal.injective v u trivial trivial left.1 right.1⟩

/-- Two bytes on the only page of a process arrive there. -/
theorem copyout_total_single :
    ∃ result next, copyout 1000 7 (fun _ => 65) 2 (single 0) = .ok (result, next) ∧
      (result = 0 ↔ ∀ j, j < 2 → (single 0).Accessible 1000 (pageOf 7 j)) ∧
      (result = 0 → Copied (single 0) next 1000 7 (fun _ => 65) 2) ∧ (result ≠ 0 → result = -1) :=
  (copyout_total_iff (single 0) 1000 7 (fun _ => 65) 2 (single_unaliased (by decide)) (by decide)
    (by decide)).mpr (by
      rintro j ⟨below, _, closed⟩
      have first : pageOf 7 j = 0 := by
        simp only [pageOf, uint, PGSIZE]
        omega
      have open_ : (single 0).Accessible 1000 0 := by decide +kernel
      exact absurd (first ▸ open_) closed)

/-- A byte for an address that has no page table makes `uva2ka` read through a null pointer. -/
theorem copyout_follows_null :
    Unaliased (single 0) 1000 ∧ ¬ (single 0).Accessible 1000 (pageOf 4194304 0) ∧
      copyout 1000 4194304 (fun _ => 65) 1 (single 0) = .error .null := by
  have missing : (single 0).tableAt 1000 1 = none := by decide +kernel
  have absent : ¬ (single 0).Accessible 1000 (pageOf 4194304 0) := by
    rintro ⟨present, _⟩
    have same := (single_present (by decide) _).mp present
    exact absurd same (by decide)
  refine ⟨single_unaliased (by decide), absent, ?_⟩
  have stops := (copyoutLoop_ends (single_unaliased (by decide : 0 < PAGES))
    (fun _ => 65) (by decide : 4194304 < 4294967296) (by decide : 1 < 4294967296)
    (by decide : 1 < 2)).2
  exact (stops 0 ⟨by decide, fun i before => absurd before (Nat.not_lt_zero _), absent⟩).1 missing

end RtXv6.Vm
