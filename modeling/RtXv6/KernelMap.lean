import Mathlib.Order.Interval.Finset.Nat
import RtXv6.PageRelease

/-!
# The kernel's part of an address space

`setupkvm` maps the kernel into a new directory: four ranges of pages, whose page tables come
from the free list one at a time. The number of page tables in place counts the pages taken, so
whether the call succeeds is decided by the number of free pages alone. When it fails it gives
nothing back, and the free list is empty.
-/

namespace RtXv6.Vm

open Stateful

variable {image : Image} {m : Memory} {d : Nat}

/-- The spans of a directory that have a page table. -/
def Memory.spans (m : Memory) (d : Nat) : Finset Nat :=
  (Finset.range NPDENTRIES).filter fun index => m.tableAt d index ≠ none

variable {index : Nat}

theorem mem_spans : index ∈ m.spans d ↔ m.tableAt d index ≠ none := by
  rw [Memory.spans, Finset.mem_filter, Finset.mem_range]
  refine ⟨fun both => both.2, fun found => ⟨?_, found⟩⟩
  by_contra outside
  exact found (m.tableAt_outside d index (by omega))

/-- A range of consecutive virtual pages has been mapped to consecutive physical ones, or the
page tables ran out on the way. -/
structure Spread (image : Image) (m next : Memory) (d v count p flags : Nat) (result : Int)
    (taken : List Nat) : Prop where
  extends_ : Extends m next d taken
  owned : Owned image next d
  tables : ∀ table ∈ taken, next.Tree d table
  counted : (next.spans d).card = (m.spans d).card + taken.length
  outside : ∀ u, ¬ (v ≤ u ∧ u < v + count) → next.pteAt d u = m.pteAt d u
  within : ∀ index ∈ next.spans d, index ∈ m.spans d ∨
    ∃ u, v ≤ u ∧ u < v + count ∧ u / NPTENTRIES = index
  ended : (result = 0 ∧ ∀ u, v ≤ u → u < v + count →
      next.pteAt d u = (p + (u - v)) * PGSIZE + flags ∧ u / NPTENTRIES ∈ next.spans d) ∨
    (result = -1 ∧ next.freelist = [] ∧ ∃ u, v ≤ u ∧ u < v + count ∧
      u / NPTENTRIES ∉ next.spans d)

variable {next : Memory} {taken : List Nat} {v : Nat}

theorem Mapped.counted {entry : Nat} (mapped : Mapped image m next d v entry taken) :
    next.spans d = insert (v / NPTENTRIES) (m.spans d) ∧
      (next.spans d).card = (m.spans d).card + taken.length := by
  have spans : next.spans d = insert (v / NPTENTRIES) (m.spans d) := by
    ext index
    rw [Finset.mem_insert, mem_spans, mem_spans]
    by_cases here : index = v / NPTENTRIES
    · subst here
      exact iff_of_true mapped.found (.inl rfl)
    · rw [mapped.others index here]
      exact ⟨.inr, fun either => either.resolve_left here⟩
  refine ⟨spans, ?_⟩
  rw [spans, mapped.count]
  by_cases missing : m.tableAt d (v / NPTENTRIES) = none
  · rw [if_pos missing, Finset.card_insert_of_notMem (fun member => mem_spans.mp member missing)]
  · rw [if_neg missing, Finset.insert_eq_of_mem (mem_spans.mpr missing), Nat.add_zero]

variable {count flags : Nat} {p : Nat}

/-- No page was free for the first page table of a range. -/
theorem Spread.failed (owned : Owned image m d) (some_ : 0 < count)
    (missing : m.tableAt d (v / NPTENTRIES) = none) (empty : m.freelist = []) :
    Spread image m m d v count p flags (-1) [] := by
  refine ⟨.refl m d, owned, fun _ none => absurd none List.not_mem_nil,
    (Nat.add_zero _).symm, fun _ _ => rfl, fun _ member => .inl member,
    .inr ⟨rfl, empty, v, Nat.le_refl _, by omega, ?_⟩⟩
  exact fun member => mem_spans.mp member missing

theorem Mapped.spread (mapped : Mapped image m next d v (p * PGSIZE + flags) taken) :
    Spread image m next d v 1 p flags 0 taken := by
  obtain ⟨spans, counted⟩ := mapped.counted
  refine ⟨mapped.extends_, mapped.owned, mapped.tables, counted, ?_, ?_, .inl ⟨rfl, ?_⟩⟩
  · intro u other
    rw [mapped.ptes, if_neg (by omega)]
  · intro index member
    rw [spans, Finset.mem_insert] at member
    exact member.symm.imp_right fun here => ⟨v, Nat.le_refl _, by omega, here.symm⟩
  · intro u low high
    obtain rfl : u = v := by omega
    rw [mapped.ptes, if_pos rfl, Nat.sub_self, Nat.add_zero, spans]
    exact ⟨rfl, Finset.mem_insert_self _ _⟩

theorem Extends.spans (extended : Extends m next d taken) : m.spans d ⊆ next.spans d := by
  intro index member
  obtain ⟨pgtab, found⟩ := Option.ne_none_iff_exists'.mp (mem_spans.mp member)
  rw [mem_spans, extended.kept index pgtab found]
  exact Option.some_ne_none _

variable {more : List Nat} {result : Int}

theorem Mapped.spread_cons {middle : Memory}
    (mapped : Mapped image m middle d v (p * PGSIZE + flags) taken)
    (rest : Spread image middle next d (v + 1) count (p + 1) flags result more) :
    Spread image m next d v (count + 1) p flags result (taken ++ more) := by
  obtain ⟨spans, counted⟩ := mapped.counted
  refine ⟨mapped.extends_.trans rest.extends_, rest.owned, ?_, ?_, ?_, ?_, ?_⟩
  · intro table member
    rcases List.mem_append.mp member with old | new
    · exact rest.extends_.tree (mapped.tables table old)
    · exact rest.tables table new
  · rw [rest.counted, counted, List.length_append, Nat.add_assoc]
  · intro u other
    rw [rest.outside u (by omega), mapped.ptes, if_neg (by omega)]
  · intro index member
    rcases rest.within index member with before | ⟨u, low, high, span⟩
    · rw [spans, Finset.mem_insert] at before
      exact before.symm.imp_right fun here => ⟨v, Nat.le_refl _, by omega, here.symm⟩
    · exact .inr ⟨u, by omega, by omega, span⟩
  · rcases rest.ended with ⟨done, all⟩ | ⟨failed, empty, u, low, high, missing⟩
    · refine .inl ⟨done, fun u low high => ?_⟩
      by_cases first : u = v
      · subst first
        rw [rest.outside u (by omega), mapped.ptes, if_pos rfl, Nat.sub_self, Nat.add_zero]
        exact ⟨rfl, rest.extends_.spans (spans ▸ Finset.mem_insert_self _ _)⟩
      obtain ⟨entry, table⟩ := all u (by omega) (by omega)
      have shift : p + 1 + (u - (v + 1)) = p + (u - v) := by omega
      rw [entry, shift]
      exact ⟨rfl, table⟩
    · exact .inr ⟨failed, empty, u, by omega, by omega, missing⟩

variable {perm : Nat}

/-- What holds after the loop of `mappages` over pages that are not mapped, from what one
iteration does. The physical addresses may come round. -/
theorem mapLoop_rule (post : Memory → Nat → Nat → Nat → Int → Memory → Prop)
    (failed : ∀ {m v} count p, Owned image m d → m.tableAt d (v / NPTENTRIES) = none →
      m.freelist = [] → post m v count p (-1) m)
    (last : ∀ {m next v p taken}, Mapped image m next d v (p * PGSIZE + (perm ||| PTE_P)) taken →
      post m v 0 p 0 next)
    (more : ∀ {m middle next v count p taken result},
      Mapped image m middle d v (p * PGSIZE + (perm ||| PTE_P)) taken →
      post middle (v + 1) count ((p + 1) % PAGES) result next →
      post m v (count + 1) p result next)
    {fuel : Nat} (owned : Owned image m d)
    (absent : ∀ u, v ≤ u → u ≤ v + count → ¬ Present (m.pteAt d u)) (inside : v + count < PAGES)
    (physical : p < PAGES) (small : perm < PGSIZE) (enough : count < fuel) :
    ∃ result next,
      mapLoop d ((v + count) * PGSIZE) perm fuel (v * PGSIZE) (p * PGSIZE) m = .ok (result, next) ∧
        post m v count p result next := by
  induction count generalizing m v p fuel with
  | zero =>
    obtain ⟨fuel, rfl⟩ : ∃ less, fuel = less + 1 := ⟨fuel - 1, by omega⟩
    rw [Nat.add_zero] at inside ⊢
    rcases mapLoop_step owned inside (absent v (Nat.le_refl _) (Nat.le_refl _)) physical small
        (v * PGSIZE) fuel with
      ⟨missing, empty, ran⟩ | ⟨next, taken, mapped, ran⟩
    · exact ⟨-1, m, ran, failed _ _ owned missing empty⟩
    · rw [if_pos rfl] at ran
      exact ⟨0, next, ran, last mapped⟩
  | succ count ih =>
    obtain ⟨fuel, rfl⟩ : ∃ less, fuel = less + 1 := ⟨fuel - 1, by omega⟩
    have firstPage : v < PAGES := Nat.lt_of_le_of_lt (Nat.le_add_right _ _) inside
    rcases mapLoop_step owned firstPage (absent v (Nat.le_refl _) (Nat.le_add_right _ _))
        physical small ((v + (count + 1)) * PGSIZE) fuel with
      ⟨missing, empty, ran⟩ | ⟨middle, taken, mapped, ran⟩
    · exact ⟨-1, m, ran, failed _ _ owned missing empty⟩
    have notLast : ¬ v * PGSIZE = (v + (count + 1)) * PGSIZE := by
      simp only [PGSIZE]
      omega
    have step : uint (v * PGSIZE + PGSIZE) = (v + 1) * PGSIZE := by
      simp only [uint, PGSIZE, PAGES] at inside ⊢
      omega
    have stepPhysical : uint (p * PGSIZE + PGSIZE) = (p + 1) % PAGES * PGSIZE := by
      simp only [uint, PGSIZE, PAGES]
      omega
    have after : v + (count + 1) = v + 1 + count := by omega
    rw [if_neg notLast, step, stepPhysical, after] at ran
    obtain ⟨result, next, finished, rest⟩ := @ih middle (v + 1) ((p + 1) % PAGES) fuel
      mapped.owned (by
        intro u low high
        rw [mapped.ptes, if_neg (by omega)]
        exact absent u (by omega) (by omega)) (by omega) (Nat.mod_lt _ (by decide)) (by omega)
    refine ⟨result, next, ?_, more mapped rest⟩
    rw [after]
    exact ran.trans finished

/-- The loop of `mappages` over a range of pages that are not mapped. -/
theorem mapLoop_ends {fuel : Nat} (owned : Owned image m d)
    (absent : ∀ u, v ≤ u → u ≤ v + count → ¬ Present (m.pteAt d u)) (inside : v + count < PAGES)
    (physical : p + count < PAGES) (small : perm < PGSIZE) (enough : count < fuel) :
    ∃ result next taken,
      mapLoop d ((v + count) * PGSIZE) perm fuel (v * PGSIZE) (p * PGSIZE) m = .ok (result, next) ∧
        Spread image m next d v (count + 1) p (perm ||| PTE_P) result taken := by
  obtain ⟨result, next, ran, spread⟩ := mapLoop_rule
    (fun m v count p result next => p + count < PAGES →
      ∃ taken, Spread image m next d v (count + 1) p (perm ||| PTE_P) result taken)
    (fun _ _ owned missing empty _ => ⟨[], .failed owned (by omega) missing empty⟩)
    (fun mapped _ => ⟨_, mapped.spread⟩)
    (fun {_ _ _ _ count p _ _} mapped rest physical => by
      rw [Nat.mod_eq_of_lt (by omega)] at rest
      obtain ⟨more, spread⟩ := rest (by omega)
      exact ⟨_, mapped.spread_cons spread⟩)
    owned absent inside (Nat.lt_of_le_of_lt (Nat.le_add_right p count) physical) small enough
  obtain ⟨taken, spread⟩ := spread physical
  exact ⟨result, next, taken, ran, spread⟩

theorem mappages_ends (owned : Owned image m d) (some_ : 0 < count)
    (absent : ∀ u, v ≤ u → u < v + count → ¬ Present (m.pteAt d u)) (inside : v + count ≤ PAGES)
    (physical : p + count ≤ PAGES) (small : perm < PGSIZE) :
    ∃ result next taken,
      mappages d (v * PGSIZE) (count * PGSIZE) (p * PGSIZE) perm m = .ok (result, next) ∧
        Spread image m next d v count p (perm ||| PTE_P) result taken := by
  obtain ⟨count, rfl⟩ : ∃ less, count = less + 1 := ⟨count - 1, by omega⟩
  have first : pgRoundDown (v * PGSIZE) = v * PGSIZE := by
    simp only [pgRoundDown, PGSIZE]
    omega
  have last : pgRoundDown (uint (v * PGSIZE + (count + 1) * PGSIZE + 4294967295)) =
      (v + count) * PGSIZE := by
    simp only [pgRoundDown, uint, PGSIZE, PAGES] at inside ⊢
    omega
  rw [mappages, first, last]
  exact mapLoop_ends owned (fun u low high => absent u low (by omega)) (by omega) (by omega) small
    (by omega)

/-- Translate an address: the entry that `walkpgdir` finds for it, or zero without a page table. -/
def translate (pgdir va : Nat) : VmM Nat := do
  match ← walkpgdir pgdir va false with
  | none => pure 0
  | some pte => readEntry pte

theorem translate_run {a : Nat} (word : a < 4294967296) (m : Memory) (d : Nat) :
    translate d a m = .ok (m.pteAt d (a / PGSIZE), m) := by
  have span : pdx a = a / PGSIZE / NPTENTRIES := by
    simp only [pdx, PGSIZE, NPTENTRIES]
    omega
  rw [translate, bind_run (walkpgdir_find m d a), span, Memory.pteAt]
  cases m.tableAt d (a / PGSIZE / NPTENTRIES) with
  | none => rfl
  | some pgtab => rfl

/-- The page of an address overlaps `size` bytes at `va`. -/
def Overlaps (va size a : Nat) : Prop := va < pgRoundDown a + PGSIZE ∧ pgRoundDown a < va + size

/-- A range has been mapped to physical pages that may come round, or page tables ran out. -/
structure Ranged (m next : Memory) (d v count p flags : Nat) (result : Int) : Prop where
  outside : ∀ u, ¬ (v ≤ u ∧ u ≤ v + count) → next.pteAt d u = m.pteAt d u
  ended : result = -1 ∨ result = 0 ∧ ∀ u, v ≤ u → u ≤ v + count →
    next.pteAt d u = (p + (u - v)) % PAGES * PGSIZE + flags

theorem Mapped.ranged_cons {middle : Memory} (physical : p < PAGES)
    (mapped : Mapped image m middle d v (p * PGSIZE + flags) taken)
    (rest : Ranged middle next d (v + 1) count ((p + 1) % PAGES) flags result) :
    Ranged m next d v (count + 1) p flags result := by
  refine ⟨?_, rest.ended.imp_right fun done => ⟨done.1, ?_⟩⟩
  · intro u other
    rw [rest.outside u (by omega), mapped.ptes, if_neg (by omega)]
  · intro u low high
    by_cases first : u = v
    · subst first
      rw [rest.outside u (by omega), mapped.ptes, if_pos rfl, Nat.sub_self, Nat.add_zero,
        Nat.mod_eq_of_lt physical]
    · rw [done.2 u (by omega) (by omega), Nat.mod_add_mod]
      congr 3
      omega

/-- `mappages` maps the pages that overlap its range, and no other address is translated
differently, whether it succeeds or not. The range may end at the top of the address space. -/
theorem mappages_exact (image : Image) (m : Memory) (d va size p perm : Nat)
    (owned : Owned image m d) (some_ : 1 ≤ size) (top : va + size ≤ 4294967296)
    (physical : p < PAGES) (small : perm < PGSIZE)
    (absent : ∀ a < 4294967296, Overlaps va size a → ¬ Present (m.pteAt d (a / PGSIZE))) :
    ∃ result next, mappages d va size (p * PGSIZE) perm m = .ok (result, next) ∧
      (result = 0 ∨ result = -1) ∧
      ∀ a < 4294967296, ∃ before after, translate d a m = .ok (before, m) ∧
        translate d a next = .ok (after, next) ∧
        (¬ Overlaps va size a → after = before) ∧
        (Overlaps va size a → result = 0 → Present after ∧ pteFlags after = perm ||| PTE_P ∧
          pteAddr after * PGSIZE = uint (p * PGSIZE + (pgRoundDown a - pgRoundDown va))) := by
  obtain ⟨count, counted⟩ : ∃ count, (va + size - 1) / PGSIZE = va / PGSIZE + count :=
    ⟨(va + size - 1) / PGSIZE - va / PGSIZE, by simp only [PGSIZE]; omega⟩
  have last : pgRoundDown (uint (va + size + 4294967295)) = (va / PGSIZE + count) * PGSIZE := by
    rw [← counted]
    simp only [pgRoundDown, uint, PGSIZE]
    omega
  have overlaps : ∀ a, Overlaps va size a ↔
      va / PGSIZE ≤ a / PGSIZE ∧ a / PGSIZE ≤ va / PGSIZE + count := by
    intro a
    rw [← counted]
    simp only [Overlaps, pgRoundDown, PGSIZE]
    omega
  have inside : va / PGSIZE + count < PAGES := by
    simp only [PGSIZE, PAGES] at counted ⊢
    omega
  have unmapped : ∀ u, va / PGSIZE ≤ u → u ≤ va / PGSIZE + count → ¬ Present (m.pteAt d u) := by
    intro u low high
    have page := absent (u * PGSIZE) (by simp only [PGSIZE, PAGES] at inside high ⊢; omega)
    rw [overlaps, Nat.mul_div_cancel _ (by decide)] at page
    exact page ⟨low, high⟩
  have flags : perm ||| PTE_P < PGSIZE := Nat.or_lt_two_pow (n := 12) small (by decide)
  obtain ⟨result, next, ran, ranged⟩ := mapLoop_rule
    (fun m v count p result next => p < PAGES → Ranged m next d v count p (perm ||| PTE_P) result)
    (fun _ _ _ _ _ _ => ⟨fun _ _ => rfl, .inl rfl⟩)
    (fun mapped physical => by
      refine ⟨fun u other => ?_, .inr ⟨rfl, fun u low high => ?_⟩⟩
      · rw [mapped.ptes, if_neg (by omega)]
      · obtain rfl := Nat.le_antisymm low high
        rw [mapped.ptes, if_pos rfl, Nat.sub_self, Nat.add_zero, Nat.mod_eq_of_lt physical])
    (fun mapped rest physical => mapped.ranged_cons physical (rest (Nat.mod_lt _ (by decide))))
    owned unmapped inside physical small (Nat.lt_of_le_of_lt (Nat.le_add_left _ _) inside)
  obtain ⟨outside, ended⟩ := ranged physical
  refine ⟨result, next, by rw [mappages, last]; exact ran, ?_, ?_⟩
  · exact ended.symm.imp_left (·.1)
  · intro a word
    refine ⟨_, _, translate_run word m d, translate_run word next d, ?_, ?_⟩
    · rw [overlaps]
      exact outside _
    · rw [overlaps]
      rintro ⟨low, high⟩ rfl
      obtain ⟨_, entries⟩ := ended.resolve_left (by decide)
      rw [entries _ low high, pteFlags_add _ _ flags, pteAddr_add _ _ flags]
      refine ⟨present_mapped _ _, rfl, ?_⟩
      simp only [uint, pgRoundDown, PGSIZE, PAGES]
      omega

/-- The last page of the address space, from an unaligned address on. -/
theorem mappages_exact_top : ∃ result next,
    mappages 1000 4294963201 4095 (5 * PGSIZE) PTE_W (blank [1001]) = .ok (result, next) ∧
      (result = 0 ∨ result = -1) := by
  obtain ⟨result, next, ran, either, _⟩ := mappages_exact kernelImage (blank [1001]) 1000
    4294963201 4095 5 PTE_W (blank_owned _ (by decide) (by decide) (by decide)) (by decide)
    (by decide) (by decide) (by decide) (fun _ _ _ => blank_absent _ _)
  exact ⟨result, next, ran, either⟩

/-- A range of virtual pages mapped to consecutive physical ones. -/
structure KernelRange where
  first : Nat
  count : Nat
  phys : Nat
  perm : Nat

/-- An entry of `kmap` describes a range of pages. -/
structure Kmap.Describes (k : Kmap) (range : KernelRange) : Prop where
  virt : k.virt = range.first * PGSIZE
  size : uint (k.physEnd + 4294967296 - k.physStart) = range.count * PGSIZE
  phys : k.physStart = range.phys * PGSIZE
  perm : k.perm = range.perm

/-- The ranges of `kmap`, as pages. -/
def kernelRanges (image : Image) : List KernelRange :=
  [⟨524288, 256, 0, PTE_W⟩, ⟨524544, image.data / PGSIZE - 524544, 256, 0⟩,
    ⟨image.data / PGSIZE, 581632 - image.data / PGSIZE, image.data / PGSIZE - 524288, PTE_W⟩,
    ⟨1040384, 8192, 1040384, PTE_W⟩]

theorem data_page (image : Image) :
    image.data / PGSIZE * PGSIZE = image.data ∧ 524544 < image.data / PGSIZE ∧
      image.data / PGSIZE < 581632 := by
  have aligned := image.aligned
  have text := image.text
  have order := image.order
  have fits := image.fits
  simp only [PGSIZE, KERNLINK, KERNBASE, EXTMEM, PHYSTOP] at *
  omega

theorem kmap_describes (image : Image) :
    List.Forall₂ Kmap.Describes (kmap image) (kernelRanges image) := by
  obtain ⟨aligned, low, high⟩ := data_page image
  simp only [PGSIZE] at aligned low high
  refine .cons ⟨by decide, by decide, by decide, rfl⟩ (.cons
    ⟨(by decide : KERNLINK = 524544 * PGSIZE), ?_, (by decide : KERNLINK - KERNBASE = 256 * PGSIZE),
      rfl⟩
    (.cons ⟨aligned.symm, ?_, ?_, rfl⟩ (.cons ⟨by decide, by decide, by decide, rfl⟩ .nil)))
  · simp only [uint, PGSIZE, KERNLINK, KERNBASE, EXTMEM]
    omega
  · simp only [uint, PGSIZE, KERNBASE, PHYSTOP]
    omega
  · simp only [PGSIZE, KERNBASE]
    omega

/-- The spans of the kernel's mappings. -/
def kernelSpans : Finset Nat := Finset.Ico 512 568 ∪ Finset.Ico 1016 1024

theorem card_kernelSpans : kernelSpans.card = 64 := by
  rw [kernelSpans, Finset.card_union_of_disjoint, Nat.card_Ico, Nat.card_Ico]
  rw [Finset.disjoint_left]
  intro index low high
  rw [Finset.mem_Ico] at low high
  omega

/-- Ranges of the kernel that come one after the other. -/
def Ascending : Nat → List KernelRange → Prop
  | _, [] => True
  | bound, range :: rest =>
    (bound ≤ range.first ∧ 0 < range.count ∧ range.first + range.count ≤ PAGES ∧
      range.phys + range.count ≤ PAGES ∧ range.perm < PGSIZE ∧
      ∀ u, range.first ≤ u → u < range.first + range.count → u / NPTENTRIES ∈ kernelSpans) ∧
    Ascending (range.first + range.count) rest

theorem mem_kernelSpans :
    index ∈ kernelSpans ↔ (512 ≤ index ∧ index < 568) ∨ (1016 ≤ index ∧ index < 1024) := by
  rw [kernelSpans, Finset.mem_union, Finset.mem_Ico, Finset.mem_Ico]

theorem kernelRanges_ascending (image : Image) : Ascending 524288 (kernelRanges image) := by
  obtain ⟨_, low, high⟩ := data_page image
  simp only [kernelRanges, Ascending, mem_kernelSpans, PAGES, NPTENTRIES, PGSIZE, PTE_W] at low high ⊢
  refine ⟨⟨?_, ?_, ?_, ?_, ?_, ?_⟩, ⟨?_, ?_, ?_, ?_, ?_, ?_⟩, ⟨?_, ?_, ?_, ?_, ?_, ?_⟩,
    ⟨?_, ?_, ?_, ?_, ?_, ?_⟩, trivial⟩ <;> omega

/-- Some of the kernel's ranges have been mapped into a directory, up to a virtual page. -/
structure KernelPart (image : Image) (m next : Memory) (d bound : Nat) (taken : List Nat) :
    Prop where
  extends_ : Extends m next d taken
  owned : Owned image next d
  tables : ∀ table ∈ taken, next.Tree d table
  counted : (next.spans d).card = taken.length
  spans : next.spans d ⊆ kernelSpans
  above : ∀ v, bound ≤ v → ¬ Present (next.pteAt d v)
  user : ∀ v, v < USERPAGES → ¬ Present (next.pteAt d v)

variable {now : Memory} {bound : Nat}

theorem KernelPart.step {range : KernelRange} (part : KernelPart image m now d bound taken)
    (low : 524288 ≤ bound) (order : bound ≤ range.first)
    (within : ∀ u, range.first ≤ u → u < range.first + range.count → u / NPTENTRIES ∈ kernelSpans)
    (spread : Spread image now next d range.first range.count range.phys flags result more) :
    KernelPart image m next d (range.first + range.count) (taken ++ more) := by
  refine ⟨part.extends_.trans spread.extends_, spread.owned, ?_, ?_, ?_, ?_, ?_⟩
  · intro table member
    rcases List.mem_append.mp member with old | new
    · exact spread.extends_.tree (part.tables table old)
    · exact spread.tables table new
  · rw [spread.counted, part.counted, List.length_append]
  · intro index member
    rcases spread.within index member with old | ⟨u, above, below, span⟩
    · exact part.spans old
    · exact span ▸ within u above below
  · intro v beyond
    rw [spread.outside v (by omega)]
    exact part.above v (by omega)
  · intro v user
    have below : v < range.first := Nat.lt_of_lt_of_le user (low.trans order)
    rw [spread.outside v (by omega)]
    exact part.user v user

/-- The loop of `setupkvm`: every range gets its page tables, or the free list is empty and a
span is without one. -/
theorem mapKernel_ends {ks : List Kmap} {ranges : List KernelRange}
    (describes : List.Forall₂ Kmap.Describes ks ranges) (ascending : Ascending bound ranges)
    (low : 524288 ≤ bound) (part : KernelPart image m now d bound taken) :
    ∃ result next more last, mapKernel d ks now = .ok (result, next) ∧
      KernelPart image m next d last more ∧ now.spans d ⊆ next.spans d ∧
      ((result = some d ∧ ∀ range ∈ ranges, ∀ u, range.first ≤ u → u < range.first + range.count →
          u / NPTENTRIES ∈ next.spans d) ∨
        (result = none ∧ next.freelist = [] ∧ ∃ index ∈ kernelSpans, index ∉ next.spans d)) := by
  induction describes generalizing now bound taken with
  | nil =>
    exact ⟨some d, now, taken, bound, rfl, part, Finset.Subset.refl _,
      .inl ⟨rfl, fun _ none => absurd none List.not_mem_nil⟩⟩
  | @cons k range ks ranges describes rest ih =>
    obtain ⟨⟨order, some_, inside, physical, small, within⟩, ascending⟩ := ascending
    obtain ⟨result, next, more, ran, spread⟩ := mappages_ends part.owned some_
      (fun u above _ => part.above u (by omega)) inside physical small
    have mapped : mappages d k.virt (uint (k.physEnd + 4294967296 - k.physStart)) k.physStart k.perm
        now = .ok (result, next) := by
      rw [describes.virt, describes.size, describes.phys, describes.perm]
      exact ran
    have stepped := part.step low order within spread
    rw [mapKernel, bind_run mapped]
    rcases spread.ended with ⟨rfl, all⟩ | ⟨rfl, empty, u, above, below, missing⟩
    · obtain ⟨final, last, taken', bound', finished, whole, kept, ended⟩ :=
        ih ascending (by omega) stepped
      refine ⟨final, last, taken', bound', finished, whole, spread.extends_.spans.trans kept, ?_⟩
      rcases ended with ⟨done, others⟩ | failed
      · refine .inl ⟨done, ?_⟩
        intro other member u above below
        rcases List.mem_cons.mp member with here | later
        · subst here
          exact kept (all u above below).2
        · exact others other later u above below
      · exact .inr failed
    · exact ⟨none, next, _, _, rfl, stepped, spread.extends_.spans,
        .inr ⟨rfl, empty, _, within u above below, missing⟩⟩

/-- A directory in which the kernel is mapped, made of free pages. -/
structure KernelSpace (image : Image) (m next : Memory) (d : Nat) (taken : List Nat) : Prop where
  free : m.freelist = d :: taken ++ next.freelist
  count : taken.length = 64
  owned : Owned image next d
  tree : ∀ frame, next.Tree d frame ↔ frame ∈ d :: taken
  spans : next.spans d = kernelSpans
  user : ∀ v, v < USERPAGES → ¬ Present (next.pteAt d v)
  pages : ∀ frame, frame ∉ d :: taken → next.page frame = m.page frame

/-- The spans of all ranges together are those of the kernel. -/
theorem kernelSpans_covered (image : Image) (member : index ∈ kernelSpans) :
    ∃ range ∈ kernelRanges image, ∃ u, range.first ≤ u ∧ u < range.first + range.count ∧
      u / NPTENTRIES = index := by
  obtain ⟨_, low, high⟩ := data_page image
  rw [mem_kernelSpans] at member
  have span : index * 1024 / NPTENTRIES = index := Nat.mul_div_cancel _ (by decide)
  simp only [kernelRanges, List.mem_cons, List.not_mem_nil, or_false, exists_eq_or_imp,
    exists_eq_left]
  by_cases device : 1016 ≤ index
  · exact .inr (.inr (.inr ⟨index * 1024, by omega, by omega, span⟩))
  by_cases io : index * 1024 < 524544
  · exact .inl ⟨index * 1024, by omega, by omega, span⟩
  by_cases text : index * 1024 < image.data / PGSIZE
  · exact .inr (.inl ⟨index * 1024, by omega, by omega, span⟩)
  · exact .inr (.inr (.inl ⟨index * 1024, by omega, by omega, span⟩))

theorem KernelPart.zero (zero : m.page d = filled 0) (owned : Owned image m d) :
    KernelPart image m m d 524288 [] := by
  have missing := m.tableAt_zero zero
  have none : m.spans d = ∅ := by
    ext index
    rw [mem_spans, missing]
    simp
  have absent : ∀ v, ¬ Present (m.pteAt d v) := by
    intro v
    rw [Memory.pteAt_none (missing _), present_iff]
    decide
  refine ⟨.refl m d, owned, fun _ none => absurd none List.not_mem_nil, ?_, ?_,
    fun v _ => absent v, fun v _ => absent v⟩
  · rw [none]
    rfl
  · rw [none]
    exact Finset.empty_subset _

/-- `setupkvm` needs a page for the directory and sixty-four for page tables. With fewer it
fails, and does not give back those it has taken. -/
theorem setupkvm_ends (nodup : m.freelist.Nodup)
    (usable : ∀ frame ∈ m.freelist, image.Usable frame) :
    (m.freelist = [] ∧ setupkvm image m = .ok (none, m)) ∨
      (0 < m.freelist.length ∧ m.freelist.length < 65 ∧
        ∃ next, setupkvm image m = .ok (none, next) ∧ next.freelist = []) ∨
      (65 ≤ m.freelist.length ∧ ∃ d next taken, setupkvm image m = .ok (some d, next) ∧
        KernelSpace image m next d taken) := by
  cases first : m.freelist with
  | nil =>
    refine .inl ⟨rfl, ?_⟩
    rw [setupkvm, bind_run (kalloc_none first)]
    rfl
  | cons d rest =>
    right
    rw [first] at nodup usable
    have zero : ((m.drop rest).setPage d (filled 0)).page d = filled 0 := Memory.setPage_self _ _ _
    have owned : Owned image ((m.drop rest).setPage d (filled 0)) d :=
      .of_zero zero nodup.of_cons (fun frame member => usable frame (List.mem_cons_of_mem d member))
        (List.nodup_cons.mp nodup).1
    obtain ⟨result, next, taken, bound, ran, part, _, ended⟩ := mapKernel_ends
      (kmap_describes image) (kernelRanges_ascending image) (Nat.le_refl _)
      (.zero zero owned)
    have called : setupkvm image m = .ok (result, next) := by
      rw [setupkvm, bind_run (kalloc_some first)]
      dsimp only
      rw [bind_run (writePage_run _ _ _), if_neg (by decide)]
      exact ran
    have split : rest = taken ++ next.freelist := part.extends_.free
    have length : rest.length = taken.length + next.freelist.length := by
      rw [← List.length_append, ← split]
    rw [List.length_cons]
    rcases ended with ⟨rfl, all⟩ | ⟨rfl, empty, index, member, missing⟩
    · have spans : next.spans d = kernelSpans := by
        apply Finset.Subset.antisymm part.spans
        intro index member
        obtain ⟨range, described, u, low, high, span⟩ := kernelSpans_covered image member
        exact span ▸ all range described u low high
      have count : taken.length = 64 := by rw [← part.counted, spans, card_kernelSpans]
      have trees : ∀ frame, ((m.drop rest).setPage d (filled 0)).Tree d frame ↔ frame = d := by
        intro frame
        simp only [Memory.Tree, Memory.tableAt_zero _ zero, reduceCtorEq, exists_false, or_false]
      refine .inr ⟨by omega, d, next, taken, called, ?_⟩
      refine ⟨by rw [first, split]; rfl, count, part.owned, ?_, spans, part.user, ?_⟩
      · intro frame
        rw [List.mem_cons]
        constructor
        · intro tree
          exact (part.extends_.fresh frame tree).imp_left (trees frame).mp
        · rintro (root | table)
          · exact .inl root
          · exact part.tables frame table
      · intro frame outside
        rw [List.mem_cons, not_or] at outside
        rw [part.extends_.pages frame (fun tree => outside.1 ((trees frame).mp tree)) outside.2]
        exact Memory.setPage_other _ _ outside.1
    · have fewer : (next.spans d).card < kernelSpans.card :=
        Finset.card_lt_card ⟨part.spans, fun all => missing (all member)⟩
      rw [part.counted, card_kernelSpans] at fewer
      rw [empty] at length
      simp only [List.length_nil] at length
      exact .inl ⟨by omega, by omega, next, called, empty⟩

end RtXv6.Vm
