import Mathlib.Data.Nat.Bitwise
import RtXv6.PageTables

/-!
# What a page directory says

A page directory is read through two functions: which page holds the page table of a span of
addresses, and which entry belongs to a virtual page. Both depend on the contents of the
directory and of its page tables only, so a write to any other page keeps them. A write to
an entry changes one virtual page, and a new, zeroed page table changes none.

The pages of one directory are owned by it: they are apart from the free ones and from each
other. Under that invariant each function that walks or extends the tables has one law.
-/

namespace RtXv6.Vm

open Stateful

theorem present_iff (entry : Nat) : Present entry ↔ entry % 2 = 1 := by
  unfold Present PTE_P
  rw [Nat.and_one_is_mod]
  omega

theorem user_iff (entry : Nat) : User entry ↔ entry / 4 % 2 = 1 := by
  have bit : entry &&& PTE_U = (entry.testBit 2).toNat * 4 := Nat.and_two_pow entry 2
  rw [User, bit, Nat.testBit_eq_decide_div_mod_eq]
  by_cases set : entry / 4 % 2 = 1
  · exact iff_of_true (by rw [decide_eq_true set]; decide) set
  · exact iff_of_false (by rw [decide_eq_false set]; decide) set

/-- An address of a page and flags are put together without a carry. -/
theorem address_or_flags (frame flags : Nat) (small : flags < PGSIZE) :
    frame * PGSIZE ||| flags = frame * PGSIZE + flags := by
  rw [Nat.mul_comm]
  exact (Nat.two_pow_add_eq_or_of_lt (i := 12) small frame).symm

theorem mapped_entry (frame perm : Nat) (small : perm < PGSIZE) :
    frame * PGSIZE ||| perm ||| PTE_P = frame * PGSIZE + (perm ||| PTE_P) := by
  rw [Nat.or_assoc]
  exact address_or_flags frame _ (Nat.or_lt_two_pow (n := 12) small (by decide))

theorem table_entry (frame : Nat) :
    frame * PGSIZE ||| PTE_P ||| PTE_W ||| PTE_U = frame * PGSIZE + 7 := by
  rw [Nat.or_assoc, Nat.or_assoc]
  exact address_or_flags frame 7 (by decide)

theorem present_mapped (frame perm : Nat) : Present (frame * PGSIZE + (perm ||| PTE_P)) := by
  rw [present_iff]
  have odd : (perm ||| 1) % 2 = 1 := by
    rw [← Nat.and_one_is_mod, Nat.and_or_distrib_right]
    have bit : perm &&& 1 = 0 ∨ perm &&& 1 = 1 := by
      rw [Nat.and_one_is_mod]
      omega
    rcases bit with zero | one
    · rw [zero]
      rfl
    · rw [one]
      rfl
  simp only [PTE_P, PGSIZE]
  omega

theorem pteAddr_add (frame flags : Nat) (small : flags < PGSIZE) :
    pteAddr (frame * PGSIZE + flags) = frame := by
  simp only [pteAddr, PGSIZE] at small ⊢
  omega

theorem pteFlags_add (frame flags : Nat) (small : flags < PGSIZE) :
    pteFlags (frame * PGSIZE + flags) = flags := by
  simp only [pteFlags, PGSIZE] at small ⊢
  omega

theorem pdx_page (v : Nat) (inside : v < PAGES) : pdx (v * PGSIZE) = v / NPTENTRIES := by
  simp only [pdx, PGSIZE, PAGES, NPTENTRIES] at inside ⊢
  omega

theorem ptx_page (v : Nat) : ptx (v * PGSIZE) = v % NPTENTRIES := by
  simp only [ptx, PGSIZE, NPTENTRIES]
  omega

variable {next : Memory} {index other : Nat}

namespace Memory

@[simp] theorem setPage_self (m : Memory) (frame : Nat) (contents : Page) :
    (m.setPage frame contents).page frame = contents :=
  Function.update_self ..

variable {frame : Nat}

theorem setPage_other (m : Memory) (contents : Page) (different : other ≠ frame) :
    (m.setPage frame contents).page other = m.page other :=
  Function.update_of_ne different ..

theorem setEntry_other (m : Memory) (frame index value : Nat) (different : other ≠ frame) :
    (m.setEntry (frame, index) value).page other = m.page other :=
  setPage_other m _ different

variable {m : Memory}

theorem entryAt_congr (same : next.page frame = m.page frame) (index : Nat) :
    next.entryAt frame index = m.entryAt frame index := by
  rw [entryAt, entryAt, same]

theorem entryAt_outside (m : Memory) (frame index : Nat) (outside : NPTENTRIES ≤ index) :
    m.entryAt frame index = 0 := by
  apply Bytes.load_outside
  simp only [PGSIZE, NPTENTRIES] at outside ⊢
  omega

theorem entryAt_setEntry (m : Memory) (frame index value : Nat) (inside : index < NPTENTRIES)
    (word : value < 4294967296) :
    (m.setEntry (frame, index) value).entryAt frame index = value := by
  rw [entryAt, setEntry, setPage_self, Bytes.load_store_self]
  · exact Nat.mod_eq_of_lt word
  · simp only [NPTENTRIES, PGSIZE] at inside ⊢
    omega

theorem entryAt_setEntry_other (m : Memory) (frame index value other : Nat)
    (different : other ≠ index) :
    (m.setEntry (frame, index) value).entryAt frame other = m.entryAt frame other := by
  rw [entryAt, setEntry, setPage_self, Bytes.load_store_other]
  · rfl
  · dsimp only
    omega

/-- The page table of a span of addresses, by directory index. -/
def tableAt (m : Memory) (d index : Nat) : Option Nat :=
  if Present (m.entryAt d index) then some (pteAddr (m.entryAt d index)) else none

/-- The entry of a virtual page; without a page table it is as good as zero. -/
def pteAt (m : Memory) (d v : Nat) : Nat :=
  match m.tableAt d (v / NPTENTRIES) with
  | none => 0
  | some pgtab => m.entryAt pgtab (v % NPTENTRIES)

/-- The page that the entry of a virtual page names. -/
def frameAt (m : Memory) (d v : Nat) : Nat := pteAddr (m.pteAt d v)

/-- A page is a directory or one of its page tables. -/
def Tree (m : Memory) (d frame : Nat) : Prop := frame = d ∨ ∃ index, m.tableAt d index = some frame

variable {d : Nat} {v : Nat}

theorem pteAt_none (missing : m.tableAt d (v / NPTENTRIES) = none) : m.pteAt d v = 0 := by
  rw [pteAt, missing]

variable {pgtab : Nat}

theorem pteAt_some (found : m.tableAt d (v / NPTENTRIES) = some pgtab) :
    m.pteAt d v = m.entryAt pgtab (v % NPTENTRIES) := by
  rw [pteAt, found]

theorem exists_table (present : Present (m.pteAt d v)) :
    ∃ pgtab, m.tableAt d (v / NPTENTRIES) = some pgtab := by
  cases found : m.tableAt d (v / NPTENTRIES) with
  | none =>
    rw [pteAt_none found, present_iff] at present
    cases present
  | some pgtab => exact ⟨pgtab, rfl⟩

theorem tableAt_outside (m : Memory) (d index : Nat) (outside : NPDENTRIES ≤ index) :
    m.tableAt d index = none := by
  rw [tableAt, entryAt_outside m d index outside]
  rfl

theorem tableAt_lt (found : m.tableAt d index = some pgtab) : index < NPDENTRIES := by
  by_contra outside
  rw [tableAt_outside m d index (by omega)] at found
  cases found

theorem tableAt_congr (same : next.page d = m.page d) (index : Nat) :
    next.tableAt d index = m.tableAt d index := by
  rw [tableAt, tableAt, entryAt_congr same]

/-- Two memories that agree on a directory and its tables agree on its entries. -/
theorem pteAt_congr (same : ∀ frame, m.Tree d frame → next.page frame = m.page frame) (v : Nat) :
    next.pteAt d v = m.pteAt d v := by
  have tables := tableAt_congr (same d (.inl rfl))
  cases found : m.tableAt d (v / NPTENTRIES) with
  | none => rw [pteAt_none found, pteAt_none ((tables _).trans found)]
  | some pgtab =>
    rw [pteAt_some found, pteAt_some ((tables _).trans found),
      entryAt_congr (same pgtab (.inr ⟨_, found⟩))]

theorem Tree.congr (same : next.page d = m.page d) : next.Tree d frame ↔ m.Tree d frame := by
  simp only [Tree, tableAt_congr same]

section

variable (outside : ¬ m.Tree d frame) (contents : Page)
include outside

/-- Writing a page outside a directory and its tables keeps its page tables. -/
theorem tableAt_setPage (index : Nat) :
    (m.setPage frame contents).tableAt d index = m.tableAt d index :=
  tableAt_congr (setPage_other m _ fun same => outside (.inl same.symm)) index

/-- Writing a page outside a directory and its tables keeps its entries. -/
theorem pteAt_setPage (v : Nat) : (m.setPage frame contents).pteAt d v = m.pteAt d v := by
  apply pteAt_congr
  intro other tree
  apply setPage_other
  rintro rfl
  exact outside tree

theorem frameAt_setPage (v : Nat) : (m.setPage frame contents).frameAt d v = m.frameAt d v :=
  congrArg pteAddr (pteAt_setPage outside contents v)

end

/-- Take the first free page. -/
def drop (m : Memory) (rest : List Nat) : Memory := { m with freelist := rest }

/-- Enter a zeroed page into a directory as a page table. -/
def addTable (m : Memory) (d index pgtab : Nat) : Memory :=
  (m.setPage pgtab (filled 0)).setEntry (d, index)
    (pgtab * PGSIZE ||| PTE_P ||| PTE_W ||| PTE_U)

theorem addTable_page (m : Memory) (notTable : frame ≠ pgtab) (notDirectory : frame ≠ d) :
    (m.addTable d index pgtab).page frame = m.page frame := by
  rw [addTable, setEntry_other _ _ _ _ notDirectory, setPage_other _ _ notTable]

/-- A new table is found at its index, and the others where they were. -/
theorem tableAt_addTable (m : Memory) (different : pgtab ≠ d) (inside : index < NPDENTRIES)
    (small : pgtab < PAGES) (other : Nat) :
    (m.addTable d index pgtab).tableAt d other =
      if other = index then some pgtab else m.tableAt d other := by
  have word : pgtab * PGSIZE + 7 < 4294967296 := by
    simp only [PAGES, PGSIZE] at small ⊢
    omega
  rw [addTable, table_entry]
  by_cases same : other = index
  · subst same
    have present : Present (pgtab * PGSIZE + 7) := present_mapped pgtab 7
    rw [if_pos rfl, tableAt, entryAt_setEntry _ _ _ _ inside word, if_pos present,
      pteAddr_add _ _ (by decide)]
  · rw [if_neg same, tableAt, tableAt, entryAt_setEntry_other _ _ _ _ _ same,
      entryAt_congr (setPage_other m _ (Ne.symm different))]

theorem entryAt_zero (m : Memory) (frame index : Nat) (zero : m.page frame = filled 0) :
    m.entryAt frame index = 0 := by
  rw [entryAt, zero]
  exact Bytes.load_zero _ _

theorem tableAt_zero (m : Memory) (zero : m.page d = filled 0) (index : Nat) :
    m.tableAt d index = none := by
  rw [tableAt, entryAt_zero m d index zero]
  rfl

end Memory

/-- The pages that `kfree` accepts. -/
def Image.Usable (image : Image) (frame : Nat) : Prop :=
  image.endAddr ≤ frame * PGSIZE + KERNBASE ∧ frame * PGSIZE < PHYSTOP

instance usable_decidable (image : Image) (frame : Nat) : Decidable (image.Usable frame) :=
  inferInstanceAs (Decidable (image.endAddr ≤ frame * PGSIZE + KERNBASE ∧
    frame * PGSIZE < PHYSTOP))

section

variable {image : Image} {frame : Nat}

theorem Image.Usable.lt (usable : image.Usable frame) : frame < 57344 := by
  have below := usable.2
  simp only [PGSIZE, PHYSTOP] at below
  omega

theorem Image.Usable.pages (usable : image.Usable frame) : frame < PAGES :=
  Nat.lt_trans usable.lt (by decide)

theorem Image.Usable.pos (usable : image.Usable frame) : 0 < frame := by
  have above := usable.1
  have text := image.text
  have order := image.order
  simp only [PGSIZE, KERNBASE, KERNLINK, EXTMEM] at above text
  omega

end

/-- The pages of a directory are apart from the free ones and from each other. The free pages
are ones that `kfree` would accept, and no page is free twice. -/
structure Owned (image : Image) (m : Memory) (d : Nat) : Prop where
  nodup : m.freelist.Nodup
  usable : ∀ frame ∈ m.freelist, image.Usable frame
  apart : ∀ frame ∈ m.freelist, ¬ m.Tree d frame
  root : ∀ index, m.tableAt d index ≠ some d
  injective : ∀ index other pgtab, m.tableAt d index = some pgtab →
    m.tableAt d other = some pgtab → index = other

variable {rest taken : List Nat} {frame span value : Nat}

section

variable {image : Image} {m : Memory} {d : Nat}

@[simp] theorem readEntry_run (pte : Nat × Nat) (m : Memory) :
    readEntry pte m = .ok (m.entryAt pte.1 pte.2, m) := rfl

@[simp] theorem writeEntry_run (pte : Nat × Nat) (value : Nat) (m : Memory) :
    writeEntry pte value m = .ok ((), m.setEntry pte value) := rfl

@[simp] theorem writePage_run (frame : Nat) (contents : Page) (m : Memory) :
    writePage frame contents m = .ok ((), m.setPage frame contents) := rfl

theorem kalloc_none (empty : m.freelist = []) : kalloc m = .ok (none, m) := by
  simp only [kalloc, get_bind, empty, pure_run]

theorem kalloc_some (first : m.freelist = frame :: rest) :
    kalloc m = .ok (some frame, m.drop rest) := by
  simp only [kalloc, get_bind, first]
  rfl

theorem kfree_run (usable : image.Usable frame) (m : Memory) :
    kfree image frame m = .ok ((), m.release frame) := by
  have above := usable.1
  have below := usable.2
  simp only [PGSIZE, KERNBASE, PHYSTOP] at above below
  rw [kfree, if_neg]
  · rfl
  · simp only [uint, PGSIZE, KERNBASE, PHYSTOP]
    omega

theorem walkpgdir_find (m : Memory) (d va : Nat) :
    walkpgdir d va false m =
      .ok ((m.tableAt d (pdx va)).map (fun pgtab => (pgtab, ptx va)), m) := by
  rw [walkpgdir, bind_run (readEntry_run _ m), Memory.tableAt]
  by_cases present : Present (m.entryAt d (pdx va))
  · rw [if_pos present, if_pos present]
    rfl
  · rw [if_neg present, if_neg present, if_pos rfl]
    rfl

variable {va : Nat}

theorem walkpgdir_table {pgtab : Nat} (found : m.tableAt d (pdx va) = some pgtab) :
    walkpgdir d va true m = .ok (some (pgtab, ptx va), m) := by
  rw [walkpgdir, bind_run (readEntry_run _ m)]
  rw [Memory.tableAt] at found
  by_cases present : Present (m.entryAt d (pdx va))
  · rw [if_pos present] at found ⊢
    rw [Option.some.inj found]
    rfl
  · rw [if_neg present] at found
    cases found

theorem walkpgdir_none (missing : m.tableAt d (pdx va) = none) (empty : m.freelist = []) :
    walkpgdir d va true m = .ok (none, m) := by
  have absent : ¬ Present (m.entryAt d (pdx va)) := by
    intro present
    rw [Memory.tableAt, if_pos present] at missing
    cases missing
  rw [walkpgdir, bind_run (readEntry_run _ m), if_neg absent, if_neg (by decide),
    bind_run (kalloc_none empty)]
  rfl

theorem walkpgdir_alloc {pgtab : Nat} (missing : m.tableAt d (pdx va) = none)
    (first : m.freelist = pgtab :: rest) :
    walkpgdir d va true m =
      .ok (some (pgtab, ptx va), (m.drop rest).addTable d (pdx va) pgtab) := by
  have absent : ¬ Present (m.entryAt d (pdx va)) := by
    intro present
    rw [Memory.tableAt, if_pos present] at missing
    cases missing
  rw [walkpgdir, bind_run (readEntry_run _ m), if_neg absent, if_neg (by decide),
    bind_run (kalloc_some first)]
  rfl

namespace Memory

@[simp] theorem drop_pteAt (m : Memory) (rest : List Nat) (d v : Nat) :
    (m.drop rest).pteAt d v = m.pteAt d v := rfl

variable {pgtab : Nat}

theorem tree_addTable (different : pgtab ≠ d) (inside : index < NPDENTRIES)
    (small : pgtab < PAGES) (missing : m.tableAt d index = none) :
    (m.addTable d index pgtab).Tree d frame ↔ m.Tree d frame ∨ frame = pgtab := by
  simp only [Tree, tableAt_addTable m different inside small]
  constructor
  · rintro (root | ⟨other, found⟩)
    · exact .inl (.inl root)
    · by_cases same : other = index
      · rw [if_pos same] at found
        exact .inr (Option.some.inj found).symm
      · rw [if_neg same] at found
        exact .inl (.inr ⟨other, found⟩)
  · rintro ((root | ⟨other, found⟩) | new)
    · exact .inl root
    · refine .inr ⟨other, ?_⟩
      rw [if_neg]
      · exact found
      · rintro rfl
        rw [missing] at found
        cases found
    · exact .inr ⟨index, by rw [if_pos rfl, new]⟩

theorem pteAt_addTable (outside : ¬ m.Tree d pgtab) (inside : index < NPDENTRIES)
    (small : pgtab < PAGES) (missing : m.tableAt d index = none)
    (root : ∀ index, m.tableAt d index ≠ some d) (v : Nat) :
    (m.addTable d index pgtab).pteAt d v = m.pteAt d v := by
  have different : pgtab ≠ d := fun same => outside (.inl same)
  have tables := tableAt_addTable m different inside small
  by_cases here : v / NPTENTRIES = index
  · have zero : (m.addTable d index pgtab).page pgtab = filled 0 := by
      rw [addTable, setEntry_other _ _ _ _ different, setPage_self]
    have before : m.pteAt d v = 0 := pteAt_none (here ▸ missing)
    rw [before, pteAt_some ((tables _).trans (if_pos here)), entryAt_zero _ _ _ zero]
  cases found : m.tableAt d (v / NPTENTRIES) with
  | none => rw [pteAt_none found, pteAt_none (((tables _).trans (if_neg here)).trans found)]
  | some other =>
    have notNew : other ≠ pgtab := fun same => outside (.inr ⟨_, same ▸ found⟩)
    have notRoot : other ≠ d := fun same => root _ (same ▸ found)
    rw [pteAt_some found, pteAt_some (((tables _).trans (if_neg here)).trans found),
      entryAt_congr (addTable_page m notNew notRoot)]

theorem pteAt_setEntry {v : Nat} (found : m.tableAt d (v / NPTENTRIES) = some pgtab)
    (different : pgtab ≠ d)
    (injective : ∀ index, m.tableAt d index = some pgtab → index = v / NPTENTRIES)
    (word : value < 4294967296) (u : Nat) :
    (m.setEntry (pgtab, v % NPTENTRIES) value).pteAt d u =
      if u = v then value else m.pteAt d u := by
  have tables := tableAt_congr (setEntry_other m pgtab (v % NPTENTRIES) value (Ne.symm different))
  by_cases same : u = v
  · subst same
    rw [if_pos rfl, pteAt_some ((tables _).trans found), entryAt_setEntry]
    · exact Nat.mod_lt _ (by decide)
    · exact word
  rw [if_neg same]
  cases other : m.tableAt d (u / NPTENTRIES) with
  | none => rw [pteAt_none other, pteAt_none ((tables _).trans other)]
  | some table =>
    rw [pteAt_some other, pteAt_some ((tables _).trans other)]
    by_cases shared : table = pgtab
    · subst shared
      apply entryAt_setEntry_other
      have span := injective _ other
      intro index
      apply same
      rw [← Nat.div_add_mod u NPTENTRIES, ← Nat.div_add_mod v NPTENTRIES, span, index]
    · exact entryAt_congr (setEntry_other m _ _ _ shared) _

end Memory

namespace Owned

/-- The invariant depends on the free list and on the pages of the directory. -/
theorem congr (owned : Owned image m d) (free : next.freelist = m.freelist)
    (same : next.page d = m.page d) : Owned image next d where
  nodup := free ▸ owned.nodup
  usable := free ▸ owned.usable
  apart := by
    rw [free]
    intro frame member tree
    exact owned.apart frame member ((Memory.Tree.congr same).mp tree)
  root := by simpa only [Memory.tableAt_congr same] using owned.root
  injective := by simpa only [Memory.tableAt_congr same] using owned.injective

theorem of_zero (zero : m.page d = filled 0) (nodup : m.freelist.Nodup)
    (usable : ∀ frame ∈ m.freelist, image.Usable frame) (apart : d ∉ m.freelist) :
    Owned image m d := by
  have empty := m.tableAt_zero zero
  refine ⟨nodup, usable, ?_, ?_, ?_⟩
  · rintro frame member (root | ⟨index, found⟩)
    · exact apart (root ▸ member)
    · rw [empty] at found
      cases found
  · intro index found
    rw [empty] at found
    cases found
  · intro index other pgtab found
    rw [empty] at found
    cases found

theorem drop (owned : Owned image m d) (first : m.freelist = frame :: rest) :
    Owned image (m.drop rest) d where
  nodup := by
    have nodup := owned.nodup
    rw [first] at nodup
    exact nodup.of_cons
  usable := fun other member => owned.usable other (first ▸ List.mem_cons_of_mem frame member)
  apart := fun other member => owned.apart other (first ▸ List.mem_cons_of_mem frame member)
  root := owned.root
  injective := owned.injective

theorem setPage (owned : Owned image m d) (outside : ¬ m.Tree d frame) (contents : Page) :
    Owned image (m.setPage frame contents) d :=
  owned.congr rfl (Memory.setPage_other m _ fun same => outside (.inl same.symm))

variable {pgtab : Nat}

variable (owned : Owned image m d)
include owned

/-- A page that is not free and not in the directory becomes a page table. -/
theorem addTable (outside : ¬ m.Tree d pgtab) (taken : pgtab ∉ m.freelist)
    (inside : index < NPDENTRIES) (small : pgtab < PAGES) (missing : m.tableAt d index = none) :
    Owned image (m.addTable d index pgtab) d := by
  have different : pgtab ≠ d := fun same => outside (.inl same)
  have tables := Memory.tableAt_addTable m different inside small
  refine ⟨owned.nodup, owned.usable, ?_, ?_, ?_⟩
  · intro frame member tree
    rcases (Memory.tree_addTable different inside small missing).mp tree with old | new
    · exact owned.apart frame member old
    · exact taken (new ▸ member)
  · intro other
    rw [tables]
    split
    · exact fun same => different (Option.some.inj same)
    · exact owned.root other
  · intro left right table
    rw [tables, tables]
    split
    · rename_i here
      split
      · rename_i there
        exact fun _ _ => here.trans there.symm
      · intro new old
        exact absurd (.inr ⟨right, Option.some.inj new ▸ old⟩) outside
    · split
      · intro old new
        exact absurd (.inr ⟨left, Option.some.inj new ▸ old⟩) outside
      · exact owned.injective left right table

theorem page_setEntry (found : m.tableAt d span = some pgtab) (index value : Nat) :
    (m.setEntry (pgtab, index) value).page d = m.page d := by
  apply Memory.setEntry_other
  rintro rfl
  exact owned.root _ found

theorem setEntry (found : m.tableAt d span = some pgtab) (index value : Nat) :
    Owned image (m.setEntry (pgtab, index) value) d :=
  owned.congr rfl (owned.page_setEntry found index value)

theorem pteAt_setEntry {v : Nat} (found : m.tableAt d (v / NPTENTRIES) = some pgtab)
    (word : value < 4294967296) (u : Nat) :
    (m.setEntry (pgtab, v % NPTENTRIES) value).pteAt d u =
      if u = v then value else m.pteAt d u := by
  apply Memory.pteAt_setEntry found _ _ word
  · rintro rfl
    exact owned.root _ found
  · exact fun index also => owned.injective _ _ _ also found

end Owned

/-- Pages have been taken off the free list for a directory; nothing has been written but
these pages and the ones of the directory, and its page tables are still in place. -/
structure Extends (m next : Memory) (d : Nat) (taken : List Nat) : Prop where
  free : m.freelist = taken ++ next.freelist
  kept : ∀ index pgtab, m.tableAt d index = some pgtab → next.tableAt d index = some pgtab
  fresh : ∀ frame, next.Tree d frame → m.Tree d frame ∨ frame ∈ taken
  pages : ∀ frame, ¬ m.Tree d frame → frame ∉ taken → next.page frame = m.page frame

namespace Extends

theorem refl (m : Memory) (d : Nat) : Extends m m d [] :=
  ⟨rfl, fun _ _ found => found, fun _ tree => .inl tree, fun _ _ _ => rfl⟩

theorem trans {final : Memory} {more : List Nat} (first : Extends m next d taken)
    (second : Extends next final d more) : Extends m final d (taken ++ more) where
  free := by rw [first.free, second.free, List.append_assoc]
  kept := fun index pgtab found => second.kept index pgtab (first.kept index pgtab found)
  fresh := by
    intro frame tree
    rw [List.mem_append]
    rcases second.fresh frame tree with middle | new
    · exact (first.fresh frame middle).imp_right .inl
    · exact .inr (.inr new)
  pages := by
    intro frame outside untaken
    rw [List.mem_append] at untaken
    have middle : ¬ next.Tree d frame := by
      intro tree
      rcases first.fresh frame tree with old | new
      · exact outside old
      · exact untaken (.inl new)
    rw [second.pages frame middle (fun new => untaken (.inr new)),
      first.pages frame outside (fun new => untaken (.inl new))]

theorem tree (extended : Extends m next d taken) (tree : m.Tree d frame) : next.Tree d frame := by
  rcases tree with root | ⟨index, found⟩
  · exact .inl root
  · exact .inr ⟨index, extended.kept index frame found⟩

variable {pgtab : Nat}

theorem setEntry (owned : Owned image m d) (found : m.tableAt d span = some pgtab)
    (index value : Nat) : Extends m (m.setEntry (pgtab, index) value) d [] := by
  have same := owned.page_setEntry found index value
  refine ⟨rfl, ?_, fun _ tree => .inl ((Memory.Tree.congr same).mp tree), ?_⟩
  · intro other table there
    rw [Memory.tableAt_congr same, there]
  · intro frame outside _
    apply Memory.setEntry_other
    rintro rfl
    exact outside (.inr ⟨_, found⟩)

theorem addTable (owned : Owned image m d) (inside : index < NPDENTRIES)
    (missing : m.tableAt d index = none) (first : m.freelist = pgtab :: rest) :
    Extends m ((m.drop rest).addTable d index pgtab) d [pgtab] := by
  have member : pgtab ∈ m.freelist := first ▸ List.mem_cons_self
  have different : pgtab ≠ d := fun same => owned.apart pgtab member (.inl same)
  have small := (owned.usable pgtab member).pages
  refine ⟨first, ?_, ?_, ?_⟩
  · intro other table found
    rw [Memory.tableAt_addTable _ different inside small, if_neg]
    · exact found
    · rintro rfl
      rw [missing] at found
      cases found
  · intro frame tree
    rw [List.mem_singleton]
    exact (Memory.tree_addTable different inside small missing).mp tree
  · intro frame outside untaken
    exact Memory.addTable_page _ (fun same => untaken (same ▸ List.mem_cons_self))
      (fun same => outside (.inl same))

end Extends

/-- The page table for an address has been found or created. -/
structure Opened (image : Image) (m next : Memory) (d index pgtab : Nat) (taken : List Nat) :
    Prop where
  extends_ : Extends m next d taken
  owned : Owned image next d
  found : next.tableAt d index = some pgtab
  others : ∀ other, other ≠ index → next.tableAt d other = m.tableAt d other
  ptes : ∀ v, next.pteAt d v = m.pteAt d v
  tables : ∀ table ∈ taken, next.Tree d table
  count : taken.length = if m.tableAt d index = none then 1 else 0

/-- `walkpgdir` with allocation finds or creates the page table, unless it is missing and no
page is free. -/
theorem walkpgdir_opens (owned : Owned image m d) (va : Nat) :
    (m.tableAt d (pdx va) = none ∧ m.freelist = [] ∧
        walkpgdir d va true m = .ok (none, m)) ∨
      ∃ next pgtab taken, Opened image m next d (pdx va) pgtab taken ∧
        walkpgdir d va true m = .ok (some (pgtab, ptx va), next) := by
  have inside : pdx va < NPDENTRIES := Nat.mod_lt _ (by decide)
  cases found : m.tableAt d (pdx va) with
  | some pgtab =>
    refine .inr ⟨m, pgtab, [], ?_, walkpgdir_table found⟩
    exact ⟨.refl m d, owned, found, fun _ _ => rfl, fun _ => rfl,
      fun _ none => absurd none List.not_mem_nil, by rw [found]; rfl⟩
  | none =>
    cases first : m.freelist with
    | nil => exact .inl ⟨rfl, rfl, walkpgdir_none found first⟩
    | cons pgtab rest =>
      have member : pgtab ∈ m.freelist := first ▸ List.mem_cons_self
      have different : pgtab ≠ d := fun same => owned.apart pgtab member (.inl same)
      have small := (owned.usable pgtab member).pages
      have untaken : pgtab ∉ rest := by
        have nodup := owned.nodup
        rw [first] at nodup
        exact (List.nodup_cons.mp nodup).1
      have tables := Memory.tableAt_addTable (m.drop rest) different inside small
      refine .inr ⟨_, pgtab, [pgtab], ?_, walkpgdir_alloc found first⟩
      refine ⟨.addTable owned inside found first, ?_, ?_, ?_, ?_, ?_, by rw [found]; rfl⟩
      · exact (owned.drop first).addTable (owned.apart pgtab member) untaken inside small found
      · rw [tables, if_pos rfl]
      · intro other notHere
        rw [tables, if_neg notHere]
        rfl
      · exact Memory.pteAt_addTable (m := m.drop rest) (owned.apart pgtab member) inside small found
          owned.root
      · intro table new
        obtain rfl := List.mem_singleton.mp new
        exact .inr ⟨_, (tables _).trans (if_pos rfl)⟩

/-- One virtual page has got an entry. -/
structure Mapped (image : Image) (m next : Memory) (d v entry : Nat) (taken : List Nat) : Prop where
  extends_ : Extends m next d taken
  owned : Owned image next d
  ptes : ∀ u, next.pteAt d u = if u = v then entry else m.pteAt d u
  found : next.tableAt d (v / NPTENTRIES) ≠ none
  others : ∀ index, index ≠ v / NPTENTRIES → next.tableAt d index = m.tableAt d index
  tables : ∀ table ∈ taken, next.Tree d table
  count : taken.length = if m.tableAt d (v / NPTENTRIES) = none then 1 else 0

variable (owned : Owned image m d) {v p perm : Nat} (inside : v < PAGES)
  (absent : ¬ Present (m.pteAt d v)) (physical : p < PAGES) (small : perm < PGSIZE)
include owned inside absent physical small

theorem mapLoop_step (last fuel : Nat) :
    (m.tableAt d (v / NPTENTRIES) = none ∧ m.freelist = [] ∧
        mapLoop d last perm (fuel + 1) (v * PGSIZE) (p * PGSIZE) m = .ok (-1, m)) ∨
      ∃ next taken, Mapped image m next d v (p * PGSIZE + (perm ||| PTE_P)) taken ∧
        mapLoop d last perm (fuel + 1) (v * PGSIZE) (p * PGSIZE) m =
          if v * PGSIZE = last then .ok (0, next)
          else mapLoop d last perm fuel (uint (v * PGSIZE + PGSIZE)) (uint (p * PGSIZE + PGSIZE))
            next := by
  have word : p * PGSIZE + (perm ||| PTE_P) < 4294967296 := by
    have bound : perm ||| PTE_P < 2 ^ 12 := Nat.or_lt_two_pow (n := 12) small (by decide)
    simp only [PAGES, PGSIZE] at physical ⊢
    omega
  have walk := walkpgdir_opens owned (v * PGSIZE)
  rw [pdx_page v inside, ptx_page] at walk
  rcases walk with ⟨missing, empty, walked⟩ | ⟨middle, pgtab, taken, opened, walked⟩
  · refine .inl ⟨missing, empty, ?_⟩
    rw [mapLoop, bind_run walked]
    rfl
  right
  have entry : middle.entryAt pgtab (v % NPTENTRIES) = m.pteAt d v := by
    rw [← opened.ptes, Memory.pteAt_some opened.found]
  refine ⟨middle.setEntry (pgtab, v % NPTENTRIES) (p * PGSIZE + (perm ||| PTE_P)), taken, ?_, ?_⟩
  · have stored := Extends.setEntry opened.owned opened.found (v % NPTENTRIES)
      (p * PGSIZE + (perm ||| PTE_P))
    refine ⟨?_, opened.owned.setEntry opened.found _ _, ?_, ?_, ?_, ?_, opened.count⟩
    · simpa only [List.append_nil] using opened.extends_.trans stored
    · intro u
      rw [opened.owned.pteAt_setEntry opened.found word, opened.ptes]
    · rw [stored.kept _ _ opened.found]
      exact Option.some_ne_none _
    · intro index other
      rw [Memory.tableAt_congr (opened.owned.page_setEntry opened.found _ _),
        opened.others index other]
    · exact fun table new => stored.tree (opened.tables table new)
  · rw [mapLoop, bind_run walked]
    dsimp only
    rw [bind_run (readEntry_run _ middle), entry, if_neg absent,
      bind_run (writeEntry_run _ _ middle), mapped_entry p perm small]
    split <;> rfl

theorem mappages_page :
    (m.tableAt d (v / NPTENTRIES) = none ∧ m.freelist = [] ∧
        mappages d (v * PGSIZE) PGSIZE (p * PGSIZE) perm m = .ok (-1, m)) ∨
      ∃ next taken, Mapped image m next d v (p * PGSIZE + (perm ||| PTE_P)) taken ∧
        mappages d (v * PGSIZE) PGSIZE (p * PGSIZE) perm m = .ok (0, next) := by
  have first : pgRoundDown (v * PGSIZE) = v * PGSIZE := by
    simp only [pgRoundDown, PGSIZE]
    omega
  have last : pgRoundDown (uint (v * PGSIZE + PGSIZE + 4294967295)) = v * PGSIZE := by
    simp only [pgRoundDown, uint, PGSIZE, PAGES] at inside ⊢
    omega
  rw [mappages, first, last]
  rcases mapLoop_step owned inside absent physical small (v * PGSIZE) 1048575 with
    failed | ⟨next, taken, mapped, ran⟩
  · exact .inl failed
  · exact .inr ⟨next, taken, mapped, ran.trans (if_pos rfl)⟩

end

end RtXv6.Vm
