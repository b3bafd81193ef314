import RtXv6.PageRelease

/-!
# Pages added one after the other

`allocuvm` and `copyuvm` fill a range of virtual pages from its start: each page takes a free
page for its contents and, where its span has no page table yet, a second one for the table.
How many free pages are taken before a given virtual page is therefore fixed by the directory
at the beginning, and so is the first request that an exhausted free list refuses.
-/

namespace RtXv6.Vm

open Stateful

variable {image : Image} {m : Memory} {d : Nat}

/-- A free page has got contents and a place in an address space. -/
structure Placed (image : Image) (m next : Memory) (d v frame flags : Nat) (contents : Page)
    (taken : List Nat) : Prop where
  extends_ : Extends m next d (frame :: taken)
  owned : Owned image next d
  ptes : ∀ u, next.pteAt d u = if u = v then frame * PGSIZE + flags else m.pteAt d u
  page : next.page frame = contents
  apart : ¬ next.Tree d frame
  found : next.tableAt d (v / NPTENTRIES) ≠ none
  others : ∀ index, index ≠ v / NPTENTRIES → next.tableAt d index = m.tableAt d index
  tables : ∀ table ∈ taken, next.Tree d table
  count : taken.length = if m.tableAt d (v / NPTENTRIES) = none then 1 else 0

variable {frame : Nat}

/-- A page taken off the free list and filled is entered into the tables, unless the page table
is missing and this was the last free page. -/
theorem place (owned : Owned image m d) {v perm : Nat} {rest : List Nat} (contents : Page)
    (first : m.freelist = frame :: rest) (inside : v < PAGES) (absent : ¬ Present (m.pteAt d v))
    (small : perm < PGSIZE) :
    (m.tableAt d (v / NPTENTRIES) = none ∧ rest = [] ∧
        mappages d (v * PGSIZE) PGSIZE (frame * PGSIZE) perm ((m.drop rest).setPage frame contents) =
          .ok (-1, (m.drop rest).setPage frame contents)) ∨
      ∃ next taken, Placed image m next d v frame (perm ||| PTE_P) contents taken ∧
        mappages d (v * PGSIZE) PGSIZE (frame * PGSIZE) perm ((m.drop rest).setPage frame contents) =
          .ok (0, next) := by
  have member : frame ∈ m.freelist := first ▸ List.mem_cons_self
  have outside := owned.apart frame member
  have filled : Owned image ((m.drop rest).setPage frame contents) d :=
    (owned.drop first).setPage outside contents
  have kept : ∀ u, ((m.drop rest).setPage frame contents).pteAt d u = m.pteAt d u :=
    Memory.pteAt_setPage (m := m.drop rest) outside contents
  have tables : ∀ index, ((m.drop rest).setPage frame contents).tableAt d index =
      m.tableAt d index := Memory.tableAt_setPage (m := m.drop rest) outside contents
  have trees : ∀ other, ((m.drop rest).setPage frame contents).Tree d other ↔ m.Tree d other :=
    fun other => by simp only [Memory.Tree, tables]
  have untaken : frame ∉ rest := by
    have nodup := owned.nodup
    rw [first] at nodup
    exact (List.nodup_cons.mp nodup).1
  have step : Extends m ((m.drop rest).setPage frame contents) d [frame] := by
    refine ⟨first, fun index pgtab found => (tables index).trans found,
      fun other tree => .inl ((trees other).mp tree), ?_⟩
    intro other _ different
    exact Memory.setPage_other (m.drop rest) _ (fun equal => different (equal ▸ List.mem_cons_self))
  rcases mappages_page filled inside (by rwa [kept]) (owned.usable frame member).pages small with
    ⟨missing, empty, ran⟩ | ⟨next, taken, mapped, ran⟩
  · exact .inl ⟨(tables _).symm.trans missing, empty, ran⟩
  have among : ∀ pgtab ∈ taken, pgtab ∈ rest := by
    intro pgtab new
    have free : rest = taken ++ next.freelist := mapped.extends_.free
    rw [free]
    exact List.mem_append_left _ new
  have distinct : frame ∉ taken := fun new => untaken (among frame new)
  have apart : ¬ next.Tree d frame := by
    intro tree
    rcases mapped.extends_.fresh frame tree with old | new
    · exact outside ((trees frame).mp old)
    · exact distinct new
  refine .inr ⟨next, taken, ?_, ran⟩
  refine ⟨step.trans mapped.extends_, mapped.owned, ?_, ?_, apart, mapped.found, ?_, mapped.tables,
    ?_⟩
  · intro u
    rw [mapped.ptes, kept]
  · rw [mapped.extends_.pages frame (fun tree => outside ((trees frame).mp tree)) distinct]
    exact Memory.setPage_self _ _ _
  · intro index other
    rw [mapped.others index other, tables]
  · rw [mapped.count, tables]

/-- Filling the pages from a start on, a page needs a page table when its span has none and it
is the first page of the range in it. -/
def Memory.NeedsTable (m : Memory) (d start v : Nat) : Prop :=
  m.tableAt d (v / NPTENTRIES) = none ∧ (v = start ∨ v % NPTENTRIES = 0)

instance needsTable_decidable (m : Memory) (d start v : Nat) : Decidable (m.NeedsTable d start v) :=
  inferInstanceAs (Decidable (m.tableAt d (v / NPTENTRIES) = none ∧
    (v = start ∨ v % NPTENTRIES = 0)))

/-- The free pages that filling `count` pages from a start on takes: one for each page and one
for each missing page table. -/
def Memory.demand (m : Memory) (d start : Nat) : Nat → Nat
  | 0 => 0
  | count + 1 =>
    m.demand d start count + (if m.NeedsTable d start (start + count) then 2 else 1)

/-- The pages from a start on have been filled, as many as `count`. -/
structure Grown (image : Image) (m next : Memory) (d start count : Nat) (flags : Nat → Nat)
    (contents : Nat → Page) (taken : List Nat) : Prop where
  extends_ : Extends m next d taken
  nodup : m.freelist.Nodup
  owned : Owned image next d
  inside : ∀ v, start ≤ v → v < start + count →
    next.pteAt d v = next.frameAt d v * PGSIZE + flags v ∧ Present (next.pteAt d v) ∧
      next.frameAt d v ∈ taken ∧ ¬ next.Tree d (next.frameAt d v) ∧
      next.page (next.frameAt d v) = contents v
  injective : ∀ v u, start ≤ v → v < start + count → start ≤ u → u < start + count →
    next.frameAt d v = next.frameAt d u → v = u
  outside : ∀ v, ¬ (start ≤ v ∧ v < start + count) → next.pteAt d v = m.pteAt d v
  accounted : ∀ frame ∈ taken, next.Tree d frame ∨
    ∃ v, start ≤ v ∧ v < start + count ∧ next.frameAt d v = frame
  tables : ∀ index, next.tableAt d index = none ↔
    m.tableAt d index = none ∧ ∀ v, start ≤ v → v < start + count → v / NPTENTRIES ≠ index
  count : taken.length = m.demand d start count

variable {taken : List Nat} {next now : Memory}

namespace Grown

variable {start count : Nat} {flags : Nat → Nat} {contents : Nat → Page}

theorem zero (owned : Owned image m d) : Grown image m m d start 0 flags contents [] := by
  refine ⟨.refl m d, owned.nodup, owned, ?_, ?_, fun _ _ => rfl, ?_, ?_, rfl⟩
  · intro v low high
    omega
  · intro v u low high
    omega
  · exact fun _ none => absurd none List.not_mem_nil
  · intro index
    constructor
    · intro missing
      exact ⟨missing, fun v low high => by omega⟩
    · exact fun both => both.1

/-- A page table is missing for the next page exactly when it was missing at the beginning and
this is the first page of the range that needs it. -/
theorem missing_iff (grown : Grown image m next d start count flags contents taken) :
    next.tableAt d ((start + count) / NPTENTRIES) = none ↔
      m.NeedsTable d start (start + count) := by
  rw [grown.tables, Memory.NeedsTable]
  refine and_congr_right fun _ => ?_
  constructor
  · intro none
    by_contra both
    rw [not_or] at both
    have before := none (start + count - 1) (by omega) (by omega)
    simp only [NPTENTRIES] at both before
    omega
  · intro either v low high
    simp only [NPTENTRIES] at either ⊢
    omega

theorem step {final : Memory} {more : List Nat}
    (grown : Grown image m next d start count flags contents taken)
    (placed : Placed image next final d (start + count) frame (flags (start + count))
      (contents (start + count)) more) (present : flags (start + count) % 2 = 1)
    (small : flags (start + count) < PGSIZE) :
    Grown image m final d start (count + 1) flags contents (taken ++ frame :: more) := by
  have here : final.pteAt d (start + count) = frame * PGSIZE + flags (start + count) := by
    rw [placed.ptes, if_pos rfl]
  have hereFrame : final.frameAt d (start + count) = frame := by
    rw [Memory.frameAt, here, pteAddr_add frame _ small]
  have there : ∀ v, v ≠ start + count → final.pteAt d v = next.pteAt d v := fun v other => by
    rw [placed.ptes, if_neg other]
  have thereFrame : ∀ v, v ≠ start + count → final.frameAt d v = next.frameAt d v :=
    fun v other => by rw [Memory.frameAt, Memory.frameAt, there v other]
  have disjoint : ∀ old ∈ taken, old ∉ frame :: more := by
    intro old member new
    have nodup := grown.nodup
    rw [grown.extends_.free, placed.extends_.free, List.nodup_append] at nodup
    exact nodup.2.2 old member old (List.mem_append_left _ new) rfl
  have old : ∀ v, start ≤ v → v < start + count →
      ¬ final.Tree d (next.frameAt d v) ∧
        final.page (next.frameAt d v) = next.page (next.frameAt d v) := by
    intro v low high
    obtain ⟨_, _, member, apart, _⟩ := grown.inside v low high
    refine ⟨fun tree => ?_, placed.extends_.pages _ apart (disjoint _ member)⟩
    rcases placed.extends_.fresh _ tree with before | new
    · exact apart before
    · exact disjoint _ member new
  refine ⟨grown.extends_.trans placed.extends_, grown.nodup, placed.owned, ?_, ?_, ?_, ?_, ?_, ?_⟩
  · intro v low high
    by_cases last : v = start + count
    · subst last
      rw [here, hereFrame]
      refine ⟨rfl, ?_, List.mem_append_right _ List.mem_cons_self, placed.apart, placed.page⟩
      rw [present_iff]
      simp only [PGSIZE]
      omega
    · obtain ⟨entry, shown, member, _, page⟩ := grown.inside v low (by omega)
      obtain ⟨apart, kept⟩ := old v low (by omega)
      rw [there v last, thereFrame v last]
      exact ⟨entry, shown, List.mem_append_left _ member, apart, kept.trans page⟩
  · intro v u lowLeft highLeft lowRight highRight same
    by_cases left : v = start + count
    · by_cases right : u = start + count
      · exact left.trans right.symm
      · rw [left, hereFrame, thereFrame u right] at same
        have member := (grown.inside u lowRight (by omega)).2.2.1
        exact absurd (same ▸ List.mem_cons_self) (disjoint _ member)
    by_cases right : u = start + count
    · rw [right, hereFrame, thereFrame v left] at same
      have member := (grown.inside v lowLeft (by omega)).2.2.1
      exact absurd (same ▸ List.mem_cons_self) (disjoint _ member)
    · rw [thereFrame v left, thereFrame u right] at same
      exact grown.injective v u lowLeft (by omega) lowRight (by omega) same
  · intro v other
    rw [there v (by omega), grown.outside v (by omega)]
  · intro page member
    rcases List.mem_append.mp member with before | new
    · rcases grown.accounted page before with tree | ⟨v, low, high, same⟩
      · exact .inl (placed.extends_.tree tree)
      · exact .inr ⟨v, low, by omega, (thereFrame v (by omega)).trans same⟩
    · rcases List.mem_cons.mp new with same | table
      · exact .inr ⟨start + count, by omega, by omega, hereFrame.trans same.symm⟩
      · exact .inl (placed.tables page table)
  · intro index
    by_cases span : index = (start + count) / NPTENTRIES
    · subst span
      constructor
      · exact fun missing => absurd missing placed.found
      · exact fun both => absurd rfl (both.2 (start + count) (by omega) (by omega))
    rw [placed.others index span, grown.tables]
    refine and_congr_right fun _ => ?_
    constructor
    · intro none v low high
      by_cases last : v = start + count
      · exact fun same => span (last ▸ same.symm)
      · exact none v low (by omega)
    · exact fun none v low high => none v low (by omega)
  · rw [List.length_append, List.length_cons, placed.count, grown.count, Memory.demand]
    simp only [grown.missing_iff]
    split <;> omega

/-- Pages that have been filled are the range's own, as long as the rest of the range is not
mapped. -/
theorem personal {stop : Nat} (owned : Owned image m d)
    (grown : Grown image m now d start count flags contents taken)
    (absent : ∀ v, start ≤ v → v < stop → ¬ Present (m.pteAt d v)) :
    Private image now d fun v => start ≤ v ∧ v < stop := by
  have filled : ∀ v, start ≤ v ∧ v < stop → Present (now.pteAt d v) → v < start + count := by
    intro v range present
    by_contra beyond
    rw [grown.outside v (fun both => beyond both.2)] at present
    exact absent v range.1 range.2 present
  refine ⟨?_, ?_, ?_, ?_⟩
  · intro v range present
    have member := (grown.inside v range.1 (filled v range present)).2.2.1
    exact owned.usable _ (grown.extends_.free ▸ List.mem_append_left _ member)
  · intro v range present free
    have member := (grown.inside v range.1 (filled v range present)).2.2.1
    have nodup := grown.nodup
    rw [grown.extends_.free, List.nodup_append] at nodup
    exact nodup.2.2 _ member _ free rfl
  · intro v range present
    exact (grown.inside v range.1 (filled v range present)).2.2.2.1
  · intro v u left right leftPresent rightPresent
    exact grown.injective v u left.1 (filled v left leftPresent) right.1
      (filled u right rightPresent)

/-- A page that was free before is free, a new page table, or in the range. -/
theorem whereabouts (grown : Grown image m now d start count flags contents taken)
    (owned : Owned image m d) (member : frame ∈ m.freelist) :
    frame ∈ now.freelist ∨ (∃ index, m.tableAt d index = none ∧ now.tableAt d index = some frame) ∨
      ∃ v, start ≤ v ∧ v < start + count ∧ now.frameAt d v = frame := by
  rw [grown.extends_.free, List.mem_append] at member
  rcases member with new | free
  · right
    rcases grown.accounted frame new with tree | page
    · left
      have before : ¬ m.Tree d frame :=
        owned.apart frame (grown.extends_.free ▸ List.mem_append_left _ new)
      rcases tree with root | ⟨index, found⟩
      · exact absurd (.inl root) before
      refine ⟨index, ?_, found⟩
      cases old : m.tableAt d index with
      | none => rfl
      | some pgtab =>
        have same := (grown.extends_.kept index pgtab old).symm.trans found
        exact absurd (.inr ⟨index, old.trans same⟩) before
    · exact .inr page
  · exact .inl free

end Grown

variable {count : Nat}

theorem demand_lt (m : Memory) (d start : Nat) {more : Nat} (less : count < more) :
    m.demand d start count < m.demand d start more := by
  induction more with
  | zero => exact absurd less (Nat.not_lt_zero _)
  | succ more ih =>
    have step : m.demand d start more < m.demand d start (more + 1) := by
      rw [Memory.demand]
      split <;> omega
    rcases Nat.lt_succ_iff_lt_or_eq.mp less with before | same
    · exact Nat.lt_trans (ih before) step
    · exact same ▸ step

variable {start : Nat}

theorem demand_table (needs : m.NeedsTable d start (start + count)) :
    m.demand d start (count + 1) = m.demand d start count + 2 := by
  rw [Memory.demand, if_pos needs]

/-- When the next page needs a page table, no number of pages takes exactly one page more. -/
theorem demand_gap (needs : m.NeedsTable d start (start + count)) (other : Nat) :
    (other ≤ count ∧ m.demand d start other ≤ m.demand d start count) ∨
      (count < other ∧ m.demand d start count + 2 ≤ m.demand d start other) := by
  have two := demand_table needs
  rcases Nat.lt_trichotomy other count with less | same | more
  · exact .inl ⟨Nat.le_of_lt less, Nat.le_of_lt (demand_lt m d start less)⟩
  · exact .inl ⟨Nat.le_of_eq same, Nat.le_of_eq (congrArg _ same)⟩
  refine .inr ⟨more, ?_⟩
  have least : count + 1 ≤ other := more
  rcases Nat.lt_or_eq_of_le least with beyond | next
  · have := demand_lt m d start beyond
    omega
  · have same : m.demand d start (count + 1) = m.demand d start other := congrArg _ next
    omega

theorem le_demand (m : Memory) (d start count : Nat) : count ≤ m.demand d start count := by
  induction count with
  | zero => exact Nat.zero_le _
  | succ count ih =>
    rw [Memory.demand]
    split <;> omega

end RtXv6.Vm
