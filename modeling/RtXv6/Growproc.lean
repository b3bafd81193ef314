import RtXv6.Allocuvm

/-!
# `growproc`

`growproc` passes a size to `allocuvm` or `deallocuvm` and takes zero as their way to report
failure. Zero is also a size: shrinking a process to nothing is done and then reported as
failed. The new size is computed without a sign, so a shrink by more than the size is a growth
to a huge one, which `deallocuvm` takes as nothing to do. And a growth for which no page was
free for the last page table is reported as done.
-/

namespace RtXv6.Vm

open Stateful

variable {image : Image} {m : Memory}

/-- The fields of a process that `growproc` uses. -/
structure UserProc where
  pgdir : Nat
  sz : Nat

/-- `sz + n` for an unsigned `sz` and a signed `n`. -/
def addInt (sz : Nat) (n : Int) : Nat := (((sz : Int) + n) % 4294967296).toNat

/-- `growproc`. Loading the page table again at the end changes nothing in memory. -/
def growproc (image : Image) (n : Int) (proc : UserProc) : VmM (Int × UserProc) :=
  if 0 < n then do
    let sz ← allocuvm image proc.pgdir proc.sz (addInt proc.sz n)
    if sz = 0 then pure (-1, proc) else pure (0, { proc with sz := sz })
  else if n < 0 then do
    let sz ← deallocuvm image proc.pgdir proc.sz (addInt proc.sz n)
    if sz = 0 then pure (-1, proc) else pure (0, { proc with sz := sz })
  else pure (0, proc)

/-- The user pages of a process are the ones below its size. -/
def Fills (m : Memory) (proc : UserProc) : Prop :=
  ∀ v, v < USERPAGES → (Present (m.pteAt proc.pgdir v) ↔ v < pageCeil proc.sz)

/-- A call of `growproc` did what it was asked: the size is the sum, the pages are the ones
below it and the old ones are where they were; or it failed and changed neither the size nor
the mappings. -/
def GrowsExactly (m next : Memory) (proc after : UserProc) (n result : Int) : Prop :=
  after.pgdir = proc.pgdir ∧
    ((result = 0 ∧ (after.sz : Int) = proc.sz + n ∧ after.sz < KERNBASE ∧ Fills next after ∧
        ∀ v, v < pageCeil proc.sz → v < pageCeil after.sz →
          next.pteAt proc.pgdir v = m.pteAt proc.pgdir v) ∨
      (result = -1 ∧ after.sz = proc.sz ∧ SameMappings m next proc.pgdir))

/-- The last page of a growth is the one for whose page table no page is free. -/
def Memory.StarvesLast (m : Memory) (d start stop : Nat) : Prop :=
  ∃ count, start + count + 1 = stop ∧ m.NeedsTable d start (start + count) ∧
    m.freelist.length = m.demand d start count + 1

variable {sz : Nat} {n : Int}

theorem addInt_of_nonneg {sum : Nat} (nonneg : (sz : Int) + n = sum) (small : sum < 4294967296) :
    addInt sz n = sum := by
  rw [addInt, nonneg]
  omega

/-- What `growproc` makes of the size that it is given back. -/
def UserProc.resized (proc : UserProc) (sz : Nat) : Int × UserProc :=
  if sz = 0 then (-1, proc) else (0, { proc with sz := sz })

variable {proc : UserProc} {next : Memory}

theorem growproc_up (positive : 0 < n)
    (ran : allocuvm image proc.pgdir proc.sz (addInt proc.sz n) m = .ok (sz, next)) :
    growproc image n proc m = .ok (proc.resized sz, next) := by
  rw [growproc, if_pos positive, bind_run ran, UserProc.resized]
  split <;> rfl

theorem growproc_down (negative : n < 0)
    (ran : deallocuvm image proc.pgdir proc.sz (addInt proc.sz n) m = .ok (sz, next)) :
    growproc image n proc m = .ok (proc.resized sz, next) := by
  rw [growproc, if_neg (by omega), if_pos negative, bind_run ran, UserProc.resized]
  split <;> rfl

theorem exact_iff_of_run {returned : Int × UserProc}
    (ran : growproc image n proc m = .ok (returned, next)) :
    (∃ result after final, growproc image n proc m = .ok ((result, after), final) ∧
        GrowsExactly m final proc after n result) ↔
      GrowsExactly m next proc returned.2 n returned.1 := by
  constructor
  · rintro ⟨result, after, final, also, exact⟩
    obtain ⟨same, rfl⟩ := Prod.mk.inj (Except.ok.inj (ran.symm.trans also))
    rw [same]
    exact exact
  · exact fun exact => ⟨returned.1, returned.2, next, ran, exact⟩

theorem grows_refused (same : SameMappings m next proc.pgdir) :
    GrowsExactly m next proc (proc.resized 0).2 n (proc.resized 0).1 :=
  ⟨rfl, .inr ⟨rfl, rfl, same⟩⟩

theorem growproc_grows {newsz : Nat} (owned : Owned image m proc.pgdir) (fills : Fills m proc)
    (positive : 0 < n) (sum : (proc.sz : Int) + n = newsz) (below : newsz < KERNBASE) :
    (∃ result after next, growproc image n proc m = .ok ((result, after), next) ∧
        GrowsExactly m next proc after n result) ↔
      ¬ m.StarvesLast proc.pgdir (pageCeil proc.sz) (pageCeil newsz) := by
  have target : addInt proc.sz n = newsz :=
    addInt_of_nonneg sum (Nat.lt_trans below (by decide))
  have bound : pageCeil newsz ≤ USERPAGES := by
    simp only [pageCeil, PGSIZE, KERNBASE, USERPAGES] at below ⊢
    omega
  have order : pageCeil proc.sz ≤ pageCeil newsz := by
    simp only [pageCeil, PGSIZE]
    omega
  have absent : ∀ v, pageCeil proc.sz ≤ v → v < pageCeil newsz →
      ¬ Present (m.pteAt proc.pgdir v) := by
    intro v low high present
    have less := (fills v (by omega)).mp present
    omega
  obtain ⟨result, next, ran, ended⟩ := allocuvm_ends owned below (by omega) absent
  have grew : growproc image n proc m = .ok (proc.resized result, next) :=
    growproc_up positive (by rw [target]; exact ran)
  rw [exact_iff_of_run grew]
  have nonzero : newsz ≠ 0 := by omega
  cases ended with
  | granted taken returned grown =>
    have fed := not_starves_of_grown grown
    have granted := grown.granted
    subst returned
    rw [UserProc.resized, if_neg nonzero]
    refine ⟨fun _ => ?_, fun _ => ⟨rfl, .inl ⟨rfl, sum.symm, below, ?_, ?_⟩⟩⟩
    · rintro ⟨count, last, needs, free⟩
      exact fed ⟨count, by omega, needs, free⟩
    · intro v user
      change Present (next.pteAt proc.pgdir v) ↔ v < pageCeil result
      by_cases range : pageCeil proc.sz ≤ v ∧ v < pageCeil result
      · rw [(granted.mapped v range.1 range.2).1]
        exact ⟨fun _ => range.2, fun _ => present_mapped _ _⟩
      · rw [granted.others v range, fills v user]
        omega
    · intro v old _
      exact granted.others v (by omega)
  | refused count before free returned undone =>
    subst returned
    refine ⟨fun _ => ?_, fun _ => grows_refused undone.same⟩
    rintro ⟨other, last, needs, also⟩
    have fed : ¬ m.Starves proc.pgdir (pageCeil proc.sz) (pageCeil newsz) :=
      not_starves_of_demand free
    exact fed ⟨other, by omega, needs, also⟩
  | holed count last needs free returned hole =>
    subst returned
    rw [UserProc.resized, if_neg nonzero]
    refine ⟨?_, fun fed => absurd ⟨count, last, needs, free⟩ fed⟩
    rintro ⟨_, ⟨_, _, _, full, _⟩ | ⟨failed, _⟩⟩
    · have present := (full (pageCeil proc.sz + count) (by omega)).mpr (by
        change pageCeil proc.sz + count < pageCeil result
        omega)
      exact absurd present hole
    · cases failed
  | leaked count before needs free returned same lost =>
    subst returned
    refine ⟨fun _ => ?_, fun _ => grows_refused same⟩
    rintro ⟨other, last, _, also⟩
    have less := demand_lt m proc.pgdir (pageCeil proc.sz) (by omega : count < other)
    omega

theorem growproc_shrinks {newsz : Nat} (owned : Owned image m proc.pgdir)
    (user : proc.sz < KERNBASE) (fills : Fills m proc)
    (personal : Private image m proc.pgdir (· < USERPAGES)) (negative : n < 0)
    (sum : (proc.sz : Int) + n = newsz) :
    (∃ result after next, growproc image n proc m = .ok ((result, after), next) ∧
        GrowsExactly m next proc after n result) ↔ 0 < newsz := by
  have target : addInt proc.sz n = newsz := addInt_of_nonneg sum (by
    simp only [KERNBASE] at user
    omega)
  have less : newsz < proc.sz := by omega
  have order : pageCeil newsz ≤ pageCeil proc.sz := by
    simp only [pageCeil, PGSIZE]
    omega
  have bound : pageCeil proc.sz ≤ USERPAGES := by
    simp only [pageCeil, PGSIZE, KERNBASE, USERPAGES] at user ⊢
    omega
  obtain ⟨next, pages, ran, released, _, freed⟩ := deallocuvm_ends owned (Nat.le_of_lt user) less
    (personal.narrow fun v range => by omega)
  have present : ∀ v, v < pageCeil proc.sz → Present (m.pteAt proc.pgdir v) := fun v inside =>
    (fills v (by omega)).mpr inside
  have mapped : ∀ v, v ∈ pages ↔ pageCeil newsz ≤ v ∧ v < pageCeil proc.sz := by
    intro v
    rw [freed]
    refine ⟨fun both => ⟨both.2.1.1, both.1⟩, fun range => ⟨range.2, ⟨range.1, ?_, .inl ?_⟩, ?_⟩⟩
    · obtain ⟨pgtab, found⟩ := Memory.exists_table (present v range.2)
      rw [found]
      exact Option.some_ne_none _
    · obtain ⟨pgtab, found⟩ := Memory.exists_table (present (pageCeil newsz) (by omega))
      rw [found]
      exact Option.some_ne_none _
    · exact present v range.2
  have after : ∀ v, v < USERPAGES → (Present (next.pteAt proc.pgdir v) ↔ v < pageCeil newsz) := by
    intro v below
    rw [released.ptes]
    by_cases member : v ∈ pages
    · have range := (mapped v).mp member
      rw [if_pos member, present_iff]
      omega
    · rw [if_neg member, fills v below]
      rw [mapped] at member
      omega
  have shrunk : growproc image n proc m = .ok (proc.resized newsz, next) :=
    growproc_down negative (by rw [target]; exact ran)
  rw [exact_iff_of_run shrunk]
  by_cases zero : newsz = 0
  · subst zero
    rw [UserProc.resized, if_pos rfl]
    refine ⟨?_, fun positive => absurd positive (Nat.lt_irrefl 0)⟩
    rintro ⟨_, ⟨done, _⟩ | ⟨_, _, same⟩⟩
    · cases done
    · have first : 0 < pageCeil proc.sz := by
        simp only [pageCeil, PGSIZE]
        omega
      have gone := (after 0 (by decide)).mp
      rw [same 0 (.inr (present 0 first))] at gone
      exact absurd (gone (present 0 first)) (by decide)
  · rw [UserProc.resized, if_neg zero]
    refine ⟨fun _ => Nat.pos_of_ne_zero zero, fun _ =>
      ⟨rfl, .inl ⟨rfl, sum.symm, Nat.lt_trans less user, after, ?_⟩⟩⟩
    intro v _ kept
    rw [released.ptes, if_neg]
    intro member
    have range := (mapped v).mp member
    exact absurd kept (Nat.not_lt.mpr range.1)

/-- `growproc` is exact or has no effect, if and only if it is not asked to shrink a process to
nothing or below, and no growth finds the last free page gone when it needs a page table for
its last page. -/
theorem growproc_exact_iff (image : Image) (m : Memory) (proc : UserProc) (n : Int)
    (owned : Owned image m proc.pgdir) (personal : Private image m proc.pgdir (· < USERPAGES))
    (user : proc.sz < KERNBASE) (fills : Fills m proc) (low : -2147483648 ≤ n)
    (high : n < 2147483648) :
    (∃ result after next, growproc image n proc m = .ok ((result, after), next) ∧
        GrowsExactly m next proc after n result) ↔
      (n < 0 → proc.sz = 0 ∨ 0 < (proc.sz : Int) + n) ∧
        (0 < n → (proc.sz : Int) + n < KERNBASE →
          ¬ m.StarvesLast proc.pgdir (pageCeil proc.sz) (pageCeil (addInt proc.sz n))) := by
  rcases Int.lt_trichotomy n 0 with negative | zero | positive
  · have notPositive : ¬ 0 < n := by omega
    by_cases enough : 0 ≤ (proc.sz : Int) + n
    · obtain ⟨newsz, sum⟩ := Int.eq_ofNat_of_zero_le enough
      rw [growproc_shrinks owned user fills personal negative sum]
      refine ⟨fun some => ⟨fun _ => .inr (by omega), fun also => absurd also notPositive⟩, ?_⟩
      rintro ⟨shrinks, _⟩
      rcases shrinks negative with empty | some
      · omega
      · omega
    have huge : proc.sz ≤ addInt proc.sz n := by
      simp only [addInt, KERNBASE] at user ⊢
      omega
    have ran : deallocuvm image proc.pgdir proc.sz (addInt proc.sz n) m = .ok (proc.sz, m) := by
      rw [deallocuvm, if_pos huge]
      rfl
    rw [exact_iff_of_run (growproc_down negative ran)]
    constructor
    · intro exact
      refine ⟨fun _ => .inl ?_, fun also => absurd also notPositive⟩
      by_contra some
      rw [UserProc.resized, if_neg some] at exact
      rcases exact.2 with ⟨_, sum, _⟩ | ⟨failed, _⟩
      · omega
      · cases failed
    · rintro ⟨shrinks, _⟩
      rcases shrinks negative with empty | some
      · rw [empty]
        exact grows_refused fun _ _ => rfl
      · omega
  · subst zero
    have ran : growproc image 0 proc m = .ok ((0, proc), m) := rfl
    rw [exact_iff_of_run ran]
    refine ⟨fun _ => ⟨fun negative => absurd negative (by decide),
      fun positive => absurd positive (by decide)⟩, fun _ => ⟨rfl, .inl ?_⟩⟩
    exact ⟨rfl, (Int.add_zero _).symm, user, fills, fun _ _ _ => rfl⟩
  · obtain ⟨newsz, sum⟩ := Int.eq_ofNat_of_zero_le (by omega : 0 ≤ (proc.sz : Int) + n)
    have notNegative : ¬ n < 0 := by omega
    have target : addInt proc.sz n = newsz := addInt_of_nonneg sum (by
      simp only [KERNBASE] at user
      omega)
    by_cases below : newsz < KERNBASE
    · rw [growproc_grows owned fills positive sum below, target]
      refine ⟨fun fed => ⟨fun negative => absurd negative notNegative, fun _ _ => fed⟩, ?_⟩
      rintro ⟨_, fed⟩
      exact fed positive (by omega)
    have ran : allocuvm image proc.pgdir proc.sz (addInt proc.sz n) m = .ok (0, m) := by
      rw [target, allocuvm, if_pos (Nat.not_lt.mp below)]
      rfl
    rw [exact_iff_of_run (growproc_up positive ran)]
    refine ⟨fun _ => ⟨fun negative => absurd negative notNegative, fun _ fits => ?_⟩,
      fun _ => grows_refused fun _ _ => rfl⟩
    omega

/-- A process of one page. -/
def onePage : UserProc := ⟨1000, PGSIZE⟩

theorem onePage_fills : Fills (single 0) onePage := by
  intro v _
  have one : pageCeil onePage.sz = 1 := rfl
  have present := single_present (by decide : 0 < PAGES) v
  rw [one]
  exact present.trans (by omega)

/-- Giving back all but one byte keeps the page. -/
theorem growproc_exact_onePage :
    ∃ result after next, growproc kernelImage (-4095) onePage (single 0) =
        .ok ((result, after), next) ∧
      GrowsExactly (single 0) next onePage after (-4095) result :=
  (growproc_exact_iff kernelImage (single 0) onePage (-4095) (single_owned (by decide)).1
    (single_private (by decide) _) (by decide) onePage_fills (by decide) (by decide)).mpr
    ⟨fun _ => .inr (by decide), fun positive => absurd positive (by decide)⟩

/-- Giving back the whole page is reported as failed, with the size unchanged, but the page is
gone. -/
theorem growproc_shrinks_to_nothing :
    Owned kernelImage (single 0) 1000 ∧ Fills (single 0) onePage ∧
      ∃ next, growproc kernelImage (-4096) onePage (single 0) = .ok ((-1, onePage), next) ∧
        Present ((single 0).pteAt 1000 0) ∧ ¬ Present (next.pteAt 1000 0) := by
  have inside : 0 < PAGES := by decide
  have owned := (single_owned inside).1
  obtain ⟨next, pages, ran, released, _, freed⟩ := deallocuvm_ends owned (by decide)
    (by decide : 0 < PGSIZE) (single_private inside _)
  have present := (single_present inside 0).mpr rfl
  obtain ⟨pgtab, found⟩ := Memory.exists_table present
  have table : (single 0).tableAt 1000 (0 / NPTENTRIES) ≠ none := by
    rw [found]
    exact Option.some_ne_none _
  have shrunk : growproc kernelImage (-4096) onePage (single 0) =
      .ok (onePage.resized 0, next) := growproc_down (by decide) ran
  refine ⟨owned, onePage_fills, next, shrunk, present, ?_⟩
  rw [released.ptes, if_pos ((freed 0).mpr ⟨by decide, ⟨Nat.le_refl _, table, .inl table⟩, present⟩)]
  decide

end RtXv6.Vm
