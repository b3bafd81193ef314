import Mathlib.Data.List.Nodup

/-!
# Circular singly linked lists

A circle is a first node and further nodes whose `next` pointers run through all of them and
back to the first. The pointers are a function on nodes. A circle may be read from any of its
nodes on, a node is put in or taken out by storing pointers next to it, and a walk along the
pointers meets every node within as many steps as there are nodes.
-/

namespace RtXv6.Circle

universe u
variable {ι : Type u} {next other : ι → ι}

/-- The pointers run through the nodes of a list, and from the last of them to `last`. -/
def Path (next : ι → ι) : List ι → ι → Prop
  | [], _ => True
  | node :: rest, last => next node = rest.headD last ∧ Path next rest last

/-- The pointers run from the first node through the rest and back. -/
def Holds (next : ι → ι) (first : ι) (rest : List ι) : Prop := Path next (first :: rest) first

variable {last : ι} {before after : List ι}

theorem path_append :
    Path next (before ++ after) last ↔
      Path next before (after.headD last) ∧ Path next after last := by
  induction before with
  | nil => simp [Path]
  | cons node rest ih =>
    have head : (rest ++ after).headD last = rest.headD (after.headD last) := by
      cases rest with
      | nil => rfl
      | cons => rfl
    simp only [List.cons_append, Path, ih, head, and_assoc]

variable {nodes : List ι}

/-- A path depends only on the pointers of its nodes. -/
theorem Path.congr (path : Path next nodes last) (same : ∀ node ∈ nodes, other node = next node) :
    Path other nodes last := by
  induction nodes with
  | nil => trivial
  | cons node rest ih =>
    refine ⟨(same node List.mem_cons_self).trans path.1, ih path.2 ?_⟩
    intro later member
    exact same later (List.mem_cons_of_mem node member)

variable {first : ι} {node : ι}

/-- A circle read from another node on. -/
theorem Holds.rotate (circle : Holds next first (before ++ node :: after)) :
    Holds next node (after ++ first :: before) := by
  have whole : Path next ((first :: before) ++ node :: after) first := circle
  have parts := path_append.mp whole
  have turned : Path next ((node :: after) ++ first :: before) node :=
    path_append.mpr ⟨parts.2, parts.1⟩
  exact turned

variable {rest : List ι}

/-- A circle read from any of its nodes on. -/
theorem Holds.startAt (circle : Holds next first rest) (member : node ∈ first :: rest) :
    ∃ others, Holds next node others ∧ (node :: others).Perm (first :: rest) := by
  rcases List.mem_cons.mp member with rfl | later
  · exact ⟨rest, circle, List.Perm.refl _⟩
  obtain ⟨before, after, rfl⟩ := List.append_of_mem later
  refine ⟨after ++ first :: before, circle.rotate, ?_⟩
  have turned : ((node :: after) ++ first :: before).Perm ((first :: before) ++ node :: after) :=
    List.perm_append_comm
  exact turned

/-- No two nodes of a circle point to the same one. -/
theorem Holds.injective {left right : ι} (circle : Holds next first rest)
    (distinct : (first :: rest).Nodup) (leftIn : left ∈ first :: rest)
    (rightIn : right ∈ first :: rest) (same : next left = next right) : left = right := by
  obtain ⟨others, circle, perm⟩ := circle.startAt leftIn
  have unique := perm.nodup_iff.mpr distinct
  rcases List.mem_cons.mp (perm.mem_iff.mpr rightIn) with equal | later
  · exact equal.symm
  -- Read from `left` on, the node after `right` is not the first of the others.
  obtain ⟨before, after, rfl⟩ := List.append_of_mem later
  obtain ⟨leads, path⟩ := circle
  have second := (path_append.mp path).2.1
  rw [same, second] at leads
  have far : after.headD left ∉ before ++ [right] := by
    have parts : (left :: (before ++ [right]) ++ after).Nodup := by
      rw [List.cons_append, List.append_assoc]
      exact unique
    intro member
    cases after with
    | nil => exact (List.nodup_cons.mp (List.nodup_append.mp parts).1).1 member
    | cons node after =>
      exact (List.nodup_append.mp parts).2.2 node (List.mem_cons_of_mem _ member) node
        List.mem_cons_self rfl
  have near : (before ++ right :: after).headD left ∈ before ++ [right] := by
    cases before with
    | nil => exact List.mem_singleton_self right
    | cons node before => exact List.mem_cons_self
  rw [← leads] at near
  exact absurd near far

/-- A path without the node after one of its nodes. -/
theorem Path.remove {gone : ι} (path : Path next (before ++ node :: gone :: after) last)
    (atNode : other node = next gone) (same : ∀ old ∈ before ++ after, other old = next old) :
    Path other (before ++ node :: after) last := by
  obtain ⟨front, _, middle, back⟩ := path_append.mp path
  refine path_append.mpr ⟨front.congr ?_, atNode.trans middle, back.congr ?_⟩
  · intro old member
    exact same old (List.mem_append_left _ member)
  · intro old member
    exact same old (List.mem_append_right _ member)

/-- Walks along the pointers to the first node that satisfies a test. -/
def walk (next : ι → ι) (test : ι → Bool) : Nat → ι → Option ι
  | 0, _ => none
  | fuel + 1, node => if test node then some node else walk next test fuel (next node)

variable {test : ι → Bool}

theorem Path.walk (path : Path next nodes last) (fails : ∀ node ∈ nodes, test node = false)
    (fuel : Nat) :
    walk next test (fuel + nodes.length) (nodes.headD last) = walk next test fuel last := by
  induction nodes with
  | nil => rfl
  | cons node rest ih =>
    have step : Circle.walk next test (fuel + (node :: rest).length) node =
        Circle.walk next test (fuel + rest.length) (next node) := by
      simp [Circle.walk, fails node List.mem_cons_self, ← Nat.add_assoc]
    rw [List.headD_cons, step, path.1]
    exact ih path.2 fun later member =>
      fails later (List.mem_cons_of_mem node member)

variable {fuel : Nat}

/-- A walk that has found a node finds it with more steps too. -/
theorem walk_mono (more : Nat) : ∀ {node found : ι},
    walk next test fuel node = some found → walk next test (fuel + more) node = some found := by
  induction fuel with
  | zero => exact fun none => by cases none
  | succ fuel ih =>
    intro node found ran
    rw [Nat.succ_add]
    by_cases passes : test node = true
    · simpa only [walk, passes, ↓reduceIte] using ran
    · simp only [walk, passes] at ran ⊢
      exact ih ran

/-- A walk finds the one node of the circle that satisfies the test, wherever it starts. -/
theorem Holds.walk {start target : ι} (circle : Holds next first rest)
    (startIn : start ∈ first :: rest) (targetIn : target ∈ first :: rest)
    (only : ∀ node ∈ first :: rest, test node = true ↔ node = target)
    (enough : rest.length < fuel) : walk next test fuel start = some target := by
  obtain ⟨others, circle, perm⟩ := circle.startAt startIn
  obtain ⟨before, after, split, absent⟩ :=
    List.eq_append_cons_of_mem (perm.mem_iff.mpr targetIn)
  have path : Path next (before ++ target :: after) start := by
    rw [← split]
    exact circle
  have fails : ∀ node ∈ before, test node = false := by
    intro node member
    have inside : node ∈ first :: rest := by
      rw [← perm.mem_iff, split]
      exact List.mem_append_left _ member
    by_contra passes
    rw [Bool.not_eq_false, only node inside] at passes
    rw [passes] at member
    exact absent member
  have head : before.headD target = start := by
    have heads := congrArg (fun nodes => nodes.headD target) split
    cases before with
    | nil | cons => exact heads.symm
  have length : before.length < fuel := by
    have lengths := perm.length_eq
    rw [split] at lengths
    simp only [List.length_append, List.length_cons] at lengths
    omega
  have steps := (path_append.mp path).1.walk fails (fuel - before.length)
  rw [List.headD_cons, head, Nat.sub_add_cancel (Nat.le_of_lt length)] at steps
  obtain ⟨more, positive⟩ := Nat.exists_eq_succ_of_ne_zero (Nat.sub_ne_zero_of_lt length)
  rw [steps, positive]
  simp [Circle.walk, (only target targetIn).mpr rfl]

end RtXv6.Circle
