import Mathlib.Data.List.Induction

/-!
# The matcher of grep

`match`, `matchhere` and `matchstar` of grep.c search by backtracking. A pattern is read as a
sequence of items, each of which matches a piece of the text; the search succeeds exactly if the
text has consecutive pieces that the items match. A string is the list of its bytes before the NUL.
-/

namespace RtXv6.Grep

/-- `^`, the start of the text. -/
def caret : UInt8 := 94

/-- `$`, its end. -/
def dollar : UInt8 := 36

/-- `*`, any number. -/
def star : UInt8 := 42

/-- `.`, any character. -/
def dot : UInt8 := 46

/-- `matchstar`; `here` is `matchhere` of the pattern behind the `*`. -/
def matchstar (here : List UInt8 → Bool) (c : UInt8) : List UInt8 → Bool
  | [] => here []
  | x :: text => here (x :: text) || (x == c || c == dot) && matchstar here c text

/-- The last test of `matchhere`, for one character; `here` is `matchhere` of what follows it. -/
def matchone (here : List UInt8 → Bool) (c : UInt8) : List UInt8 → Bool
  | [] => false
  | x :: text => (c == dot || c == x) && here text

/-- `matchhere`. -/
def matchhere : List UInt8 → List UInt8 → Bool
  | [] => fun _ => true
  | [c] => if c = dollar then List.isEmpty else matchone (matchhere []) c
  | c :: d :: re =>
    if d = star then matchstar (matchhere re) c else matchone (matchhere (d :: re)) c

/-- The loop of `match`. -/
def matchfrom (re : List UInt8) : List UInt8 → Bool
  | [] => matchhere re []
  | x :: text => matchhere re (x :: text) || matchfrom re text

/-- `match`. -/
def match_ (re text : List UInt8) : Bool :=
  if re.head? = some caret then matchhere re.tail text else matchfrom re text

/-- What a pattern is made of. -/
inductive Item where
  | many (c : UInt8)
  | finish
  | one (c : UInt8)

/-- The items of a pattern, from left to right. -/
def items : List UInt8 → List Item
  | [] => []
  | [c] => [if c = dollar then .finish else .one c]
  | c :: d :: re => if d = star then .many c :: items re else .one c :: items (d :: re)

/-- The piece of text that an item matches, before `after`. -/
def Item.Matches : Item → List UInt8 → List UInt8 → Prop
  | .many c, piece, _ => ∀ x ∈ piece, x = c ∨ c = dot
  | .finish, piece, after => piece = [] ∧ after = []
  | .one c, piece, _ => ∃ x, piece = [x] ∧ (c = dot ∨ c = x)

/-- The text begins with a substring that the items match, each its own piece. -/
def Begins : List Item → List UInt8 → Prop
  | [], _ => True
  | item :: rest, text =>
    ∃ piece after, text = piece ++ after ∧ item.Matches piece after ∧ Begins rest after

/-- Some substring of the text matches the pattern; behind a leading `^` it is at the start. -/
def Found (re text : List UInt8) : Prop :=
  if re.head? = some caret then Begins (items re.tail) text
  else ∃ before rest, text = before ++ rest ∧ Begins (items re) rest

variable {here : List UInt8 → Bool} {c : UInt8} {text : List UInt8}

theorem matchstar_iff : matchstar here c text = true ↔
    ∃ run after, text = run ++ after ∧ (Item.many c).Matches run after ∧ here after = true := by
  induction text with
  | nil => simp [matchstar, Item.Matches]
  | cons x text ih =>
    simp only [matchstar, Bool.or_eq_true, Bool.and_eq_true, beq_iff_eq, ih, Item.Matches]
    constructor
    · rintro (now | ⟨same, run, after, rfl, all, later⟩)
      · exact ⟨[], x :: text, rfl, by simp, now⟩
      · exact ⟨x :: run, after, rfl, List.forall_mem_cons.mpr ⟨same, all⟩, later⟩
    · rintro ⟨run, after, split, all, found⟩
      cases run with
      | nil => exact .inl (split ▸ found)
      | cons y run =>
        obtain ⟨rfl, rfl⟩ := List.cons.inj split
        obtain ⟨same, all⟩ := List.forall_mem_cons.mp all
        exact .inr ⟨same, run, after, rfl, all, found⟩

/-- The last test of `matchhere` takes off the piece that one character matches. -/
theorem matchone_iff : matchone here c text = true ↔
    ∃ piece after, text = piece ++ after ∧ (Item.one c).Matches piece after ∧
      here after = true := by
  cases text <;> simp [matchone, Item.Matches]

/-- `matchhere` finds the items of its pattern at the beginning of the text. -/
theorem matchhere_iff (re : List UInt8) :
    ∀ text, matchhere re text = true ↔ Begins (items re) text := by
  induction re using List.twoStepInduction with
  | nil => simp [matchhere, items, Begins]
  | singleton c =>
    intro text
    rw [matchhere, items]
    split
    · simp [Begins, Item.Matches]
    · simp [Begins, matchone_iff, matchhere]
  | cons_cons c d re rest next =>
    intro text
    rw [matchhere, items]
    split
    · simp only [Begins, matchstar_iff, rest]
    · simp only [Begins, matchone_iff, next]

/-- The loop of `match` tries every suffix of the text, as `.*` would. -/
theorem matchfrom_eq (re text : List UInt8) :
    matchfrom re text = matchstar (matchhere re) dot text := by
  induction text with
  | nil => rfl
  | cons x text ih => simp [matchfrom, matchstar, ih]

/-- The matcher succeeds exactly if the pattern matches a substring of the text. -/
theorem match_iff (re text : List UInt8) : match_ re text = true ↔ Found re text := by
  rw [match_, Found]
  split
  · exact matchhere_iff re.tail text
  · simp [matchfrom_eq, matchstar_iff, Item.Matches, matchhere_iff]

end RtXv6.Grep
