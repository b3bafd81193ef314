import RtXv6.Shell
import RtXv6.Stateful

/-!
# The tokens of a command line

The cursor of the parser stands before a list of tokens: those of the text from the cursor on.
`peek` looks at the first of them, and `gettoken` takes it away.
-/

namespace RtXv6.Shell

open Stateful

/-- Words and symbols. -/
inductive Token where
  | word (text : List UInt8)
  | input
  | output
  | append
  | bar
  | amp
  | semi
  | lparen
  | rparen
  deriving DecidableEq, Repr

namespace Token

/-- The first character of a symbol. -/
def symbol : Token → Option UInt8
  | word _ => none
  | input => some (code '<')
  | output => some (code '>')
  | append => some (code '>')
  | bar => some (code '|')
  | amp => some (code '&')
  | semi => some (code ';')
  | lparen => some (code '(')
  | rparen => some (code ')')

/-- The code that `gettoken` returns for a token. -/
def ret : Token → UInt8
  | word _ => code 'a'
  | append => code '+'
  | input => code '<'
  | output => code '>'
  | bar => code '|'
  | amp => code '&'
  | semi => code ';'
  | lparen => code '('
  | rparen => code ')'

/-- The symbols of one character, other than `>`. -/
def short : List Token := [bar, lparen, rparen, semi, amp, input]

/-- The symbol that a character is. -/
def single (c : UInt8) : Option Token := short.find? fun token => token.symbol = some c

end Token

/-- The tokens of a text: a word is as long as possible, and so is `>>`. -/
def tokens : List UInt8 → List Token
  | [] => []
  | c :: rest =>
    if isSpace c then tokens rest
    else if c = code '>' then
      if rest.head? = some (code '>') then .append :: tokens rest.tail
      else .output :: tokens rest
    else
      match Token.single c with
      | some symbol => symbol :: tokens rest
      | none => .word (c :: rest.takeWhile isWordChar) :: tokens (rest.dropWhile isWordChar)
termination_by text => text.length
decreasing_by
  · simp
  · simp only [List.length_tail, List.length_cons]
    omega
  · simp
  · simp
  · have shorter := (List.dropWhile_suffix (l := rest) isWordChar).length_le
    simp only [List.length_cons]
    omega

variable {token : Token}

namespace Token

theorem ret_ne_zero (token : Token) : token.ret ≠ 0 := by
  cases token with
  | word text => exact (by decide : code 'a' ≠ 0)
  | _ => decide

theorem ret_eq_a (same : token.ret = code 'a') : ∃ text, token = word text := by
  cases token with
  | word text => exact ⟨text, rfl⟩
  | _ => exact absurd same (by decide)

theorem single_spec {c : UInt8} (found : single c = some token) :
    singles.contains c = true ∧ c ≠ code '>' ∧ token.symbol = some c ∧ token.ret = c := by
  have table : ∀ token ∈ short, token.symbol = some token.ret ∧
      singles.contains token.ret = true ∧ token.ret ≠ code '>' := by
    decide
  have symbol : token.symbol = some c := by
    have holds := List.find?_some found
    exact of_decide_eq_true holds
  obtain ⟨self, single, other⟩ := table token (List.mem_of_find?_eq_some found)
  have same : token.ret = c := Option.some.inj (self.symm.trans symbol)
  rw [same] at single other
  exact ⟨single, other, symbol, same⟩

theorem single_none {c : UInt8} (none : single c = none) (other : c ≠ code '>') :
    singles.contains c = false ∧ symbols.contains c = false := by
  have missing := List.find?_eq_none.mp none
  simp only [short, symbol, List.forall_mem_cons, decide_eq_true_eq, Option.some.injEq] at missing
  simp only [singles, symbols, List.map, List.contains_cons, List.contains_nil, Bool.or_false,
    Bool.or_eq_false_iff, beq_eq_false_iff_ne]
  tauto

end Token

/-- The first token is one of these symbols. -/
def starts (set : List Char) (toks : List Token) : Bool :=
  toks.head?.any fun token => token.symbol.any fun c => (set.map code).contains c

variable {rest : List Token} {α : Type}

section

variable (s : CString)

/-- The text of a span. -/
def slice (span : Span) : List UInt8 := (s.bytes.drop span.start).take (span.stop - span.start)

/-- The span is a word of the text, as long as possible. -/
structure Delimits (span : Span) : Prop where
  inside : span.stop ≤ s.strlen
  ordered : span.start ≤ span.stop
  chars : ∀ i, span.start ≤ i → i < span.stop → isWordChar (s.char i) = true
  ends : span.stop < s.strlen → isWordChar (s.char span.stop) = false

/-- The cursor stands before these tokens. -/
structure At (i : Nat) (toks : List Token) : Prop where
  inside : i ≤ s.strlen
  ahead : tokens (s.bytes.drop i) = toks

variable {s : CString} {i : Nat}

theorem char_beyond (outside : ¬ i < s.strlen) : s.char i = 0 := by
  have length : s.bytes.length ≤ i := Nat.le_of_not_lt outside
  simp [CString.char, length]

/-- The text from the cursor on begins with the character at the cursor. -/
theorem drop_eq (inside : i < s.strlen) : s.bytes.drop i = s.char i :: s.bytes.drop (i + 1) := by
  have bound : i < s.bytes.length := inside
  rw [List.drop_eq_getElem_cons bound]
  simp [CString.char, bound]

theorem char_ne_zero (inside : i < s.strlen) : s.char i ≠ 0 := by
  have bound : i < s.bytes.length := inside
  intro zero
  apply s.terminated
  rw [← zero]
  simp only [CString.char, List.getD_eq_getElem?_getD, List.getElem?_eq_getElem bound,
    Option.getD_some]
  exact List.getElem_mem bound

/-- What a loop over characters of one kind has passed. -/
structure Skips (s : CString) (p : UInt8 → Bool) (i j : Nat) : Prop where
  forward : i ≤ j
  inside : j ≤ s.strlen
  passed : ∀ k, i ≤ k → k < j → p (s.char k) = true
  stopped : j < s.strlen → p (s.char j) = false
  text : (s.bytes.drop i).takeWhile p = slice s ⟨i, j⟩
  rest : (s.bytes.drop i).dropWhile p = s.bytes.drop j

theorem advance_skips (p : UInt8 → Bool) (left : Nat) :
    ∀ i, i + left = s.strlen → Skips s p i (advance s p left i) := by
  induction left with
  | zero =>
    intro i ends
    have empty : s.bytes.drop i = [] := List.drop_eq_nil_of_le (by
      have : s.strlen = s.bytes.length := rfl
      omega)
    refine ⟨le_refl i, by simp only [advance]; omega, ?_, ?_, ?_, ?_⟩
    · intro k above below
      simp only [advance] at below
      omega
    · intro inside
      simp only [advance] at inside
      omega
    · simp [advance, slice, empty]
    · simp [advance, empty]
  | succ left ih =>
    intro i ends
    have here := drop_eq (s := s) (i := i) (by omega)
    by_cases yes : p (s.char i) = true
    · have after := ih (i + 1) (by omega)
      have same : advance s p (left + 1) i = advance s p left (i + 1) := by
        simp [advance, yes]
      rw [same]
      refine ⟨by have := after.forward; omega, after.inside, ?_, after.stopped, ?_, ?_⟩
      · intro k above below
        by_cases first : k = i
        · rw [first]
          exact yes
        · exact after.passed k (by omega) below
      · have longer : advance s p left (i + 1) - i = advance s p left (i + 1) - (i + 1) + 1 := by
          have := after.forward
          omega
        rw [here, List.takeWhile_cons_of_pos yes, after.text]
        simp only [slice, longer, here, List.take_succ_cons]
      · rw [here, List.dropWhile_cons_of_pos yes]
        exact after.rest
    · have same : advance s p (left + 1) i = i := by
        simp [advance, yes]
      rw [same]
      refine ⟨le_refl i, by omega, fun k above below => by omega, ?_, ?_, ?_⟩
      · intro _
        exact Bool.eq_false_iff.mpr yes
      · rw [here, List.takeWhile_cons_of_neg yes]
        simp [slice]
      · rw [here, List.dropWhile_cons_of_neg yes]

theorem skip_skips (p : UInt8 → Bool) (inside : i ≤ s.strlen) : Skips s p i (skip s p i) :=
  advance_skips p _ i (by omega)

theorem tokens_dropWhile (text : List UInt8) : tokens (text.dropWhile isSpace) = tokens text := by
  induction text with
  | nil => rfl
  | cons c rest ih =>
    by_cases space : isSpace c = true
    · rw [List.dropWhile_cons_of_pos space, ih, tokens]
      simp [space]
    · rw [List.dropWhile_cons_of_neg space]

theorem At.skipSpaces {toks : List Token} (at_ : At s i toks) : At s (skip s isSpace i) toks := by
  have skips := skip_skips (s := s) isSpace at_.inside
  refine ⟨skips.inside, ?_⟩
  rw [← skips.rest, tokens_dropWhile]
  exact at_.ahead

theorem At.cases {toks : List Token} (at_ : At s (skip s isSpace i) toks) (before : i ≤ s.strlen) :
    toks = [] ∧ skip s isSpace i = s.strlen ∨
      skip s isSpace i < s.strlen ∧ isSpace (s.char (skip s isSpace i)) = false := by
  have skips := skip_skips (s := s) isSpace before
  by_cases finished : skip s isSpace i < s.strlen
  · exact .inr ⟨finished, skips.stopped finished⟩
  have ends : skip s isSpace i = s.strlen := by
    have := skips.inside
    omega
  have empty : s.bytes.drop (skip s isSpace i) = [] := by
    rw [ends]
    exact List.drop_length
  have none := at_.ahead
  rw [empty, tokens] at none
  exact .inl ⟨none.symm, ends⟩

/-- What `scan` finds at a character that is not a blank. -/
structure Scans (s : CString) (q : Nat) (token : Token) (rest : List Token) : Prop where
  ret : (scan s q).1 = token.ret
  after : At s (scan s q).2 rest
  symbol : ∀ c, token.symbol = some c → s.char q = c
  letter : token.symbol = none → isWordChar (s.char q) = true
  word : ∀ text, token = .word text →
    Delimits s ⟨q, (scan s q).2⟩ ∧ slice s ⟨q, (scan s q).2⟩ = text

section

variable {q : Nat} (inside : q < s.strlen)
include inside

theorem scan_output (output : s.char q = code '>') :
    ∃ token rest, tokens (s.bytes.drop q) = token :: rest ∧ Scans s q token rest := by
  have visible : isSpace (code '>') = false := by decide
  have present : code '>' ≠ 0 := by decide
  have long : singles.contains (code '>') = false := by decide
  have next : (s.bytes.drop (q + 1)).head? = some (code '>') ↔ s.char (q + 1) = code '>' := by
    by_cases more : q + 1 < s.strlen
    · simp [drop_eq more]
    · rw [List.drop_eq_nil_of_le (Nat.le_of_not_lt more), char_beyond more]
      decide
  by_cases twice : s.char (q + 1) = code '>'
  · have more : q + 1 < s.strlen := by
      by_contra finished
      rw [char_beyond finished] at twice
      exact absurd twice (by decide)
    have scanned : scan s q = (code '+', q + 2) := by
      simp only [scan, output, present, ↓reduceIte, long, Bool.false_eq_true, twice]
    refine ⟨.append, tokens (s.bytes.drop (q + 2)), ?_, ?_, ?_, ?_, ?_, ?_⟩
    · rw [drop_eq inside, output, tokens]
      simp only [visible, Bool.false_eq_true, ↓reduceIte, next.mpr twice]
      rw [List.tail_drop]
    · rw [scanned]
      rfl
    · rw [scanned]
      exact ⟨by omega, rfl⟩
    · intro c symbol
      exact output.trans (Option.some.inj symbol)
    · intro none
      cases none
    · intro text none
      cases none
  · have scanned : scan s q = (code '>', q + 1) := by
      simp only [scan, output, present, ↓reduceIte, long, Bool.false_eq_true, twice]
    refine ⟨.output, tokens (s.bytes.drop (q + 1)), ?_, ?_, ?_, ?_, ?_, ?_⟩
    · rw [drop_eq inside, output, tokens]
      have once : ¬ (s.bytes.drop (q + 1)).head? = some (code '>') := mt next.mp twice
      simp only [visible, Bool.false_eq_true, ↓reduceIte, once]
    · rw [scanned]
      rfl
    · rw [scanned]
      exact ⟨by omega, rfl⟩
    · intro c symbol
      exact output.trans (Option.some.inj symbol)
    · intro none
      cases none
    · intro text none
      cases none

variable (visible : isSpace (s.char q) = false)
include visible

theorem scan_symbol (found : Token.single (s.char q) = some token) :
    ∃ token rest, tokens (s.bytes.drop q) = token :: rest ∧ Scans s q token rest := by
  obtain ⟨single, other, symbol, ret⟩ := Token.single_spec found
  have scanned : scan s q = (s.char q, q + 1) := by
    simp only [scan, char_ne_zero inside, ↓reduceIte, single]
  refine ⟨token, tokens (s.bytes.drop (q + 1)), ?_, ?_, ?_, ?_, ?_, ?_⟩
  · rw [drop_eq inside, tokens]
    simp only [visible, Bool.false_eq_true, ↓reduceIte, other, found]
  · rw [scanned]
    exact ret.symm
  · rw [scanned]
    exact ⟨inside, rfl⟩
  · intro c same
    exact Option.some.inj (symbol.symm.trans same)
  · intro none
    rw [none] at symbol
    cases symbol
  · intro text word
    rw [word] at symbol
    cases symbol

theorem scan_word (other : s.char q ≠ code '>') (none : Token.single (s.char q) = none) :
    ∃ token rest, tokens (s.bytes.drop q) = token :: rest ∧ Scans s q token rest := by
  obtain ⟨long, plain⟩ := Token.single_none none other
  have letter : isWordChar (s.char q) = true := by
    have blank : whitespace.contains (s.char q) = false := visible
    simp only [isWordChar, blank, plain, Bool.not_false, Bool.and_self]
  have scanned : scan s q = (code 'a', skip s isWordChar q) := by
    simp only [scan, char_ne_zero inside, ↓reduceIte, long, Bool.false_eq_true, other]
  have skips := skip_skips (s := s) isWordChar (Nat.le_of_lt inside)
  have text := skips.text
  have rest := skips.rest
  rw [drop_eq inside, List.takeWhile_cons_of_pos letter] at text
  rw [drop_eq inside, List.dropWhile_cons_of_pos letter] at rest
  refine ⟨.word (slice s ⟨q, skip s isWordChar q⟩),
    tokens (s.bytes.drop (skip s isWordChar q)), ?_, ?_, ?_, ?_, ?_, ?_⟩
  · rw [drop_eq inside, tokens]
    simp only [visible, Bool.false_eq_true, ↓reduceIte, other, none, text, rest]
  · rw [scanned]
    rfl
  · rw [scanned]
    exact ⟨skips.inside, rfl⟩
  · intro c symbol
    cases symbol
  · exact fun _ => letter
  · intro found same
    rw [scanned]
    exact ⟨⟨skips.inside, skips.forward, skips.passed, skips.stopped⟩, Token.word.inj same⟩

/-- At every character that is not a blank stands a token. -/
theorem scan_token :
    ∃ token rest, tokens (s.bytes.drop q) = token :: rest ∧ Scans s q token rest := by
  by_cases output : s.char q = code '>'
  · exact scan_output inside output
  cases found : Token.single (s.char q) with
  | none => exact scan_word inside visible output found
  | some token => exact scan_symbol inside visible found

end

section

variable {toks : List Token} {faults : Fault → Prop}

theorem peek_ends (set : List Char) (known : set.all (fun c => symbols.contains (code c)) = true)
    (at_ : At s i toks) :
    Ends (fun found j => found = starts set toks ∧ At s j toks) faults (peek s set) i := by
  have after := at_.skipSpaces
  refine Ends.of_run rfl ⟨?_, after⟩
  rcases after.cases at_.inside with ⟨none, ends⟩ | ⟨inside, visible⟩
  · rw [ends, char_beyond (Nat.lt_irrefl _), none]
    rfl
  obtain ⟨token, rest, ahead, scans⟩ := scan_token inside visible
  rw [after.ahead] at ahead
  rw [ahead]
  have present := char_ne_zero inside
  cases symbol : token.symbol with
  | some c =>
    rw [scans.symbol c symbol] at present ⊢
    simp only [starts, List.head?_cons, Option.any_some, symbol, ne_eq, present,
      not_false_eq_true, decide_true, Bool.true_and]
  | none =>
    have letter := scans.letter symbol
    have outside : (set.map code).contains (s.char (skip s isSpace i)) = false := by
      by_contra inSet
      have member := List.contains_iff_mem.mp (Bool.not_eq_false _ ▸ inSet)
      obtain ⟨c, inside, same⟩ := List.mem_map.mp member
      have found := List.all_eq_true.mp known c inside
      rw [same] at found
      simp only [isWordChar, found, Bool.not_true, Bool.and_false, Bool.false_eq_true] at letter
    simp only [starts, List.head?_cons, Option.any_some, symbol, Option.any_none, outside,
      Bool.and_false]

theorem gettoken_ends (at_ : At s i (token :: rest)) :
    Ends (fun got j => got.ret = token.ret ∧ At s j rest ∧
      ∀ text, token = .word text → Delimits s got.span ∧ slice s got.span = text)
      faults (gettoken s) i := by
  have after := at_.skipSpaces
  rcases after.cases at_.inside with ⟨none, _⟩ | ⟨inside, visible⟩
  · cases none
  obtain ⟨found, more, ahead, scans⟩ := scan_token inside visible
  rw [after.ahead] at ahead
  obtain ⟨rfl, rfl⟩ := List.cons.inj ahead
  exact Ends.of_run rfl ⟨scans.ret, scans.after.skipSpaces, scans.word⟩

theorem gettoken_none (at_ : At s i []) :
    Ends (fun got j => got.ret = 0 ∧ At s j []) faults (gettoken s) i := by
  have after := at_.skipSpaces
  rcases after.cases at_.inside with ⟨_, ends⟩ | ⟨inside, visible⟩
  · have scanned : scan s (skip s isSpace i) = (0, skip s isSpace i) := by
      simp [scan, ends, char_beyond (Nat.lt_irrefl _)]
    refine Ends.of_run rfl ⟨?_, ?_⟩
    · rw [scanned]
    · rw [scanned]
      exact after.skipSpaces
  · obtain ⟨found, more, ahead, scans⟩ := scan_token inside visible
    rw [after.ahead] at ahead
    cases ahead

theorem peek_branch {post : α → Nat → Prop} {yes no : ParseM α} {set : List Char}
    (known : set.all (fun c => symbols.contains (code c)) = true) (at_ : At s i toks)
    (found : starts set toks = true → ∀ j, At s j toks → Ends post faults yes j)
    (missing : starts set toks = false → ∀ j, At s j toks → Ends post faults no j) :
    Ends post faults (do if ← peek s set then yes else no) i := by
  refine (peek_ends set known at_).seq fun answer j stands => ?_
  obtain ⟨same, at_⟩ := stands
  subst same
  cases first : starts set toks with
  | true => exact found first j at_
  | false => exact missing first j at_

theorem gettoken_then {post : α → Nat → Prop} {next : Got → ParseM α}
    (at_ : At s i (token :: rest))
    (continues : ∀ got j, got.ret = token.ret → At s j rest →
      (∀ text, token = .word text → Delimits s got.span ∧ slice s got.span = text) →
      Ends post faults (next got) j) : Ends post faults (gettoken s >>= next) i :=
  (gettoken_ends at_).seq fun got j stands => continues got j stands.1 stands.2.1 stands.2.2

end

theorem tokens_length (text : List UInt8) : (tokens text).length ≤ text.length := by
  fun_induction tokens text with
  | case1 => exact le_refl 0
  | case2 c rest space ih =>
    simp only [List.length_cons]
    omega
  | case3 rest space once ih =>
    have := List.length_tail (l := rest)
    simp only [List.length_cons]
    omega
  | case4 rest space once ih =>
    simp only [List.length_cons]
    omega
  | case5 c rest space other symbol found ih =>
    simp only [List.length_cons]
    omega
  | case6 c rest space other none ih =>
    have shorter := (List.dropWhile_suffix (l := rest) isWordChar).length_le
    simp only [List.length_cons]
    omega

theorem At.length {toks : List Token} (at_ : At s i toks) : toks.length ≤ s.strlen := by
  rw [← at_.ahead]
  calc (tokens (s.bytes.drop i)).length
      ≤ (s.bytes.drop i).length := tokens_length _
    _ ≤ s.strlen := by
      rw [List.length_drop]
      exact Nat.sub_le _ _

end

end RtXv6.Shell
