import RtXv6.Outcome
import RtXv6.ShellTokens

/-!
# The grammar of the shell

    line  ::= pipe '&'* [';' line]
    pipe  ::= exec ['|' pipe]
    exec  ::= '(' line ')' redir* | redir* (word redir*)*
    redir ::= ('<' | '>' | '>>') word

with fewer than `MAXARGS` words in a simple command. A derivation determines a tree: the words
of a command in their order, pipes and lists nested to the right, `&` around what stands before
it, and each redirection around the command built so far.

The parser accepts a line exactly if its tokens have a derivation, and then returns the tree of
the derivation. One direction goes along the loops and calls of the parser, the other along the
derivation; there a part of the line is followed by a token at which the parser stops.
-/

namespace RtXv6.Shell

open Stateful
open List (append_assoc append_nil cons_append length_append length_cons)

/-- A redirection of the grammar. -/
structure Redirection where
  file : List UInt8
  mode : UInt32
  fd : Nat

/-- A redirection wraps a command. -/
def wrap (cmd : Cmd (List UInt8)) (redirection : Redirection) : Cmd (List UInt8) :=
  .redir cmd redirection.file redirection.mode redirection.fd

/-- The redirection that a symbol and a file name make. -/
def Token.redirect (file : List UInt8) : Token → Option Redirection
  | input => some ⟨file, O_RDONLY, 0⟩
  | output => some ⟨file, O_WRONLY ||| O_CREATE, 1⟩
  | append => some ⟨file, O_WRONLY ||| O_CREATE, 1⟩
  | _ => none

/-- `redir*`. -/
inductive Redirs : List Token → List Redirection → Prop
  | nil : Redirs [] []
  | cons {symbol : Token} {file : List UInt8} {redirection : Redirection} {toks : List Token}
      {more : List Redirection} (first : symbol.redirect file = some redirection)
      (rest : Redirs toks more) : Redirs (symbol :: .word file :: toks) (redirection :: more)

/-- `(word redir*)*`: the words and the redirections. -/
inductive Args : List Token → List (List UInt8) → List Redirection → Prop
  | nil : Args [] [] []
  | cons {word : List UInt8} {after toks : List Token} {redirs more : List Redirection}
      {words : List (List UInt8)} (first : Redirs after redirs) (rest : Args toks words more) :
      Args (.word word :: (after ++ toks)) (word :: words) (redirs ++ more)

/-- What a derivation may begin with. -/
inductive Nonterminal where
  | line
  | pipe
  | exec
  deriving DecidableEq, Repr

/-- A command in the background, so many times. -/
def background : Nat → Cmd (List UInt8) → Cmd (List UInt8)
  | 0, cmd => cmd
  | count + 1, cmd => background count (.back cmd)

/-- The derivations, with the trees that they determine. -/
inductive Derives : Nonterminal → List Token → Cmd (List UInt8) → Prop
  | block {inner after : List Token} {tree : Cmd (List UInt8)} {redirs : List Redirection}
      (line : Derives .line inner tree) (redir : Redirs after redirs) :
      Derives .exec (.lparen :: (inner ++ .rparen :: after)) (redirs.foldl wrap tree)
  | simple {before args : List Token} {words : List (List UInt8)} {redirs more : List Redirection}
      (redir : Redirs before redirs) (arg : Args args words more)
      (few : words.length ≤ MAXARGS - 1) :
      Derives .exec (before ++ args) ((redirs ++ more).foldl wrap (.exec words))
  | one {toks : List Token} {tree : Cmd (List UInt8)} (exec : Derives .exec toks tree) :
      Derives .pipe toks tree
  | pipe {left right : List Token} {first second : Cmd (List UInt8)}
      (exec : Derives .exec left first) (pipe : Derives .pipe right second) :
      Derives .pipe (left ++ .bar :: right) (.pipe first second)
  | last {toks : List Token} {tree : Cmd (List UInt8)} (pipe : Derives .pipe toks tree)
      (count : Nat) :
      Derives .line (toks ++ List.replicate count .amp) (background count tree)
  | list {left right : List Token} {first second : Cmd (List UInt8)}
      (pipe : Derives .pipe left first) (count : Nat) (line : Derives .line right second) :
      Derives .line (left ++ List.replicate count .amp ++ .semi :: right)
        (.list (background count first) second)

/-- The tokens that may come after a part of a line. -/
def Nonterminal.follow : Nonterminal → List Token
  | line => [.rparen]
  | pipe => [.rparen, .amp, .semi]
  | exec => [.rparen, .amp, .semi, .bar]

/-- The rest of a line, behind such a part. -/
def Follows (nonterminal : Nonterminal) (rest : List Token) : Prop :=
  ∀ token ∈ rest.head?, token ∈ nonterminal.follow

/-- Every name in the tree has a property. -/
def Cmd.All {name : Type} (p : name → Prop) : Cmd name → Prop
  | exec argv => ∀ arg ∈ argv, p arg
  | redir cmd file _ _ => cmd.All p ∧ p file
  | pipe left right => left.All p ∧ right.All p
  | list left right => left.All p ∧ right.All p
  | back cmd => cmd.All p

theorem Cmd.All.addArg {name : Type} {p : name → Prop} {cmd : Cmd name} {arg : name}
    (all : cmd.All p) (holds : p arg) : (cmd.addArg arg).All p := by
  induction cmd with
  | exec argv =>
    intro other member
    rcases List.mem_append.mp member with old | new
    · exact all other old
    · rw [List.mem_singleton.mp new]
      exact holds
  | redir cmd file mode fd ih => exact ⟨ih all.1, all.2⟩
  | pipe | list | back => exact all

variable {text : Type}

theorem Cmd.map_addArg {name : Type} (f : name → text) (cmd : Cmd name) (arg : name) :
    (cmd.addArg arg).map f = (cmd.map f).addArg (f arg) := by
  induction cmd with
  | exec argv => simp [addArg, map]
  | redir cmd file mode fd ih => simp [addArg, map, ih]
  | pipe | list | back => rfl

theorem addArg_wrap (redirs : List Redirection) (cmd : Cmd (List UInt8)) (arg : List UInt8) :
    (redirs.foldl wrap cmd).addArg arg = redirs.foldl wrap (cmd.addArg arg) := by
  induction redirs generalizing cmd with
  | nil => rfl
  | cons first rest ih => exact ih (wrap cmd first)

variable {more : List Redirection} {redirection : Redirection} {nonterminal : Nonterminal}
  {part : List Token} {token : Token} {file : Span}

section

variable {s : CString} {i : Nat} {toks rest : List Token}

/-- The switch of `parseredirs` makes the redirection of the grammar. -/
theorem redirect_spec (found : token.redirect (slice s file) = some redirection) (cmd : Cmd Span) :
    (redirect token.ret cmd file).map (slice s) = wrap (cmd.map (slice s)) redirection := by
  cases token with
  | input | output | append =>
    cases found
    rfl
  | _ => cases found

variable {cmd : Cmd Span}

theorem redirect_all {p : Span → Prop} (tok : UInt8) (all : cmd.All p) (holds : p file) :
    (redirect tok cmd file).All p := by
  unfold redirect
  split
  · exact ⟨all, holds⟩
  split
  · exact ⟨all, holds⟩
  split
  · exact ⟨all, holds⟩
  · exact all

/-- The symbols that `parseredirs` looks for begin a redirection. -/
theorem starts_redirect (found : starts ['<', '>'] toks = true) :
    ∃ token rest, toks = token :: rest ∧
      ∀ file, ∃ redirection, token.redirect file = some redirection := by
  cases toks with
  | nil => cases found
  | cons token rest =>
    refine ⟨token, rest, rfl, fun file => ?_⟩
    cases token with
    | input | output | append => exact ⟨_, rfl⟩
    | _ => exact absurd found Bool.false_ne_true

theorem redirect_starts {file : List UInt8} (found : token.redirect file = some redirection) :
    starts ['<', '>'] (token :: rest) = true := by
  cases token with
  | input | output | append => rfl
  | _ => cases found

variable {set : List Char}

/-- The rest does not begin with a symbol that may not follow. -/
theorem Follows.misses (follows : Follows nonterminal rest)
    (each : ∀ token ∈ nonterminal.follow, starts set [token] = false) :
    starts set rest = false := by
  cases rest with
  | nil => rfl
  | cons token more => exact each token (follows token rfl)

variable {args : List Token} {words : List (List UInt8)} {redirs : List Redirection}

theorem Args.misses (arg : Args args words redirs) (missing : starts set rest = false) :
    starts set (args ++ rest) = false := by
  cases arg with
  | nil => exact missing
  | cons first more => rfl

variable {before : List Token}

theorem Redirs.misses (redir : Redirs before redirs)
    (other : ∀ token ∈ [Token.input, Token.output, Token.append], starts set [token] = false)
    (missing : starts set rest = false) : starts set (before ++ rest) = false := by
  cases redir with
  | nil => exact missing
  | @cons symbol file redirection toks more first redir =>
    have known : symbol ∈ [Token.input, Token.output, Token.append] := by
      cases symbol with
      | input | output | append => decide
      | _ => cases first
    exact other symbol known

/-- The run is not one that went round too often. -/
abbrev Panics (fault : Fault) : Prop := fault ≠ .stuck

theorem exists_succ {count fuel : Nat} (short : count < fuel) : ∃ less, fuel = less + 1 :=
  Nat.exists_eq_succ_of_ne_zero (Nat.ne_zero_of_lt short)

/-- The loop of `parseredirs` reads redirections and wraps the command. -/
theorem redirLoop_sound (fuel : Nat) : ∀ {i : Nat} {toks : List Token} {cmd : Cmd Span},
    At s i toks → toks.length < fuel → cmd.All (Delimits s) →
    Ends (fun out j => ∃ before rest redirs, toks = before ++ rest ∧ At s j rest ∧
      Redirs before redirs ∧ out.map (slice s) = redirs.foldl wrap (cmd.map (slice s)) ∧
      out.All (Delimits s)) Panics (redirLoop s fuel cmd) i := by
  induction fuel with
  | zero => exact fun _ short => absurd short (Nat.not_lt_zero _)
  | succ fuel ih =>
    intro i toks cmd at_ short all
    refine peek_branch rfl at_ ?_ ?_
    · intro found j at_
      obtain ⟨symbol, toks, rfl, redirects⟩ := starts_redirect found
      refine gettoken_then at_ fun tok j code at_ _ => ?_
      cases toks with
      | nil =>
        refine (gettoken_none at_).seq fun file j none => ?_
        have missing : file.ret ≠ Shell.code 'a' := by
          rw [none.1]
          decide
        simp only [missing, ne_eq, not_false_eq_true, ↓reduceIte]
        exact .fail (by decide)
      | cons name toks =>
        refine gettoken_then at_ fun file j kind after word => ?_
        by_cases other : file.ret ≠ Shell.code 'a'
        · simp only [other, ne_eq, not_false_eq_true, ↓reduceIte]
          exact .fail (by decide)
        simp only [other, ↓reduceIte]
        rw [ne_eq, not_not, kind] at other
        obtain ⟨text, rfl⟩ := Token.ret_eq_a other
        obtain ⟨delimits, same⟩ := word text rfl
        obtain ⟨redirection, first⟩ := redirects text
        have shorter : toks.length < fuel := by
          simp only [length_cons] at short
          omega
        refine (ih after shorter (redirect_all tok.ret all delimits)).imp ?_
        rintro out j ⟨before, rest, redirs, rfl, at_, redir, tree, placed⟩
        refine ⟨symbol :: .word text :: before, rest, redirection :: redirs, rfl, at_,
          .cons first redir, ?_, placed⟩
        rw [tree, code, redirect_spec (by rw [same]; exact first)]
        rfl
    · intro _ j at_
      exact .ret ⟨[], toks, [], rfl, at_, .nil, rfl, all⟩

/-- The loop of `parseredirs` reads all redirections that follow. -/
theorem redirLoop_complete (redir : Redirs before redirs) : ∀ {fuel i : Nat} {cmd : Cmd Span},
    At s i (before ++ rest) → before.length < fuel → starts ['<', '>'] rest = false →
    Ends (fun out j => At s j rest ∧
      out.map (slice s) = redirs.foldl wrap (cmd.map (slice s))) (fun _ => False)
      (redirLoop s fuel cmd) i := by
  induction redir with
  | nil =>
    intro fuel i cmd at_ short stops
    obtain ⟨fuel, rfl⟩ := exists_succ short
    refine peek_branch rfl at_ ?_ ?_
    · intro found
      rw [List.nil_append, stops] at found
      cases found
    · intro _ j at_
      exact .ret ⟨at_, rfl⟩
  | @cons symbol file redirection toks more first redir ih =>
    intro fuel i cmd at_ short stops
    obtain ⟨fuel, rfl⟩ := exists_succ short
    refine peek_branch rfl at_ ?_ ?_
    · intro _ j at_
      refine gettoken_then at_ fun tok j code at_ _ => ?_
      refine gettoken_then at_ fun name j kind at_ word => ?_
      have isWord : ¬ name.ret ≠ Shell.code 'a' := not_not.mpr kind
      obtain ⟨_, same⟩ := word file rfl
      have shorter : toks.length < fuel := by
        simp only [length_cons] at short
        omega
      simp only [isWord, ↓reduceIte]
      refine (ih at_ shorter stops).imp ?_
      rintro out j ⟨at_, tree⟩
      refine ⟨at_, ?_⟩
      rw [tree, code, redirect_spec (by rw [same]; exact first)]
      rfl
    · intro missing
      rw [cons_append, redirect_starts first] at missing
      cases missing

theorem parseredirs_sound (at_ : At s i toks) (all : cmd.All (Delimits s)) :
    Ends (fun out j => ∃ before rest redirs, toks = before ++ rest ∧ At s j rest ∧
      Redirs before redirs ∧ out.map (slice s) = redirs.foldl wrap (cmd.map (slice s)) ∧
      out.All (Delimits s)) Panics (parseredirs s cmd) i :=
  redirLoop_sound _ at_ (Nat.lt_succ_of_le at_.length) all

theorem parseredirs_complete (redir : Redirs before redirs) (at_ : At s i (before ++ rest))
    (stops : starts ['<', '>'] rest = false) :
    Ends (fun out j => At s j rest ∧
      out.map (slice s) = redirs.foldl wrap (cmd.map (slice s))) (fun _ => False)
      (parseredirs s cmd) i := by
  have length := at_.length
  rw [length_append] at length
  exact redirLoop_complete redir at_ (by omega) stops

/-- What the loop of `parseexec` has made of the words and redirections so far. -/
structure Built (s : CString) (ret : Cmd Span) (argc : Nat) (words : List (List UInt8))
    (redirs : List Redirection) : Prop where
  argc : words.length = argc
  tree : ret.map (slice s) = redirs.foldl wrap (.exec words)

theorem Built.step {ret out : Cmd Span} {argc : Nat} {span : Span} {text : List UInt8}
    (built : Built s ret argc words redirs) (same : slice s span = text)
    (tree : out.map (slice s) = more.foldl wrap ((ret.addArg span).map (slice s))) :
    Built s out (argc + 1) (words ++ [text]) (redirs ++ more) := by
  refine ⟨by simp [built.argc], ?_⟩
  rw [tree, Cmd.map_addArg, built.tree, same, addArg_wrap, List.foldl_append]
  rfl

theorem argLoop_sound (fuel : Nat) : ∀ {i argc : Nat} {toks : List Token} {ret : Cmd Span}
    {words : List (List UInt8)} {redirs : List Redirection}, At s i toks → toks.length < fuel →
    ret.All (Delimits s) → Built s ret argc words redirs → argc ≤ MAXARGS - 1 →
    Ends (fun out j => ∃ before rest more last, toks = before ++ rest ∧ At s j rest ∧
      Args before more last ∧
      Built s out (argc + more.length) (words ++ more) (redirs ++ last) ∧
      argc + more.length ≤ MAXARGS - 1 ∧ out.All (Delimits s))
      Panics (argLoop s fuel argc ret) i := by
  induction fuel with
  | zero => exact fun _ short => absurd short (Nat.not_lt_zero _)
  | succ fuel ih =>
    intro i argc toks ret words redirs at_ short all built few
    -- The loop ends at a symbol that may follow, and at the end of the text.
    have finished : ∀ {j : Nat}, At s j toks → ∃ before rest more last, toks = before ++ rest ∧
        At s j rest ∧ Args before more last ∧
        Built s ret (argc + more.length) (words ++ more) (redirs ++ last) ∧
        argc + more.length ≤ MAXARGS - 1 ∧ ret.All (Delimits s) := by
      intro j at_
      refine ⟨[], toks, [], [], rfl, at_, .nil, ?_, few, all⟩
      rw [append_nil, append_nil]
      exact built
    refine peek_branch rfl at_ ?_ ?_
    · intro _ j at_
      exact .ret (finished at_)
    intro _ j at_
    cases toks with
    | nil =>
      refine (gettoken_none at_).seq fun tok j none => ?_
      simp only [none.1, ↓reduceIte]
      exact .ret (finished none.2)
    | cons token toks =>
      refine gettoken_then at_ fun tok j kind after word => ?_
      have present : tok.ret ≠ 0 := by
        rw [kind]
        exact token.ret_ne_zero
      simp only [present, ↓reduceIte]
      by_cases other : tok.ret ≠ code 'a'
      · simp only [other, ne_eq, not_false_eq_true, ↓reduceIte]
        exact .fail (by decide)
      simp only [other, ↓reduceIte]
      rw [ne_eq, not_not, kind] at other
      obtain ⟨text, rfl⟩ := Token.ret_eq_a other
      obtain ⟨delimits, same⟩ := word text rfl
      by_cases many : argc + 1 ≥ MAXARGS
      · simp only [many, ↓reduceIte]
        exact .fail (by decide)
      simp only [many, ↓reduceIte]
      refine (parseredirs_sound after (all.addArg delimits)).seq ?_
      rintro out j ⟨middle, toks, first, rfl, at_, redir, tree, placed⟩
      have shorter : toks.length < fuel := by
        simp only [length_cons, length_append] at short
        omega
      refine (ih at_ shorter placed (built.step same tree) (by omega)).imp ?_
      rintro out j ⟨before, rest, more, last, rfl, at_, arg, built, few, placed⟩
      refine ⟨.word text :: (middle ++ before), rest, text :: more, first ++ last, ?_, at_,
        .cons redir arg, ?_, ?_, placed⟩
      · simp
      · have length : argc + (text :: more).length = argc + 1 + more.length := by
          simp only [length_cons]
          omega
        rw [length, ← append_assoc, ← List.singleton_append (x := text), ← append_assoc]
        exact built
      · simp only [length_cons]
        omega

/-- The loop of `parseexec` reads all words and redirections that follow. -/
theorem argLoop_complete {more : List (List UInt8)} {last : List Redirection}
    (arg : Args args more last) (follows : Follows .exec rest) :
    ∀ {fuel i argc : Nat} {ret : Cmd Span} {words : List (List UInt8)}
    {redirs : List Redirection}, At s i (args ++ rest) → args.length < fuel →
    Built s ret argc words redirs → argc + more.length ≤ MAXARGS - 1 →
    Ends (fun out j => At s j rest ∧
      out.map (slice s) = (redirs ++ last).foldl wrap (.exec (words ++ more)))
      (fun _ => False) (argLoop s fuel argc ret) i := by
  induction arg with
  | nil =>
    intro fuel i argc ret words redirs at_ short built few
    obtain ⟨fuel, rfl⟩ := exists_succ short
    rw [append_nil, append_nil]
    refine peek_branch rfl at_ ?_ ?_
    · intro _ j at_
      exact .ret ⟨at_, built.tree⟩
    intro missing j at_
    cases rest with
    | nil =>
      refine (gettoken_none at_).seq fun tok j none => ?_
      simp only [none.1, ↓reduceIte]
      exact .ret ⟨none.2, built.tree⟩
    | cons token rest =>
      have found : ∀ token ∈ Nonterminal.exec.follow,
          starts ['|', ')', '&', ';'] [token] = true := by
        decide
      exact absurd ((found token (follows token rfl)).symm.trans missing) (by decide)
  | @cons word after toks redirs' more words' redir arg ih =>
    intro fuel i argc ret words redirs at_ short built few
    obtain ⟨fuel, rfl⟩ := exists_succ short
    rw [cons_append, append_assoc] at at_
    refine peek_branch rfl at_ ?_ ?_
    · intro found
      cases found
    intro _ j at_
    refine gettoken_then at_ fun tok j kind at_ text => ?_
    obtain ⟨_, same⟩ := text word rfl
    have present : tok.ret ≠ 0 := by
      rw [kind]
      exact Token.ret_ne_zero _
    have isWord : ¬ tok.ret ≠ code 'a' := not_not.mpr kind
    have fits : ¬ argc + 1 ≥ MAXARGS := by
      simp only [length_cons] at few
      omega
    simp only [present, ↓reduceIte, isWord, fits]
    have none : starts ['<', '>'] rest = false := follows.misses (by decide)
    have stops := arg.misses none
    refine (parseredirs_complete redir at_ stops).seq ?_
    rintro out j ⟨at_, tree⟩
    have shorter : toks.length < fuel := by
      simp only [length_cons, length_append] at short
      omega
    refine (ih at_ shorter (built.step same tree) ?_).imp ?_
    · simp only [length_cons] at few
      omega
    rintro out j ⟨at_, tree⟩
    refine ⟨at_, ?_⟩
    rw [tree]
    simp

/-- The symbols of the grammar. -/
def Token.all : List Token := [input, output, append, bar, amp, semi, lparen, rparen]

theorem starts_one (symbol : Token) (found : starts set toks = true)
    (only : ∀ token ∈ Token.all, token = symbol ∨ starts set [token] = false) :
    ∃ rest, toks = symbol :: rest := by
  cases toks with
  | nil => cases found
  | cons token rest =>
    have known : token ∈ Token.all := by
      cases token with
      | word text => cases found
      | _ => decide
    rcases only token known with rfl | missing
    · exact ⟨rest, rfl⟩
    · exact absurd (missing.symm.trans found) (by decide)

/-- A branch on the only symbol that `peek` may have found, which is taken then. -/
theorem peek_symbol {faults : Fault → Prop} {post : Cmd Span → Nat → Prop}
    {yes : Got → ParseM (Cmd Span)} {no : ParseM (Cmd Span)} (symbol : Token)
    (known : set.all (fun c => symbols.contains (code c)) = true)
    (only : ∀ token ∈ Token.all, token = symbol ∨ starts set [token] = false) (at_ : At s i toks)
    (found : ∀ got j rest, toks = symbol :: rest → At s j rest → Ends post faults (yes got) j)
    (missing : starts set toks = false → ∀ j, At s j toks → Ends post faults no j) :
    Ends post faults (do if ← peek s set then gettoken s >>= yes else no) i := by
  refine peek_branch known at_ (fun begins j at_ => ?_) missing
  obtain ⟨rest, rfl⟩ := starts_one symbol begins only
  exact gettoken_then at_ fun got j _ at_ _ => found got j rest rfl at_

/-- A parser reads a part of a line, and returns its tree. -/
def Reads (s : CString) (nonterminal : Nonterminal) (toks : List Token) (cmd : Cmd Span) (j : Nat) :
    Prop :=
  ∃ before rest, toks = before ++ rest ∧ At s j rest ∧
    Derives nonterminal before (cmd.map (slice s)) ∧ cmd.All (Delimits s)

/-- `parseline` does so for fewer tokens than that. -/
def LineSound (s : CString) (line : ParseM (Cmd Span)) (bound : Nat) : Prop :=
  ∀ {i : Nat} {toks : List Token}, At s i toks → toks.length < bound →
    Ends (Reads s .line toks) Panics line i

variable {line : ParseM (Cmd Span)} {bound : Nat}

theorem parseblock_sound (sound : LineSound s line bound) (at_ : At s i toks)
    (short : toks.length ≤ bound) : Ends (Reads s .exec toks) Panics (parseblock s line) i := by
  refine peek_symbol .lparen rfl (by decide) at_ ?_ ?_
  · rintro _ j toks rfl at_
    refine (sound at_ short).seq ?_
    rintro cmd j ⟨inner, toks, rfl, at_, line, all⟩
    refine peek_symbol .rparen rfl (by decide) at_ ?_ ?_
    · rintro _ j toks rfl at_
      refine (parseredirs_sound at_ all).imp ?_
      rintro out j ⟨after, rest, redirs, rfl, at_, redir, tree, placed⟩
      refine ⟨.lparen :: (inner ++ .rparen :: after), rest, by simp, at_, ?_, placed⟩
      rw [tree]
      exact .block line redir
    · intro _ j at_
      exact .fail (by decide)
  · intro _ j at_
    exact .fail (by decide)

theorem parseexec_sound (sound : LineSound s line bound) (at_ : At s i toks)
    (short : toks.length ≤ bound) : Ends (Reads s .exec toks) Panics (parseexec s line) i := by
  refine peek_branch rfl at_ ?_ ?_
  · intro _ j at_
    exact parseblock_sound sound at_ short
  intro _ j at_
  have empty : (Cmd.exec [] : Cmd Span).All (Delimits s) := by
    intro arg member
    cases member
  refine (parseredirs_sound at_ empty).seq ?_
  rintro ret j ⟨before, toks, redirs, rfl, at_, redir, tree, placed⟩
  have start : Built s ret 0 [] redirs := ⟨rfl, tree⟩
  refine (argLoop_sound _ at_ (Nat.lt_succ_of_le at_.length) placed start (Nat.zero_le _)).imp ?_
  rintro out j ⟨args, rest, words, last, rfl, at_, arg, built, few, placed⟩
  refine ⟨before ++ args, rest, by simp, at_, ?_, placed⟩
  rw [built.tree]
  rw [Nat.zero_add] at few
  exact .simple redir arg few

theorem parsepipe_sound (sound : LineSound s line bound) (fuel : Nat) :
    ∀ {i : Nat} {toks : List Token}, At s i toks → toks.length < fuel →
    toks.length ≤ bound → Ends (Reads s .pipe toks) Panics (parsepipe s line fuel) i := by
  induction fuel with
  | zero => exact fun _ short => absurd short (Nat.not_lt_zero _)
  | succ fuel ih =>
    intro i toks at_ short inside
    refine (parseexec_sound sound at_ inside).seq ?_
    rintro left j ⟨before, toks, rfl, at_, exec, all⟩
    rw [length_append] at short inside
    refine peek_symbol .bar rfl (by decide) at_ ?_ ?_
    · rintro _ j toks rfl at_
      rw [length_cons] at short inside
      refine (ih at_ (by omega) (by omega)).seq ?_
      rintro right j ⟨after, rest, rfl, at_, pipe, placed⟩
      exact .ret ⟨before ++ .bar :: after, rest, by simp, at_, .pipe exec pipe, all, placed⟩
    · intro _ j at_
      exact .ret ⟨before, toks, rfl, at_, .one exec, all⟩

theorem backLoop_sound (fuel : Nat) : ∀ {i : Nat} {toks : List Token} {cmd : Cmd Span},
    At s i toks → toks.length < fuel → cmd.All (Delimits s) →
    Ends (fun out j => ∃ count rest, toks = List.replicate count .amp ++ rest ∧ At s j rest ∧
      out.map (slice s) = background count (cmd.map (slice s)) ∧ out.All (Delimits s))
      Panics (backLoop s fuel cmd) i := by
  induction fuel with
  | zero => exact fun _ short => absurd short (Nat.not_lt_zero _)
  | succ fuel ih =>
    intro i toks cmd at_ short all
    refine peek_symbol .amp rfl (by decide) at_ ?_ ?_
    · rintro _ j toks rfl at_
      rw [length_cons] at short
      have backAll : (Cmd.back cmd).All (Delimits s) := all
      refine (ih at_ (by omega) backAll).imp ?_
      rintro out j ⟨count, rest, rfl, at_, tree, placed⟩
      exact ⟨count + 1, rest, rfl, at_, tree, placed⟩
    · intro _ j at_
      exact .ret ⟨0, toks, rfl, at_, rfl, all⟩

theorem parseline_sound (fuel : Nat) : LineSound s (parseline s fuel) fuel := by
  induction fuel with
  | zero => exact fun _ short => absurd short (Nat.not_lt_zero _)
  | succ fuel ih =>
    intro i toks at_ short
    refine (parsepipe_sound ih _ at_ (Nat.lt_succ_of_le at_.length) (by omega)).seq ?_
    rintro left j ⟨before, toks, rfl, at_, pipe, all⟩
    refine (backLoop_sound _ at_ (Nat.lt_succ_of_le at_.length) all).seq ?_
    rintro left j ⟨count, toks, rfl, at_, tree, all⟩
    refine peek_symbol .semi rfl (by decide) at_ ?_ ?_
    · rintro _ j toks rfl at_
      have shorter : toks.length < fuel := by
        simp only [length_append, length_cons] at short
        omega
      refine (ih at_ shorter).seq ?_
      rintro right j ⟨after, rest, rfl, at_, line, placed⟩
      refine .ret ⟨before ++ List.replicate count .amp ++ .semi :: after, rest, by simp, at_, ?_,
        all, placed⟩
      simp only [Cmd.map, tree]
      exact .list pipe count line
    · intro _ j at_
      refine .ret ⟨before ++ List.replicate count .amp, toks, by simp, at_, ?_, all⟩
      rw [tree]
      exact .last pipe count

/-- A parser stops behind a part of a line, with its tree. -/
def Stops (s : CString) (tree : Cmd (List UInt8)) (rest : List Token) (cmd : Cmd Span) (j : Nat) :
    Prop :=
  At s j rest ∧ cmd.map (slice s) = tree

/-- The parser for a part of a line returns the tree of a derivation. -/
def Completes (s : CString) : Nonterminal → List Token → Cmd (List UInt8) → Prop
  | .line, part, tree => ∀ {fuel i : Nat} {rest : List Token}, At s i (part ++ rest) →
      part.length < fuel → Follows .line rest →
      Ends (Stops s tree rest) (fun _ => False) (parseline s fuel) i
  | .pipe, part, tree => ∀ {bound fuel i : Nat} {rest : List Token}, At s i (part ++ rest) →
      part.length ≤ bound → part.length < fuel → Follows .pipe rest →
      Ends (Stops s tree rest) (fun _ => False) (parsepipe s (parseline s bound) fuel) i
  | .exec, part, tree => ∀ {bound i : Nat} {rest : List Token}, At s i (part ++ rest) →
      part.length ≤ bound → Follows .exec rest →
      Ends (Stops s tree rest) (fun _ => False) (parseexec s (parseline s bound)) i

variable {tree : Cmd (List UInt8)}

theorem parseexec_block {inner after : List Token} (line : Completes s .line inner tree)
    (redir : Redirs after redirs) :
    Completes s .exec (.lparen :: (inner ++ .rparen :: after)) (redirs.foldl wrap tree) := by
  intro bound i rest at_ short follows
  simp only [cons_append, append_assoc] at at_
  simp only [length_cons, length_append] at short
  refine peek_branch rfl at_ ?_ ?_
  · intro _ j at_
    refine peek_symbol .lparen rfl (by decide) at_ ?_ ?_
    · rintro _ j _ ⟨⟩ at_
      refine (line at_ (by omega) ?_).seq ?_
      · intro token found
        cases found
        decide
      rintro cmd j ⟨at_, tree⟩
      refine peek_symbol .rparen rfl (by decide) at_ ?_ ?_
      · rintro _ j _ ⟨⟩ at_
        refine (parseredirs_complete redir at_ (follows.misses (by decide))).imp ?_
        rintro out j ⟨at_, same⟩
        refine ⟨at_, ?_⟩
        rw [same, tree]
      · intro missing
        cases missing
    · intro missing
      cases missing
  · intro missing
    cases missing

theorem parseexec_simple (redir : Redirs before redirs) (arg : Args args words more)
    (few : words.length ≤ MAXARGS - 1) :
    Completes s .exec (before ++ args) ((redirs ++ more).foldl wrap (.exec words)) := by
  intro bound i rest at_ _ follows
  rw [append_assoc] at at_
  refine peek_branch rfl at_ ?_ ?_
  · intro found
    have none : starts ['('] rest = false := follows.misses (by decide)
    have missing := redir.misses (by decide) (arg.misses none)
    rw [missing] at found
    cases found
  intro _ j at_
  have none : starts ['<', '>'] rest = false := follows.misses (by decide)
  have stops := arg.misses none
  refine (parseredirs_complete redir at_ stops).seq ?_
  rintro ret j ⟨at_, tree⟩
  have start : Built s ret 0 [] redirs := ⟨rfl, tree⟩
  have length := at_.length
  rw [length_append] at length
  exact argLoop_complete arg follows at_ (by omega) start (by omega)

theorem backLoop_complete (count : Nat) : ∀ {fuel i : Nat} {cmd : Cmd Span},
    At s i (List.replicate count .amp ++ rest) → count < fuel → starts ['&'] rest = false →
    Ends (Stops s (background count (cmd.map (slice s))) rest) (fun _ => False)
      (backLoop s fuel cmd) i := by
  induction count with
  | zero =>
    intro fuel i cmd at_ short stops
    obtain ⟨fuel, rfl⟩ := exists_succ short
    refine peek_branch rfl at_ ?_ ?_
    · intro found
      rw [List.replicate_zero, List.nil_append, stops] at found
      cases found
    · intro _ j at_
      exact .ret ⟨at_, rfl⟩
  | succ count ih =>
    intro fuel i cmd at_ short stops
    obtain ⟨fuel, rfl⟩ := exists_succ short
    rw [List.replicate_succ, cons_append] at at_
    refine peek_symbol .amp rfl (by decide) at_ ?_ ?_
    · rintro _ j _ ⟨⟩ at_
      have later := @ih fuel j (.back cmd) at_ (by omega) stops
      exact later
    · intro missing
      cases missing

theorem Follows.background (follows : Follows .pipe rest) (count : Nat) :
    Follows .pipe (List.replicate count .amp ++ rest) := by
  cases count with
  | zero => exact follows
  | succ count =>
    intro token found
    cases found
    decide

theorem Follows.mono {inner outer : Nonterminal} (follows : Follows outer rest)
    (wider : ∀ token ∈ outer.follow, token ∈ inner.follow) : Follows inner rest :=
  fun token found => wider token (follows token found)

theorem parseline_begins {fuel count : Nat} {post : Cmd Span → Nat → Prop}
    {next : Cmd Span → ParseM (Cmd Span)} (pipe : Completes s .pipe part tree)
    (at_ : At s i (part ++ (List.replicate count .amp ++ rest))) (short : part.length ≤ fuel)
    (follows : Follows .pipe rest) (stops : starts ['&'] rest = false)
    (continues : ∀ cmd j, Stops s (background count tree) rest cmd j →
      Ends post (fun _ => False) (next cmd) j) :
    Ends post (fun _ => False) (do
      let cmd ← parsepipe s (parseline s fuel) (s.strlen + 1)
      let cmd ← backLoop s (s.strlen + 1) cmd
      next cmd) i := by
  have length := at_.length
  simp only [length_append, List.length_replicate] at length
  refine (pipe at_ short (by omega) (follows.background count)).seq ?_
  rintro left j ⟨at_, same⟩
  refine (backLoop_complete count at_ (by omega) stops).seq ?_
  rw [same]
  exact continues

theorem Derives.completes (derives : Derives nonterminal part tree) :
    Completes s nonterminal part tree := by
  induction derives with
  | block line redir lineCompletes => exact parseexec_block lineCompletes redir
  | simple redir arg few => exact parseexec_simple redir arg few
  | one exec execCompletes =>
    intro bound fuel i rest at_ inside short follows
    obtain ⟨fuel, rfl⟩ := exists_succ short
    refine (execCompletes at_ inside (follows.mono (by decide))).seq ?_
    rintro cmd j ⟨at_, tree⟩
    refine peek_branch rfl at_ ?_ ?_
    · intro found
      rw [follows.misses (by decide)] at found
      cases found
    · intro _ j at_
      exact .ret ⟨at_, tree⟩
  | pipe exec pipe execCompletes pipeCompletes =>
    intro bound fuel i rest at_ inside short follows
    obtain ⟨fuel, rfl⟩ := exists_succ short
    simp only [append_assoc, cons_append] at at_
    simp only [length_append, length_cons] at inside short
    refine (execCompletes at_ (by omega) ?_).seq ?_
    · intro token found
      cases found
      decide
    rintro left j ⟨at_, leftTree⟩
    refine peek_symbol .bar rfl (by decide) at_ ?_ ?_
    · rintro _ j _ ⟨⟩ at_
      refine (pipeCompletes at_ (by omega) (by omega) follows).seq ?_
      rintro right j ⟨at_, rightTree⟩
      refine .ret ⟨at_, ?_⟩
      rw [Cmd.map, leftTree, rightTree]
    · intro missing
      cases missing
  | last pipe count pipeCompletes =>
    intro fuel i rest at_ short follows
    obtain ⟨fuel, rfl⟩ := exists_succ short
    rw [append_assoc] at at_
    rw [length_append] at short
    refine parseline_begins pipeCompletes at_ (by omega) (follows.mono (by decide))
      (follows.misses (by decide)) ?_
    rintro cmd j ⟨at_, tree⟩
    refine peek_branch rfl at_ ?_ ?_
    · intro found
      rw [follows.misses (by decide)] at found
      cases found
    · intro _ j at_
      exact .ret ⟨at_, tree⟩
  | list pipe count line pipeCompletes lineCompletes =>
    intro fuel i rest at_ short follows
    obtain ⟨fuel, rfl⟩ := exists_succ short
    simp only [append_assoc, cons_append] at at_
    simp only [length_append, length_cons] at short
    refine parseline_begins pipeCompletes at_ (by omega) ?_ rfl ?_
    · intro token found
      cases found
      decide
    rintro left j ⟨at_, leftTree⟩
    refine peek_symbol .semi rfl (by decide) at_ ?_ ?_
    · rintro _ j _ ⟨⟩ at_
      refine (lineCompletes at_ (by omega) follows).seq ?_
      rintro right j ⟨at_, rightTree⟩
      refine .ret ⟨at_, ?_⟩
      rw [Cmd.map, leftTree, rightTree]
    · intro missing
      cases missing

/-- The last check of `parsecmd` is whether tokens are left. -/
theorem peek_last {faults : Fault → Prop} (at_ : At s i toks) :
    Ends (fun _ j => At s j toks ∧ (j = s.strlen ↔ toks = [])) faults (peek s []) i := by
  have after := at_.skipSpaces
  refine Ends.of_run rfl ⟨after, ?_⟩
  rcases after.cases at_.inside with ⟨none, ends⟩ | ⟨inside, visible⟩
  · exact ⟨fun _ => none, fun _ => ends⟩
  obtain ⟨token, rest, ahead, _⟩ := scan_token inside visible
  rw [after.ahead] at ahead
  rw [ahead]
  exact ⟨fun ends => absurd ends (Nat.ne_of_lt inside), fun none => by cases none⟩

theorem At.begins (s : CString) : At s 0 (tokens s.bytes) := ⟨Nat.zero_le _, rfl⟩

theorem parseAll_sound (s : CString) :
    Ends (fun cmd _ => Derives .line (tokens s.bytes) (cmd.map (slice s)) ∧ cmd.All (Delimits s))
      Panics (parseAll s) 0 := by
  have begins := At.begins s
  refine (parseline_sound _ begins (Nat.lt_succ_of_le begins.length)).seq ?_
  rintro cmd j ⟨before, rest, same, at_, derives, all⟩
  refine (peek_last at_).seq ?_
  rintro found j ⟨_, finished⟩
  refine Ends.read ?_
  by_cases ends : j = s.strlen
  · rw [finished.mp ends, append_nil] at same
    rw [same]
    simp only [ends, ne_eq, not_true_eq_false, ↓reduceIte]
    exact .ret ⟨derives, all⟩
  · simp only [ends, ne_eq, not_false_eq_true, ↓reduceIte]
    exact .fail (fun stuck => by cases stuck)

theorem parseAll_complete (derives : Derives .line (tokens s.bytes) tree) :
    Ends (fun cmd _ => cmd.map (slice s) = tree) (fun _ => False) (parseAll s) 0 := by
  have begins : At s 0 (tokens s.bytes ++ []) := by
    rw [append_nil]
    exact At.begins s
  have length := (At.begins s).length
  refine (derives.completes begins (by omega) (fun token found => by cases found)).seq ?_
  rintro cmd j ⟨at_, same⟩
  refine (peek_last at_).seq ?_
  rintro found j ⟨_, finished⟩
  refine Ends.read ?_
  simp only [finished.mpr rfl, ne_eq, not_true_eq_false, ↓reduceIte]
  exact .ret same

end

section

variable {s : CString} {memory : List UInt8}

variable {cmd : Cmd Span}

theorem nulterminate_keeps {holds : List UInt8 → Prop} (all : cmd.All (Delimits s))
    (each : ∀ memory span, Delimits s span → holds memory → holds (memory.set span.stop 0)) :
    ∀ {memory : List UInt8}, holds memory → holds (nulterminate cmd memory) := by
  induction cmd with
  | exec argv =>
    intro memory before
    simp only [nulterminate]
    induction argv generalizing memory with
    | nil => exact before
    | cons arg rest ih =>
      have delimits := all arg (List.mem_cons_self ..)
      exact ih (fun other member => all other (List.mem_cons_of_mem _ member))
        (each memory arg delimits before)
  | redir cmd file mode fd ih =>
    intro memory before
    exact each _ file all.2 (ih all.1 before)
  | pipe left right leftKeeps rightKeeps | list left right leftKeeps rightKeeps =>
    intro memory before
    exact rightKeeps all.2 (leftKeeps all.1 before)
  | back cmd ih => exact ih all

/-- The words are still in the memory. -/
structure Kept (s : CString) (memory : List UInt8) : Prop where
  length : memory.length = s.strlen + 1
  words : ∀ i, i < s.strlen → isWordChar (s.char i) = true → memory[i]? = some (s.char i)

variable {span : Span}

theorem Kept.set (kept : Kept s memory) (delimits : Delimits s span) :
    Kept s (memory.set span.stop 0) := by
  refine ⟨by rw [List.length_set, kept.length], ?_⟩
  intro i inside word
  have different : span.stop ≠ i := by
    rintro rfl
    rw [delimits.ends inside] at word
    cases word
  rw [List.getElem?_set_ne different]
  exact kept.words i inside word

theorem zero_set {i : Nat} (stop : Nat) (zero : memory[i]? = some 0) :
    (memory.set stop 0)[i]? = some 0 := by
  by_cases same : stop = i
  · subst same
    have inside := (List.getElem?_eq_some_iff.mp zero).1
    exact List.getElem?_set_self inside
  · rw [List.getElem?_set_ne same]
    exact zero

theorem nulterminate_zero {i : Nat} (all : cmd.All (Delimits s)) (zero : memory[i]? = some 0) :
    (nulterminate cmd memory)[i]? = some 0 :=
  @nulterminate_keeps s cmd (fun memory => memory[i]? = some 0) all
    (fun _ span _ zero => zero_set span.stop zero) memory zero

theorem nulterminate_kept (all : cmd.All (Delimits s)) (kept : Kept s memory) :
    Kept s (nulterminate cmd memory) :=
  nulterminate_keeps all (fun _ _ delimits kept => kept.set delimits) kept

theorem Kept.zero (kept : Kept s memory) (delimits : Delimits s span) :
    (memory.set span.stop 0)[span.stop]? = some 0 := by
  have inside := delimits.inside
  exact List.getElem?_set_self (by rw [kept.length]; omega)

variable {name : Type} {p q : name → Prop}

theorem Cmd.All.imp {cmd : Cmd name} (all : cmd.All p) (implies : ∀ name, p name → q name) :
    cmd.All q := by
  induction cmd with
  | exec argv => exact fun arg member => implies arg (all arg member)
  | redir cmd file mode fd ih =>
    exact ⟨ih all.1, implies file all.2⟩
  | pipe left right leftAll rightAll | list left right leftAll rightAll =>
    exact ⟨leftAll all.1, rightAll all.2⟩
  | back cmd ih => exact ih all

theorem nulterminate_ends (all : cmd.All (Delimits s)) :
    ∀ {memory : List UInt8}, Kept s memory →
    cmd.All (fun span => (nulterminate cmd memory)[span.stop]? = some 0) := by
  induction cmd with
  | exec argv =>
    intro memory kept arg member
    induction argv generalizing memory with
    | nil => cases member
    | cons first rest ih =>
      have delimits := all first (List.mem_cons_self ..)
      have others : (Cmd.exec rest).All (Delimits s) :=
        fun other member => all other (List.mem_cons_of_mem _ member)
      rcases List.mem_cons.mp member with rfl | later
      · have stays := nulterminate_zero others (kept.zero delimits)
        exact stays
      · exact ih others (kept.set delimits) later
  | redir cmd file mode fd ih =>
    intro memory kept
    refine ⟨(ih all.1 kept).imp fun span zero => zero_set _ zero, ?_⟩
    exact (nulterminate_kept all.1 kept).zero all.2
  | pipe left right leftEnds rightEnds | list left right leftEnds rightEnds =>
    intro memory kept
    refine ⟨(leftEnds all.1 kept).imp ?_, rightEnds all.2 (nulterminate_kept all.1 kept)⟩
    intro span zero
    have stays := nulterminate_zero all.2 zero
    exact stays
  | back cmd ih => exact ih all

theorem cstring_slice (kept : Kept s memory) (delimits : Delimits s span)
    (zero : memory[span.stop]? = some 0) : cstring memory span.start = slice s span := by
  have ordered := delimits.ordered
  have inside := delimits.inside
  have word : (memory.drop span.start).take (span.stop - span.start) = slice s span := by
    apply List.ext_getElem?
    intro k
    simp only [slice, List.getElem?_take, List.getElem?_drop]
    by_cases before : k < span.stop - span.start
    · simp only [before, ↓reduceIte]
      have bound : span.start + k < s.bytes.length := by
        have : s.strlen = s.bytes.length := rfl
        omega
      have letter := delimits.chars (span.start + k) (by omega) (by omega)
      rw [kept.words _ (by omega) letter, CString.char, List.getD_eq_getElem?_getD,
        List.getElem?_eq_getElem bound, Option.getD_some]
    · simp only [before, ↓reduceIte]
  have split : memory.drop span.start = slice s span ++ memory.drop span.stop := by
    have parts := List.take_append_drop (span.stop - span.start) (memory.drop span.start)
    rw [word, List.drop_drop, Nat.add_sub_cancel' ordered] at parts
    exact parts.symm
  have nonzero : ∀ c ∈ slice s span, decide (c ≠ 0) = true := by
    intro c member
    have inText : c ∈ s.bytes := List.mem_of_mem_drop (List.mem_of_mem_take member)
    refine decide_eq_true fun isZero => ?_
    rw [isZero] at inText
    exact s.terminated inText
  obtain ⟨bound, first⟩ := List.getElem?_eq_some_iff.mp zero
  rw [cstring, split, List.takeWhile_append_of_pos nonzero, List.drop_eq_getElem_cons bound, first,
    List.takeWhile_cons_of_neg (by decide), append_nil]

theorem Cmd.map_congr {f g : name → text} {cmd : Cmd name}
    (same : cmd.All fun name => f name = g name) : cmd.map f = cmd.map g := by
  induction cmd with
  | exec argv => exact congrArg Cmd.exec (List.map_congr_left same)
  | redir cmd file mode fd ih =>
    rw [map, map, ih same.1, same.2]
  | pipe left right leftSame rightSame | list left right leftSame rightSame =>
    rw [map, map, leftSame same.1, rightSame same.2]
  | back cmd ih => rw [map, map, ih same]

theorem Cmd.All.and {cmd : Cmd name} (left : cmd.All p) (right : cmd.All q) :
    cmd.All fun name => p name ∧ q name := by
  induction cmd with
  | exec argv => exact fun arg member => ⟨left arg member, right arg member⟩
  | redir cmd file mode fd ih =>
    exact ⟨ih left.1 right.1, left.2, right.2⟩
  | pipe first second firstAll secondAll | list first second firstAll secondAll =>
    exact ⟨firstAll left.1 right.1, secondAll left.2 right.2⟩
  | back cmd ih => exact ih left right

theorem Kept.begins (s : CString) : Kept s (s.bytes ++ [0]) := by
  refine ⟨by simp [CString.strlen], ?_⟩
  intro i inside _
  have bound : i < s.bytes.length := inside
  rw [List.getElem?_append_left bound, List.getElem?_eq_getElem bound, CString.char,
    List.getD_eq_getElem?_getD, List.getElem?_eq_getElem bound, Option.getD_some]

/-- After `nulterminate`, the strings that the tree points to are its words. -/
theorem nulterminate_words (all : cmd.All (Delimits s)) :
    cmd.All fun span =>
      cstring (nulterminate cmd (s.bytes ++ [0])) span.start = slice s span := by
  have begins := Kept.begins s
  have kept := nulterminate_kept all begins
  refine (all.and (nulterminate_ends all begins)).imp ?_
  rintro span ⟨delimits, zero⟩
  exact cstring_slice kept delimits zero

theorem Delimits.apart {other : Span} (delimits : Delimits s span) (word : Delimits s other) :
    ¬ (other.start ≤ span.stop ∧ span.stop < other.stop) := by
  rintro ⟨low, high⟩
  have letter := word.chars _ low high
  rw [delimits.ends (Nat.lt_of_lt_of_le high word.inside)] at letter
  cases letter

/-- The strings that the tree points to are, in the memory that `parsecmd` leaves, the words of
the tree that the tokens determine, and no NUL is written into a word. -/
theorem parsecmd_keeps_words (accepted : parsecmd s = .ok (cmd, memory)) :
    Derives .line (tokens s.bytes) (cmd.map (slice s)) ∧
    (cmd.All fun span => cstring memory span.start = slice s span) ∧
    cmd.All fun written => cmd.All fun word =>
      ¬ (word.start ≤ written.stop ∧ written.stop < word.stop) := by
  obtain ⟨⟨tree, final⟩, ran, returned⟩ := Outcome.bind_ok_ok accepted
  cases returned
  obtain ⟨derives, all⟩ := (parseAll_sound s).returned ran
  refine ⟨derives, nulterminate_words all, all.imp fun written delimits => ?_⟩
  exact all.imp fun word => delimits.apart

/-- In `a>b` the NUL behind `a` replaces the symbol. -/
theorem parsecmd_keeps_words_output :
    cstring [97, 0, 98, 0] 0 = [97] ∧ cstring [97, 0, 98, 0] 2 = [98] := by
  have accepted : parsecmd ⟨[97, 62, 98], by decide⟩ =
      .ok (.redir (.exec [⟨0, 1⟩]) ⟨2, 3⟩ (O_WRONLY ||| O_CREATE) 1, [97, 0, 98, 0]) := by
    decide +kernel
  have words := (parsecmd_keeps_words accepted).2.1
  exact ⟨words.1 _ (List.mem_singleton_self _), words.2⟩

end

/-- `parsecmd` comes to an end on every string. It returns exactly if the tokens of the string
are a line of the grammar, and then it returns the tree that the derivation determines. -/
theorem parsecmd_accepts_grammar (s : CString) :
    parsecmd s ≠ .error .stuck ∧
    ∀ tree, (∃ cmd memory, parsecmd s = .ok (cmd, memory) ∧
        cmd.map (fun span => cstring memory span.start) = tree) ↔
      Derives .line (tokens s.bytes) tree := by
  have sound := parseAll_sound s
  cases ran : parseAll s 0 with
  | error fault =>
    have result : parsecmd s = .error fault := by
      rw [parsecmd, ran]
      rfl
    rw [result]
    refine ⟨fun same => sound.failed ran (Except.error.inj same), fun tree => ⟨?_, ?_⟩⟩
    · rintro ⟨cmd, memory, returned, _⟩
      cases returned
    · intro derives
      exact absurd ((parseAll_complete derives).failed ran) id
  | ok returned =>
    obtain ⟨cmd, final⟩ := returned
    obtain ⟨derives, all⟩ := sound.returned ran
    have result : parsecmd s = .ok (cmd, nulterminate cmd (s.bytes ++ [0])) := by
      rw [parsecmd, ran]
      rfl
    have words := Cmd.map_congr (nulterminate_words all)
    rw [result]
    refine ⟨fun same => (by cases same), fun tree => ⟨?_, ?_⟩⟩
    · rintro ⟨cmd, memory, returned, rfl⟩
      cases returned
      rw [words]
      exact derives
    · intro other
      exact ⟨cmd, _, rfl, words.trans ((parseAll_complete other).returned ran)⟩

end RtXv6.Shell
