import RtXv6.FileCalls

/-!
# The parser of the shell

`parsecmd` turns the text of a command line into a tree. Six functions share a cursor into the
text, which they only move forward, and look at one character ahead. The tree points into the
text: a word is given by where it begins and where it ends, and at the end a NUL is written
behind every word of the tree.

The functions call each other in a circle, so `parseexec` and `parsepipe` take `parseline` as
an argument, and the loops count how often they may still go round. A count that ran out is a
fault of its own.
-/

namespace RtXv6.Shell

/-- `O_RDONLY`. -/
abbrev O_RDONLY : UInt32 := 0x000

/-- The size of `argv`. -/
abbrev MAXARGS : Nat := 10

/-- A NUL-terminated string, without its NUL. -/
structure CString where
  bytes : List UInt8
  terminated : 0 ∉ bytes

namespace CString

/-- `strlen`. -/
def strlen (s : CString) : Nat := s.bytes.length

/-- The character at an index, with the NUL behind the last one. -/
def char (s : CString) (i : Nat) : UInt8 := s.bytes.getD i 0

end CString

/-- The string that begins at an address of a memory. -/
def cstring (memory : List UInt8) (start : Nat) : List UInt8 :=
  (memory.drop start).takeWhile (· ≠ 0)

/-- A part of the text: the pointers `q` and `eq`. -/
structure Span where
  start : Nat
  stop : Nat
  deriving DecidableEq, Repr

/-- The five kinds of commands, with names of any form. -/
inductive Cmd (name : Type) where
  | exec (argv : List name)
  | redir (cmd : Cmd name) (file : name) (mode : UInt32) (fd : Nat)
  | pipe (left right : Cmd name)
  | list (left right : Cmd name)
  | back (cmd : Cmd name)
  deriving DecidableEq, Repr

namespace Cmd

variable {name text : Type}

/-- The same tree with other names. -/
def map (f : name → text) : Cmd name → Cmd text
  | exec argv => exec (argv.map f)
  | redir cmd file mode fd => redir (cmd.map f) (f file) mode fd
  | pipe left right => pipe (left.map f) (right.map f)
  | list left right => list (left.map f) (right.map f)
  | back cmd => back (cmd.map f)

/-- Stores the next argument in the node that `execcmd` made, which may be below the
redirections read since. -/
def addArg (arg : name) : Cmd name → Cmd name
  | exec argv => exec (argv ++ [arg])
  | redir cmd file mode fd => redir (cmd.addArg arg) file mode fd
  | cmd => cmd

end Cmd

/-- The calls of `panic`, and a loop that went round too often. -/
inductive Fault where
  | leftovers (rest : List UInt8)
  | missingFile
  | notABlock
  | missingParen
  | badToken
  | tooManyArgs
  | stuck
  deriving DecidableEq, Repr

/-- What `panic` prints. -/
def Fault.text : Fault → String
  | leftovers _ => "syntax"
  | missingFile => "missing file for redirection"
  | notABlock => "parseblock"
  | missingParen => "syntax - missing )"
  | badToken => "syntax"
  | tooManyArgs => "too many args"
  | stuck => ""

/-- A parser moves the cursor `*ps` and may panic. -/
abbrev ParseM := StateT Nat (Except Fault)

/-- The code of a character. -/
abbrev code (c : Char) : UInt8 := c.toUInt8

/-- `whitespace`. -/
def whitespace : List UInt8 := [' ', '\t', '\r', '\n', '\x0b'].map code

/-- `symbols`. -/
def symbols : List UInt8 := ['<', '|', '>', '&', ';', '(', ')'].map code

/-- The symbols that are always a token of their own. -/
def singles : List UInt8 := ['|', '(', ')', ';', '&', '<'].map code

/-- A blank between tokens. -/
def isSpace (c : UInt8) : Bool := whitespace.contains c

/-- A character of a word. -/
def isWordChar (c : UInt8) : Bool := !whitespace.contains c && !symbols.contains c

/-- What `gettoken` returns: the code of the token and where it stands. -/
structure Got where
  ret : UInt8
  span : Span

section

variable (s : CString)

/-- A loop that steps over characters, for at most so many of them. -/
def advance (p : UInt8 → Bool) : Nat → Nat → Nat
  | 0, i => i
  | left + 1, i => if p (s.char i) then advance p left (i + 1) else i

/-- The cursor after the characters of a kind, or at the end of the text. -/
def skip (p : UInt8 → Bool) (i : Nat) : Nat := advance s p (s.strlen - i) i

/-- The switch of `gettoken`: the code of the token at the cursor, and the cursor behind it. -/
def scan (q : Nat) : UInt8 × Nat :=
  let c := s.char q
  if c = 0 then (0, q)
  else if singles.contains c then (c, q + 1)
  else if c = code '>' then
    if s.char (q + 1) = code '>' then (code '+', q + 2) else (c, q + 1)
  else (code 'a', skip s isWordChar q)

/-- `gettoken`. -/
def gettoken : ParseM Got := do
  let q := skip s isSpace (← get)
  let got := scan s q
  set (skip s isSpace got.2)
  return ⟨got.1, ⟨q, got.2⟩⟩

/-- `peek`. -/
def peek (toks : List Char) : ParseM Bool := do
  let i := skip s isSpace (← get)
  set i
  return s.char i ≠ 0 && (toks.map code).contains (s.char i)

/-- The switch of `parseredirs`. -/
def redirect (tok : UInt8) (cmd : Cmd Span) (file : Span) : Cmd Span :=
  if tok = code '<' then .redir cmd file O_RDONLY 0
  else if tok = code '>' then .redir cmd file (O_WRONLY ||| O_CREATE) 1
  else if tok = code '+' then .redir cmd file (O_WRONLY ||| O_CREATE) 1
  else cmd

/-- The loop of `parseredirs`. -/
def redirLoop : Nat → Cmd Span → ParseM (Cmd Span)
  | 0, _ => throw .stuck
  | fuel + 1, cmd => do
    if ← peek s ['<', '>'] then
      let tok ← gettoken s
      let file ← gettoken s
      if file.ret ≠ code 'a' then throw .missingFile
      else redirLoop fuel (redirect tok.ret cmd file.span)
    else return cmd

/-- `parseredirs`. -/
def parseredirs (cmd : Cmd Span) : ParseM (Cmd Span) := redirLoop s (s.strlen + 1) cmd

/-- `parseblock`. -/
def parseblock (parseline : ParseM (Cmd Span)) : ParseM (Cmd Span) := do
  if ← peek s ['('] then
    let _ ← gettoken s
    let cmd ← parseline
    if ← peek s [')'] then
      let _ ← gettoken s
      parseredirs s cmd
    else throw .missingParen
  else throw .notABlock

/-- The loop of `parseexec`, with the `argc` words stored so far. -/
def argLoop : Nat → Nat → Cmd Span → ParseM (Cmd Span)
  | 0, _, _ => throw .stuck
  | fuel + 1, argc, ret => do
    if ← peek s ['|', ')', '&', ';'] then return ret
    else
      let tok ← gettoken s
      if tok.ret = 0 then return ret
      else if tok.ret ≠ code 'a' then throw .badToken
      else if argc + 1 ≥ MAXARGS then throw .tooManyArgs
      else do
        let ret ← parseredirs s (ret.addArg tok.span)
        argLoop fuel (argc + 1) ret

/-- `parseexec`. -/
def parseexec (parseline : ParseM (Cmd Span)) : ParseM (Cmd Span) := do
  if ← peek s ['('] then parseblock s parseline
  else
    let ret ← parseredirs s (.exec [])
    argLoop s (s.strlen + 1) 0 ret

/-- `parsepipe`. -/
def parsepipe (parseline : ParseM (Cmd Span)) : Nat → ParseM (Cmd Span)
  | 0 => throw .stuck
  | fuel + 1 => do
    let cmd ← parseexec s parseline
    if ← peek s ['|'] then
      let _ ← gettoken s
      let right ← parsepipe parseline fuel
      return .pipe cmd right
    else return cmd

/-- The loop of `parseline`. -/
def backLoop : Nat → Cmd Span → ParseM (Cmd Span)
  | 0, _ => throw .stuck
  | fuel + 1, cmd => do
    if ← peek s ['&'] then
      let _ ← gettoken s
      backLoop fuel (.back cmd)
    else return cmd

/-- `parseline`. -/
def parseline : Nat → ParseM (Cmd Span)
  | 0 => throw .stuck
  | fuel + 1 => do
    let cmd ← parsepipe s (parseline fuel) (s.strlen + 1)
    let cmd ← backLoop s (s.strlen + 1) cmd
    if ← peek s [';'] then
      let _ ← gettoken s
      let right ← parseline fuel
      return .list cmd right
    else return cmd

end

/-- `nulterminate`. -/
def nulterminate : Cmd Span → List UInt8 → List UInt8
  | .exec argv, memory => argv.foldl (fun memory arg => memory.set arg.stop 0) memory
  | .redir cmd file _ _, memory => (nulterminate cmd memory).set file.stop 0
  | .pipe left right, memory => nulterminate right (nulterminate left memory)
  | .list left right, memory => nulterminate right (nulterminate left memory)
  | .back cmd, memory => nulterminate cmd memory

/-- What `parsecmd` does before it writes into the text. -/
def parseAll (s : CString) : ParseM (Cmd Span) := do
  let cmd ← parseline s (s.strlen + 1)
  let _ ← peek s []
  let i ← get
  if i ≠ s.strlen then throw (.leftovers (s.bytes.drop i))
  else return cmd

/-- `parsecmd`: the tree, and the memory that the string was in. -/
def parsecmd (s : CString) : Except Fault (Cmd Span × List UInt8) := do
  let parsed ← parseAll s 0
  return (parsed.1, nulterminate parsed.1 (s.bytes ++ [0]))

end RtXv6.Shell
