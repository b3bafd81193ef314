import RtXv6.CircularBuffer

/-!
# Console input

`consoleintr` and `consoleread` of `console.c`, for any number of reading processes. A
section under `input.lock` is a step: a whole `consoleintr`, or a part of `consoleread` up
to a `sleep` or the return.

The input buffer is a ring with three counters of 32 bits that wrap around: what lies
between `r` and `w` can be read, and what lies between `w` and `e` is the line that is being
typed. It is shown to be a line editor with limited room, and its echo on the screen to be
the text that reads have taken, followed by the text in the ring.
-/

namespace RtXv6.ConsoleInput

open CircularBuffer

/-- The size of the input buffer. -/
abbrev INPUT_BUF : Nat := 128

/-- `C(x)`: a character typed with the control key. -/
def C (x : Char) : UInt8 := x.toUInt8 - '@'.toUInt8

/-- The end of a line. -/
def newline : UInt8 := '\n'.toUInt8

/-- `input`, without its lock. -/
structure Input where
  buf : Fin INPUT_BUF → UInt8
  r : UInt32
  w : UInt32
  e : UInt32

namespace Input

variable (input : Input)

/-- `input.buf[input.e++ % INPUT_BUF] = c`. -/
def put (c : UInt8) : Input :=
  { input with
    buf := Function.update input.buf (Fin.ofNat INPUT_BUF input.e.toNat) c
    e := input.e + 1 }

/-- `input.buf[input.r % INPUT_BUF]`. -/
def first : UInt8 := input.buf (Fin.ofNat INPUT_BUF input.r.toNat)

/-- `input.r++`. -/
def advance : Input := { input with r := input.r + 1 }

/-- `input.buf[(input.e-1) % INPUT_BUF]`. -/
def last : UInt8 := input.buf (Fin.ofNat INPUT_BUF (input.e - 1).toNat)

/-- The characters that reads can take. -/
def unread : List UInt8 := held input.buf input.r input.w

/-- The line that is being typed. -/
def editing : List UInt8 := held input.buf input.w input.e

end Input

/-- What `consoleread` leaves at a `sleep` or at its end: the characters stored at `dst`, those
taken out of the buffer, and `n`. -/
structure Copied where
  input : Input
  stored : List UInt8
  taken : List UInt8
  left : Nat
  ends : Bool

/-- The loop of `consoleread`. -/
def copyLoop (target : Nat) : Nat → Input → Copied
  | 0, input => ⟨input, [], [], 0, true⟩
  | n + 1, input =>
    if input.r = input.w then ⟨input, [], [], n + 1, false⟩
    else if input.first = C 'D' then
      -- The end of the file stays for the next call if this one has stored characters.
      if n + 1 < target then ⟨{ input.advance with r := input.advance.r - 1 }, [], [], n + 1, true⟩
      else ⟨input.advance, [], [input.first], n + 1, true⟩
    else if input.first = newline then
      ⟨input.advance, [input.first], [input.first], n, true⟩
    else
      let later := copyLoop target n input.advance
      { later with stored := input.first :: later.stored, taken := input.first :: later.taken }

/-- A process that reads the console: `target` and `n` of the call it is in, the characters
that its last call has stored, and what that call returned. -/
structure Reader where
  call : Option (Nat × Nat)
  sleeping : Bool
  killed : Bool
  dst : List UInt8
  result : Int

/-- The console: its input, the echo of `consoleintr` (`none` for `BACKSPACE`), and the
characters that reads have taken. -/
structure Console (process : Type) where
  input : Input
  output : List (Option UInt8)
  taken : List UInt8
  reader : process → Reader

/-- What happens at the console: characters come in, a call of `consoleread` begins or goes on
after a wakeup, a process is killed or woken up for another reason. -/
inductive ConsoleEvent (process : Type) where
  | consoleintr (cs : List UInt8)
  | consoleread (p : process) (n : Int32)
  | resume (p : process)
  | rouse (p : process) (kill : Bool)

namespace Console

section

variable {process : Type} (s : Console process)

/-- `input.e--` and `consputc(BACKSPACE)`. -/
def rubout : Console process :=
  { s with input := { s.input with e := s.input.e - 1 }, output := s.output ++ [none] }

variable {s} in
theorem rubout_decreases (some : s.input.e ≠ s.input.w) :
    (s.rubout.input.e - s.rubout.input.w).toNat < (s.input.e - s.input.w).toNat := by
  have order : s.input.e - 1 - s.input.w = s.input.e - (s.input.w + 1) := by grind
  have counted := distance_succ (Ne.symm some)
  change (s.input.e - 1 - s.input.w).toNat < _
  rw [order]
  omega

/-- The loop of the case `C('U')`. -/
def killLine (s : Console process) : Console process :=
  if s.input.e ≠ s.input.w ∧ s.input.last ≠ newline then s.rubout.killLine else s
termination_by (s.input.e - s.input.w).toNat
decreasing_by
  rename_i typed
  exact rubout_decreases typed.1

/-- A character is stored and put out. -/
def store (c : UInt8) : Console process :=
  { s with input := s.input.put c, output := s.output ++ [some c] }

/-- `input.w = input.e` and `wakeup(&input.r)`. -/
def commit : Console process :=
  { s with
    input := { s.input with w := s.input.e }
    reader := fun p => { s.reader p with sleeping := false } }

/-- A character that `consoleintr` accepts. -/
def enter (c : UInt8) : Console process :=
  let next := s.store c
  if c = newline ∨ c = C 'D' ∨ next.input.e = next.input.r + 128 then next.commit else next

/-- A character in the loop of `consoleintr`. -/
def key (c : UInt8) : Console process :=
  -- The listing of `procdump` is no echo.
  if c = C 'P' then s
  else if c = C 'U' then s.killLine
  else if c = C 'H' ∨ c = 127 then if s.input.e ≠ s.input.w then s.rubout else s
  else if c ≠ 0 ∧ (s.input.e - s.input.r).toNat < INPUT_BUF then
    s.enter (if c = '\r'.toUInt8 then newline else c)
  else s

/-- `consoleintr`, with the characters that `getc` returns. -/
def consoleintr (cs : List UInt8) : Console process := cs.foldl key s

/-- What the loop of `consoleread` leaves of the input. -/
def takes (copied : Copied) : Console process :=
  { s with input := copied.input, taken := s.taken ++ copied.taken }

variable [DecidableEq process]

/-- The record of a process changes. -/
def setReader (p : process) (reader : Reader) : Console process :=
  { s with reader := Function.update s.reader p reader }

/-- `consoleread` from its start, or from a wakeup, on. -/
def consoleread (p : process) (target n : Nat) : Console process :=
  let copied := copyLoop target n s.input
  let reader := { s.reader p with dst := (s.reader p).dst ++ copied.stored }
  (s.takes copied).setReader p <|
    if copied.ends then { reader with call := none, result := (target : Int) - copied.left }
    else if reader.killed then { reader with call := none, result := -1 }
    else { reader with call := some (target, copied.left), sleeping := true }

/-- The call of a process goes on. -/
def resume (p : process) : Console process :=
  match (s.reader p).call with
  | none => s
  | some (target, n) => s.consoleread p target n

/-- What an event does. -/
def take : ConsoleEvent process → Console process
  | .consoleintr cs => s.consoleintr cs
  | .consoleread p n =>
    let target := n.toInt.toNat
    (s.setReader p { s.reader p with call := some (target, target), dst := [] }).resume p
  | .resume p => s.resume p
  | .rouse p kill =>
    s.setReader p { s.reader p with killed := (s.reader p).killed || kill, sleeping := false }

/-- A process is in one call at a time, and a sleeping process does not run. -/
def Enabled : ConsoleEvent process → Prop
  | .consoleread p _ => (s.reader p).call = none ∧ (s.reader p).sleeping = false
  | .resume p => (s.reader p).sleeping = false
  | .consoleintr _ | .rouse _ _ => True

/-- The console of a machine that starts. -/
def boot : Console process :=
  ⟨⟨fun _ => 0, 0, 0, 0⟩, [], [], fun _ => ⟨none, false, false, [], 0⟩⟩

/-- The states of a console after any events. -/
inductive Reachable : Console process → Prop
  | start : Reachable boot
  | event {s : Console process} (before : Reachable s) (event : ConsoleEvent process)
      (enabled : s.Enabled event) : Reachable (s.take event)

end

/-- The text that an echo leaves on the screen. -/
def screen (output : List (Option UInt8)) : List UInt8 :=
  output.foldl (fun text c => c.elim text.dropLast fun c => text ++ [c]) []

theorem screen_append (output : List (Option UInt8)) (c : Option UInt8) :
    screen (output ++ [c]) = c.elim (screen output).dropLast fun c => screen output ++ [c] := by
  simp [screen]

end Console

/-- What a line editor holds: the text that it has handed over and the line that is typed. -/
@[ext] structure Line where
  unread : List UInt8
  editing : List UInt8
  deriving DecidableEq

namespace Line

/-- A character is typed. The end of a line hands it over, and so does a character without room
for another. -/
def enter (line : Line) (c : UInt8) : Line :=
  let editing := line.editing ++ [c]
  if c = newline ∨ c = C 'D' ∨ line.unread.length + editing.length = INPUT_BUF then
    ⟨line.unread ++ editing, []⟩
  else ⟨line.unread, editing⟩

/-- A line editor with limited room. -/
def type (line : Line) (c : UInt8) : Line :=
  if c = C 'P' then line
  else if c = C 'U' then { line with editing := [] }
  else if c = C 'H' ∨ c = 127 then { line with editing := line.editing.dropLast }
  else if c ≠ 0 ∧ line.unread.length + line.editing.length < INPUT_BUF then
    line.enter (if c = '\r'.toUInt8 then newline else c)
  else line

end Line

namespace Input

variable {input : Input}

/-- The line editor that the ring stands for. -/
abbrev line (input : Input) : Line := ⟨input.unread, input.editing⟩

/-- The counters are in order and at most a round apart. -/
def Bounded (input : Input) : Prop := input.unread.length + input.editing.length ≤ INPUT_BUF

theorem divides : INPUT_BUF ∣ 2 ^ 32 := by decide

theorem editing_eq_nil_iff : input.editing = [] ↔ input.e = input.w := by
  rw [← List.length_eq_zero_iff, editing, held_length, ← UInt32.toNat_zero, distance_eq_iff,
    UInt32.add_zero]

/-- The first character leaves. -/
theorem unread_advance (some : input.r ≠ input.w) :
    input.unread = input.first :: input.advance.unread :=
  held_pop divides input.buf some

section

variable (bounded : input.Bounded)
include bounded

theorem Bounded.count :
    (input.e - input.r).toNat = input.unread.length + input.editing.length := by
  simp only [Bounded, unread, editing, held_length, INPUT_BUF] at bounded ⊢
  apply distance_add
  omega

theorem Bounded.full_iff :
    input.e = input.r + 128 ↔ input.unread.length + input.editing.length = INPUT_BUF := by
  rw [← bounded.count]
  exact distance_eq_iff.symm

/-- A character joins the line. -/
theorem Bounded.put (room : (input.e - input.r).toNat < INPUT_BUF) (c : UInt8) :
    (input.put c).line = ⟨input.unread, input.editing ++ [c]⟩ := by
  rw [bounded.count] at room
  simp only [unread, editing, held_length] at room
  have behind := Nat.lt_of_le_of_lt (Nat.le_add_left ..) room
  ext1
  · exact held_update divides input.buf c (by decide) room
  · exact held_push divides input.buf c (by decide) behind

/-- The line is handed over. -/
theorem Bounded.commit :
    line { input with w := input.e } = ⟨input.unread ++ input.editing, []⟩ := by
  simp only [Bounded, unread, editing, held_length, INPUT_BUF] at bounded
  ext1
  · exact held_append divides input.buf (Nat.lt_of_le_of_lt bounded (by decide))
  · exact held_self ..

end

end Input

namespace Console

variable {process : Type} {s : Console process}

/-- The text echoed has been read, waits for a read or is being typed. -/
structure Shows (s : Console process) : Prop where
  bounded : s.input.Bounded
  shown : screen s.output = s.taken ++ s.input.unread ++ s.input.editing

/-- A reader sleeps only while nothing waits to be read. Its calls store at most one line, never
the mark of the end of the file, and return the number of characters stored. -/
structure Served (unread : List UInt8) (reader : Reader) : Prop where
  awake : reader.sleeping = true → unread = []
  file : C 'D' ∉ reader.dst
  inside : ∀ target n, reader.call = some (target, n) →
    reader.dst.length + n = target ∧ newline ∉ reader.dst
  returned : reader.call = none →
    newline ∉ reader.dst.dropLast ∧ (reader.result = -1 ∨ reader.dst.length = reader.result)

/-- A line that is being typed has no end, and there is room for one. -/
structure Lines (s : Console process) : Prop extends s.Shows where
  line : newline ∉ s.input.editing ∧ C 'D' ∉ s.input.editing
  room : s.input.editing ≠ [] → s.input.unread.length + s.input.editing.length < INPUT_BUF
  served : ∀ p, Served s.input.unread (s.reader p)

section

variable (shows : s.Shows)
include shows

theorem Shows.store (room : (s.input.e - s.input.r).toNat < INPUT_BUF) (c : UInt8) :
    (s.store c).Shows := by
  have line := shows.bounded.put room c
  rw [shows.bounded.count] at room
  simp only [Line.mk.injEq] at line
  constructor
  · simp only [Input.Bounded, Console.store, line, List.length_append, List.length_singleton]
    omega
  · simp [Console.store, line, screen_append, shows.shown]

/-- The line is handed over, and whoever waits for it wakes up. -/
theorem Shows.commit (served : ∀ p, Served s.input.unread (s.reader p)) : s.commit.Lines := by
  have line := shows.bounded.commit
  have bounded := shows.bounded
  simp only [Line.mk.injEq] at line
  constructor
  · constructor
    · simpa [Input.Bounded, Console.commit, line] using bounded
    · simp [Console.commit, line, shows.shown]
  · simp [Console.commit, line]
  · simp [Console.commit, line]
  · intro p
    exact ⟨Bool.noConfusion, (served p).file, (served p).inside, (served p).returned⟩

end

section

variable (lines : s.Lines)
include lines

/-- An erasure takes the last character of the line. -/
theorem Lines.rubout (typed : s.input.e ≠ s.input.w) :
    s.rubout.Lines ∧ s.input.editing = s.rubout.input.editing ++ [s.input.last] := by
  have erased : s.input.editing = s.rubout.input.editing ++ [s.input.last] :=
    held_back Input.divides s.input.buf typed.symm
  have kept : s.rubout.input.unread = s.input.unread := rfl
  obtain ⟨⟨bounded, shown⟩, line, room, served⟩ := lines
  rw [Input.Bounded, erased] at bounded
  rw [erased] at shown line
  simp only [List.length_append, List.length_singleton, List.mem_append, not_or] at bounded line
  refine ⟨⟨⟨?_, ?_⟩, ⟨line.1.1, line.2.1⟩, fun _ => ?_, served⟩, erased⟩
  · rw [Input.Bounded, kept]
    omega
  · change screen (s.output ++ [none]) = s.taken ++ s.input.unread ++ s.rubout.input.editing
    rw [screen_append, shown]
    simp [← List.append_assoc]
  · rw [kept]
    omega

/-- `C('U')` erases the line: no end of a line is in it to stop at. -/
theorem Lines.killLine : s.killLine.Lines ∧ s.killLine.input.line = ⟨s.input.unread, []⟩ := by
  induction s using Console.killLine.induct with
  | case1 s typed ih =>
    rw [Console.killLine, if_pos typed]
    exact ih (lines.rubout typed.1).1
  | case2 s stops =>
    rw [Console.killLine, if_neg stops]
    have empty : s.input.editing = [] := by
      by_contra nonempty
      have typed := mt Input.editing_eq_nil_iff.mpr nonempty
      have last := (lines.rubout typed).2
      apply stops
      refine ⟨typed, fun newline => lines.line.1 ?_⟩
      rw [last, newline]
      exact List.mem_append_right _ (List.mem_singleton_self _)
    exact ⟨lines, congrArg (Line.mk s.input.unread) empty⟩

theorem Lines.enter (room : (s.input.e - s.input.r).toNat < INPUT_BUF) (c : UInt8) :
    (s.enter c).Lines ∧ (s.enter c).input.line = s.input.line.enter c := by
  have shows := lines.store room c
  have bounded : (s.input.put c).Bounded := shows.bounded
  have line := lines.bounded.put room c
  obtain ⟨unread, editing⟩ := Line.mk.inj line
  have full := bounded.full_iff
  rw [Input.Bounded, unread, editing] at bounded
  rw [unread, editing] at full
  unfold Console.enter Line.enter
  simp only [Console.store, full]
  split
  case isTrue =>
    rw [← unread, ← editing]
    refine ⟨shows.commit ?_, shows.bounded.commit⟩
    intro p
    change Served (s.input.put c).unread _
    rw [unread]
    exact lines.served p
  case isFalse goes =>
    simp only [not_or] at goes
    have typed := lines.line
    refine ⟨⟨shows, ?_, fun _ => ?_, ?_⟩, line⟩
    · simp only [editing, List.mem_append, List.mem_singleton, not_or]
      exact ⟨⟨typed.1, Ne.symm goes.1⟩, ⟨typed.2, Ne.symm goes.2.1⟩⟩
    · rw [unread, editing]
      exact Nat.lt_of_le_of_ne bounded goes.2.2
    · rw [unread]
      exact lines.served

/-- A character does to the ring what it does to the line editor. -/
theorem Lines.key (c : UInt8) : (s.key c).Lines ∧ (s.key c).input.line = s.input.line.type c := by
  unfold Console.key Line.type
  rw [lines.bounded.count]
  by_cases listing : c = C 'P'
  · simp only [if_pos listing]
    exact ⟨lines, trivial⟩
  by_cases kill : c = C 'U'
  · simp only [if_neg listing, if_pos kill]
    exact lines.killLine
  by_cases erase : c = C 'H' ∨ c = 127
  · simp only [if_neg listing, if_neg kill, if_pos erase]
    by_cases typed : s.input.e ≠ s.input.w
    · obtain ⟨kept, erased⟩ := lines.rubout typed
      rw [if_pos typed, erased, List.dropLast_concat]
      exact ⟨kept, rfl⟩
    · have empty := Input.editing_eq_nil_iff.mpr (not_not.mp typed)
      rw [if_neg typed]
      exact ⟨lines, by simp [empty]⟩
  simp only [if_neg listing, if_neg kill, if_neg erase]
  by_cases stores : c ≠ 0 ∧ s.input.unread.length + s.input.editing.length < INPUT_BUF
  · rw [if_pos stores, if_pos stores]
    apply lines.enter
    rw [lines.bounded.count]
    exact stores.2
  · rw [if_neg stores, if_neg stores]
    exact ⟨lines, rfl⟩

theorem Lines.consoleintr (cs : List UInt8) :
    (s.consoleintr cs).Lines ∧ (s.consoleintr cs).input.line = cs.foldl Line.type s.input.line := by
  induction cs generalizing s with
  | nil => exact ⟨lines, rfl⟩
  | cons c cs ih =>
    obtain ⟨next, line⟩ := lines.key c
    rw [List.foldl_cons, ← line]
    exact ih next

end

/-- What the loop of `consoleread` does: it takes text that waits, and stores it up to the end
of a line or of the file. -/
structure Takes (n : Nat) (input : Input) (copied : Copied) : Prop where
  unread : input.unread = copied.taken ++ copied.input.unread
  editing : copied.input.editing = input.editing
  waits : copied.ends = false → copied.input.unread = [] ∧ newline ∉ copied.stored
  count : copied.stored.length + copied.left = n
  file : C 'D' ∉ copied.stored
  line : newline ∉ copied.stored.dropLast

theorem copyLoop_takes (target n : Nat) (input : Input) :
    Takes n input (copyLoop target n input) := by
  induction n generalizing input with
  | zero => constructor <;> simp [copyLoop]
  | succ n ih =>
    unfold copyLoop
    by_cases empty : input.r = input.w
    · simp only [if_pos empty]
      constructor <;> simp [Input.unread, empty]
    have popped := Input.unread_advance empty
    simp only [if_neg empty]
    by_cases file : input.first = C 'D'
    · have back : input.r + 1 - 1 = input.r := by grind
      simp only [if_pos file]
      split
      · constructor <;> simp [Input.advance, back]
      · constructor <;> simp [popped, Input.advance, Input.editing]
    simp only [if_neg file]
    by_cases line : input.first = newline
    · simp only [if_pos line]
      constructor <;> simp [popped, Input.advance, Input.editing, Ne.symm file, Nat.add_comm]
    obtain ⟨unread, editing, waits, count, kept, least⟩ := ih input.advance
    simp only [if_neg line]
    constructor
    · simp [popped, unread]
    · exact editing
    · simpa [Ne.symm line] using waits
    · simp only [List.length_cons]
      omega
    · simpa [Ne.symm file] using kept
    · cases later : (copyLoop target n input.advance).stored with
      | nil => simp
      | cons c rest =>
        rw [later] at least
        simpa [Ne.symm line] using least

section

variable (lines : s.Lines)
include lines

theorem Lines.takes {n : Nat} {copied : Copied} (taken : Takes n s.input copied) :
    (s.takes copied).Lines := by
  obtain ⟨⟨bounded, shown⟩, line, room, served⟩ := lines
  have fewer := congrArg List.length taken.unread
  rw [List.length_append] at fewer
  unfold Console.takes
  refine ⟨⟨?_, ?_⟩, ?_, ?_, fun p => ?_⟩
  · simp only [Input.Bounded, taken.editing] at bounded ⊢
    omega
  · simp [shown, taken.unread, taken.editing]
  · simpa [taken.editing] using line
  · intro typed
    simp only [taken.editing] at typed ⊢
    have before := room typed
    omega
  · refine ⟨fun asleep => ?_, (served p).file, (served p).inside, (served p).returned⟩
    have nothing := (served p).awake asleep
    rw [taken.unread] at nothing
    exact (List.append_eq_nil_iff.mp nothing).2

variable [DecidableEq process]

theorem Lines.setReader (p : process) {reader : Reader} (served : Served s.input.unread reader) :
    (s.setReader p reader).Lines := by
  refine ⟨⟨lines.bounded, lines.shown⟩, lines.line, lines.room, ?_⟩
  apply (Function.forall_update_iff s.reader fun _ => Served s.input.unread).mpr
  exact ⟨served, fun q _ => lines.served q⟩

/-- A section of `consoleread` goes on with what the call has stored. -/
theorem Lines.consoleread (p : process) {target n : Nat}
    (count : (s.reader p).dst.length + n = target) (line : newline ∉ (s.reader p).dst) :
    (s.consoleread p target n).Lines := by
  have taken := copyLoop_takes target n s.input
  have before := (lines.takes taken).served p
  have total := taken.count
  apply (lines.takes taken).setReader p
  have file : C 'D' ∉ (s.reader p).dst ++ (copyLoop target n s.input).stored := by
    simp only [List.mem_append, not_or]
    exact ⟨before.file, taken.file⟩
  have least : newline ∉ ((s.reader p).dst ++ (copyLoop target n s.input).stored).dropLast := by
    rw [List.dropLast_append]
    split
    · exact fun member => line (List.mem_of_mem_dropLast member)
    · simp only [List.mem_append, not_or]
      exact ⟨line, taken.line⟩
  cases ends : (copyLoop target n s.input).ends with
  | true =>
    refine ⟨before.awake, file, by simp, fun _ => ⟨least, Or.inr ?_⟩⟩
    simp only [if_true, List.length_append]
    omega
  | false =>
    obtain ⟨nothing, part⟩ := taken.waits ends
    cases (s.reader p).killed with
    | true => exact ⟨before.awake, file, by simp, fun _ => ⟨least, Or.inl rfl⟩⟩
    | false =>
      refine ⟨fun _ => nothing, file, ?_, by simp⟩
      rintro _ _ ⟨⟩
      simp only [Bool.false_eq_true, if_false, List.length_append, List.mem_append, not_or]
      exact ⟨by omega, line, part⟩

theorem Lines.resume (p : process) : (s.resume p).Lines := by
  unfold Console.resume
  cases call : (s.reader p).call with
  | none => exact lines
  | some pair =>
    obtain ⟨count, line⟩ := (lines.served p).inside pair.1 pair.2 call
    exact lines.consoleread p count line

theorem Lines.take (event : ConsoleEvent process) : (s.take event).Lines := by
  cases event with
  | consoleintr cs => exact (lines.consoleintr cs).1
  | consoleread p n =>
    apply Lines.resume
    apply lines.setReader p
    refine ⟨(lines.served p).awake, by simp, ?_, by simp⟩
    rintro _ _ ⟨⟩
    simp
  | resume p => exact lines.resume p
  | rouse p kill =>
    have served := lines.served p
    exact lines.setReader p ⟨Bool.noConfusion, served.file, served.inside, served.returned⟩

end

variable [DecidableEq process]

theorem Reachable.lines (reachable : s.Reachable) : s.Lines := by
  induction reachable with
  | start =>
    have empty : (boot : Console process).input.line = ⟨[], []⟩ := by
      simp [boot, Input.unread, Input.editing]
    obtain ⟨unread, editing⟩ := Line.mk.inj empty
    refine ⟨⟨?_, ?_⟩, ?_, ?_, fun p => ?_⟩
    · simp [Input.Bounded, unread, editing]
    · simp [unread, editing]
      rfl
    · simp [editing]
    · simp [editing]
    · constructor <;> simp [boot]
  | event _ event _ ih => exact ih.take event

/-- The ring with its three counters is a line editor: an erasure takes back one character of
the line that is typed, `C('U')` all of them, neither takes one that has been handed over, and
the end of a line or of the room hands the line over. -/
theorem consoleintr_refines (reachable : s.Reachable) (cs : List UInt8) :
    (s.consoleintr cs).input.line = cs.foldl Line.type s.input.line :=
  (reachable.lines.consoleintr cs).2

theorem consoleintr_refines_boot :
    ((boot : Console Unit).consoleintr [97, 98, 8, 13, 99]).input.line = ⟨[97, newline], [99]⟩ := by
  rw [consoleintr_refines .start]
  decide

/-- The text echoed is the text that reads have taken, then what waits for them, then the
line that is typed. A ring that holds such a line has room for its end, so that a read can
always be served; and while something waits, no reader sleeps. -/
theorem console_stream (reachable : s.Reachable) :
    screen s.output = s.taken ++ s.input.unread ++ s.input.editing ∧
      (s.input.editing ≠ [] → s.input.unread.length + s.input.editing.length < INPUT_BUF) ∧
      ∀ p, (s.reader p).sleeping = true → s.input.unread = [] :=
  ⟨reachable.lines.shown, reachable.lines.room, fun p => (reachable.lines.served p).awake⟩

/-- A line is typed, and a process reads it. -/
def lineRead : Console Unit :=
  (boot.take (.consoleintr [104, 105, 13, 33])).take (.consoleread () 8)

theorem lineRead_reachable : lineRead.Reachable :=
  (Reachable.start.event (.consoleintr _) trivial).event (.consoleread () 8) ⟨rfl, rfl⟩

theorem console_stream_lineRead :
    lineRead.taken = [104, 105, newline] ∧
      screen lineRead.output = lineRead.taken ++ lineRead.input.unread ++ lineRead.input.editing :=
  ⟨by decide +kernel, (console_stream lineRead_reachable).1⟩

/-- A call of `consoleread` that has returned has stored as many characters as it says, or
reports that the process was killed. They are at most one line, and the mark of the end of the
file is not among them. -/
theorem consoleread_line (reachable : s.Reachable) (p : process)
    (returned : (s.reader p).call = none) :
    ((s.reader p).result = -1 ∨ (s.reader p).dst.length = (s.reader p).result) ∧
      newline ∉ (s.reader p).dst.dropLast ∧ C 'D' ∉ (s.reader p).dst := by
  have served := reachable.lines.served p
  obtain ⟨line, result⟩ := served.returned returned
  exact ⟨result, line, served.file⟩

theorem consoleread_line_lineRead :
    (lineRead.reader ()).dst = [104, 105, newline] ∧ newline ∉ (lineRead.reader ()).dst.dropLast :=
  ⟨by decide +kernel, (consoleread_line lineRead_reachable () (by decide +kernel)).2.1⟩

end Console

end RtXv6.ConsoleInput
