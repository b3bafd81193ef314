import Mathlib.Algebra.GroupWithZero.Nat
import Mathlib.Data.Fintype.Card

/-!
# Process records

The record of `proc.h` restricted to the fields that scheduling, sleeping and
process creation read or write, together with the two facts a suspended kernel
stack keeps for its process: where `sched` returns to, and how far a `fork` or
`freeze` in progress has come. Memory, files, the working directory, the trap frame and the
name belong to other components.

`RT` selects the scheduler at compile time. Both real-time configurations share
this record; the earliest-deadline build has no threshold and no priority field,
and nothing of it reads them.
-/

namespace RtXv6

/-- Maximum number of processes. -/
abbrev NPROC : Nat := 64

/-- There is a process slot. -/
instance nproc_neZero : NeZero NPROC := ⟨by decide⟩

/-- A slot of `ptable.proc`. A pointer to a process record is its slot; the null
pointer is the absent slot. -/
abbrev Slot := Fin NPROC

/-- `RT = 1` builds the earliest-deadline-first scheduler, `RT = 0` the
preemption-threshold one. -/
inductive Config where
  | edf
  | pt
  deriving DecidableEq, Repr

/-- `enum procstate`. A `waiting` process was created while creation is frozen. -/
inductive ProcState where
  | unused
  | embryo
  | sleeping
  | runnable
  | running
  | zombie
  | waiting
  deriving DecidableEq, Repr

/-- A channel is a kernel address. Process records are kept apart from all other
words, since their first words change while a wakeup scans the table; the null
pointer is the word at zero. -/
inductive Addr where
  | proc (slot : Slot)
  | word (address : Nat)
  deriving DecidableEq, Repr

/-- What a process is in the middle of between two of its locked sections: `fork`
has claimed a slot, has set up the child's kernel stack and fields, or has copied
the address space and recorded the parent; or `freeze(0)` has cleared the flag and
has not scanned the table yet. -/
inductive Stage where
  | idle
  | claimed (child : Slot)
  | prepared (child : Slot)
  | copied (child : Slot)
  | unfreezing
  deriving DecidableEq, Repr

/-- The slot a fork in progress has claimed. -/
def Stage.child : Stage → Option Slot
  | .idle => none
  | .claimed child => some child
  | .prepared child => some child
  | .copied child => some child
  | .unfreezing => none

/-- Where a process continues when the scheduler switches to it: the first return
of a new process, the end of `sleep`, or the end of `yield`. A `yield` was called
by `fork`, or by `trap` on behalf of kernel or user code. -/
inductive Resume where
  | forkret
  | sleep
  | yieldFork
  | yieldTrap (user : Bool)
  deriving DecidableEq, Repr

/-- `struct proc`. The two threshold fields come first, so that the first word of
a record is `O` in the threshold build and `ctxswt` in the deadline build. -/
structure Proc where
  O : UInt32
  P : UInt32
  ctxswt : UInt32
  arrtime : UInt64
  firstsch : UInt64
  D : UInt32
  C : UInt32
  state : ProcState
  pid : Int32
  parent : Option Slot
  chan : Addr
  killed : Bool
  stage : Stage
  resume : Resume
  deriving DecidableEq, Repr

/-- A record of zeroed static memory. -/
def Proc.zero : Proc :=
  { O := 0, P := 0, ctxswt := 0, arrtime := 0, firstsch := 0, D := 0, C := 0,
    state := .unused, pid := 0, parent := none, chan := .word 0, killed := false,
    stage := .idle, resume := .forkret }

/-- The process table proper. -/
abbrev Table := Slot → Proc

/-- The integer a channel points to: `*(int *)chan`. For a process record it is
the record's first word under the configuration. -/
def Config.firstWord (config : Config) (table : Table) (memory : Nat → UInt32) : Addr → UInt32
  | .word address => memory address
  | .proc slot =>
    match config with
    | .edf => (table slot).ctxswt
    | .pt => (table slot).O

end RtXv6
