import Mathlib.Algebra.GroupWithZero.Nat
import RtXv6.Bytes
import RtXv6.Circle

/-!
# The user heap allocator

`umalloc.c`: the free blocks are a circular list in the order of their addresses, threaded
through the headers of the blocks themselves. `free` finds the place of a block in the list
and merges it with its neighbours; `malloc` takes the tail of the first block that is large
enough, and asks the kernel for more memory when it has been around the list once.

Memory is the bytes of a 32-bit address space, so a header is in it like everything else: two
words of four bytes, the pointer and the size in units of headers. Loops count how often they may still go
round; a run that exhausts the count has no result.
-/

namespace RtXv6.Umalloc

open Bytes

/-- The number of addresses. -/
abbrev SPACE : Nat := 4294967296

/-- The bytes at the addresses. -/
abbrev Memory := Fin SPACE → UInt8

/-- `p->s.ptr`. -/
def ptr (memory : Memory) (p : Nat) : Nat := load memory p 4

/-- `p->s.size`. -/
def size (memory : Memory) (p : Nat) : Nat := load memory (p + 4) 4

/-- Stores `p->s.ptr`. -/
def setPtr (memory : Memory) (p value : Nat) : Memory := store memory p 4 value

/-- Stores `p->s.size`. -/
def setSize (memory : Memory) (p value : Nat) : Memory := store memory (p + 4) 4 value

/-- `p + units` for a pointer to a header. -/
def add (p units : Nat) : Nat := (p + 8 * units) % SPACE

/-- The static variable `freep` and the memory, with what `sbrk` has given so far: where it
ends, and how many bytes it was. -/
structure Heap where
  memory : Memory
  freep : Nat
  brk : Nat
  granted : Nat

/-- The two conditions under which the loop of `free` ends. -/
def stops (memory : Memory) (bp p : Nat) : Bool :=
  decide (bp > p ∧ bp < ptr memory p) ||
    decide (p ≥ ptr memory p ∧ (bp > p ∨ bp < ptr memory p))

/-- The first part of `free` after its loop: the block and the next free one. -/
def joinNext (memory : Memory) (p bp : Nat) : Memory :=
  if add bp (size memory bp) = ptr memory p then
    let memory := setSize memory bp ((size memory bp + size memory (ptr memory p)) % SPACE)
    setPtr memory bp (ptr memory (ptr memory p))
  else setPtr memory bp (ptr memory p)

/-- The second part: the free block before it and the block. -/
def joinPrevious (memory : Memory) (p bp : Nat) : Memory :=
  if add p (size memory p) = bp then
    let memory := setSize memory p ((size memory p + size memory bp) % SPACE)
    setPtr memory p (ptr memory bp)
  else setPtr memory p bp

/-- `free`. -/
def free (fuel ap : Nat) (heap : Heap) : Option Heap :=
  let bp := (ap + SPACE - 8) % SPACE
  (Circle.walk (ptr heap.memory) (stops heap.memory bp) fuel heap.freep).map fun p =>
    { heap with memory := joinPrevious (joinNext heap.memory p bp) p bp, freep := p }

/-- `morecore`, given the answers of `sbrk`: the new `freep`, or zero. -/
def morecore (sbrk : Nat → Option Nat) (fuel nu : Nat) (heap : Heap) : Option (Nat × Heap) :=
  let nu := if nu < 4096 then 4096 else nu
  let bytes := nu * 8 % SPACE
  match sbrk bytes with
  | none => some (0, heap)
  | some p =>
    let heap :=
      { heap with
        memory := setSize heap.memory p nu
        brk := p + bytes
        granted := heap.granted + bytes }
    (free fuel (add p 1) heap).map fun heap => (heap.freep, heap)

/-- What `malloc` does with a block that is large enough: the block for the caller, and the
memory. -/
def carve (memory : Memory) (prevp p nunits : Nat) : Nat × Memory :=
  if size memory p = nunits then (p, setPtr memory prevp (ptr memory p))
  else
    let memory := setSize memory p (size memory p - nunits)
    let p := add p (size memory p)
    (p, setSize memory p nunits)

/-- The loop of `malloc`. -/
def mallocLoop (sbrk : Nat → Option Nat) (nunits : Nat) :
    Nat → Nat → Nat → Heap → Option (Nat × Heap)
  | 0, _, _, _ => none
  | fuel + 1, prevp, p, heap =>
    if size heap.memory p ≥ nunits then
      let carved := carve heap.memory prevp p nunits
      some (add carved.1 1, { heap with memory := carved.2, freep := prevp })
    else if p = heap.freep then
      (morecore sbrk fuel nunits heap).bind fun got =>
        if got.1 = 0 then some (0, got.2)
        else mallocLoop sbrk nunits fuel got.1 (ptr got.2.memory got.1) got.2
    else mallocLoop sbrk nunits fuel p (ptr heap.memory p) heap

/-- The units that a request needs, with its header. -/
def nunits (nbytes : Nat) : Nat := ((nbytes + 8 - 1) % SPACE / 8 + 1) % SPACE

/-- `malloc` finds no list in the first call and makes one of the header `base`. -/
def begin (base : Nat) (heap : Heap) : Heap :=
  if heap.freep = 0 then
    { heap with memory := setSize (setPtr heap.memory base base) base 0, freep := base }
  else heap

/-- `malloc`: the pointer, or zero. -/
def malloc (base : Nat) (sbrk : Nat → Option Nat) (fuel nbytes : Nat) (heap : Heap) :
    Option (Nat × Heap) :=
  let heap := begin base heap
  mallocLoop sbrk (nunits nbytes) fuel heap.freep (ptr heap.memory heap.freep) heap

/-- A result of `malloc` that has not been freed. -/
structure Alloc where
  ptr : Nat
  nbytes : Nat
  deriving DecidableEq, Repr

/-- A program with a heap: its live allocations, and the last byte that it stored at an address
of one of them. -/
structure World where
  heap : Heap
  live : List Alloc
  stored : Nat → Option UInt8

/-- What the program does. -/
inductive Event where
  | malloc (sbrk : Nat → Option Nat) (fuel nbytes : Nat)
  | free (fuel : Nat) (alloc : Alloc)
  | store (alloc : Alloc) (a : Nat) (value : UInt8)

namespace World

variable (base : Nat)

/-- The next state, if the call comes to an end. -/
def take (w : World) : Event → Option World
  | .malloc sbrk fuel nbytes =>
    (Umalloc.malloc base sbrk fuel nbytes w.heap).map fun got =>
      if got.1 = 0 then { w with heap := got.2 }
      else
        { heap := got.2
          live := ⟨got.1, nbytes⟩ :: w.live
          stored := fun a => if got.1 ≤ a ∧ a < got.1 + nbytes then none else w.stored a }
  | .free fuel alloc =>
    (Umalloc.free fuel alloc.ptr w.heap).map fun heap =>
      { w with heap, live := w.live.erase alloc }
  | .store _ a value =>
    some { w with
      heap := { w.heap with memory := setByte w.heap.memory a value }
      stored := Function.update w.stored a (some value) }

/-- `sbrk` gives memory above everything it gave before, or none, and the address behind that
memory is an address. A request is a `uint`; the program frees what is live, and stores into
what is live. -/
def Enabled (w : World) : Event → Prop
  | .malloc sbrk _ nbytes =>
    nbytes < SPACE ∧ ∀ bytes p, sbrk bytes = some p → w.heap.brk ≤ p ∧ p + bytes < SPACE
  | .free _ alloc => alloc ∈ w.live
  | .store alloc a _ => alloc ∈ w.live ∧ alloc.ptr ≤ a ∧ a < alloc.ptr + alloc.nbytes

/-- A program that has not called the allocator. Its memory ends above `base`. -/
structure Fresh (w : World) : Prop where
  freep : w.heap.freep = 0
  nonnull : 0 < base
  above : base + 8 ≤ w.heap.brk
  inside : w.heap.brk < SPACE
  granted : w.heap.granted = 0
  live : w.live = []

/-- The states after any events that meet a condition. -/
inductive Run (condition : Event → Prop) : World → Prop
  | fresh {w : World} (fresh : Fresh base w) : Run condition w
  | step {w next : World} (before : Run condition w) {event : Event} (enabled : w.Enabled event)
      (meets : condition event) (takes : w.take base event = some next) : Run condition next

end World

end RtXv6.Umalloc
