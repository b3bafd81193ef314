import Mathlib.Logic.Function.Basic
import RtXv6.Bytes
import RtXv6.Stateful

/-!
# Physical pages and page tables

`kalloc.c` and the functions of `vm.c` that build, change and walk page tables. Memory is
the contents of the physical pages, and a page directory or page table is nothing but the
words in such a page: an entry is loaded from the page's bytes and stored into them, so a
page can be a table at one time and hold a program's data at another.

A pointer to a page is the number of the page: the kernel's pointers are physical addresses
displaced by `KERNBASE`, and the conversions between the two cancel. A pointer to an entry is
the number of its page with its index there. Addresses and sizes are numbers below two to the
power of 32, and sums that may exceed that are cut to it. The free pages are linked through
their first words; the links are also kept as a list, which is what `kalloc` follows.

A panic, an entry read through a null pointer, and a loop that comes round the whole address
space end a run.
-/

namespace RtXv6.Vm

/-- Bytes in a page. -/
abbrev PGSIZE : Nat := 4096

/-- Entries in a page directory. -/
abbrev NPDENTRIES : Nat := 1024

/-- Entries in a page table. -/
abbrev NPTENTRIES : Nat := 1024

/-- The entry is present. -/
abbrev PTE_P : Nat := 0x001

/-- The page can be written. -/
abbrev PTE_W : Nat := 0x002

/-- User code can use the page. -/
abbrev PTE_U : Nat := 0x004

/-- First kernel virtual address. -/
abbrev KERNBASE : Nat := 0x80000000

/-- Start of extended memory. -/
abbrev EXTMEM : Nat := 0x100000

/-- Top of physical memory. -/
abbrev PHYSTOP : Nat := 0xE000000

/-- Start of the devices at high addresses. -/
abbrev DEVSPACE : Nat := 0xFE000000

/-- Address where the kernel is linked. -/
abbrev KERNLINK : Nat := KERNBASE + EXTMEM

/-- The result of 32-bit unsigned arithmetic. -/
def uint (value : Nat) : Nat := value % 4294967296

/-- `PGROUNDUP`. -/
def pgRoundUp (sz : Nat) : Nat := uint (sz + PGSIZE - 1) / PGSIZE * PGSIZE

/-- `PGROUNDDOWN`. -/
def pgRoundDown (a : Nat) : Nat := a / PGSIZE * PGSIZE

/-- `PDX`: the directory index of an address. -/
def pdx (va : Nat) : Nat := va / 4194304 % 1024

/-- `PTX`: the table index of an address. -/
def ptx (va : Nat) : Nat := va / 4096 % 1024

/-- `PTE_ADDR`, as the number of the page. -/
def pteAddr (entry : Nat) : Nat := entry / PGSIZE

/-- `PTE_FLAGS`. -/
def pteFlags (entry : Nat) : Nat := entry % PGSIZE

/-- `entry & PTE_P`. -/
def Present (entry : Nat) : Prop := entry &&& PTE_P ≠ 0

instance present_decidable (entry : Nat) : Decidable (Present entry) :=
  inferInstanceAs (Decidable (entry &&& PTE_P ≠ 0))

/-- `entry & PTE_U`. -/
def User (entry : Nat) : Prop := entry &&& PTE_U ≠ 0

instance user_decidable (entry : Nat) : Decidable (User entry) :=
  inferInstanceAs (Decidable (entry &&& PTE_U ≠ 0))

/-- What the linker script decides: where the kernel's writable data begin, at the start of
a page behind the text, and the first address after the kernel. -/
structure Image where
  data : Nat
  endAddr : Nat
  aligned : data % PGSIZE = 0
  text : KERNLINK < data
  order : data ≤ endAddr
  fits : endAddr < KERNBASE + PHYSTOP

/-- The contents of a page. -/
abbrev Page := Fin PGSIZE → UInt8

/-- `memset(v, value, PGSIZE)`. -/
def filled (value : UInt8) : Page := fun _ => value

/-- The physical pages, and the free ones in the order in which they are linked. -/
structure Memory where
  page : Nat → Page
  freelist : List Nat

/-- How an operation fails to return. -/
inductive VmFault where
  | panic (message : String)
  | null
  | runaway
  deriving DecidableEq, Repr

/-- Code of the kernel that works on memory. -/
abbrev VmM := StateT Memory (Except VmFault)

namespace Memory

/-- The word of a page at an index. -/
def entryAt (m : Memory) (frame index : Nat) : Nat := Bytes.load (m.page frame) (4 * index) 4

/-- Replace the contents of a page. -/
def setPage (m : Memory) (frame : Nat) (contents : Page) : Memory :=
  { m with page := Function.update m.page frame contents }

/-- Replace a word of a page. -/
def setEntry (m : Memory) (pte : Nat × Nat) (value : Nat) : Memory :=
  m.setPage pte.1 (Bytes.store (m.page pte.1) (4 * pte.2) 4 value)

/-- The pointer in `kmem.freelist`. -/
def head (m : Memory) : Nat :=
  match m.freelist with
  | [] => 0
  | r :: _ => uint (r * PGSIZE + KERNBASE)

/-- A page filled with junk and linked in front of the free ones. -/
def release (m : Memory) (frame : Nat) : Memory :=
  { m.setPage frame (Bytes.store (filled 1) 0 4 m.head) with freelist := frame :: m.freelist }

end Memory

/-- `*pte`. -/
def readEntry (pte : Nat × Nat) : VmM Nat := do
  let m ← get
  pure (m.entryAt pte.1 pte.2)

/-- `*pte = value`. -/
def writeEntry (pte : Nat × Nat) (value : Nat) : VmM Unit := modify fun m => m.setEntry pte value

/-- Write a whole page. -/
def writePage (frame : Nat) (contents : Page) : VmM Unit := modify fun m => m.setPage frame contents

/-- `kalloc`. -/
def kalloc : VmM (Option Nat) := do
  let m ← get
  match m.freelist with
  | [] => pure none
  | r :: next => do
    set { m with freelist := next }
    pure (some r)

/-- `kfree`. A pointer to a page is aligned. -/
def kfree (image : Image) (frame : Nat) : VmM Unit :=
  if uint (frame * PGSIZE + KERNBASE) < image.endAddr ∨ PHYSTOP ≤ frame * PGSIZE then
    throw (.panic "kfree")
  else modify fun m => m.release frame

/-- `walkpgdir`. -/
def walkpgdir (pgdir va : Nat) (alloc : Bool) : VmM (Option (Nat × Nat)) := do
  let pde ← readEntry (pgdir, pdx va)
  if Present pde then pure (some (pteAddr pde, ptx va))
  else if alloc = false then pure none
  else do
    match ← kalloc with
    | none => pure none
    | some pgtab => do
      writePage pgtab (filled 0)
      writeEntry (pgdir, pdx va) (pgtab * PGSIZE ||| PTE_P ||| PTE_W ||| PTE_U)
      pure (some (pgtab, ptx va))

/-- The number of pages of the address space, which no loop over pages need exceed. -/
abbrev PAGES : Nat := 1048576

/-- The virtual pages below the kernel. -/
abbrev USERPAGES : Nat := 524288

/-- The loop of `mappages`. -/
def mapLoop (pgdir last perm : Nat) : Nat → Nat → Nat → VmM Int
  | 0, _, _ => throw .runaway
  | fuel + 1, a, pa => do
    match ← walkpgdir pgdir a true with
    | none => pure (-1)
    | some pte => do
      let entry ← readEntry pte
      if Present entry then throw (.panic "remap")
      else do
        writeEntry pte (pa ||| perm ||| PTE_P)
        if a = last then pure 0
        else mapLoop pgdir last perm fuel (uint (a + PGSIZE)) (uint (pa + PGSIZE))

/-- `mappages`. -/
def mappages (pgdir va size pa perm : Nat) : VmM Int :=
  mapLoop pgdir (pgRoundDown (uint (va + size + 4294967295))) perm PAGES (pgRoundDown va) pa

/-- `struct kmap`. -/
structure Kmap where
  virt : Nat
  physStart : Nat
  physEnd : Nat
  perm : Nat

/-- `kmap`: the kernel's mappings. -/
def kmap (image : Image) : List Kmap :=
  [{ virt := KERNBASE, physStart := 0, physEnd := EXTMEM, perm := PTE_W },
    { virt := KERNLINK, physStart := KERNLINK - KERNBASE, physEnd := image.data - KERNBASE,
      perm := 0 },
    { virt := image.data, physStart := image.data - KERNBASE, physEnd := PHYSTOP, perm := PTE_W },
    { virt := DEVSPACE, physStart := DEVSPACE, physEnd := 0, perm := PTE_W }]

/-- The loop of `setupkvm`. -/
def mapKernel (pgdir : Nat) : List Kmap → VmM (Option Nat)
  | [] => pure (some pgdir)
  | k :: rest => do
    let mapped ← mappages pgdir k.virt (uint (k.physEnd + 4294967296 - k.physStart)) k.physStart
      k.perm
    if mapped < 0 then pure none
    else mapKernel pgdir rest

/-- `setupkvm`. -/
def setupkvm (image : Image) : VmM (Option Nat) := do
  match ← kalloc with
  | none => pure none
  | some pgdir => do
    writePage pgdir (filled 0)
    if DEVSPACE < uint (PHYSTOP + KERNBASE) then throw (.panic "PHYSTOP too high")
    else mapKernel pgdir (kmap image)

/-- What `deallocuvm` does with an entry it finds. -/
def releaseEntry (image : Image) (pte : Nat × Nat) : VmM Unit := do
  let entry ← readEntry pte
  if Present entry then
    if pteAddr entry = 0 then throw (.panic "kfree")
    else do
      kfree image (pteAddr entry)
      writeEntry pte 0
  else pure ()

/-- The loop of `deallocuvm`. Where there is no page table it skips the entries of one. -/
def deallocLoop (image : Image) (pgdir oldsz : Nat) : Nat → Nat → VmM Unit
  | 0, _ => throw .runaway
  | fuel + 1, a =>
    if a < oldsz then do
      match ← walkpgdir pgdir a false with
      | none =>
        deallocLoop image pgdir oldsz fuel (uint (uint (a + (NPTENTRIES - 1) * PGSIZE) + PGSIZE))
      | some pte => do
        releaseEntry image pte
        deallocLoop image pgdir oldsz fuel (uint (a + PGSIZE))
    else pure ()

/-- `deallocuvm`. -/
def deallocuvm (image : Image) (pgdir oldsz newsz : Nat) : VmM Nat :=
  if oldsz ≤ newsz then pure oldsz
  else do
    deallocLoop image pgdir oldsz (PAGES + 1) (pgRoundUp newsz)
    pure newsz

/-- The loop of `allocuvm`. The result of `mappages` is not looked at. -/
def allocLoop (image : Image) (pgdir oldsz newsz : Nat) : Nat → Nat → VmM Nat
  | 0, _ => throw .runaway
  | fuel + 1, a =>
    if a < newsz then do
      match ← kalloc with
      | none => do
        let _ ← deallocuvm image pgdir newsz oldsz
        pure 0
      | some mem => do
        writePage mem (filled 0)
        let _ ← mappages pgdir a PGSIZE (mem * PGSIZE) (PTE_W ||| PTE_U)
        allocLoop image pgdir oldsz newsz fuel (uint (a + PGSIZE))
    else pure newsz

/-- `allocuvm`. -/
def allocuvm (image : Image) (pgdir oldsz newsz : Nat) : VmM Nat :=
  if KERNBASE ≤ newsz then pure 0
  else if newsz < oldsz then pure oldsz
  else allocLoop image pgdir oldsz newsz (PAGES + 1) (pgRoundUp oldsz)

/-- What `freevm` does with an entry of the directory. -/
def freeTable (image : Image) (pgdir i : Nat) : VmM Unit := do
  let pde ← readEntry (pgdir, i)
  if Present pde then kfree image (pteAddr pde) else pure ()

/-- `freevm`. The pointer to a page directory is not null. -/
def freevm (image : Image) (pgdir : Nat) : VmM Unit := do
  let _ ← deallocuvm image pgdir KERNBASE 0
  (List.range NPDENTRIES).forM (freeTable image pgdir)
  kfree image pgdir

/-- `clearpteu`. -/
def clearpteu (pgdir uva : Nat) : VmM Unit := do
  match ← walkpgdir pgdir uva false with
  | none => throw (.panic "clearpteu")
  | some pte => do
    let entry ← readEntry pte
    writeEntry pte (entry &&& 0xFFFFFFFB)

/-- The loop of `copyuvm`, with its label `bad`. -/
def copyLoop (image : Image) (pgdir sz d : Nat) : Nat → Nat → VmM (Option Nat)
  | 0, _ => throw .runaway
  | fuel + 1, i =>
    if i < sz then do
      match ← walkpgdir pgdir i false with
      | none => throw (.panic "copyuvm: pte should exist")
      | some pte => do
        let entry ← readEntry pte
        if Present entry then do
          match ← kalloc with
          | none => do
            freevm image d
            pure none
          | some mem => do
            let m ← get
            writePage mem (m.page (pteAddr entry))
            let mapped ← mappages d i PGSIZE (mem * PGSIZE) (pteFlags entry)
            if mapped < 0 then do
              freevm image d
              pure none
            else copyLoop image pgdir sz d fuel (uint (i + PGSIZE))
        else throw (.panic "copyuvm: page not present")
    else pure (some d)

/-- `copyuvm`. -/
def copyuvm (image : Image) (pgdir sz : Nat) : VmM (Option Nat) := do
  match ← setupkvm image with
  | none => pure none
  | some d => copyLoop image pgdir sz d (PAGES + 1) 0

/-- `uva2ka`. The entry is read before anything asks whether there is one. -/
def uva2ka (pgdir uva : Nat) : VmM (Option Nat) := do
  match ← walkpgdir pgdir uva false with
  | none => throw .null
  | some pte => do
    let entry ← readEntry pte
    if Present entry then
      if User entry then pure (some (pteAddr entry)) else pure none
    else pure none

/-- The loop of `copyout`. -/
def copyoutLoop (pgdir : Nat) : Nat → Nat → (Nat → UInt8) → Nat → VmM Int
  | 0, _, _, _ => throw .runaway
  | fuel + 1, va, buf, len =>
    if 0 < len then do
      let va0 := pgRoundDown va
      match ← uva2ka pgdir va0 with
      | none => pure (-1)
      | some pa0 => do
        let n := min (PGSIZE - (va - va0)) len
        let m ← get
        writePage pa0 (Bytes.move (m.page pa0) (va - va0) n buf)
        copyoutLoop pgdir fuel (uint (va0 + PGSIZE)) (fun index => buf (index + n)) (len - n)
    else pure 0

/-- `copyout`. -/
def copyout (pgdir va : Nat) (p : Nat → UInt8) (len : Nat) : VmM Int :=
  copyoutLoop pgdir (len + 1) va p len

end RtXv6.Vm
