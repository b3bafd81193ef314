import RtXv6.Inodes

/-!
# The user buffers of read and write

`sys_read` and `sys_write` take a descriptor, an address and a length from the user's
stack. `argptr` adds the length, a signed number, to the address, an unsigned one; then
`readi` and `writei` take the length as unsigned, the pipes and the console as signed.
Here every function returns the user addresses that it reads or writes, in order.

What happens while a call waits is a parameter: how many bytes a pipe holds when they
are copied, before which byte a writer finds its pipe full and without a reader, and the
characters that are typed until the reader is killed.
-/

namespace RtXv6.UserBuffers

/-- First kernel virtual address. -/
abbrev KERNBASE : UInt32 := 0x80000000

/-- The major number of the console. -/
abbrev CONSOLE : Int16 := 1

/-- The memory of a process and the stack pointer of its trap frame. -/
structure User where
  sz : UInt32
  esp : UInt32
  memory : UInt32 → UInt8

/-- What a call finds when it has waited. -/
structure Events where
  available : Nat
  broken : Nat → Bool
  typed : List UInt8

/-- `fetchint`. -/
def fetchint (user : User) (addr : UInt32) : Option Int32 :=
  if user.sz ≤ addr ∨ user.sz < addr + 4 then none
  else some (UInt32.ofNat (Bytes.load
    (fun index : Fin 4 => user.memory (addr + UInt32.ofNat index)) 0 4)).toInt32

/-- `argint`. -/
def argint (user : User) (n : UInt32) : Option Int32 := fetchint user (user.esp + 4 + 4 * n)

/-- `argptr`. The length is converted to the type of the address. -/
def argptr (user : User) (n : UInt32) (size : Int32) : Option UInt32 := do
  let i ← argint user n
  if user.sz ≤ i.toUInt32 ∨ user.sz < i.toUInt32 + size.toUInt32 then none else some i.toUInt32

/-- `argfd`. -/
def argfd (s : Fs) (process : Slot) (user : User) (n : UInt32) : Option File := do
  let fd ← argint user n
  if inside : 0 ≤ fd.toInt ∧ fd.toInt.toNat < NOFILE then
    let f ← (s.proc process).ofile ⟨fd.toInt.toNat, inside.2⟩
    some (s.ftable f)
  else none

/-- The addresses of consecutive bytes. -/
def span (addr : UInt32) (count : Nat) : List UInt32 :=
  (List.range count).map (fun index => addr + UInt32.ofNat index)

/-- The indices of `for(i = 0; i < n; i++)`. -/
def indices (n : Int32) : List Nat := List.range n.toInt.toNat

/-- `piperead`. -/
def piperead (events : Events) (addr : UInt32) (n : Int32) : List UInt32 :=
  ((indices n).takeWhile (· < events.available)).map (fun index => addr + UInt32.ofNat index)

/-- `pipewrite`. -/
def pipewrite (events : Events) (addr : UInt32) (n : Int32) : List UInt32 :=
  ((indices n).takeWhile (fun index => !events.broken index)).map
    (fun index => addr + UInt32.ofNat index)

/-- The loop of `consoleread` over the characters typed. -/
def consoleread : List UInt8 → UInt32 → Nat → List UInt32
  | [], _, _ => []
  | _ :: _, _, 0 => []
  | c :: rest, dst, n + 1 =>
    if c = 4 then []
    else if c = 10 then [dst]
    else dst :: consoleread rest (dst + 1) n

/-- `consolewrite`. -/
def consolewrite (buf : UInt32) (n : Int32) : List UInt32 :=
  (indices n).map (fun index => buf + UInt32.ofNat index)

/-- The loop of `readi` and `writei` that moves the bytes of one block after the other. -/
def moves : Nat → UInt32 → Nat → Nat → List UInt32
  | 0, _, _, _ => []
  | fuel + 1, addr, off, left =>
    if left = 0 then []
    else span addr (min left (BSIZE - off % BSIZE)) ++
      moves fuel (addr + UInt32.ofNat (min left (BSIZE - off % BSIZE)))
        (off + min left (BSIZE - off % BSIZE)) (left - min left (BSIZE - off % BSIZE))

/-- `readi`. The console is the only device with a driver. -/
def readi (events : Events) (ip : Inode) (dst off n : UInt32) : List UInt32 :=
  if ip.type = T_DEV then
    if ip.major = CONSOLE then consoleread events.typed dst n.toInt32.toInt.toNat else []
  else if ip.size < off ∨ off + n < off then []
  else
    let n := if ip.size < off + n then ip.size - off else n
    moves n.toNat dst off.toNat n.toNat

/-- `writei`, with what it returns and the size it leaves. -/
def writei (ip : Inode) (src off n : UInt32) : List UInt32 × Int32 × UInt32 :=
  if ip.type = T_DEV then
    if ip.major = CONSOLE then (consolewrite src n.toInt32, n.toInt32, ip.size)
    else ([], -1, ip.size)
  else if ip.size < off ∨ off + n < off then ([], -1, ip.size)
  else if UInt32.ofNat (MAXFILE * BSIZE) < off + n then ([], -1, ip.size)
  else (moves n.toNat src off.toNat n.toNat, n.toInt32,
    if 0 < n ∧ ip.size < off + n then off + n else ip.size)

/-- `fileread`. A file without a type panics. -/
def fileread (events : Events) (f : File) (ip : Inode) (addr : UInt32) (n : Int32) :
    List UInt32 :=
  if f.readable = false then []
  else match f.type with
    | .pipe => piperead events addr n
    | .inode => readi events ip addr f.off n.toUInt32
    | .none => []

/-- The most bytes that `filewrite` passes to one `writei`. -/
abbrev chunk : Nat := (LOGSIZE - 1 - 1 - 2) / 2 * 512

/-- The loop of `filewrite`, with `left` bytes to go. -/
def writes (ip : Inode) : Nat → UInt32 → UInt32 → Nat → List UInt32
  | 0, _, _, _ => []
  | fuel + 1, addr, off, left =>
    if left = 0 then []
    else
      let n1 := min left chunk
      let written := writei ip addr off (UInt32.ofNat n1)
      if written.2.1 < 0 ∨ written.2.1 ≠ Int32.ofNat n1 then written.1
      else written.1 ++ writes { ip with size := written.2.2 } fuel (addr + UInt32.ofNat n1)
        (off + UInt32.ofNat n1) (left - n1)

/-- `filewrite`. A file without a type panics. -/
def filewrite (events : Events) (f : File) (ip : Inode) (addr : UInt32) (n : Int32) :
    List UInt32 :=
  if f.writable = false then []
  else match f.type with
    | .pipe => pipewrite events addr n
    | .inode => writes ip n.toInt.toNat addr f.off n.toInt.toNat
    | .none => []

/-- The file, the address and the length that pass the checks of `sys_read` and
`sys_write`. -/
def arguments (s : Fs) (process : Slot) (user : User) : Option (File × UInt32 × Int32) := do
  let f ← argfd s process user 0
  let n ← argint user 2
  let p ← argptr user 1 n
  some (f, p, n)

/-- The inode of a file. -/
def inodeOf (s : Fs) (f : File) : Inode := s.icache (f.ip.getD 0)

/-- `sys_read`, once its arguments have passed. -/
def sysRead (s : Fs) (process : Slot) (user : User) (events : Events) : Option (List UInt32) := do
  let (f, p, n) ← arguments s process user
  some (fileread events f (inodeOf s f) p n)

/-- `sys_write`, once its arguments have passed. -/
def sysWrite (s : Fs) (process : Slot) (user : User) (events : Events) : Option (List UInt32) := do
  let (f, p, n) ← arguments s process user
  some (filewrite events f (inodeOf s f) p n)

variable {addr a : UInt32} {count : Nat}

theorem mem_span :
    a ∈ span addr count ↔ ∃ index, index < count ∧ addr + UInt32.ofNat index = a := by
  simp [span]

theorem span_append (addr : UInt32) (first rest : Nat) :
    span addr (first + rest) = span addr first ++ span (addr + UInt32.ofNat first) rest := by
  simp only [span, List.range_add, List.map_append, List.map_map]
  congr 1
  apply List.map_congr_left
  intro index _
  simp only [Function.comp_apply, UInt32.ofNat_add, UInt32.add_assoc]

variable {fuel left : Nat}

theorem moves_eq (enough : left ≤ fuel) (addr : UInt32) (off : Nat) :
    moves fuel addr off left = span addr left := by
  induction fuel generalizing addr off left with
  | zero =>
    obtain rfl : left = 0 := by omega
    rfl
  | succ fuel ih =>
    rw [moves]
    by_cases done : left = 0
    · rw [if_pos done, done]
      rfl
    have position : off % BSIZE < BSIZE := Nat.mod_lt _ (by decide)
    obtain ⟨count, chosen⟩ : ∃ count, count = min left (BSIZE - off % BSIZE) := ⟨_, rfl⟩
    have bounds : 0 < count ∧ count ≤ left := by omega
    rw [if_neg done, ← chosen, ih (by omega), ← span_append]
    congr 1
    omega

/-- A span that starts inside the memory of a process stays there if its end does. -/
theorem span_inside {sz : UInt32} (start : addr < sz) :
    (∀ a ∈ span addr count, a < sz) ↔ addr.toNat + count ≤ sz.toNat := by
  have below : addr.toNat < sz.toNat := UInt32.lt_iff_toNat_lt.mp start
  have limit := sz.toNat_lt
  constructor
  · intro inside
    by_contra beyond
    have reached : addr + UInt32.ofNat (sz.toNat - addr.toNat) = sz := by
      apply UInt32.toNat_inj.mp
      rw [UInt32.toNat_add, UInt32.toNat_ofNat_of_lt' (Nat.lt_of_le_of_lt (Nat.sub_le _ _) limit)]
      omega
    have member : sz ∈ span addr count := mem_span.mpr ⟨sz.toNat - addr.toNat, by omega, reached⟩
    exact absurd (inside sz member) (UInt32.lt_irrefl sz)
  · intro fits a member
    obtain ⟨index, small, rfl⟩ := mem_span.mp member
    have number : index < UInt32.size := Nat.lt_trans (by omega) limit
    rw [UInt32.lt_iff_toNat_lt, UInt32.toNat_add, UInt32.toNat_ofNat_of_lt' number]
    omega

theorem toInt_toInt32 (n : UInt32) :
    n.toInt32.toInt = if n.toNat < 2147483648 then (n.toNat : Int) else n.toNat - 4294967296 := by
  have reading : n.toInt32.toInt = n.toBitVec.toInt := rfl
  have same : n.toBitVec.toNat = n.toNat := rfl
  rw [reading, BitVec.toInt_eq_toNat_cond, same]
  split <;> split <;> omega

variable {n : Int32}

/-- The unsigned reading of a number that is not negative. -/
theorem toNat_toUInt32 (nonnegative : 0 ≤ n) : n.toUInt32.toNat = n.toInt.toNat := by
  have sign : 0 ≤ n.toInt := Int32.le_iff_toInt_le.mp nonnegative
  have reading := toInt_toInt32 n.toUInt32
  have limit := n.toUInt32.toNat_lt
  rw [Int32.toInt32_toUInt32] at reading
  split at reading <;> omega

variable {events : Events}

section Inside

variable {a addr : UInt32}

variable {n : Int32}

theorem mem_span_of_indices {items : List Nat} (within : items ⊆ indices n)
    (member : a ∈ items.map (fun index => addr + UInt32.ofNat index)) :
    a ∈ span addr n.toInt.toNat := by
  obtain ⟨index, listed, same⟩ := List.mem_map.mp member
  exact mem_span.mpr ⟨index, List.mem_range.mp (within listed), same⟩

theorem mem_piperead (member : a ∈ piperead events addr n) : a ∈ span addr n.toInt.toNat :=
  mem_span_of_indices (List.takeWhile_subset _) member

theorem mem_pipewrite (member : a ∈ pipewrite events addr n) : a ∈ span addr n.toInt.toNat :=
  mem_span_of_indices (List.takeWhile_subset _) member

theorem mem_consolewrite (member : a ∈ consolewrite addr n) : a ∈ span addr n.toInt.toNat :=
  mem_span_of_indices (List.Subset.refl _) member

/-- The console stores at most as many characters as were asked for. -/
theorem mem_consoleread {typed : List UInt8} {n : Nat} (member : a ∈ consoleread typed addr n) :
    a ∈ span addr n := by
  induction typed generalizing addr n with
  | nil => cases member
  | cons c rest ih =>
    cases n with
    | zero => cases member
    | succ n =>
      have first : addr ∈ span addr (n + 1) := mem_span.mpr ⟨0, by omega, by simp⟩
      rw [consoleread] at member
      split at member
      · cases member
      split at member
      · rwa [List.mem_singleton.mp member]
      rcases List.mem_cons.mp member with same | later
      · rwa [same]
      · rw [Nat.add_comm, span_append]
        exact List.mem_append_right _ (ih later)

end Inside

variable {ip : Inode} {off : UInt32}

theorem mem_writei {src n : UInt32} (small : n.toNat < 2147483648)
    (member : a ∈ (writei ip src off n).1) : a ∈ span src n.toNat := by
  have signed : n.toInt32.toInt.toNat = n.toNat := by
    rw [toInt_toInt32, if_pos small]
    rfl
  unfold writei at member
  split at member
  · split at member
    · rw [← signed]
      exact mem_consolewrite member
    · cases member
  split at member
  · cases member
  split at member
  · cases member
  · rwa [moves_eq (Nat.le_refl _)] at member

theorem mem_writes (member : a ∈ writes ip fuel addr off left) : a ∈ span addr left := by
  induction fuel generalizing ip addr off left with
  | zero => cases member
  | succ fuel ih =>
    rw [writes] at member
    split at member
    · cases member
    have bound : min left chunk < 2147483648 :=
      Nat.lt_of_le_of_lt (Nat.min_le_right left chunk) (by decide)
    have number : (UInt32.ofNat (min left chunk)).toNat = min left chunk :=
      UInt32.toNat_ofNat_of_lt' (Nat.lt_trans bound (by decide))
    have whole : span addr left = span addr (min left chunk) ++
        span (addr + UInt32.ofNat (min left chunk)) (left - min left chunk) := by
      rw [← span_append, Nat.add_sub_cancel' (Nat.min_le_left left chunk)]
    have first : ∀ {a}, a ∈ (writei ip addr off (UInt32.ofNat (min left chunk))).1 →
        a ∈ span addr (min left chunk) := by
      intro a member
      have inside := mem_writei (by rwa [number]) member
      rwa [number] at inside
    rw [whole]
    dsimp only at member
    split at member
    · exact List.mem_append_left _ (first member)
    rcases List.mem_append.mp member with now | later
    · exact List.mem_append_left _ (first now)
    · exact List.mem_append_right _ (ih later)

variable {f : File} {process : Slot} {user : User}

theorem arguments_inside {s : Fs} {p : UInt32}
    (passed : arguments s process user = some (f, p, n)) :
    p < user.sz ∧ p + n.toUInt32 ≤ user.sz := by
  simp only [arguments, Option.bind_eq_bind, Option.bind_eq_some_iff, Option.some.injEq,
    Prod.mk.injEq] at passed
  obtain ⟨file, _, length, _, address, checked, rfl, rfl, rfl⟩ := passed
  simp only [argptr, Option.bind_eq_bind, Option.bind_eq_some_iff] at checked
  obtain ⟨i, _, tested⟩ := checked
  split at tested
  · cases tested
  rename_i inside
  obtain rfl := Option.some.inj tested
  rw [not_or, UInt32.not_le, UInt32.not_lt] at inside
  exact inside

/-- A length that is not negative keeps the buffer inside the memory of the process. -/
theorem buffer_inside {s : Fs} {p : UInt32} (space : user.sz ≤ KERNBASE)
    (passed : arguments s process user = some (f, p, n)) (nonnegative : 0 ≤ n) :
    ∀ a ∈ span p n.toInt.toNat, a < user.sz := by
  obtain ⟨start, finish⟩ := arguments_inside passed
  have below : p.toNat < user.sz.toNat := UInt32.lt_iff_toNat_lt.mp start
  have limit : user.sz.toNat ≤ 2147483648 := UInt32.le_iff_toNat_le.mp space
  have ends : (p + n.toUInt32).toNat ≤ user.sz.toNat := UInt32.le_iff_toNat_le.mp finish
  have reading := toInt_toInt32 n.toUInt32
  have number := toNat_toUInt32 nonnegative
  have sign : 0 ≤ n.toInt := Int32.le_iff_toInt_le.mp nonnegative
  rw [Int32.toInt32_toUInt32] at reading
  rw [UInt32.toNat_add] at ends
  rw [span_inside start]
  split at reading <;> omega

/-- What `readi` touches for a file with contents: as many bytes as there are from the
offset on, and as were asked for. -/
theorem readi_contents {dst n : UInt32} (contents : ip.type ≠ T_DEV)
    (within : ¬ (ip.size < off ∨ off + n < off)) :
    readi events ip dst off n = span dst (min (ip.size.toNat - off.toNat) n.toNat) := by
  rw [readi, if_neg contents, if_neg within, moves_eq (Nat.le_refl _)]
  congr 1
  rw [not_or, UInt32.not_lt, UInt32.not_lt] at within
  have start : off.toNat ≤ ip.size.toNat := UInt32.le_iff_toNat_le.mp within.1
  have finish : off.toNat ≤ (off + n).toNat := UInt32.le_iff_toNat_le.mp within.2
  have limit := off.toNat_lt
  have bound := n.toNat_lt
  have sum : (off + n).toNat = off.toNat + n.toNat := by
    rw [UInt32.toNat_add] at finish ⊢
    omega
  by_cases clipped : ip.size < off + n
  · have less : ip.size.toNat < (off + n).toNat := UInt32.lt_iff_toNat_lt.mp clipped
    rw [if_pos clipped, UInt32.toNat_sub_of_le _ _ within.1]
    omega
  have more : (off + n).toNat ≤ ip.size.toNat :=
    UInt32.le_iff_toNat_le.mp (UInt32.not_lt.mp clipped)
  rw [if_neg clipped]
  omega

/-- The addresses that `fileread` touches if the length is not negative, or the file is no
file with contents. -/
theorem mem_fileread (proper : 0 ≤ n ∨ f.type ≠ .inode ∨ ip.type = T_DEV)
    (member : a ∈ fileread events f ip addr n) : a ∈ span addr n.toInt.toNat := by
  unfold fileread at member
  split at member
  · cases member
  split at member
  · exact mem_piperead member
  · rename_i isInode
    by_cases device : ip.type = T_DEV
    · rw [readi, if_pos device] at member
      split at member
      · rw [Int32.toInt32_toUInt32] at member
        exact mem_consoleread member
      · cases member
    have nonnegative : 0 ≤ n := by
      rcases proper with nonnegative | other | contents
      · exact nonnegative
      · exact absurd isInode other
      · exact absurd contents device
    by_cases outside : ip.size < f.off ∨ f.off + n.toUInt32 < f.off
    · rw [readi, if_neg device, if_pos outside] at member
      cases member
    rw [readi_contents device outside, toNat_toUInt32 nonnegative] at member
    obtain ⟨index, small, same⟩ := mem_span.mp member
    exact mem_span.mpr ⟨index, Nat.lt_of_lt_of_le small (Nat.min_le_right _ _), same⟩
  · cases member

/-- A negative length does no harm: the file cannot be read, it is a pipe or a device, the
offset is not inside the file, the sum of offset and length wraps, or what is left of the
file fits. -/
def Harmless (user : User) (f : File) (ip : Inode) (p : UInt32) (n : Int32) : Prop :=
  f.readable = false ∨ f.type ≠ .inode ∨ ip.type = T_DEV ∨ ip.size < f.off ∨
    f.off + n.toUInt32 < f.off ∨
    p.toNat + min (ip.size.toNat - f.off.toNat) n.toUInt32.toNat ≤ user.sz.toNat

/-- For every process below the kernel and every content of its stack, memory and files:
once its arguments have passed, all addresses that `sys_write` touches lie in the memory of
the process, and all addresses that `sys_read` touches do exactly when the length is not
negative or harmless. -/
theorem user_buffers_inside_iff (s : Fs) (process : Slot) (user : User) (events : Events)
    (space : user.sz ≤ KERNBASE) (f : File) (p : UInt32) (n : Int32)
    (passed : arguments s process user = some (f, p, n)) :
    (∀ touched, sysWrite s process user events = some touched → ∀ a ∈ touched, a < user.sz) ∧
    ∀ touched, sysRead s process user events = some touched →
      ((∀ a ∈ touched, a < user.sz) ↔ 0 ≤ n ∨ Harmless user f (inodeOf s f) p n) := by
  obtain ⟨start, _⟩ := arguments_inside passed
  have empty : ¬ 0 ≤ n → n.toInt.toNat = 0 := by
    intro negative
    have sign : ¬ 0 ≤ n.toInt := fun sign => negative (Int32.le_iff_toInt_le.mpr sign)
    omega
  have inside : ∀ a ∈ span p n.toInt.toNat, a < user.sz := by
    intro a member
    by_cases nonnegative : 0 ≤ n
    · exact buffer_inside space passed nonnegative a member
    · rw [empty nonnegative] at member
      cases member
  constructor
  · intro touched wrote a member
    simp only [sysWrite, passed, Option.bind_eq_bind, Option.bind_some, Option.some.injEq] at wrote
    rw [← wrote] at member
    apply inside
    unfold filewrite at member
    split at member
    · cases member
    split at member
    · exact mem_pipewrite member
    · exact mem_writes member
    · cases member
  · intro touched read
    simp only [sysRead, passed, Option.bind_eq_bind, Option.bind_some, Option.some.injEq] at read
    rw [← read]
    by_cases proper : 0 ≤ n ∨ f.type ≠ .inode ∨ (inodeOf s f).type = T_DEV
    · refine iff_of_true (fun a member => inside a (mem_fileread proper member)) ?_
      rcases proper with nonnegative | other | device
      · exact .inl nonnegative
      · exact .inr (.inr (.inl other))
      · exact .inr (.inr (.inr (.inl device)))
    rw [not_or, not_or, not_not] at proper
    obtain ⟨negative, isInode, contents⟩ := proper
    have nothing : ∀ a ∈ ([] : List UInt32), a < user.sz := by
      intro a member
      cases member
    by_cases readable : f.readable = false
    · rw [fileread, if_pos readable]
      exact iff_of_true nothing (.inr (.inl readable))
    rw [fileread, if_neg readable, isInode]
    by_cases outside : (inodeOf s f).size < f.off ∨ f.off + n.toUInt32 < f.off
    · rw [readi, if_neg contents, if_pos outside]
      refine iff_of_true nothing (.inr ?_)
      rcases outside with beyond | wraps
      · exact .inr (.inr (.inr (.inl beyond)))
      · exact .inr (.inr (.inr (.inr (.inl wraps))))
    · rw [readi_contents contents outside, span_inside start]
      rw [not_or] at outside
      simp [Harmless, negative, readable, isInode, contents, outside.1, outside.2]

/-- A process with one page of memory, whose stack holds the arguments of a call
`read(0, addr, n)`. -/
def onePage (addr : UInt32) (n : Int32) : User :=
  { sz := 4096
    esp := 0
    memory := fun address =>
      if 8 ≤ address ∧ address < 12 then (addr >>> (8 * (address - 8))).toUInt8
      else if 12 ≤ address ∧ address < 16 then (n.toUInt32 >>> (8 * (address - 12))).toUInt8
      else 0 }

/-- Every descriptor is a file of 600 bytes, open for reading. -/
def oneFile : Fs :=
  { disk := fun _ _ => zeroes
    log := ⟨[], 0, false⟩
    sb := Superblock.read zeroes
    icache := fun _ =>
      { Dinode.zero with
        type := T_FILE, nlink := 1, size := 600, dev := ROOTDEV, inum := 2, ref := 1, busy := false,
        valid := true }
    ftable := fun _ =>
      { type := .inode, ref := 1, readable := true, writable := false, pipe := 0, ip := some 0,
        off := 0 }
    proc := fun _ => { ofile := fun _ => some 0, cwd := none }
    devsw := { read := fun _ => none, write := fun _ => none }
    pipes := fun _ => none
    kmem := [] }

/-- `read(0, (char*)3996, 100)` stays inside the page. -/
theorem user_buffers_inside_page :
    ∃ touched, sysRead oneFile 0 (onePage 3996 100) ⟨0, fun _ => false, []⟩ = some touched ∧
      ∀ a ∈ touched, a < (onePage 3996 100).sz :=
  ⟨_, rfl, ((user_buffers_inside_iff oneFile 0 (onePage 3996 100) ⟨0, fun _ => false, []⟩
    (by decide) _ _ _ rfl).2 _ rfl).mpr (.inl (by decide +kernel))⟩

/-- `read(0, (char*)4095, -1)` passes the checks and stores the 600 bytes of the file from
the last byte of the page on. -/
theorem negative_read_overruns :
    (onePage 4095 (-1)).sz ≤ KERNBASE ∧
      ∃ touched, sysRead oneFile 0 (onePage 4095 (-1)) ⟨0, fun _ => false, []⟩ = some touched ∧
        touched.length = 600 ∧ ∃ a ∈ touched, ¬ a < (onePage 4095 (-1)).sz := by
  refine ⟨by decide, ?_⟩
  have stored : (sysRead oneFile 0 (onePage 4095 (-1)) ⟨0, fun _ => false, []⟩).any
      (fun touched => decide (touched.length = 600 ∧ (4096 : UInt32) ∈ touched)) = true := by
    decide +kernel
  obtain ⟨touched, read, tested⟩ := (Option.any_eq_true _ _).mp stored
  obtain ⟨length, member⟩ := of_decide_eq_true tested
  exact ⟨touched, read, length, 4096, member, by decide⟩

end RtXv6.UserBuffers
