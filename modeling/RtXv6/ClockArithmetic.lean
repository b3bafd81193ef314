import RtXv6.ReadyHeap

/-!
# Times of the real-time builds

`tick` and `ticks1` shift the time-stamp counter and are 64 bits wide. A relative deadline is
an unsigned word filled from a signed argument, the key of the ready queue is a signed word,
and `sys_sleep` keeps its first reading in an unsigned word. Here is when these widths do no
harm.
-/

namespace RtXv6

open ReadyHeap

/-- `tick()`, on what `rdtsc` reads. -/
def tick (rdtsc : UInt64) : UInt64 := rdtsc >>> 23

/-- The absolute deadline of a process. -/
def Proc.due (p : Proc) : Nat := p.arrtime.toNat + p.D.toNat

section Deadline

variable {p q : Proc} {rdtsc : Nat → UInt64} {k j : Nat}

/-- The counter is shifted far enough for sums with a word not to wrap. -/
theorem tick_lt (counter : UInt64) : (tick counter).toNat < 2199023255552 := by
  have limit := counter.toNat_lt
  rw [tick, UInt64.toNat_shiftRight, Nat.shiftRight_eq_div_pow]
  have shift : (23 : UInt64).toNat % 64 = 23 := by decide
  rw [shift]
  omega

theorem deadline_eq (arrived : p.arrtime ≤ tick (rdtsc k)) :
    (deadline (fun n => tick (rdtsc n)) p k).1 =
      if p.due < (tick (rdtsc k)).toNat then 0
      else ((p.due : Int) - (tick (rdtsc (k + 1))).toNat).bmod 4294967296 := by
  have before := tick_lt (rdtsc k)
  have word := p.D.toNat_lt
  have first : p.arrtime.toNat ≤ (tick (rdtsc k)).toNat := UInt64.le_iff_toNat_le.mp arrived
  have sum : (p.arrtime + p.D.toUInt64).toNat = p.due := by
    rw [UInt64.toNat_add, UInt32.toNat_toUInt64, Proc.due]
    omega
  by_cases late : p.due < (tick (rdtsc k)).toNat
  · have test : ¬ tick (rdtsc k) ≤ p.arrtime + p.D.toUInt64 := by
      rw [UInt64.le_iff_toNat_le, sum]
      omega
    simp only [deadline, if_neg test, if_pos late]
  have test : tick (rdtsc k) ≤ p.arrtime + p.D.toUInt64 := by
    rw [UInt64.le_iff_toNat_le, sum]
    omega
  simp only [deadline, if_pos test, if_neg late]
  generalize tick (rdtsc (k + 1)) = second
  have limit := second.toNat_lt
  show (p.arrtime + p.D.toUInt64 - second).toUInt32.toBitVec.toInt = _
  rw [BitVec.toInt_eq_toNat_bmod]
  show Int.bmod ((p.arrtime + p.D.toUInt64 - second).toUInt32.toNat : Int) 4294967296 = _
  rw [UInt64.toNat_toUInt32, UInt64.toNat_sub, sum, Int.bmod_def, Int.bmod_def]
  omega

/-- The key of a process is not negative exactly if its deadline has passed at the first reading
or its distance from the second reading is below half of a word's range. Under a still clock the
keys of two processes are in the order of their deadlines exactly if the later deadline is less
than that distance away, or both are not. -/
theorem deadline_respects_iff (arrived : p.arrtime ≤ tick (rdtsc k))
    (other : q.arrtime ≤ tick (rdtsc j)) :
    (0 ≤ (deadline (fun n => tick (rdtsc n)) p k).1 ↔ p.due < (tick (rdtsc k)).toNat ∨
      ((p.due : Int) - (tick (rdtsc (k + 1))).toNat) % 4294967296 < 2147483648) ∧
    ((∀ n, tick (rdtsc n) = tick (rdtsc k)) → p.due ≤ q.due →
      ((deadline (fun n => tick (rdtsc n)) p k).1 ≤ (deadline (fun n => tick (rdtsc n)) q j).1 ↔
        q.due < (tick (rdtsc k)).toNat + 2147483648 ∨
          (tick (rdtsc k)).toNat + 2147483648 ≤ p.due)) := by
  rw [deadline_eq arrived, deadline_eq other]
  refine ⟨?_, fun still order => ?_⟩
  · rw [Int.bmod_def]
    omega
  · have first : p.arrtime.toNat ≤ (tick (rdtsc k)).toNat := UInt64.le_iff_toNat_le.mp arrived
    have second : q.arrtime.toNat ≤ (tick (rdtsc j)).toNat := UInt64.le_iff_toNat_le.mp other
    have wordP := p.D.toNat_lt
    have wordQ := q.D.toNat_lt
    rw [still j] at second
    rw [still (k + 1), still j, still (j + 1), Int.bmod_def, Int.bmod_def]
    simp only [Proc.due] at order ⊢
    omega

/-- Two processes with a deadline of one and of two ticks, at time zero. -/
theorem deadline_respects_iff_near :
    0 ≤ (deadline (fun _ => tick 0) { Proc.zero with D := 1 } 0).1 ∧
      (deadline (fun _ => tick 0) { Proc.zero with D := 1 } 0).1 ≤
        (deadline (fun _ => tick 0) { Proc.zero with D := 2 } 2).1 := by
  have both := @deadline_respects_iff { Proc.zero with D := 1 }
    { Proc.zero with D := 2 } (fun _ => 0) 0 2 (by decide) (by decide)
  exact ⟨both.1.mpr (by decide), (both.2 (fun _ => rfl) (by decide)).mpr (by decide)⟩

/-- A process forked with the argument -1 has a negative key on arrival, below that of a process
whose deadline is now; and a clock that passes a deadline between the two readings makes the key
negative too. -/
theorem deadline_negative :
    (deadline (fun _ => tick 0) { Proc.zero with D := (-1 : Int32).toUInt32 } 0).1 = -1 ∧
      (deadline (fun _ => tick 0) Proc.zero 0).1 = 0 ∧
      Proc.zero.due ≤ { Proc.zero with D := (-1 : Int32).toUInt32 : Proc }.due ∧
      (deadline (fun n => tick (UInt64.ofNat n * 8388608)) Proc.zero 0).1 = -1 := by
  decide

end Deadline

section Sleep

variable (ticks1 : Nat → UInt64) (killed : Nat → Bool) (n : Int32)

/-- The test of the loop of `sys_sleep` at a reading: is the time still to be waited for? -/
def waits (ticks0 : UInt32) (reading : UInt64) : Bool :=
  reading - ticks0.toUInt64 < n.toInt64.toUInt64

/-- The loop of `sys_sleep` from one of its tests on, with the value returned and the test that
ended it, or nothing while the last of the wakeups leaves it asleep. The first reading of the clock
comes before the first test. -/
def sleepLoop (ticks0 : UInt32) : Nat → Nat → Option (Int32 × Nat)
  | 0, _ => none
  | wakeups + 1, test =>
    if waits n ticks0 (ticks1 (test + 1)) then
      if killed test then some (-1, test) else sleepLoop ticks0 wakeups (test + 1)
    else some (0, test)

/-- `sys_sleep()` on its argument, for a number of wakeups. -/
def sysSleep (argument : Option Int32) (wakeups : Nat) : Option (Int32 × Nat) :=
  match argument with
  | none => some (-1, 0)
  | some n => sleepLoop ticks1 killed n (ticks1 0).toUInt32 (wakeups + 1) 0

variable {ticks1 n}

/-- The loop of a process that is not killed ends at the first test that fails. -/
theorem sleepLoop_iff (ticks0 : UInt32) (wakeups first last : Nat) :
    sleepLoop ticks1 (fun _ => false) n ticks0 wakeups first = some (0, last) ↔
      first ≤ last ∧ last < first + wakeups ∧ waits n ticks0 (ticks1 (last + 1)) = false ∧
        ∀ test, first ≤ test → test < last → waits n ticks0 (ticks1 (test + 1)) = true := by
  induction wakeups generalizing first with
  | zero =>
    constructor
    · intro returned
      cases returned
    · rintro ⟨above, below, _⟩
      omega
  | succ wakeups ih =>
    by_cases again : waits n ticks0 (ticks1 (first + 1)) = true
    · rw [sleepLoop, if_pos again, if_neg Bool.false_ne_true, ih]
      constructor
      · rintro ⟨above, below, ended, waited⟩
        refine ⟨by omega, by omega, ended, fun test after before => ?_⟩
        by_cases here : test = first
        · rwa [here]
        · exact waited test (by omega) before
      · rintro ⟨above, below, ended, waited⟩
        have later : first ≠ last := by
          rintro rfl
          rw [again] at ended
          cases ended
        exact ⟨by omega, by omega, ended, fun test after => waited test (by omega)⟩
    · rw [sleepLoop, if_neg again]
      constructor
      · intro returned
        obtain rfl : first = last := congrArg Prod.snd (Option.some.inj returned)
        exact ⟨Nat.le_refl _, by omega, eq_false_of_ne_true again, fun test _ _ => by omega⟩
      · rintro ⟨above, below, ended, waited⟩
        by_cases here : first = last
        · rw [here]
        · exact absurd (waited first (Nat.le_refl _) (by omega)) again

theorem waits_iff (nonnegative : 0 ≤ n) {start reading : UInt64} (rising : start ≤ reading) :
    waits n start.toUInt32 reading = true ↔
      reading.toNat < start.toNat % 4294967296 + n.toInt.toNat := by
  have sign : 0 ≤ n.toInt := Int32.le_iff_toInt_le.mp nonnegative
  have wide : n.toInt64.toUInt64.toBitVec.toInt = n.toInt := Int32.toInt_toInt64 n
  have same : n.toInt64.toUInt64.toBitVec.toNat = n.toInt64.toUInt64.toNat := rfl
  have before : start.toNat ≤ reading.toNat := UInt64.le_iff_toNat_le.mp rising
  have limit := reading.toNat_lt
  rw [BitVec.toInt_eq_toNat_cond, same] at wide
  rw [waits, decide_eq_true_iff, UInt64.lt_iff_toNat_lt, UInt64.toNat_sub, UInt32.toNat_toUInt64,
    UInt64.toNat_toUInt32]
  split at wide <;> omega

/-- `sys_sleep` of a process that is not killed returns at the first test at which the requested
time has passed, and not before, exactly if its first reading fits a word or the time has passed at
the first test already. -/
theorem sysSleep_exact_iff (rising : ∀ i j, i ≤ j → ticks1 i ≤ ticks1 j) (nonnegative : 0 ≤ n) :
    (∀ wakeups test, sysSleep ticks1 (fun _ => false) (some n) wakeups = some (0, test) ↔
      test ≤ wakeups ∧ (ticks1 0).toNat + n.toInt.toNat ≤ (ticks1 (test + 1)).toNat ∧
        ∀ earlier < test, (ticks1 (earlier + 1)).toNat < (ticks1 0).toNat + n.toInt.toNat) ↔
      (ticks1 0).toNat < 4294967296 ∨
        (ticks1 0).toNat + n.toInt.toNat ≤ (ticks1 1).toNat := by
  have tests : ∀ test, waits n (ticks1 0).toUInt32 (ticks1 (test + 1)) = true ↔
      (ticks1 (test + 1)).toNat < (ticks1 0).toNat % 4294967296 + n.toInt.toNat :=
    fun test => waits_iff nonnegative (rising _ _ (Nat.zero_le _))
  have small := n.toInt_lt
  constructor
  · intro exactly
    by_contra wide
    have first : (ticks1 0).toNat ≤ (ticks1 1).toNat :=
      UInt64.le_iff_toNat_le.mp (rising 0 1 (Nat.zero_le _))
    have ended : waits n (ticks1 0).toUInt32 (ticks1 1) = false := by
      rw [← Bool.not_eq_true, waits_iff nonnegative (rising 0 1 (Nat.zero_le _))]
      omega
    have returns := (sleepLoop_iff _ 1 0 0).mpr ⟨Nat.le_refl _, Nat.one_pos, ended,
      fun test _ before => absurd before (Nat.not_lt_zero _)⟩
    exact wide (.inr ((exactly 0 0).mp returns).2.1)
  · intro fits wakeups test
    have same : ∀ test, waits n (ticks1 0).toUInt32 (ticks1 (test + 1)) = true ↔
        (ticks1 (test + 1)).toNat < (ticks1 0).toNat + n.toInt.toNat := by
      intro test
      have first : (ticks1 1).toNat ≤ (ticks1 (test + 1)).toNat :=
        UInt64.le_iff_toNat_le.mp (rising _ _ (by omega))
      rw [tests]
      omega
    rw [sysSleep, sleepLoop_iff, ← Bool.not_eq_true, same, Nat.not_lt]
    constructor
    · rintro ⟨_, enough, ended, waited⟩
      exact ⟨by omega, ended, fun earlier before => (same earlier).mp
        (waited earlier (Nat.zero_le _) before)⟩
    · rintro ⟨enough, ended, waited⟩
      exact ⟨Nat.zero_le _, by omega, ended, fun earlier _ before => (same earlier).mpr
        (waited earlier before)⟩

/-- A sleep of two ticks under a clock that counts the readings. -/
theorem sysSleep_exact_iff_counting :
    sysSleep (fun k => UInt64.ofNat (min k 5)) (fun _ => false) (some 2) 1 = some (0, 1) := by
  have small : ∀ a < 6, ∀ b < 6, a ≤ b → UInt64.ofNat a ≤ UInt64.ofNat b := by decide
  have rising : ∀ i j, i ≤ j → UInt64.ofNat (min i 5) ≤ UInt64.ofNat (min j 5) :=
    fun i j le => small _ (by omega) _ (by omega) (by omega)
  exact ((sysSleep_exact_iff rising (by decide)).mpr (.inl (by decide)) 1 1).mpr (by decide)

/-- Once the counter has passed a word's range, a sleep of two ticks returns at once. -/
theorem sysSleep_early :
    sysSleep (fun _ => 4294967296) (fun _ => false) (some 2) 0 = some (0, 0) ∧
      (4294967296 : UInt64).toNat < (4294967296 : UInt64).toNat + (2 : Int32).toInt.toNat := by
  decide

end Sleep

end RtXv6
