import RtXv6.Outcome

/-!
# Programs that change a state and may fail

A program takes a state and returns a value with the next state, or fails. How it ends
from a state is described by two predicates: what holds of the value and the next state,
and which faults are possible. The laws follow the text of a program: a sequence goes on
from what holds after its first part, and a loop keeps what each iteration hands on to
the remaining ones.
-/

namespace RtXv6.Stateful

universe u
variable {σ ε α β : Type u}

/-- A returned value and its state satisfy `post`; a fault is one of `faults`. -/
def Ends (post : α → σ → Prop) (faults : ε → Prop) (program : StateT σ (Except ε) α) (s : σ) :
    Prop :=
  Outcome.Ends (fun returned => post returned.1 returned.2) faults (program s)

variable {fault : ε}

section

variable {post weaker : α → σ → Prop} {faults more : ε → Prop}
  {program : StateT σ (Except ε) α} {s final : σ} {value : α}

/-- What holds after a run that returned. -/
theorem Ends.returned (ends : Ends post faults program s) (ran : program s = .ok (value, final)) :
    post value final := by
  unfold Ends at ends
  rw [ran] at ends
  exact ends

/-- A fault that occurred is one of the possible ones. -/
theorem Ends.failed (ends : Ends post faults program s) (failed : program s = .error fault) :
    faults fault := by
  unfold Ends at ends
  exact Outcome.Ends.fault ends failed

/-- A run that is known to return. -/
theorem Ends.of_run (ran : program s = .ok (value, final)) (holds : post value final) :
    Ends post faults program s := by
  unfold Ends
  rw [ran]
  exact holds

/-- A run without possible faults returns. -/
theorem Ends.exists_run (ends : Ends post (fun _ => False) program s) :
    ∃ value final, program s = .ok (value, final) ∧ post value final := by
  unfold Ends at ends
  cases ran : program s with
  | ok returned =>
    rw [ran] at ends
    exact ⟨returned.1, returned.2, rfl, ends⟩
  | error fault =>
    rw [ran] at ends
    exact absurd ends id

section

variable (ends : Ends post faults program s)
include ends

/-- Both predicates may be weakened. -/
theorem Ends.mono (values : ∀ value final, post value final → weaker value final)
    (kinds : ∀ fault, faults fault → more fault) : Ends weaker more program s :=
  Outcome.Ends.mono ends (fun returned => values returned.1 returned.2) kinds

/-- What holds after a run may be weakened. -/
theorem Ends.imp (values : ∀ value final, post value final → weaker value final) :
    Ends weaker faults program s :=
  ends.mono values (fun _ possible => possible)

/-- Two descriptions of one run hold together. -/
theorem Ends.and {other : α → σ → Prop} (also : Ends other more program s) :
    Ends (fun value final => post value final ∧ other value final) faults program s := by
  unfold Ends at ends also ⊢
  cases ran : program s with
  | ok returned =>
    rw [ran] at ends also
    exact ⟨ends, also⟩
  | error fault =>
    rw [ran] at ends
    exact ends

end

/-- A program that only returns. -/
theorem Ends.ret (holds : post value s) : Ends post faults (pure value) s := holds

/-- A program that fails. -/
theorem Ends.fail (possible : faults fault) :
    Ends post faults (throw fault : StateT σ (Except ε) α) s := possible

end

variable {post : β → σ → Prop} {faults : ε → Prop} {program : StateT σ (Except ε) α}
  {next : α → StateT σ (Except ε) β} {s : σ}

/-- The second part of a sequence starts from what holds after the first. -/
theorem Ends.seq {middle : α → σ → Prop} (ends : Ends middle faults program s)
    (continues : ∀ value final, middle value final → Ends post faults (next value) final) :
    Ends post faults (program >>= next) s := by
  unfold Ends at ends continues ⊢
  simp only [Bind.bind, StateT.bind, Except.bind]
  cases ran : program s with
  | ok returned =>
    rw [ran] at ends
    exact continues returned.1 returned.2 ends
  | error fault =>
    rw [ran] at ends
    exact ends

/-- A sequence ends as its second part does from wherever the first part ends. -/
theorem Ends.andThen
    (ends : Ends (fun value final => Ends post faults (next value) final) faults program s) :
    Ends post faults (program >>= next) s :=
  ends.seq fun _ _ continues => continues

/-- A program that reads its state goes on with it. -/
theorem Ends.read {next : σ → StateT σ (Except ε) β} (continues : Ends post faults (next s) s) :
    Ends post faults ((get : StateT σ (Except ε) σ) >>= next) s :=
  continues

/-- A program that changes its state goes on from the changed one. -/
theorem Ends.change {change : σ → σ} {next : PUnit → StateT σ (Except ε) β}
    (continues : Ends post faults (next PUnit.unit) (change s)) :
    Ends post faults ((modify change : StateT σ (Except ε) PUnit) >>= next) s :=
  continues

variable {item : Type u}

/-- A loop over a list keeps what each iteration hands on to the remaining ones. -/
theorem Ends.loop {body : item → StateT σ (Except ε) PUnit} (holds : List item → σ → Prop)
    {items : List item} (begins : holds items s)
    (keeps : ∀ first rest s, holds (first :: rest) s →
      Ends (fun _ next => holds rest next) faults (body first) s) :
    Ends (fun _ final => holds [] final) faults (items.forM body) s := by
  induction items generalizing s with
  | nil => exact begins
  | cons first rest ih =>
    have sequence : Ends (fun _ final => holds [] final) faults
        (body first >>= fun _ => rest.forM body) s := by
      apply Ends.seq (keeps first rest s begins)
      intro _ next kept
      exact ih kept
    exact sequence

/-- A relation between the states before and after any number of steps, and the faults
that are possible from a state. -/
class Steps (rel : σ → σ → Prop) (faults : σ → ε → Prop) : Prop where
  refl : ∀ s, rel s s
  trans : ∀ {s next final}, rel s next → rel next final → rel s final
  back : ∀ {s next fault}, rel s next → faults next fault → faults s fault

/-- From every state, a program ends in a related one, or with a fault that is possible
there. -/
structure Respects (rel : σ → σ → Prop) (faults : σ → ε → Prop)
    (program : StateT σ (Except ε) α) : Prop where
  ends : ∀ s, Ends (fun _ next => rel s next) (faults s) program s

namespace Respects

variable {rel : σ → σ → Prop} {faults : σ → ε → Prop}

theorem fail (possible : ∀ s, faults s fault) :
    Respects rel faults (throw fault : StateT σ (Except ε) α) :=
  ⟨fun s => .fail (possible s)⟩

theorem read {next : σ → StateT σ (Except ε) β} (continues : ∀ s, Respects rel faults (next s)) :
    Respects rel faults ((get : StateT σ (Except ε) σ) >>= next) :=
  ⟨fun s => (continues s).ends s⟩

theorem change {change : σ → σ} (related : ∀ s, rel s (change s)) :
    Respects rel faults (modify change : StateT σ (Except ε) PUnit) :=
  ⟨fun s => related s⟩

theorem mono {wider : σ → σ → Prop} {more : σ → ε → Prop} (respects : Respects rel faults program)
    (states : ∀ s next, rel s next → wider s next)
    (kinds : ∀ s fault, faults s fault → more s fault) : Respects wider more program :=
  ⟨fun s => (respects.ends s).mono (fun _ next => states s next) (kinds s)⟩

variable [steps : Steps rel faults]

theorem ret (value : α) : Respects rel faults (pure value : StateT σ (Except ε) α) :=
  ⟨fun s => .ret (steps.refl s)⟩

theorem seq (first : Respects rel faults program)
    (second : ∀ value, Respects rel faults (next value)) :
    Respects rel faults (program >>= next) := by
  refine ⟨fun s => (first.ends s).seq fun value middle related => ?_⟩
  exact ((second value).ends middle).mono (fun _ _ later => steps.trans related later)
    fun _ possible => steps.back related possible

theorem loop {body : item → StateT σ (Except ε) PUnit} (items : List item)
    (each : ∀ item, Respects rel faults (body item)) : Respects rel faults (items.forM body) := by
  induction items with
  | nil => exact ret _
  | cons first rest ih =>
    exact (each first).seq fun _ => ih

end Respects

/-- What a program does from the states of an invariant. -/
abbrev Maintains (invariant : σ → Prop) (faults : ε → Prop) (program : StateT σ (Except ε) α) :
    Prop :=
  Respects (fun s next => invariant s → invariant next) (fun s fault => invariant s → faults fault)
    program

section

variable {invariant : σ → Prop} {faults : ε → Prop} {program : StateT σ (Except ε) α}

instance maintains_steps : Steps (fun s next => invariant s → invariant next)
    fun s fault => invariant s → faults fault where
  refl _ holds := holds
  trans first second holds := second (first holds)
  back kept possible holds := possible (kept holds)

theorem Maintains.intro
    (ends : ∀ s, invariant s → Ends (fun _ next => invariant next) faults program s) :
    Maintains invariant faults program := by
  refine ⟨fun s => ?_⟩
  by_cases holds : invariant s
  · exact (ends s holds).mono (fun _ _ kept _ => kept) fun _ possible _ => possible
  unfold Ends
  cases program s with
  | ok | error => exact fun before => absurd before holds

theorem Maintains.elim (maintains : Maintains invariant faults program) (holds : invariant s) :
    Ends (fun _ next => invariant next) faults program s :=
  (maintains.ends s).mono (fun _ _ kept => kept holds) fun _ possible => possible holds

end

variable {middle : σ} {value : α}

/-- A sequence continues with what its first part returned. -/
theorem bind_run (first : program s = .ok (value, middle)) :
    (program >>= next) s = next value middle := by
  simp [bind, StateT.bind, Except.bind, first]

/-- A sequence goes on from what a part returns that is known to return. -/
theorem Ends.after (ran : program s = .ok (value, middle))
    (continues : Ends post faults (next value) middle) : Ends post faults (program >>= next) s := by
  unfold Ends at continues ⊢
  rwa [bind_run ran]

/-- A sequence fails where its first part does. -/
theorem bind_error (failed : program s = .error fault) : (program >>= next) s = .error fault := by
  simp [bind, StateT.bind, Except.bind, failed]

@[simp] theorem pure_run (value : α) (s : σ) :
    (pure value : StateT σ (Except ε) α) s = .ok (value, s) := rfl

@[simp] theorem get_bind (next : σ → StateT σ (Except ε) β) (s : σ) :
    ((get : StateT σ (Except ε) σ) >>= next) s = next s s := rfl

@[simp] theorem set_run (next s : σ) :
    (set next : StateT σ (Except ε) PUnit) s = .ok (PUnit.unit, next) := rfl

@[simp] theorem modify_run (change : σ → σ) (s : σ) :
    (modify change : StateT σ (Except ε) PUnit) s = .ok (PUnit.unit, change s) := rfl

end RtXv6.Stateful
