import Mathlib.Init

/-!
# How a fallible computation ends

A computation that returns a value or a fault is described by two predicates: what
holds of the value, and which faults are possible. The laws below follow the ways
such computations are put together: sequencing, a change of the returned value and
a loop over a list that carries a state.
-/

namespace RtXv6.Outcome

universe u v w
variable {ε : Type u} {α β : Type v}

/-- A returned value satisfies `post`; a fault is one of `faults`. -/
def Ends (post : α → Prop) (faults : ε → Prop) : Except ε α → Prop
  | .ok value => post value
  | .error fault => faults fault

/-- A returned value satisfies `post`, and any fault is possible. -/
abbrev Returns (post : α → Prop) (result : Except ε α) : Prop := Ends post (fun _ => True) result

variable {post : α → Prop} {faults : ε → Prop} {result : Except ε α} {weaker : α → Prop}

/-- Both predicates may be weakened. -/
theorem Ends.mono {more : ε → Prop} (ends : Ends post faults result)
    (values : ∀ value, post value → weaker value) (kinds : ∀ fault, faults fault → more fault) :
    Ends weaker more result := by
  cases result with
  | ok value => exact values value ends
  | error fault => exact kinds fault ends

/-- What holds of the value may be weakened. -/
theorem Ends.imp (ends : Ends post faults result) (values : ∀ value, post value → weaker value) :
    Ends weaker faults result :=
  ends.mono values fun _ possible => possible

/-- Two descriptions of one result hold together. -/
theorem Ends.and {other : α → Prop} (ends : Ends post faults result)
    (also : Ends other faults result) :
    Ends (fun value => post value ∧ other value) faults result := by
  cases result with
  | ok value => exact ⟨ends, also⟩
  | error fault => exact ends

variable {first : Except ε α} {second : α → Except ε β}

/-- The second computation starts from what holds after the first. -/
theorem Ends.bind {middle : α → Prop} {post : β → Prop} (ends : Ends middle faults first)
    (continues : ∀ value, middle value → Ends post faults (second value)) :
    Ends post faults (first >>= second) := by
  cases first with
  | ok value => exact continues value ends
  | error fault => exact ends

variable {change : α → β}

/-- A change of the returned value reads the predicate through the change. -/
theorem Ends.map {post : β → Prop} (ends : Ends (fun value => post (change value)) faults result) :
    Ends post faults (result.map change) := by
  cases result with
  | ok | error => exact ends

variable {item : Type w}

/-- A loop keeps what each of its iterations keeps. -/
theorem Ends.foldlM {invariant : α → Prop} {body : α → item → Except ε α} (items : List item)
    (state : α) (holds : invariant state)
    (keeps : ∀ state each, each ∈ items → invariant state → Ends invariant faults (body state each)) :
    Ends invariant faults (items.foldlM body state) := by
  induction items generalizing state with
  | nil => exact holds
  | cons first rest ih =>
    rw [List.foldlM_cons]
    apply Ends.bind (keeps state first List.mem_cons_self holds)
    intro next kept
    exact ih next kept
      (fun state each member => keeps state each (List.mem_cons_of_mem first member))

/-- A loop relates the state before it to the one after it if each of its iterations does. -/
theorem Ends.foldlM_related {relation : α → α → Prop} {body : α → item → Except ε α}
    (refl : ∀ state, relation state state)
    (trans : ∀ {first second third}, relation first second → relation second third →
      relation first third) (items : List item) (state : α)
    (each : ∀ state item, Ends (relation state) faults (body state item)) :
    Ends (relation state) faults (items.foldlM body state) :=
  Ends.foldlM items state (refl state) fun middle item _ soFar =>
    (each middle item).imp fun _ => trans soFar

/-- A loop over a range of indices, with an invariant that may depend on how far it has come. -/
theorem Ends.foldlM_finRange {bound : Nat} (invariant : Nat → α → Prop)
    {body : α → Fin bound → Except ε α} {state : α} (holds : invariant 0 state)
    (keeps : ∀ (index : Fin bound) state, invariant index.val state →
      Ends (invariant (index.val + 1)) faults (body state index)) :
    Ends (invariant bound) faults ((List.finRange bound).foldlM body state) := by
  induction bound generalizing state with
  | zero => exact holds
  | succ bound ih =>
    rw [List.finRange_succ_last, List.foldlM_append, List.foldlM_map]
    apply Ends.bind
    · apply ih holds
      intro index state reached
      exact keeps index.castSucc state reached
    · intro next reached
      simp only [List.foldlM_cons, List.foldlM_nil, bind_pure]
      exact keeps (Fin.last bound) next reached

/-- What one iteration of a loop establishes and the others keep holds at its end. -/
theorem Ends.foldlM_visit (invariant : α → Prop) {goal : α → Prop} {body : α → item → Except ε α}
    {visited : item} {items : List item} (member : visited ∈ items) (state : α)
    (holds : invariant state)
    (keeps : ∀ state each, invariant state → Ends invariant faults (body state each))
    (visits : ∀ state, invariant state → Ends goal faults (body state visited))
    (stays : ∀ state each, invariant state → goal state → Ends goal faults (body state each)) :
    Ends goal faults (items.foldlM body state) := by
  induction items generalizing state with
  | nil => cases member
  | cons first rest ih =>
    rw [List.foldlM_cons]
    rcases List.mem_cons.mp member with here | later
    · subst here
      apply Ends.bind ((keeps state visited holds).and (visits state holds))
      intro next reached
      have both : Ends (fun state => invariant state ∧ goal state) faults (rest.foldlM body next) := by
        apply Ends.foldlM rest next reached
        intro state each _ both
        exact (keeps state each both.1).and (stays state each both.1 both.2)
      exact both.imp fun _ both => both.2
    · apply Ends.bind (keeps state first holds)
      intro next kept
      exact ih later next kept

/-- A sequence returned because both of its parts did. -/
theorem bind_ok {result : β} (returned : first >>= second = .ok result) :
    ∃ value, first = .ok value ∧ second value = .ok result := by
  cases first with
  | ok value => exact ⟨value, rfl, returned⟩
  | error fault => cases returned

/-- A sequence whose second part returns in any case returned because the first one did. -/
theorem bind_ok_ok {result : β}
    (returned : (first >>= fun value => .ok (change value)) = .ok result) :
    ∃ value, first = .ok value ∧ change value = result := by
  obtain ⟨value, done, rest⟩ := bind_ok returned
  exact ⟨value, done, Except.ok.inj rest⟩

/-- A changed value is the change of a returned one. -/
theorem map_ok {result : β} (returned : first.map change = .ok result) :
    ∃ value, first = .ok value ∧ change value = result := by
  cases first with
  | ok value => exact ⟨value, rfl, Except.ok.inj returned⟩
  | error fault => cases returned

/-- What holds of every returned value holds of the one returned. -/
theorem Ends.value {value : α} (ends : Ends post faults result) (returned : result = .ok value) :
    post value := by
  subst returned
  exact ends

/-- A fault that occurred is one of the possible ones. -/
theorem Ends.fault {fault : ε} (ends : Ends post faults result) (failed : result = .error fault) :
    faults fault := by
  subst failed
  exact ends

end RtXv6.Outcome
