import GrammarText.Reduction

/-!
# What the work on a tree ends in

`Yields` says what holds of the value or of the error in which some work on a tree ends, whatever
places have been gathered before.  Below it the readers of children are run on children of the shape
that they ask for, so that the reduction of a node can be computed from its children.
-/

namespace GrammarText

variable {α β : Type} {P : α → Prop} {Q : β → Prop} {E : Diagnostic → Prop}

/-- Work ends in a value of which `P` holds or in an error of which `E` holds. -/
def Yields (x : Reducing α) (P : α → Prop) (E : Diagnostic → Prop) : Prop :=
  ∀ gathered, match (x.run.run gathered).1 with
    | .ok a => P a
    | .error e => E e

theorem yields_pure {a : α} (h : P a) : Yields (pure a) P E := fun _ => h

theorem yields_throw {e : Diagnostic} (h : E e) : Yields (throw e) P E := fun _ => h

theorem Yields.mono {x : Reducing α} {P' : α → Prop} (h : Yields x P E) (hp : ∀ a, P a → P' a) :
    Yields x P' E := by
  intro gathered
  have := h gathered
  split at this
  · exact hp _ this
  · exact this

/-- Less may be said of the error. -/
theorem Yields.mono_error {x : Reducing α} {E' : Diagnostic → Prop} (h : Yields x P E)
    (he : ∀ e, E e → E' e) : Yields x P E' := by
  intro gathered
  have := h gathered
  split at this
  · exact this
  · exact he _ this

/-- What is known of the value apart holds at once. -/
theorem Yields.and {x : Reducing α} {P' : α → Prop} {E' : Diagnostic → Prop} (h : Yields x P E)
    (h' : Yields x P' E') : Yields x (fun a => P a ∧ P' a) E := by
  intro gathered
  have hleft := h gathered
  have hright := h' gathered
  split at hleft
  · rename_i hrun
    rw [hrun] at hright
    exact ⟨hleft, hright⟩
  · exact hleft

theorem Yields.bind {x : Reducing α} {f : α → Reducing β} (hx : Yields x P E)
    (hf : ∀ a, P a → Yields (f a) Q E) : Yields (x >>= f) Q E := by
  intro gathered
  have h := hx gathered
  cases hrun : x.run.run gathered with
  | mk r gathered' =>
    rw [hrun] at h
    cases r with
    | ok a =>
      have := hf a h gathered'
      rw [ExceptT.run_bind, StateT.run_bind, hrun]
      exact this
    | error e =>
      rw [ExceptT.run_bind, StateT.run_bind, hrun]
      exact h

/-- Children that are left do not count. -/
theorem Yields.run' {x : Reading α} {ps : List Phrase}
    (h : Yields (StateT.run x ps) (fun r => P r.1) E) : Yields (x.run' ps) P E := by
  rw [StateT.run'_eq, map_eq_pure_bind]
  exact h.bind fun _ ha => yields_pure ha

/-- Reading goes on with the children that are left. -/
theorem yields_run_bind {x : Reading α} {f : α → Reading β} {ps : List Phrase}
    {P : α × List Phrase → Prop}
    {Q : β × List Phrase → Prop} (hx : Yields (StateT.run x ps) P E)
    (hf : ∀ a qs, P (a, qs) → Yields (StateT.run (f a) qs) Q E) :
    Yields (StateT.run (x >>= f) ps) Q E := by
  rw [StateT.run_bind]
  exact hx.bind fun r hr => hf r.1 r.2 hr

/-! ## Readers on the children that they ask for -/

namespace Reading

variable {n : Node} {ps : List Phrase} {expected : String} {f : Phrase → Option α}
  {c : α → Phrase}

theorem run_next {p : Phrase} : StateT.run next (p :: ps) = pure (p, ps) := rfl

/-- The next child is read, if it is the kind of phrase that is asked for. -/
theorem run_take_cons {p : Phrase} : StateT.run (take n expected f) (p :: ps) =
    match f p with
    | some a => pure (a, ps)
    | none => throw (n.malformed expected) := by
  rw [take, StateT.run_bind, run_next, pure_bind]
  cases f p <;> rfl

/-- The next child is read as the kind of phrase that it is. -/
theorem run_take (h : ∀ a, f (c a) = some a) (a : α) :
    StateT.run (take n expected f) (c a :: ps) = pure (a, ps) := by
  rw [run_take_cons, h]

theorem run_pickAll (h : ∀ a, f (c a) = some a) (as : List α) :
    StateT.run (pickAll n expected f (as.map c)) ps = pure (as, ps) := by
  induction as with
  | nil => rfl
  | cons a as ih => simp [pickAll, h, ih]

/-- A repetition of one kind of phrase is read as such. -/
theorem run_repeatedOf (h : ∀ a, f (c a) = some a) (as : List α) :
    StateT.run (repeatedOf n expected f) (.repeated (as.map c) :: ps) = pure (as, ps) := by
  rw [repeatedOf, StateT.run_bind, repeated, run_take (c := Phrase.repeated) (fun _ => rfl)]
  exact run_pickAll h as

@[simp] theorem run_token (t : Token) :
    StateT.run (token n) (.token t :: ps) = pure (t, ps) :=
  run_take (c := Phrase.token) (fun _ => rfl) t

@[simp] theorem run_tokenText (t : Token) :
    StateT.run (tokenText n) (.token t :: ps) = pure (t.text, ps) := by
  simp [tokenText]

@[simp] theorem run_skip_zero : StateT.run (skip n 0) ps = pure ((), ps) := rfl

@[simp] theorem run_skip_succ (count : Nat) (t : Token) :
    StateT.run (skip n (count + 1)) (.token t :: ps) = StateT.run (skip n count) ps := by
  simp [skip]

@[simp] theorem run_repeated (items : List Phrase) :
    StateT.run (repeated n) (.repeated items :: ps) = pure (items, ps) :=
  run_take (c := Phrase.repeated) (fun _ => rfl) items

@[simp] theorem run_name (s : String) : StateT.run (name n) (.name s :: ps) = pure (s, ps) :=
  run_take (c := Phrase.name) (fun _ => rfl) s

@[simp] theorem run_symbol (s : Symbol) : StateT.run (symbol n) (.symbol s :: ps) = pure (s, ps) :=
  run_take (c := Phrase.symbol) (fun _ => rfl) s

@[simp] theorem run_arg (a : PassedArgument) : StateT.run (arg n) (.arg a :: ps) = pure (a, ps) :=
  run_take (c := Phrase.arg) (fun _ => rfl) a

@[simp] theorem run_exclusion (e : Exclusion) :
    StateT.run (exclusion n) (.exclusion e :: ps) = pure (e, ps) :=
  run_take (c := Phrase.exclusion) (fun _ => rfl) e

@[simp] theorem run_entry (e : LookaheadEntry) :
    StateT.run (entry n) (.entry e :: ps) = pure (e, ps) :=
  run_take (c := Phrase.entry) (fun _ => rfl) e

/-- Noting the place of a terminal takes no child. -/
theorem yields_gatherTerminal (s : String) (span : Span) :
    Yields (StateT.run (gatherTerminal s span) ps) (· = ((), ps)) E := fun _ => rfl

end Reading
end GrammarText
