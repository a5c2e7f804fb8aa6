import GrammarText.Proofs.Reduction.Yields

/-!
# What nodes make of their children

The meaning of a node whose children are those that an alternative of its rule puts there, for the
alternatives with a repetition or with a choice of their own.  All others are computed at sight.
-/

namespace GrammarText

open Reading

variable {start stop : Nat} {t u v w x : Token} {P : Phrase → Prop} {E : Diagnostic → Prop}

/-! ## Lines and definitions -/

theorem run_node_head {s : String} {ss : List String} :
    (Reduction.node ⟨.head, 0, start, stop⟩).run'
      [.token t, .token u, .name s, .repeated (ss.map .name), .token v] =
      pure (.head ⟨t.text, some (s :: ss), t.span⟩) := by
  simp only [Reduction.node, Reduction.head, StateT.run'_eq, StateT.run_bind, run_token,
    run_skip_succ, run_skip_zero, run_name,
    run_repeatedOf (c := Phrase.name) (f := Phrase.name?) fun _ => rfl, pure_bind]
  rfl

theorem yields_head {s : String} {ss : List String}
    (h : P (.head ⟨t.text, some (s :: ss), t.span⟩)) :
    Yields ((Reduction.node ⟨.head, 0, start, stop⟩).run'
      [.token t, .token u, .name s, .repeated (ss.map .name), .token v]) P E := by
  rw [run_node_head]
  exact yields_pure h

def Head.define (h : Head) (productions : List Production) : Definition :=
  match h.params with
  | some params => .parameterized params productions
  | none => .alternatives productions

/-- A declaration is made of a head and productions. -/
theorem yields_declare (n : Node) (h : Head) (separator : String) (productions : List Production)
    (ps : List Phrase) :
    Yields (StateT.run (Reduction.declare n h separator productions) ps)
      (fun r => ∃ d : Declaration, r.1 = .declaration d ∧ d.name = h.name ∧
        d.separator = separator ∧ d.definition = h.define productions) E :=
  fun _ => ⟨_, rfl, rfl, rfl, rfl⟩

theorem run_node_definition {h : Head} {productions : List Production} {p : Phrase} :
    (Reduction.node ⟨.definition, 1, start, stop⟩).run'
      [.head h, .token t, .token u, .repeated (productions.map .production), p] =
      (Reduction.declare ⟨.definition, 1, start, stop⟩ h t.text productions).run' [p] := by
  simp only [Reduction.node, Reduction.definition, StateT.run'_eq, StateT.run_bind,
    run_take (c := Phrase.head) (f := Phrase.head?) fun _ => rfl, run_tokenText, run_skip_succ,
    run_skip_zero, run_repeatedOf (c := Phrase.production) (f := Phrase.production?) fun _ => rfl,
    pure_bind]

/-- Each terminal that is listed is a production of its own. -/
theorem run_node_definition_terminals {h : Head} {lines : List (List String)} {p : Phrase} :
    (Reduction.node ⟨.definition, 0, start, stop⟩).run'
      [.head h, .token t, .token u, .token v, .token w, .repeated (lines.map .terminals), p] =
      (Reduction.declare ⟨.definition, 0, start, stop⟩ h t.text
        (lines.flatten.map fun s => .symbols [.terminal s])).run' [p] := by
  simp only [Reduction.node, Reduction.definition, StateT.run'_eq, StateT.run_bind,
    run_take (c := Phrase.head) (f := Phrase.head?) fun _ => rfl, run_tokenText, run_skip_succ,
    run_skip_zero, run_repeatedOf (c := Phrase.terminals) (f := Phrase.terminals?) fun _ => rfl,
    pure_bind]

theorem yields_definition {h : Head} {productions : List Production} {p : Phrase} :
    Yields ((Reduction.node ⟨.definition, 1, start, stop⟩).run'
      [.head h, .token t, .token u, .repeated (productions.map .production), p])
      (fun p => ∃ d : Declaration, p = .declaration d ∧ d.name = h.name ∧ d.separator = t.text ∧
        d.definition = h.define productions) E := by
  rw [run_node_definition]
  exact (yields_declare _ h _ productions _).run'

theorem yields_definition_terminals {h : Head} {lines : List (List String)} {p : Phrase} :
    Yields ((Reduction.node ⟨.definition, 0, start, stop⟩).run'
      [.head h, .token t, .token u, .token v, .token w, .repeated (lines.map .terminals), p])
      (fun p => ∃ d : Declaration, p = .declaration d ∧ d.name = h.name ∧ d.separator = t.text ∧
        d.definition = h.define (lines.flatten.map fun s => .symbols [.terminal s])) E := by
  rw [run_node_definition_terminals]
  exact (yields_declare _ h _ _ _).run'

/-- Terminals on a line are noted one by one. -/
theorem yields_gatherTerminals (n : Node) (xs : List (String × Span)) (ps : List Phrase) :
    Yields (StateT.run (Reduction.gatherTerminals n (xs.map fun x => .terminal x.1 x.2)) ps)
      (· = (xs.map Prod.fst, ps)) E := by
  induction xs with
  | nil => exact yields_pure rfl
  | cons x xs ih =>
    refine yields_run_bind (yields_gatherTerminal x.1 x.2) ?_
    rintro _ _ ⟨⟩
    refine yields_run_bind ih ?_
    rintro _ _ ⟨⟩
    exact yields_pure rfl

theorem yields_terminalLine {xs : List (String × Span)} {p : Phrase}
    (h : P (.terminals (xs.map Prod.fst))) :
    Yields ((Reduction.node ⟨.terminalLine, 0, start, stop⟩).run'
      [.repeated (xs.map fun x => .terminal x.1 x.2), p]) P E := by
  refine Yields.run' ?_
  simp only [Reduction.node, Reduction.terminalLine, StateT.run_bind, run_repeated, pure_bind]
  refine (yields_gatherTerminals _ xs _).bind ?_
  rintro _ ⟨⟩
  exact yields_pure h

/-- Of what stands on a line of symbols only the guard and the symbols are read. -/
theorem run_node_production (p q : Phrase) (ps : List Phrase) :
    (Reduction.node ⟨.production, 2, start, stop⟩).run' (p :: q :: ps) =
      (Reduction.node ⟨.production, 2, start, stop⟩).run' [p, q] := by
  simp only [Reduction.node, Reduction.production, StateT.run'_eq, StateT.run_bind, run_next,
    run_take_cons, pure_bind]
  cases q.symbols? with
  | none => rfl
  | some ss => cases p <;> rfl

theorem run_node_body {ss : List Symbol} :
    (Reduction.node ⟨.body, 1, start, stop⟩).run' [.repeated (ss.map .symbol)] =
      pure (.symbols ss) := by
  simp only [Reduction.node, Reduction.body, StateT.run'_eq, StateT.run_bind,
    run_repeatedOf (c := Phrase.symbol) (f := Phrase.symbol?) fun _ => rfl, pure_bind]
  rfl

theorem yields_body {ss : List Symbol} (h : P (.symbols ss)) :
    Yields ((Reduction.node ⟨.body, 1, start, stop⟩).run' [.repeated (ss.map .symbol)]) P E := by
  rw [run_node_body]
  exact yields_pure h

/-! ## Symbols -/

/-- A quoted terminal is malformed if nothing stands between its quotes. -/
theorem run_node_terminal {q : String} (hq : t.lexeme = .terminal q) :
    (Reduction.node ⟨.terminal, 0, start, stop⟩).run' [.token t] =
      match Text.unquote? q.toList with
      | some s => pure (.terminal (String.ofList s) t.span)
      | none => throw (.grammar (.malformedTerminal q t.span)) := by
  simp only [Reduction.node, Reduction.terminal, StateT.run'_eq, StateT.run_bind, run_token,
    pure_bind, hq]
  cases Text.unquote? q.toList <;> rfl

theorem yields_terminal {q : String} (hq : t.lexeme = .terminal q)
    (hnone : Text.unquote? q.toList = none → E (.grammar (.malformedTerminal q t.span)))
    (hsome : ∀ s, Text.unquote? q.toList = some s → P (.terminal (String.ofList s) t.span)) :
    Yields ((Reduction.node ⟨.terminal, 0, start, stop⟩).run' [.token t]) P E := by
  rw [run_node_terminal hq]
  cases hu : Text.unquote? q.toList with
  | none => exact yields_throw (hnone hu)
  | some s => exact yields_pure (hsome s hu)

theorem run_node_exclusions {base : Symbol} {e : Exclusion} {es : List Exclusion} :
    (Reduction.node ⟨.symbol, 0, start, stop⟩).run' [.symbol base, .token t, .token u,
      .token v, .token w, .exclusion e, .repeated (es.map .exclusion)] =
      pure (.symbol (.exclusion base (e :: es))) := by
  simp only [Reduction.node, Reduction.symbol, StateT.run'_eq, StateT.run_bind, run_symbol,
    run_skip_succ, run_skip_zero, run_exclusion,
    run_repeatedOf (c := Phrase.exclusion) (f := Phrase.exclusion?) fun _ => rfl, pure_bind]
  rfl

theorem yields_exclusions {base : Symbol} {e : Exclusion} {es : List Exclusion}
    (h : P (.symbol (.exclusion base (e :: es)))) :
    Yields ((Reduction.node ⟨.symbol, 0, start, stop⟩).run' [.symbol base, .token t, .token u,
      .token v, .token w, .exclusion e, .repeated (es.map .exclusion)]) P E := by
  rw [run_node_exclusions]
  exact yields_pure h

def Reading.excluding (n : Node) : Reading Phrase := do
  let base ← Reading.symbol n
  return .symbol (.exclusion base [← Reading.exclusion n])

theorem run_node_listed (p q : Phrase) (t₀ t₁ t₂ t₃ : Token) :
    (Reduction.node ⟨.symbol, 0, start, stop⟩).run'
      [p, .token t₀, .token t₁, .token t₂, .token t₃, q, .repeated []] =
      (excluding ⟨.symbol, 0, start, stop⟩).run' [p, q] := by
  simp only [Reduction.node, Reduction.symbol, Reading.excluding, Reading.symbol, Reading.exclusion,
    StateT.run'_eq, StateT.run_bind, run_take_cons]
  cases p.symbol? with
  | none => rfl
  | some base =>
    simp only [pure_bind, run_skip_succ, run_skip_zero, run_take_cons]
    cases q.exclusion? <;> rfl

theorem run_node_excluding (p q : Phrase) (t₀ t₁ : Token) :
    (Reduction.node ⟨.symbol, 1, start, stop⟩).run' [p, .token t₀, .token t₁, q] =
      (excluding ⟨.symbol, 1, start, stop⟩).run' [p, q] := by
  simp only [Reduction.node, Reduction.symbol, Reading.excluding, Reading.symbol, Reading.exclusion,
    StateT.run'_eq, StateT.run_bind, run_take_cons]
  cases p.symbol? with
  | none => rfl
  | some base => simp only [pure_bind, run_skip_succ, run_skip_zero, run_take_cons]

/-- How many words come before an exclusion in an alternative. -/
def Notation.separatorLength (k : Nat) : Nat := if k = 0 then 2 else 1

/-- The separator before an exclusion adds nothing to it. -/
theorem run_node_exclusionTail {k : Nat} {sep : List Token}
    (hlength : sep.length = Notation.separatorLength k) (ps : List Phrase) :
    (Reduction.node ⟨.exclusionTail, k, start, stop⟩).run' (sep.map .token ++ ps) =
      ((do return .exclusion (← Reading.exclusion ⟨.exclusionTail, k, start, stop⟩)) :
        Reading Phrase).run' ps := by
  simp only [Reduction.node, Reduction.exclusionTail, StateT.run'_eq, StateT.run_bind]
  rw [show (if k = 0 then 2 else 1) = sep.length from hlength.symm]
  have hskip : StateT.run (Reading.skip ⟨.exclusionTail, k, start, stop⟩ sep.length)
      (sep.map .token ++ ps) = pure ((), ps) := by
    clear hlength
    induction sep with
    | nil => rfl
    | cons t sep ih => simpa using ih
  rw [hskip, pure_bind]

/-- No other name may stand where line breaks are ruled out. -/
theorem run_node_noLineTerminatorHere :
    (Reduction.node ⟨.noLineTerminatorHere, 0, start, stop⟩).run'
      [.token t, .token u, .token v, .token w, .token x] =
      if v.text = "LineTerminator" then pure (.symbol .noLineTerminatorHere)
      else throw (.parse (.unexpectedToken "\x60LineTerminator\x60" v.span)) := by
  simp only [Reduction.node, Reduction.noLineTerminatorHere, StateT.run'_eq, StateT.run_bind,
    run_token, run_skip_succ, run_skip_zero, pure_bind]
  split <;> rfl

theorem yields_noLineTerminatorHere (h : P (.symbol .noLineTerminatorHere))
    (herror : v.text ≠ "LineTerminator" →
      E (.parse (.unexpectedToken "\x60LineTerminator\x60" v.span))) :
    Yields ((Reduction.node ⟨.noLineTerminatorHere, 0, start, stop⟩).run'
      [.token t, .token u, .token v, .token w, .token x]) P E := by
  rw [run_node_noLineTerminatorHere]
  by_cases hv : v.text = "LineTerminator"
  · rw [if_pos hv]
    exact yields_pure h
  · rw [if_neg hv]
    exact yields_throw (herror hv)

def PassedArgument.key (a : PassedArgument) : String × Argument := (a.name, a.value)

/-- A call is refused for the first argument that is repeated. -/
theorem run_node_apply {a : PassedArgument} {as : List PassedArgument} :
    (Reduction.node ⟨.nonterminal, 0, start, stop⟩).run'
      [.token t, .token u, .arg a, .repeated (as.map .arg), .token v] =
      match Reduction.repeatedArgument? [] (a :: as) with
      | some b => throw (.grammar (.duplicateArgument b.name t.text b.span))
      | none => pure (.symbol (.apply t.text ((a :: as).map PassedArgument.key))) := by
  simp only [Reduction.node, Reduction.nonterminal, StateT.run'_eq, StateT.run_bind, run_tokenText,
    run_skip_succ, run_skip_zero, run_arg,
    run_repeatedOf (c := Phrase.arg) (f := Phrase.arg?) fun _ => rfl, pure_bind]
  cases Reduction.repeatedArgument? [] (a :: as) <;> rfl

theorem yields_apply {a : PassedArgument} {as : List PassedArgument}
    (hsome : ∀ b, Reduction.repeatedArgument? [] (a :: as) = some b →
      E (.grammar (.duplicateArgument b.name t.text b.span)))
    (hnone : Reduction.repeatedArgument? [] (a :: as) = none →
      P (.symbol (.apply t.text ((a :: as).map PassedArgument.key)))) :
    Yields ((Reduction.node ⟨.nonterminal, 0, start, stop⟩).run'
      [.token t, .token u, .arg a, .repeated (as.map .arg), .token v]) P E := by
  rw [run_node_apply]
  cases hr : Reduction.repeatedArgument? [] (a :: as) with
  | some b => exact yields_throw (hsome b hr)
  | none => exact yields_pure (hnone hr)

/-! ## Lookaheads -/

theorem run_node_entry {es : List LookaheadElement} :
    (Reduction.node ⟨.lookaheadEntry, 0, start, stop⟩).run' [.repeated (es.map .element)] =
      pure (.entry ⟨es, ⟨start, stop⟩⟩) := by
  simp only [Reduction.node, Reduction.lookaheadEntry, StateT.run'_eq, StateT.run_bind,
    run_repeatedOf (c := Phrase.element) (f := Phrase.element?) fun _ => rfl, pure_bind]
  rfl

theorem yields_entry {es : List LookaheadElement} (h : P (.entry ⟨es, ⟨start, stop⟩⟩)) :
    Yields ((Reduction.node ⟨.lookaheadEntry, 0, start, stop⟩).run' [.repeated (es.map .element)])
      P E := by
  rw [run_node_entry]
  exact yields_pure h

/-- A set of lookahead is made of the tokens of its entries. -/
theorem run_node_tokenSet {e : LookaheadEntry} {es : List LookaheadEntry} :
    (Reduction.node ⟨.lookahead, 2, start, stop⟩).run'
      [.token t, .token u, .entry e, .repeated (es.map .entry), .token v] =
      StateT.run (Reduction.singleTokens (e :: es)) [.token v] >>=
        fun r => pure (.lookahead (.tokenSet (.ofList r.1) false)) := by
  simp only [Reduction.node, Reduction.lookahead, StateT.run'_eq, StateT.run_bind, run_skip_succ,
    run_skip_zero, run_entry, run_repeatedOf (c := Phrase.entry) (f := Phrase.entry?) fun _ => rfl,
    pure_bind, map_eq_pure_bind, bind_assoc]
  rfl

theorem yields_tokenSet {e : LookaheadEntry} {es : List LookaheadEntry}
    (h : Yields (StateT.run (Reduction.singleTokens (e :: es)) [.token v])
      (fun r => P (.lookahead (.tokenSet (.ofList r.1) false))) E) :
    Yields ((Reduction.node ⟨.lookahead, 2, start, stop⟩).run'
      [.token t, .token u, .entry e, .repeated (es.map .entry), .token v]) P E := by
  rw [run_node_tokenSet]
  exact h.bind fun r hr => yields_pure hr

end GrammarText
