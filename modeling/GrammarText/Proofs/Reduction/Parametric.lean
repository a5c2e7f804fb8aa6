import GrammarText.Proofs.Parsing.Transfer
import GrammarText.Reduction
import Mathlib.Data.Option.Basic

/-!
# Reduction does not look at places

Trees that are alike but for their spans mean phrases that are alike but for theirs
(`visitAll_alike`).  The spans of tokens are in one relation and those of nodes in another, and the
places that are gathered and kept are in these relations again.  The readers of children are taken
one by one, and then the functions of the rules are made of them.
-/

namespace GrammarText

open List (Forall₂)

/-! ## Phrases that are alike -/

section Relations

variable (T N : Span → Span → Prop)

def Head.Alike (h k : Head) : Prop := h.name = k.name ∧ h.params = k.params ∧ T h.span k.span

def PassedArgument.Alike (a b : PassedArgument) : Prop :=
  a.name = b.name ∧ a.value = b.value ∧ N a.span b.span

def LookaheadEntry.Alike (e f : LookaheadEntry) : Prop :=
  e.elements = f.elements ∧ N e.span f.span

def SpellingAlike (x y : String × Span) : Prop := x.1 = y.1 ∧ T x.2 y.2

structure Declaration.Alike (d e : Declaration) : Prop where
  name : d.name = e.name
  separator : d.separator = e.separator
  definition : d.definition = e.definition
  nameSpan : T d.nameSpan e.nameSpan
  span : N d.span e.span
  terminalSpans : Forall₂ (SpellingAlike T) d.terminalSpans e.terminalSpans
  productionSpans : Forall₂ N d.productionSpans e.productionSpans

def Gathered.Alike (g h : Gathered) : Prop :=
  Forall₂ (SpellingAlike T) g.terminals h.terminals ∧ Forall₂ N g.productions h.productions

def Phrase.isPlaceless : Phrase → Bool
  | token _ | repeated _ | declarations _ | block _ | declaration _ | head _ | terminal ..
  | arg _ | entry _ => false
  | _ => true

/-- Phrases are alike but for the places in them. -/
inductive Phrase.Alike : Phrase → Phrase → Prop where
  | token {t u} (h : t.Alike T u) : Alike (.token t) (.token u)
  | repeated {ps qs} (h : Forall₂ Alike ps qs) : Alike (.repeated ps) (.repeated qs)
  | declarations {ds es} (h : Forall₂ (Declaration.Alike T N) ds es) :
      Alike (.declarations ds) (.declarations es)
  | block {d e} (h : Option.Rel (Declaration.Alike T N) d e) : Alike (.block d) (.block e)
  | declaration {d e} (h : d.Alike T N e) : Alike (.declaration d) (.declaration e)
  | head {h k} (hk : h.Alike T k) : Alike (.head h) (.head k)
  | terminal {spelling s s'} (h : T s s') : Alike (.terminal spelling s) (.terminal spelling s')
  | arg {a b} (h : a.Alike N b) : Alike (.arg a) (.arg b)
  | entry {e f} (h : e.Alike N f) : Alike (.entry e) (.entry f)
  | same {p} (hp : p.isPlaceless = true) : Alike p p

end Relations

/-- A diagnostic with all its spans at the start of the text. -/
def Diagnostic.unplaced : Diagnostic → Diagnostic
  | lexical (.unexpectedCharacter found place _) =>
    lexical (.unexpectedCharacter found place (.point 0))
  | parse (.unexpectedToken expected _) => parse (.unexpectedToken expected (.point 0))
  | parse (.unexpectedEnd expected _) => parse (.unexpectedEnd expected (.point 0))
  | parse (.malformedTree rule expected _) => parse (.malformedTree rule expected (.point 0))
  | parse (.leftRecursion rule _) => parse (.leftRecursion rule (.point 0))
  | grammar (.duplicateDefinition name _ _) =>
    grammar (.duplicateDefinition name (.point 0) (.point 0))
  | grammar (.nameCollision name _ _) => grammar (.nameCollision name (.point 0) (.point 0))
  | grammar (.duplicateArgument name callee _) =>
    grammar (.duplicateArgument name callee (.point 0))
  | grammar (.malformedTerminal token _) => grammar (.malformedTerminal token (.point 0))
  | grammar (.unsupportedLookahead sequence _) =>
    grammar (.unsupportedLookahead sequence (.point 0))
  | grammar (.invalidConditional name param value _) =>
    grammar (.invalidConditional name param value (.point 0))
  | unreadable path reason => unreadable path reason

def Diagnostic.Alike (e f : Diagnostic) : Prop := e.unplaced = f.unplaced

/-! ## Runs that are alike -/

section Runs

variable (T N : Span → Span → Prop) {α β γ δ : Type} {R : α → β → Prop} {S : γ → δ → Prop}

/-- Runs from places that are alike end in values that are related, or in errors that are alike,
with places that are alike again. -/
def RunsAlike (R : α → β → Prop) (x : Reducing α) (y : Reducing β) : Prop :=
  ∀ g h, g.Alike T N h →
    match x.run.run g, y.run.run h with
    | (.ok a, g'), (.ok b, h') => R a b ∧ g'.Alike T N h'
    | (.error e, g'), (.error f, h') => e.Alike f ∧ g'.Alike T N h'
    | _, _ => False

/-- Readings of children that are alike run alike, and leave children that are alike. -/
def ReadsAlike (R : α → β → Prop) (x : Reading α) (y : Reading β) : Prop :=
  ∀ ps qs, Forall₂ (Phrase.Alike T N) ps qs →
    RunsAlike T N (fun r s => R r.1 s.1 ∧ Forall₂ (Phrase.Alike T N) r.2 s.2)
      (StateT.run x ps) (StateT.run y qs)

variable {T N}

theorem RunsAlike.pure {a : α} {b : β} (h : R a b) :
    RunsAlike T N R (Pure.pure a) (Pure.pure b) := fun _ _ hg => ⟨h, hg⟩

theorem RunsAlike.throw {e f : Diagnostic} (h : e.Alike f) :
    RunsAlike T N R (MonadExcept.throw e) (MonadExcept.throw f) := fun _ _ hg => ⟨h, hg⟩

theorem RunsAlike.bind {x : Reducing α} {y : Reducing β} {f : α → Reducing γ} {k : β → Reducing δ}
    (hx : RunsAlike T N R x y) (hf : ∀ a b, R a b → RunsAlike T N S (f a) (k b)) :
    RunsAlike T N S (x >>= f) (y >>= k) := by
  intro g h hg
  have hrun := hx g h hg
  rw [ExceptT.run_bind, StateT.run_bind, ExceptT.run_bind, StateT.run_bind]
  cases hxg : x.run.run g with
  | mk a g' =>
    cases hyh : y.run.run h with
    | mk b h' =>
      rw [hxg, hyh] at hrun
      cases a with
      | ok a =>
        cases b with
        | ok b => exact hf a b hrun.1 g' h' hrun.2
        | error e => exact hrun.elim
      | error e =>
        cases b with
        | ok b => exact hrun.elim
        | error e' => exact hrun

theorem ReadsAlike.pure {a : α} {b : β} (h : R a b) :
    ReadsAlike T N R (Pure.pure a) (Pure.pure b) := fun _ _ hps => .pure ⟨h, hps⟩

theorem ReadsAlike.throw {e f : Diagnostic} (h : e.Alike f) :
    ReadsAlike T N R (MonadExcept.throw e) (MonadExcept.throw f) := fun _ _ _ => .throw h

theorem ReadsAlike.bind {x : Reading α} {y : Reading β} {f : α → Reading γ} {k : β → Reading δ}
    (hx : ReadsAlike T N R x y) (hf : ∀ a b, R a b → ReadsAlike T N S (f a) (k b)) :
    ReadsAlike T N S (x >>= f) (y >>= k) := by
  intro ps qs hps
  rw [StateT.run_bind, StateT.run_bind]
  exact (hx ps qs hps).bind fun r s hrs => hf r.1 s.1 hrs.1 r.2 s.2 hrs.2

theorem ReadsAlike.run' {x : Reading α} {y : Reading β} (h : ReadsAlike T N R x y)
    {ps qs : List Phrase} (hps : Forall₂ (Phrase.Alike T N) ps qs) :
    RunsAlike T N R (x.run' ps) (y.run' qs) := by
  rw [StateT.run'_eq, StateT.run'_eq, map_eq_pure_bind, map_eq_pure_bind]
  exact (h ps qs hps).bind fun r s hrs => .pure hrs.1

end Runs

/-! ## Readers -/

namespace Reading

variable {T N : Span → Span → Prop} {n m : Node} {α : Type} {R : α → α → Prop}
  {pick : Phrase → Option α}

theorem next_alike : ReadsAlike T N (Phrase.Alike T N) next next := by
  intro ps qs hps
  cases hps with
  | nil => exact .pure ⟨.same rfl, .nil⟩
  | cons hp hps => exact .pure ⟨hp, hps⟩

theorem malformed_alike (hr : n.rule = m.rule) (expected : String) :
    (n.malformed expected).Alike (m.malformed expected) := by
  simp [Node.malformed, Diagnostic.Alike, Diagnostic.unplaced, hr]

theorem take_alike (hr : n.rule = m.rule) (expected : String)
    (h : ∀ p q, Phrase.Alike T N p q → Option.Rel R (pick p) (pick q)) :
    ReadsAlike T N R (take n expected pick) (take m expected pick) := by
  refine next_alike.bind fun p q hpq => ?_
  have hrel := h p q hpq
  generalize pick p = x at hrel
  generalize pick q = y at hrel
  cases hrel with
  | some hab => exact .pure hab
  | none => exact .throw (malformed_alike hr expected)

theorem pickAll_alike (hr : n.rule = m.rule) (expected : String)
    (h : ∀ p q, Phrase.Alike T N p q → Option.Rel R (pick p) (pick q)) {ps qs : List Phrase}
    (hps : Forall₂ (Phrase.Alike T N) ps qs) :
    ReadsAlike T N (Forall₂ R) (pickAll n expected pick ps) (pickAll m expected pick qs) := by
  induction hps with
  | nil => exact .pure .nil
  | @cons p q ps qs hpq hps ih =>
    have hrel := h p q hpq
    rw [pickAll, pickAll]
    generalize pick p = x at hrel
    generalize pick q = y at hrel
    cases hrel with
    | some hab => exact ih.bind fun as bs habs => .pure (.cons hab habs)
    | none => exact .throw (malformed_alike hr expected)

theorem repeated?_alike {p q : Phrase} (h : p.Alike T N q) :
    Option.Rel (Forall₂ (Phrase.Alike T N)) p.repeated? q.repeated? := by
  cases h with
  | repeated h => exact .some h
  | same hp => cases p <;> first | exact .none | cases hp
  | _ => exact .none

/-- What holds no places is the same in phrases that are alike. -/
theorem rel_eq_of_placeless {β : Type} {pick : Phrase → Option β} {p q : Phrase}
    (hpick : ∀ p : Phrase, p.isPlaceless = false → pick p = none) (h : p.Alike T N q) :
    Option.Rel Eq (pick p) (pick q) := by
  cases h with
  | same hp =>
    cases pick p with
    | none => exact .none
    | some b => exact .some rfl
  | _ =>
    rw [hpick _ rfl, hpick _ rfl]
    exact .none

theorem repeated_alike (hr : n.rule = m.rule) :
    ReadsAlike T N (Forall₂ (Phrase.Alike T N)) (repeated n) (repeated m) :=
  take_alike hr "a repetition" fun _ _ => repeated?_alike

theorem repeatedOf_alike (hr : n.rule = m.rule) (expected : String)
    (h : ∀ p q, Phrase.Alike T N p q → Option.Rel R (pick p) (pick q)) :
    ReadsAlike T N (Forall₂ R) (repeatedOf n expected pick) (repeatedOf m expected pick) :=
  (repeated_alike hr).bind fun _ _ hps => pickAll_alike hr expected h hps

theorem token_alike (hr : n.rule = m.rule) :
    ReadsAlike T N (Token.Alike T) (token n) (token m) := by
  refine take_alike hr "a token" fun p q h => ?_
  cases h with
  | token h => exact .some h
  | same hp => cases p <;> first | exact .none | cases hp
  | _ => exact .none

theorem tokenText_alike (hr : n.rule = m.rule) : ReadsAlike T N Eq (tokenText n) (tokenText m) :=
  (token_alike hr).bind fun _ _ ht => .pure (congrArg Lexeme.text ht.1)

theorem skip_alike (hr : n.rule = m.rule) (count : Nat) :
    ReadsAlike T N Eq (skip n count) (skip m count) := by
  induction count with
  | zero => exact .pure rfl
  | succ count ih => exact (token_alike hr).bind fun _ _ _ => ih

theorem head_alike (hr : n.rule = m.rule) (expected : String) :
    ReadsAlike T N (Head.Alike T) (take n expected Phrase.head?)
      (take m expected Phrase.head?) := by
  refine take_alike hr expected fun p q h => ?_
  cases h with
  | head h => exact .some h
  | same hp => cases p <;> first | exact .none | cases hp
  | _ => exact .none

theorem declaration_alike (hr : n.rule = m.rule) (expected : String) :
    ReadsAlike T N (Declaration.Alike T N) (take n expected Phrase.declaration?)
      (take m expected Phrase.declaration?) := by
  refine take_alike hr expected fun p q h => ?_
  cases h with
  | declaration h => exact .some h
  | same hp => cases p <;> first | exact .none | cases hp
  | _ => exact .none

theorem terminal_alike (hr : n.rule = m.rule) :
    ReadsAlike T N (SpellingAlike T) (terminal n) (terminal m) := by
  refine take_alike hr "a terminal" fun p q h => ?_
  cases h with
  | terminal h => exact .some ⟨rfl, h⟩
  | same hp => cases p <;> first | exact .none | cases hp
  | _ => exact .none

theorem arg?_alike {p q : Phrase} (h : p.Alike T N q) :
    Option.Rel (PassedArgument.Alike N) p.arg? q.arg? := by
  cases h with
  | arg h => exact .some h
  | same hp => cases p <;> first | exact .none | cases hp
  | _ => exact .none

theorem entry?_alike {p q : Phrase} (h : p.Alike T N q) :
    Option.Rel (LookaheadEntry.Alike N) p.entry? q.entry? := by
  cases h with
  | entry h => exact .some h
  | same hp => cases p <;> first | exact .none | cases hp
  | _ => exact .none

/-- A child without places is read as the same. -/
theorem takeSame_alike {β : Type} (hr : n.rule = m.rule) (expected : String)
    {pick : Phrase → Option β} (hpick : ∀ p : Phrase, p.isPlaceless = false → pick p = none) :
    ReadsAlike T N Eq (take n expected pick) (take m expected pick) :=
  take_alike hr expected fun _ _ => rel_eq_of_placeless hpick

/-- A repetition without places is read as the same. -/
theorem repeatedSame_alike {β : Type} (hr : n.rule = m.rule) (expected : String)
    {pick : Phrase → Option β} (hpick : ∀ p : Phrase, p.isPlaceless = false → pick p = none) :
    ReadsAlike T N Eq (repeatedOf n expected pick) (repeatedOf m expected pick) := by
  have halike := repeatedOf_alike (T := T) (N := N) hr expected
    fun _ _ h => rel_eq_of_placeless hpick h
  rwa [List.forall₂_eq_eq_eq] at halike

theorem name_alike (hr : n.rule = m.rule) : ReadsAlike T N Eq (name n) (name m) :=
  takeSame_alike hr "a name" fun p hp => by cases p <;> first | rfl | cases hp

theorem symbol_alike (hr : n.rule = m.rule) : ReadsAlike T N Eq (symbol n) (symbol m) :=
  takeSame_alike hr "a symbol" fun p hp => by cases p <;> first | rfl | cases hp

theorem sigil_alike (hr : n.rule = m.rule) : ReadsAlike T N Eq (sigil n) (sigil m) :=
  takeSame_alike hr "a sigil" fun p hp => by cases p <;> first | rfl | cases hp

theorem exclusion_alike (hr : n.rule = m.rule) : ReadsAlike T N Eq (exclusion n) (exclusion m) :=
  takeSame_alike hr "an exclusion" fun p hp => by cases p <;> first | rfl | cases hp

theorem arg_alike (hr : n.rule = m.rule) :
    ReadsAlike T N (PassedArgument.Alike N) (arg n) (arg m) :=
  take_alike hr "an argument" fun _ _ => arg?_alike

theorem entry_alike (hr : n.rule = m.rule) :
    ReadsAlike T N (LookaheadEntry.Alike N) (entry n) (entry m) :=
  take_alike hr "a lookahead sequence" fun _ _ => entry?_alike

/-- The place of a terminal is noted. -/
theorem gatherTerminal_alike {spelling : String} {s s' : Span} (h : T s s') :
    ReadsAlike T N Eq (gatherTerminal spelling s) (gatherTerminal spelling s') := by
  intro ps qs hps g k hg
  exact ⟨⟨rfl, hps⟩, List.rel_append hg.1 (.cons ⟨rfl, h⟩ .nil), hg.2⟩

theorem gatherProduction_alike {s s' : Span} (h : N s s') :
    ReadsAlike T N Eq (gatherProduction s) (gatherProduction s') := by
  intro ps qs hps g k hg
  exact ⟨⟨rfl, hps⟩, hg.1, List.rel_append hg.2 (.cons h .nil)⟩

end Reading

/-! ## Rules -/

namespace Reduction

open Reading

variable {T N : Span → Span → Prop} {n m : Node}

theorem grammar_alike (hr : n.rule = m.rule) :
    ReadsAlike T N (Phrase.Alike T N) (grammar n) (grammar m) := by
  refine (repeated_alike hr).bind fun ps qs hps => (skip_alike hr 1).bind fun _ _ _ => ?_
  refine .pure (.declarations (List.rel_filterMap (fun p q hpq => ?_) hps))
  cases hpq with
  | block h => exact h
  | same hp => cases p <;> first | exact .none | cases hp
  | _ => exact .none

theorem block_alike (hr : n.rule = m.rule) (hk : n.alternative = m.alternative) :
    ReadsAlike T N (Phrase.Alike T N) (block n) (block m) := by
  rw [block, block, hk]
  split
  · exact .pure (.block .none)
  · exact (declaration_alike hr "a definition").bind fun d e hde => .pure (.block (.some hde))

/-- A declaration takes what was gathered, and leaves nothing. -/
theorem declare_alike (hs : N n.span m.span) {h k : Head} (hhead : h.Alike T k)
    (separator : String) (productions : List Production) :
    ReadsAlike T N (Phrase.Alike T N) (declare n h separator productions)
      (declare m k separator productions) := by
  intro ps qs hps g g' hg
  obtain ⟨hname, hparams, hspan⟩ := hhead
  refine ⟨⟨.declaration ⟨hname, rfl, ?_, hspan, hs, hg.1, hg.2⟩, hps⟩, .nil, .nil⟩
  dsimp only
  rw [hparams]

theorem definition_alike (hr : n.rule = m.rule) (hk : n.alternative = m.alternative)
    (hs : N n.span m.span) : ReadsAlike T N (Phrase.Alike T N) (definition n) (definition m) := by
  rw [definition, definition, hk]
  refine (head_alike hr "a left-hand side").bind fun h k hhead => ?_
  refine (tokenText_alike hr).bind fun separator _ hseparator => ?_
  subst hseparator
  split
  · refine (skip_alike hr 3).bind fun _ _ _ => ?_
    refine (repeatedSame_alike hr "a line of terminals" ?_).bind fun lines _ hlines => ?_
    · exact fun p hp => by cases p <;> first | rfl | cases hp
    · subst hlines
      exact declare_alike hs hhead separator _
  · refine (skip_alike hr 1).bind fun _ _ _ => ?_
    refine (repeatedSame_alike hr "a production" ?_).bind fun productions _ hproductions => ?_
    · exact fun p hp => by cases p <;> first | rfl | cases hp
    · subst hproductions
      exact declare_alike hs hhead separator productions

theorem head_alike (hr : n.rule = m.rule) (hk : n.alternative = m.alternative) :
    ReadsAlike T N (Phrase.Alike T N) (head n) (head m) := by
  rw [head, head, hk]
  refine (token_alike hr).bind fun t u htu => ?_
  have htext : t.text = u.text := congrArg Lexeme.text htu.1
  split
  · refine (skip_alike hr 1).bind fun _ _ _ => (name_alike hr).bind fun first _ hfirst => ?_
    refine (repeatedSame_alike hr "a parameter name" ?_).bind fun others _ hothers => ?_
    · exact fun p hp => by cases p <;> first | rfl | cases hp
    · subst hfirst hothers
      exact .pure (.head ⟨htext, rfl, htu.2⟩)
  · exact .pure (.head ⟨htext, rfl, htu.2⟩)

theorem paramTail_alike (hr : n.rule = m.rule) :
    ReadsAlike T N (Phrase.Alike T N) (paramTail n) (paramTail m) := by
  refine (skip_alike hr 1).bind fun _ _ _ => (name_alike hr).bind fun s _ hs => ?_
  subst hs
  exact .pure (.same rfl)

theorem param_alike (hr : n.rule = m.rule) :
    ReadsAlike T N (Phrase.Alike T N) (param n) (param m) := by
  refine (tokenText_alike hr).bind fun s _ hs => ?_
  subst hs
  exact .pure (.same rfl)

theorem gatherTerminals_alike (hr : n.rule = m.rule) {ps qs : List Phrase}
    (hps : Forall₂ (Phrase.Alike T N) ps qs) :
    ReadsAlike T N Eq (gatherTerminals n ps) (gatherTerminals m qs) := by
  induction hps with
  | nil => exact .pure rfl
  | @cons p q ps qs hpq hps ih =>
    cases hpq with
    | terminal h =>
      refine (gatherTerminal_alike h).bind fun _ _ _ => ih.bind fun ss _ hss => ?_
      subst hss
      exact .pure rfl
    | same hp => cases p <;> first | exact .throw (malformed_alike hr "a terminal") | cases hp
    | _ => exact .throw (malformed_alike hr "a terminal")

theorem terminalLine_alike (hr : n.rule = m.rule) :
    ReadsAlike T N (Phrase.Alike T N) (terminalLine n) (terminalLine m) := by
  refine (repeated_alike hr).bind fun ps qs hps => ?_
  refine (gatherTerminals_alike hr hps).bind fun ss _ hss => ?_
  subst hss
  exact .pure (.same rfl)

theorem terminal_alike (hr : n.rule = m.rule) :
    ReadsAlike T N (Phrase.Alike T N) (terminal n) (terminal m) := by
  refine (token_alike hr).bind fun t u htu => ?_
  rw [htu.1]
  split
  · rename_i quoted _
    cases Text.unquote? quoted.toList with
    | none => exact .throw rfl
    | some spelling => exact .pure (.terminal htu.2)
  · exact .pure (.terminal htu.2)

theorem production_alike (hr : n.rule = m.rule) (hk : n.alternative = m.alternative)
    (hs : N n.span m.span) : ReadsAlike T N (Phrase.Alike T N) (production n) (production m) := by
  -- However the production is read, the place of its line is noted after it.
  have hnote : ∀ q : Production, ReadsAlike T N (Phrase.Alike T N)
      (do gatherProduction n.span; return .production q)
      (do gatherProduction m.span; return .production q) := fun q =>
    (gatherProduction_alike hs).bind fun _ _ _ => .pure (.same rfl)
  rw [production, production, hk]
  split
  · refine (tokenText_alike hr).bind fun text _ htext => ?_
    subst htext
    exact hnote _
  · refine (tokenText_alike hr).bind fun text _ htext => ?_
    subst htext
    exact hnote _
  · refine next_alike.bind fun p q hpq => ?_
    refine (takeSame_alike hr "a production" ?_).bind fun symbols _ hsymbols => ?_
    · exact fun p hp => by cases p <;> first | rfl | cases hp
    subst hsymbols
    have hfail : ReadsAlike T N Eq
        (throw (n.malformed "a \x60[+Param]\x60 or \x60[~Param]\x60 guard") : Reading Production)
        (throw (m.malformed "a \x60[+Param]\x60 or \x60[~Param]\x60 guard")) :=
      .throw (malformed_alike hr _)
    cases hpq with
    | @same p hp =>
      cases p with
      | guard param value => exact hnote _
      | absent => exact hnote _
      | token | repeated | declarations | block | declaration | head | terminal | arg | entry =>
        cases hp
      | _ => exact hfail.bind fun q _ hq => by subst hq; exact hnote q
    | _ => exact hfail.bind fun q _ hq => by subst hq; exact hnote q

theorem guard_alike (hr : n.rule = m.rule) :
    ReadsAlike T N (Phrase.Alike T N) (guard n) (guard m) := by
  refine (skip_alike hr 1).bind fun _ _ _ => (sigil_alike hr).bind fun s _ hs => ?_
  subst hs
  cases s with
  | fixed value =>
    refine (tokenText_alike hr).bind fun param _ hparam => ?_
    subst hparam
    exact .pure (.same rfl)
  | pass => exact .throw (malformed_alike hr _)

theorem body_alike (hr : n.rule = m.rule) (hk : n.alternative = m.alternative) :
    ReadsAlike T N (Phrase.Alike T N) (body n) (body m) := by
  rw [body, body, hk]
  split
  · exact .pure (.same rfl)
  · refine (repeatedSame_alike hr "a symbol" ?_).bind fun ss _ hss => ?_
    · exact fun p hp => by cases p <;> first | rfl | cases hp
    · subst hss
      exact .pure (.same rfl)

theorem symbolTerminal_alike (hr : n.rule = m.rule) :
    ReadsAlike T N Eq (symbolTerminal n) (symbolTerminal m) := by
  refine (Reading.terminal_alike hr).bind fun x y hxy => ?_
  obtain ⟨spelling, s⟩ := x
  obtain ⟨spelling', s'⟩ := y
  obtain ⟨rfl, hs⟩ : spelling = spelling' ∧ T s s' := hxy
  exact (gatherTerminal_alike hs).bind fun _ _ _ => .pure rfl

theorem symbol_alike (hr : n.rule = m.rule) (hk : n.alternative = m.alternative) :
    ReadsAlike T N (Phrase.Alike T N) (symbol n) (symbol m) := by
  have hsymbol : ∀ f : Symbol → Symbol, ReadsAlike T N (Phrase.Alike T N)
      (do return .symbol (f (← Reading.symbol n))) (do return .symbol (f (← Reading.symbol m))) :=
    fun f => (Reading.symbol_alike hr).bind fun s _ hs => by
      subst hs
      exact .pure (.same rfl)
  rw [symbol, symbol, hk]
  split
  · refine (Reading.symbol_alike hr).bind fun base _ hbase => ?_
    refine (skip_alike hr 4).bind fun _ _ _ => (Reading.exclusion_alike hr).bind fun e _ he => ?_
    refine (repeatedSame_alike hr "an exclusion" ?_).bind fun es _ hes => ?_
    · exact fun p hp => by cases p <;> first | rfl | cases hp
    · subst hbase he hes
      exact .pure (.same rfl)
  · refine (Reading.symbol_alike hr).bind fun base _ hbase => ?_
    refine (skip_alike hr 2).bind fun _ _ _ => (Reading.exclusion_alike hr).bind fun e _ he => ?_
    subst hbase he
    exact .pure (.same rfl)
  · exact hsymbol .optional
  · refine (symbolTerminal_alike hr).bind fun s _ hs => ?_
    subst hs
    exact .pure (.same rfl)
  · refine (symbolTerminal_alike hr).bind fun s _ hs => ?_
    subst hs
    exact .pure (.same rfl)
  · refine (skip_alike hr 2).bind fun _ _ _ => ?_
    refine (takeSame_alike hr "a lookahead assertion" ?_).bind fun l _ hl => ?_
    · exact fun p hp => by cases p <;> first | rfl | cases hp
    · subst hl
      exact .pure (.same rfl)
  · exact hsymbol id

theorem noLineTerminatorHere_alike (hr : n.rule = m.rule) :
    ReadsAlike T N (Phrase.Alike T N) (noLineTerminatorHere n) (noLineTerminatorHere m) := by
  refine (skip_alike hr 2).bind fun _ _ _ => (token_alike hr).bind fun t u htu => ?_
  have htext : t.text = u.text := congrArg Lexeme.text htu.1
  rw [htext]
  split
  · exact .pure (.same rfl)
  · exact .throw rfl

theorem repeatedArgument?_alike {as bs : List PassedArgument} (seen : List String)
    (h : Forall₂ (PassedArgument.Alike N) as bs) :
    Option.Rel (PassedArgument.Alike N) (repeatedArgument? seen as)
      (repeatedArgument? seen bs) := by
  induction h generalizing seen with
  | nil => exact .none
  | @cons a b as bs hab h ih =>
    rw [repeatedArgument?, repeatedArgument?, hab.1]
    split
    · exact .some hab
    · exact ih _

theorem nonterminal_alike (hr : n.rule = m.rule) (hk : n.alternative = m.alternative) :
    ReadsAlike T N (Phrase.Alike T N) (nonterminal n) (nonterminal m) := by
  rw [nonterminal, nonterminal, hk]
  refine (tokenText_alike hr).bind fun name _ hname => ?_
  subst hname
  split
  · refine (skip_alike hr 1).bind fun _ _ _ => (Reading.arg_alike hr).bind fun a b hab => ?_
    refine (repeatedOf_alike hr "an argument" fun _ _ => arg?_alike).bind fun as bs habs => ?_
    have hall : Forall₂ (PassedArgument.Alike N) (a :: as) (b :: bs) := .cons hab habs
    have hrel := repeatedArgument?_alike [] hall
    have hargs : Forall₂ Eq ((a :: as).map fun a => (a.name, a.value))
        ((b :: bs).map fun a => (a.name, a.value)) :=
      List.rel_map (fun a b hab => Prod.ext hab.1 hab.2.1) hall
    rw [List.forall₂_eq_eq_eq] at hargs
    dsimp only
    rw [hargs]
    generalize repeatedArgument? [] (a :: as) = x at hrel ⊢
    generalize repeatedArgument? [] (b :: bs) = y at hrel ⊢
    cases hrel with
    | none => exact .pure (.same rfl)
    | some h =>
      refine .throw ?_
      simp [Diagnostic.Alike, Diagnostic.unplaced, h.1]
  · exact .pure (.same rfl)
  · exact .pure (.same rfl)

theorem argTail_alike (hr : n.rule = m.rule) :
    ReadsAlike T N (Phrase.Alike T N) (argTail n) (argTail m) :=
  (skip_alike hr 1).bind fun _ _ _ => (Reading.arg_alike hr).bind fun _ _ hab => .pure (.arg hab)

theorem arg_alike (hr : n.rule = m.rule) (hs : N n.span m.span) :
    ReadsAlike T N (Phrase.Alike T N) (arg n) (arg m) := by
  refine (Reading.sigil_alike hr).bind fun s _ hsigil => ?_
  refine (tokenText_alike hr).bind fun name _ hname => ?_
  subst hsigil hname
  exact .pure (.arg ⟨rfl, rfl, hs⟩)

theorem sigil_alike (hr : n.rule = m.rule) (hk : n.alternative = m.alternative) :
    ReadsAlike T N (Phrase.Alike T N) (sigil n) (sigil m) := by
  rw [sigil, sigil, hk]
  split
  · refine (Reading.sigil_alike hr).bind fun s _ hs => ?_
    subst hs
    exact .pure (.same rfl)
  · exact .pure (.same rfl)

theorem exclusion_alike (hr : n.rule = m.rule) (hk : n.alternative = m.alternative) :
    ReadsAlike T N (Phrase.Alike T N) (exclusion n) (exclusion m) := by
  rw [exclusion, exclusion, hk]
  split
  · refine (tokenText_alike hr).bind fun low _ hlow => (skip_alike hr 1).bind fun _ _ _ => ?_
    refine (tokenText_alike hr).bind fun high _ hhigh => ?_
    subst hlow hhigh
    exact .pure (.same rfl)
  · refine (Reading.terminal_alike hr).bind fun x y hxy => ?_
    rw [hxy.1]
    exact .pure (.same rfl)
  · refine (tokenText_alike hr).bind fun name _ hname => ?_
    subst hname
    exact .pure (.same rfl)

theorem exclusionTail_alike (hr : n.rule = m.rule) (hk : n.alternative = m.alternative) :
    ReadsAlike T N (Phrase.Alike T N) (exclusionTail n) (exclusionTail m) := by
  rw [exclusionTail, exclusionTail, hk]
  refine (skip_alike hr _).bind fun _ _ _ => (Reading.exclusion_alike hr).bind fun e _ he => ?_
  subst he
  exact .pure (.same rfl)

theorem singleTokens_alike {es fs : List LookaheadEntry}
    (h : Forall₂ (LookaheadEntry.Alike N) es fs) :
    ReadsAlike T N Eq (singleTokens es) (singleTokens fs) := by
  induction h with
  | nil => exact .pure rfl
  | @cons e f es fs hef h ih =>
    have hsingle : e.single? = f.single? := by rw [LookaheadEntry.single?, hef.1]; rfl
    have hdisplay : e.display = f.display := by rw [LookaheadEntry.display, hef.1]; rfl
    rw [singleTokens, singleTokens, hsingle]
    split
    · refine ih.bind fun ss _ hss => ?_
      subst hss
      exact .pure rfl
    · refine .throw ?_
      simp [Diagnostic.Alike, Diagnostic.unplaced, hdisplay]

theorem lookahead_alike (hr : n.rule = m.rule) (hk : n.alternative = m.alternative) :
    ReadsAlike T N (Phrase.Alike T N) (lookahead n) (lookahead m) := by
  rw [lookahead, lookahead, hk]
  split
  · refine (skip_alike hr 1).bind fun _ _ _ => (Reading.terminal_alike hr).bind fun x y hxy => ?_
    rw [hxy.1]
    exact .pure (.same rfl)
  · refine (skip_alike hr 1).bind fun _ _ _ => (Reading.terminal_alike hr).bind fun x y hxy => ?_
    rw [hxy.1]
    exact .pure (.same rfl)
  · refine (skip_alike hr 2).bind fun _ _ _ => (Reading.entry_alike hr).bind fun e f hef => ?_
    refine (repeatedOf_alike hr "a lookahead sequence" fun _ _ => entry?_alike).bind
      fun es fs hefs => ?_
    refine (singleTokens_alike (.cons hef hefs)).bind fun ss _ hss => ?_
    subst hss
    exact .pure (.same rfl)
  · refine (skip_alike hr 1).bind fun _ _ _ => (tokenText_alike hr).bind fun name _ hname => ?_
    subst hname
    exact .pure (.same rfl)

theorem lookaheadEntryTail_alike (hr : n.rule = m.rule) :
    ReadsAlike T N (Phrase.Alike T N) (lookaheadEntryTail n) (lookaheadEntryTail m) :=
  (skip_alike hr 1).bind fun _ _ _ =>
    (Reading.entry_alike hr).bind fun _ _ hef => .pure (.entry hef)

theorem lookaheadEntry_alike (hr : n.rule = m.rule) (hs : N n.span m.span) :
    ReadsAlike T N (Phrase.Alike T N) (lookaheadEntry n) (lookaheadEntry m) := by
  refine (repeatedSame_alike hr "a lookahead element" ?_).bind fun es _ hes => ?_
  · exact fun p hp => by cases p <;> first | rfl | cases hp
  · subst hes
    exact .pure (.entry ⟨rfl, hs⟩)

theorem lookaheadElement_alike (hr : n.rule = m.rule) (hk : n.alternative = m.alternative) :
    ReadsAlike T N (Phrase.Alike T N) (lookaheadElement n) (lookaheadElement m) := by
  rw [lookaheadElement, lookaheadElement, hk]
  split
  · refine (Reading.terminal_alike hr).bind fun x y hxy => ?_
    rw [hxy.1]
    exact .pure (.same rfl)
  · exact (Reading.symbol_alike hr).bind fun _ _ _ => .pure (.same rfl)

/-- A node means what an alike one means, but for the places. -/
theorem node_alike (hr : n.rule = m.rule) (hk : n.alternative = m.alternative)
    (hs : N n.span m.span) : ReadsAlike T N (Phrase.Alike T N) (node n) (node m) := by
  rw [node, node]
  cases hn : n.rule <;> rw [← hr, hn] <;> dsimp only
  case grammar => exact grammar_alike hr
  case block => exact block_alike hr hk
  case definition => exact definition_alike hr hk hs
  case blockEnd | lineEnd => exact .pure (.same rfl)
  case head => exact head_alike hr hk
  case paramTail => exact paramTail_alike hr
  case param => exact param_alike hr
  case terminalLine => exact terminalLine_alike hr
  case terminal => exact terminal_alike hr
  case production => exact production_alike hr hk hs
  case guard => exact guard_alike hr
  case body => exact body_alike hr hk
  case symbol => exact symbol_alike hr hk
  case noLineTerminatorHere => exact noLineTerminatorHere_alike hr
  case nonterminal => exact nonterminal_alike hr hk
  case argTail => exact argTail_alike hr
  case arg => exact arg_alike hr hs
  case sigil => exact sigil_alike hr hk
  case fixedSigil =>
    rw [fixedSigil, fixedSigil, hk]
    exact .pure (.same rfl)
  case exclusion => exact exclusion_alike hr hk
  case exclusionTail => exact exclusionTail_alike hr hk
  case lookahead => exact lookahead_alike hr hk
  case lookaheadEntryTail => exact lookaheadEntryTail_alike hr
  case lookaheadEntry => exact lookaheadEntry_alike hr hs
  case lookaheadElement => exact lookaheadElement_alike hr hk

end Reduction

/-! ## Trees -/

variable {T N : Span → Span → Prop} {ts us : List Tree}

/-- Tokens mean themselves. -/
theorem visitAll_tokens (xs : List Token) :
    Tree.visitAll Reduction.visitor (xs.map .token) = pure (xs.map .token) := by
  induction xs with
  | nil => rfl
  | cons x xs ih =>
    rw [List.map_cons, Tree.visitAll, ih]
    rfl

/-- The end of a line or a block means that it is there. -/
theorem visit_ending {n : Node} (hn : n.rule.isEnding = true) (xs : List Token) :
    (Tree.node n (xs.map .token)).visit Reduction.visitor =
      pure (if n.rule = .lineEnd then .lineEnd else .blockEnd) := by
  obtain ⟨r, k, start, stop⟩ := n
  rw [Tree.visit, visitAll_tokens]
  cases r with
  | lineEnd => rfl
  | blockEnd => rfl
  | _ => cases hn

/-- What the first trees mean comes before what the others mean. -/
theorem RunsAlike.visitAll_cons {t u : Tree} {R : Phrase → Phrase → Prop}
    (htu : RunsAlike T N R (t.visit Reduction.visitor) (u.visit Reduction.visitor))
    (h : RunsAlike T N (Forall₂ R) (Tree.visitAll Reduction.visitor ts)
      (Tree.visitAll Reduction.visitor us)) :
    RunsAlike T N (Forall₂ R) (Tree.visitAll Reduction.visitor (t :: ts))
      (Tree.visitAll Reduction.visitor (u :: us)) := by
  rw [Tree.visitAll, Tree.visitAll]
  exact htu.bind fun p q hpq => h.bind fun ps qs hpsqs => .pure (.cons hpq hpsqs)

/-- Trees that are alike mean phrases that are alike. -/
theorem visitAll_alike (h : Tree.AllAlike T N ts us) :
    RunsAlike T N (Forall₂ (Phrase.Alike T N)) (Tree.visitAll Reduction.visitor ts)
      (Tree.visitAll Reduction.visitor us) := by
  induction h with
  | nil => exact .pure .nil
  | token ht h ih => exact .visitAll_cons (.pure (.token ht)) ih
  | absent h ih => exact .visitAll_cons (.pure (.same rfl)) ih
  | repeated hx h ihx ih =>
    refine .visitAll_cons ?_ ih
    rw [Tree.visit, Tree.visit]
    exact ihx.bind fun ps qs hps => .pure (.repeated hps)
  | node hr hk hs hx h ihx ih =>
    refine .visitAll_cons ?_ ih
    rw [Tree.visit, Tree.visit]
    exact ihx.bind fun ps qs hps => (Reduction.node_alike hr hk hs).run' hps
  | @ending n m ts us xs ys hr he h ih =>
    refine .visitAll_cons ?_ ih
    rw [visit_ending he, visit_ending (hr ▸ he), hr]
    refine .pure (.same ?_)
    split <;> rfl

end GrammarText
