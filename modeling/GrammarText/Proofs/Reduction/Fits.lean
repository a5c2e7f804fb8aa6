import GrammarText.Description.Builtin
import GrammarText.Proofs.Reduction.Yields

/-!
# Phrases that fit

What the phrase of a rule looks like, and of which lexemes its names and spellings come, when only
lexemes of some kind `ok` were read.  `FitsAll` says the same of the children of a node, item by
item: a peek leaves no child, and every other item leaves one.
-/

namespace GrammarText

variable (ok : Lexeme → Prop)

/-- A spelling that a terminal of the text has, without its quotes, or a control character. -/
def Spelled (s : String) : Prop :=
  (∃ q, ok (.terminal q) ∧ Text.unquote? q.toList = some s.toList) ∨ ok (.control s)

def Argument.Fits (param : String) (a : Argument) : Prop :=
  ok (.nonterminal param) ∧ ((∃ value, a = .fixed value) ∨ a = .var param)

def Exclusion.Fits : Exclusion → Prop
  | terminal spelling => Spelled ok spelling
  | nonterminal name => ok (.nonterminal name)
  | range low high => ok (.control low) ∧ ok (.control high)

/-- A lookahead that was read: only a set of one token asks that this token come. -/
def Lookahead.Fits : Lookahead → Prop
  | tokenSet tokens positive =>
    (∀ s ∈ tokens, Spelled ok s) ∧ tokens ≠ ∅ ∧
      (positive = true → ∃ s : String, tokens = Std.ExtTreeSet.ofList [s])
  | notNonterminal name => ok (.nonterminal name)

def Symbol.Refers : Symbol → Prop
  | nonterminal name => ok (.nonterminal name) ∨ ∃ q, ok (.barred q) ∧ name = Reduction.stripBars q
  | apply name args =>
    ok (.call name) ∧ args ≠ [] ∧ (args.map Prod.fst).Nodup ∧ ∀ a ∈ args, a.2.Fits ok a.1
  | _ => False

def Symbol.Fits (s : Symbol) : Prop :=
  s.Refers ok ∨ match s with
    | terminal spelling => Spelled ok spelling
    | optional inner =>
        inner.Refers ok ∨ ∃ spelling, inner = .terminal spelling ∧ Spelled ok spelling
    | exclusion base exclusions =>
      base.Refers ok ∧ exclusions ≠ [] ∧ ∀ e ∈ exclusions, e.Fits ok
    | lookahead rule => rule.Fits ok
    | noLineTerminatorHere => True
    | nonterminal _ | apply _ _ => False

/-- A production that was read: what depends on a parameter are symbols. -/
def Production.Fits : Production → Prop
  | symbols ss => ∀ s ∈ ss, s.Fits ok
  | conditional param _ body =>
    ok (.nonterminal param) ∧ ∃ ss, body = .symbols ss ∧ ∀ s ∈ ss, Symbol.Fits ok s
  | prose text =>
    ∃ q, (ok (.prose q) ∧ text = Reduction.proseText q) ∨
      (ok (.wrappedProse q) ∧ text = Reduction.wrappedProseText q)

def FitsHead (name : String) : Option (List String) → Prop
  | none => ok (.nonterminal name)
  | some params => ok (.call name) ∧ params ≠ [] ∧ ∀ p ∈ params, ok (.nonterminal p)

def Definition.Fits (name : String) (d : Definition) : Prop :=
  d.productions ≠ [] ∧ (∀ p ∈ d.productions, p.Fits ok) ∧ match d with
    | alternatives _ => FitsHead ok name none
    | parameterized params _ => FitsHead ok name (some params)

def LookaheadElement.Fits : LookaheadElement → Prop
  | terminal spelling => Spelled ok spelling
  | noLineTerminatorHere => True

/-- A phrase that the nodes of a rule may mean. -/
def Phrase.Fits (p : Phrase) : Rule → Prop
  | .grammar => ∃ ds, p = .declarations ds ∧ ∀ d ∈ ds, d.definition.Fits ok d.name
  | .block => ∃ d, p = .block d ∧ ∀ d' ∈ d, d'.definition.Fits ok d'.name
  | .definition => ∃ d, p = .declaration d ∧ d.definition.Fits ok d.name
  | .blockEnd => p = .blockEnd
  | .lineEnd => p = .lineEnd
  | .head => ∃ h, p = .head h ∧ FitsHead ok h.name h.params
  | .param | .paramTail => ∃ s, p = .name s ∧ ok (.nonterminal s)
  | .terminalLine => ∃ ss, p = .terminals ss ∧ ss ≠ [] ∧ ∀ s ∈ ss, Spelled ok s
  | .terminal => ∃ x : String × Span, p = .terminal x.1 x.2 ∧ Spelled ok x.1
  | .production => ∃ q, p = .production q ∧ q.Fits ok
  | .guard => ∃ s value, p = .guard s value ∧ ok (.nonterminal s)
  | .body => ∃ ss, p = .symbols ss ∧ ∀ s ∈ ss, s.Fits ok
  | .symbol => ∃ s, p = .symbol s ∧ s.Fits ok
  | .noLineTerminatorHere => p = .symbol .noLineTerminatorHere
  | .nonterminal => ∃ s, p = .symbol s ∧ s.Refers ok
  | .arg | .argTail => ∃ a, p = .arg a ∧ a.value.Fits ok a.name
  | .sigil => ∃ s, p = .sigil s
  | .fixedSigil => ∃ value, p = .sigil (.fixed value)
  | .exclusion | .exclusionTail => ∃ e, p = .exclusion e ∧ e.Fits ok
  | .lookahead => ∃ l, p = .lookahead l ∧ l.Fits ok
  | .lookaheadEntry | .lookaheadEntryTail =>
    ∃ e, p = .entry e ∧ e.elements ≠ [] ∧ ∀ x ∈ e.elements, x.Fits ok
  | .lookaheadElement => ∃ x, p = .element x ∧ x.Fits ok

def Matcher.Fits (m : Matcher) (p : Phrase) : Prop :=
  match m with
  | .token k => ∃ t : Token, p = .token t ∧ t.lexeme = .ofKind k t.text ∧ ok (.ofKind k t.text)
  | .word _ => ∃ t, p = .token t
  | .rule r => p.Fits ok r

def FitsAll : List Item → List Phrase → Prop
  | [], ps => ps = []
  | i :: is, ps =>
    match i.quantifier with
    | .one => ∃ p qs, ps = p :: qs ∧ i.matcher.Fits ok p ∧ FitsAll is qs
    | .optional => ∃ p qs, ps = p :: qs ∧ (i.matcher.Fits ok p ∨ p = .absent) ∧ FitsAll is qs
    | .star => ∃ xs qs, ps = .repeated xs :: qs ∧ (∀ x ∈ xs, i.matcher.Fits ok x) ∧ FitsAll is qs
    | .plus =>
      ∃ xs qs, ps = .repeated xs :: qs ∧ xs ≠ [] ∧ (∀ x ∈ xs, i.matcher.Fits ok x) ∧ FitsAll is qs
    | .peek => FitsAll is ps

/-- Errors that the reduction of a tree may end in: a node is never malformed, and where a
terminal is, it was read without its quotes. -/
def Diagnostic.Fits : Diagnostic → Prop
  | .parse (.malformedTree ..) => False
  | .grammar (.malformedTerminal q _) => ok (.terminal q) ∧ Text.unquote? q.toList = none
  | _ => True

end GrammarText
