import GrammarText.Proofs.Parsing.Notation
import GrammarText.Proofs.Scanning.Slices
import GrammarText.Reduction

/-!
# What phrases are read from

For the phrase of each rule: the tokens that it was read from, the places in it, and the places that
were gathered on the way.  The tokens are a run of a longer list, and the others come after it.
`ReadAll` says the same of the children of a node, item by item.  `Diagnostic.Blames` says at which
tokens of a run an error points.
-/

namespace GrammarText

/-! ## Parts of a production -/

/-- A token is a terminal of a spelling, in quotes or as the name of a control character. -/
def Token.Spells (t : Token) (s : String) : Prop :=
  (∃ q, t.lexeme = .terminal q ∧ Text.unquote? q.toList = some s.toList) ∨ t.lexeme = .control s

/-- Spellings with their places, in the order of the text, are those of some of the tokens. -/
inductive Located : List Token → List (String × Span) → Prop where
  | nil : Located [] []
  | skip {t ts xs} (h : Located ts xs) : Located (t :: ts) xs
  | found {t s ts xs} (ht : t.Spells s) (h : Located ts xs) :
      Located (t :: ts) ((s, t.span) :: xs)

/-- Things are read from tokens one after another, each in front of those that come after it. -/
inductive InTurn {α : Type} (R : α → List Token → List Token → Prop) :
    List α → List Token → List Token → Prop where
  | nil {rest} : InTurn R [] [] rest
  | cons {a as u v rest} (h : R a u (v ++ rest)) (hs : InTurn R as v rest) :
      InTurn R (a :: as) (u ++ v) rest

def Sigil.word : Sigil → Word
  | fixed true => .plus
  | fixed false => .tilde
  | pass => .question

def PassedArgument.ReadFrom (a : PassedArgument) (run : List Token) : Prop :=
  ∃ sigil : Sigil, run.map Token.lexeme = [.reserved sigil.word, .nonterminal a.name] ∧
    a.span = Span.over run

def noLineTerminatorLexemes : List Lexeme :=
  [.reserved .openBracket, .reserved .no, .nonterminal "LineTerminator", .reserved .here,
    .reserved .closeBracket]

def LookaheadElement.ReadFrom (x : LookaheadElement) (run : List Token) : Prop :=
  match x with
  | .terminal s => ∃ t, run = [t] ∧ t.Spells s
  | .noLineTerminatorHere => run.map Token.lexeme = noLineTerminatorLexemes

/-- An entry goes from its first element to the last one. -/
def LookaheadEntry.ReadFrom (e : LookaheadEntry) (run : List Token) : Prop :=
  InTurn (fun x u _ => LookaheadElement.ReadFrom x u) e.elements run [] ∧
    run ≠ [] ∧ e.span = Span.over run

/-! ## Lines and declarations -/

def Token.isInline (t : Token) : Bool :=
  t.kind ∉ [.eof, .newline, .prose, .wrappedProse]

/-- A line ends in a line break, or the text ends behind it. -/
def LineEnds (ending rest : List Token) : Prop :=
  (∃ t, ending = [t] ∧ t.lexeme = .newline) ∨
    ending = [] ∧ ∃ e more, rest = e :: more ∧ e.isEof = true

def guardLexemes (param : String) (value : Bool) : List Lexeme :=
  [.reserved .openBracket, .reserved (Sigil.fixed value).word, .nonterminal param,
    .reserved .closeBracket]

/-- What depends on a parameter starts with a guard, and symbols come after it. -/
def Production.Guarded (q : Production) (body : List Token) : Prop :=
  match q with
  | .conditional param value _ =>
    guardLexemes param value <+: body.map Token.lexeme ∧ ∀ t ∈ body, t.isInline = true
  | .symbols _ | .prose _ => True

def Production.Line (x : Production × Span) (run rest : List Token) : Prop :=
  ∃ body ending, run = body ++ ending ∧ body ≠ [] ∧ LineEnds ending rest ∧
    x.2 = Span.over run ∧ x.1.Guarded body

/-- A declaration starts with its name and has its terminals noted in order.  Its productions are
whole lines, or else the terminals of a list. -/
structure Declaration.ReadFrom (d : Declaration) (run rest : List Token) : Prop where
  name : ∃ t more, run = t :: more ∧ t.text = d.name ∧ d.nameSpan = t.span
  span : d.span = Span.over run
  terminals : d.terminalSpans.map Prod.fst = d.definition.productions.flatMap Production.terminals
  located : Located run d.terminalSpans
  lines : (d.productionSpans = [] ∧ ∀ p ∈ d.definition.productions, ∃ s, p = .symbols [.terminal s])
    ∨ ∃ (front : List Token) (t : Token) (body ending : List Token)
        (lines : List (Production × Span)),
      run = front ++ t :: (body ++ ending) ∧ t.lexeme = .newline ∧
      InTurn Production.Line lines body (ending ++ rest) ∧
      d.definition.productions = lines.map Prod.fst ∧ d.productionSpans = lines.map Prod.snd

def ReadBlock (block : Option Declaration) (run rest : List Token) : Prop :=
  match block with
  | none => ∃ t, run = [t] ∧ t.lexeme = .newline
  | some d => d.ReadFrom run rest

/-! ## Phrases -/

def Gathered.add (g : Gathered) (terminals : List (String × Span)) (productions : List Span) :
    Gathered :=
  ⟨g.terminals ++ terminals, g.productions ++ productions⟩

/-- The phrase of a rule is read from tokens in front of others, where places were gathered before
and after.  What a declaration says holds if nothing was gathered before it. -/
def Phrase.ReadFrom (p : Phrase) (r : Rule) (run rest : List Token) (g g' : Gathered) : Prop :=
  match r with
  | .grammar => ∃ ds, p = .declarations ds ∧ (g = .none → g' = .none ∧
      ∃ blocks body e, run = body ++ [e] ∧ e.isEof = true ∧
        InTurn ReadBlock blocks body (e :: rest) ∧ ds = blocks.filterMap id)
  | .block => ∃ block, p = .block block ∧ (block = none → g' = g) ∧ (block ≠ none → g' = .none) ∧
      (g = .none → ReadBlock block run rest)
  | .definition => ∃ d, p = .declaration d ∧ g' = .none ∧ (g = .none → d.ReadFrom run rest)
  | .blockEnd => p = .blockEnd ∧ LineEnds run rest ∧ g' = g
  | .lineEnd => p = .lineEnd ∧ LineEnds run rest ∧ g' = g
  | .head => ∃ h t more, p = .head h ∧ run = t :: more ∧ t.text = h.name ∧ h.span = t.span ∧ g' = g
  | .param | .paramTail => (∃ s, p = .name s) ∧ g' = g
  | .terminalLine =>
    ∃ xs, p = .terminals (xs.map Prod.fst) ∧ Located run xs ∧ g' = g.add xs []
  | .terminal => ∃ t s, run = [t] ∧ t.Spells s ∧ p = .terminal s t.span ∧ g' = g
  | .production => ∃ q xs, p = .production q ∧ xs.map Prod.fst = q.terminals ∧ Located run xs ∧
      Production.Line (q, Span.over run) run rest ∧ g' = g.add xs [Span.over run]
  | .guard => ∃ param value, p = .guard param value ∧
      run.map Token.lexeme = guardLexemes param value ∧ g' = g
  | .body => ∃ ss xs, p = .symbols ss ∧ xs.map Prod.fst = (Production.symbols ss).terminals ∧
      Located run xs ∧ g' = g.add xs []
  | .symbol => ∃ s xs, p = .symbol s ∧ xs.map Prod.fst = s.terminals ∧ Located run xs ∧
      g' = g.add xs []
  | .noLineTerminatorHere =>
    p = .symbol .noLineTerminatorHere ∧ run.map Token.lexeme = noLineTerminatorLexemes ∧ g' = g
  | .nonterminal => ∃ s : Symbol, p = .symbol s ∧ s.terminals = [] ∧ g' = g
  | .arg => ∃ a, p = .arg a ∧ a.ReadFrom run ∧ g' = g
  | .argTail => ∃ a t more, p = .arg a ∧ run = t :: more ∧ t.lexeme = .reserved .comma ∧
      a.ReadFrom more ∧ g' = g
  | .sigil => ∃ s, p = .sigil s ∧ run.map Token.lexeme = [.reserved s.word] ∧ g' = g
  | .fixedSigil => ∃ value, p = .sigil (.fixed value) ∧
      run.map Token.lexeme = [.reserved (Sigil.fixed value).word] ∧ g' = g
  | .exclusion | .exclusionTail => (∃ e, p = .exclusion e) ∧ g' = g
  | .lookahead => (∃ l, p = .lookahead l) ∧ g' = g
  | .lookaheadEntry => ∃ e, p = .entry e ∧ e.ReadFrom run ∧ g' = g
  | .lookaheadEntryTail => ∃ e t more, p = .entry e ∧ run = t :: more ∧
      t.lexeme = .reserved .comma ∧ e.ReadFrom more ∧ g' = g
  | .lookaheadElement => ∃ x, p = .element x ∧ x.ReadFrom run ∧ g' = g

def Notation.inline : Rule → Bool
  | .grammar | .block | .definition | .blockEnd | .head | .paramTail | .param | .lineEnd
  | .terminalLine | .production => false
  | _ => true

def Matcher.Read (m : Matcher) (p : Phrase) (run rest : List Token) (g g' : Gathered) : Prop :=
  match m with
  | .token k => ∃ t : Token, run = [t] ∧ p = .token t ∧ t.lexeme = .ofKind k t.text ∧ g' = g
  | .word w => ∃ t : Token, run = [t] ∧ p = .token t ∧ t.lexeme = .reserved w ∧ g' = g
  | .rule r => p.ReadFrom r run rest g g' ∧ (Notation.idle r = false → run ≠ []) ∧
      (Notation.inline r = true → ∀ t ∈ run, t.isInline = true)

def Matcher.ReadRounds (m : Matcher) :
    List Phrase → List Token → List Token → Gathered → Gathered → Prop
  | [], run, _, g, g' => run = [] ∧ g' = g
  | p :: ps, run, rest, g, g' => ∃ u v g₁, run = u ++ v ∧ m.Read p u (v ++ rest) g g₁ ∧
      m.ReadRounds ps v rest g₁ g'

def ReadAll : List Item → List Phrase → List Token → List Token → Gathered → Gathered → Prop
  | [], ps, run, _, g, g' => ps = [] ∧ run = [] ∧ g' = g
  | i :: is, ps, run, rest, g, g' =>
    match i.quantifier with
    | .one => ∃ p qs u v g₁, ps = p :: qs ∧ run = u ++ v ∧ i.matcher.Read p u (v ++ rest) g g₁ ∧
        ReadAll is qs v rest g₁ g'
    | .optional => ∃ p qs u v g₁, ps = p :: qs ∧ run = u ++ v ∧
        (i.matcher.Read p u (v ++ rest) g g₁ ∨ p = .absent ∧ u = [] ∧ g₁ = g) ∧
        ReadAll is qs v rest g₁ g'
    | .star => ∃ xs qs u v g₁, ps = .repeated xs :: qs ∧ run = u ++ v ∧
        i.matcher.ReadRounds xs u (v ++ rest) g g₁ ∧ ReadAll is qs v rest g₁ g'
    | .plus => ∃ xs qs u v g₁, ps = .repeated xs :: qs ∧ run = u ++ v ∧ xs ≠ [] ∧
        i.matcher.ReadRounds xs u (v ++ rest) g g₁ ∧ ReadAll is qs v rest g₁ g'
    | .peek => (∀ w, i.matcher.wanted? = some w → ∃ t more, run ++ rest = t :: more ∧
        w.accepts t = true) ∧ ReadAll is ps run rest g g'

/-! ## Errors -/

/-- Tokens among others are an argument of a call, whose brackets are not closed before it. -/
def IsArgument (callee name : String) (tokens run : List Token) : Prop :=
  ∃ (t o : Token) (before : List Token) (sigil : Sigil),
    t.lexeme = .call callee ∧ o.lexeme = .reserved .openBracket ∧
    (∀ x ∈ before, x.lexeme ≠ .reserved .closeBracket) ∧
    run.map Token.lexeme = [.reserved sigil.word, .nonterminal name] ∧
    t :: o :: (before ++ run) <:+: tokens

/-- Tokens among others are a whole entry of a set, and the entry is not a single terminal. -/
def IsUnsupportedEntry (sequence : String) (tokens run : List Token) : Prop :=
  ∃ (e : LookaheadEntry) (before after : Token),
    e.ReadFrom run ∧ e.single? = none ∧ e.display = sequence ∧
    (before.lexeme = .reserved .openBrace ∨ before.lexeme = .reserved .comma) ∧
    (after.lexeme = .reserved .comma ∨ after.lexeme = .reserved .closeBrace) ∧
    before :: (run ++ [after]) <:+: tokens

/-- The tokens of a run that an error from its reduction points at. -/
def Diagnostic.Blames (e : Diagnostic) (run : List Token) : Prop :=
  match e with
  | .parse (.unexpectedToken _ span) => ∃ t ∈ run, t.isEof = false ∧ span = t.span
  | .grammar (.duplicateArgument name callee span) =>
    ∃ u, IsArgument callee name run u ∧ span = Span.over u
  | .grammar (.unsupportedLookahead sequence span) =>
    ∃ u, IsUnsupportedEntry sequence run u ∧ span = Span.over u
  | .grammar (.malformedTerminal ..) => True
  | _ => False

end GrammarText
