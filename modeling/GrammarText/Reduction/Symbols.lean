import GrammarText.Reduction.Reading

/-!
The meaning of symbols: of nonterminals and their arguments, of exclusions and of lookaheads. The
rule of each node stands before its function.
-/

namespace GrammarText.Reduction

open Reading

/-- A terminal that is a symbol of a production, unlike one in an exclusion or a lookahead. Its
place is noted. -/
def symbolTerminal (n : Node) : Reading Symbol := do
  let (spelling, span) ← Reading.terminal n
  gatherTerminal spelling span
  return .terminal spelling

/-- A symbol: `symbol ::= nonterminal "but" "not" "one" "of" exclusion exclusion_tail* |
nonterminal "but" "not" exclusion | nonterminal "?" | nonterminal | terminal "?" | terminal |
"[" "lookahead" lookahead_assertion "]" | no_line_terminator_here` -/
def symbol (n : Node) : Reading Phrase := do
  match n.alternative with
  | 0 =>
    let base ← Reading.symbol n
    skip n 4
    let first ← Reading.exclusion n
    let others ← repeatedOf n "an exclusion" Phrase.exclusion?
    return .symbol (.exclusion base (first :: others))
  | 1 =>
    let base ← Reading.symbol n
    skip n 2
    return .symbol (.exclusion base [← Reading.exclusion n])
  | 2 => return .symbol (.optional (← Reading.symbol n))
  | 4 => return .symbol (.optional (← symbolTerminal n))
  | 5 => return .symbol (← symbolTerminal n)
  | 6 =>
    skip n 2
    return .symbol (.lookahead (← take n "a lookahead assertion" Phrase.lookahead?))
  | _ => return .symbol (← Reading.symbol n)

/-- No line break: `no_line_terminator_here ::= "[" "no" NT "here" "]"`. The name must be
`LineTerminator`. -/
def noLineTerminatorHere (n : Node) : Reading Phrase := do
  skip n 2
  let t ← token n
  if t.text = "LineTerminator" then
    return .symbol .noLineTerminatorHere
  else
    throw (.parse (.unexpectedToken "\x60LineTerminator\x60" t.span))

/-- The first argument whose parameter an argument before it has already. -/
def repeatedArgument? (seen : List String) : List PassedArgument → Option PassedArgument
  | [] => none
  | a :: as => if a.name ∈ seen then some a else repeatedArgument? (a.name :: seen) as

def stripBars (name : String) : String :=
  let inner := name.toList.dropWhile (· = '|')
  String.ofList (inner.reverse.dropWhile (· = '|')).reverse

/-- A nonterminal: `nonterminal ::= NTCALL "[" arg arg_tail* "]" | NT | NTALT`. No parameter is
passed twice. -/
def nonterminal (n : Node) : Reading Phrase := do
  let name ← tokenText n
  match n.alternative with
  | 0 =>
    skip n 1
    let first ← Reading.arg n
    let others ← repeatedOf n "an argument" Phrase.arg?
    let args := first :: others
    match repeatedArgument? [] args with
    | some a => throw (.grammar (.duplicateArgument a.name name a.span))
    | none => return .symbol (.apply name (args.map fun a => (a.name, a.value)))
  | 1 => return .symbol (.nonterminal name)
  | _ => return .symbol (.nonterminal (stripBars name))

/-- A further argument: `arg_tail ::= "," arg` -/
def argTail (n : Node) : Reading Phrase := do
  skip n 1
  return .arg (← Reading.arg n)

/-- An argument: `arg ::= sigil NT` -/
def arg (n : Node) : Reading Phrase := do
  let sigil ← Reading.sigil n
  let name ← tokenText n
  let value := match sigil with
    | .fixed value => .fixed value
    | .pass => .var name
  return .arg ⟨name, value, n.span⟩

/-- A sigil: `sigil ::= definite_sigil | "?"` -/
def sigil (n : Node) : Reading Phrase := do
  match n.alternative with
  | 0 => return .sigil (← Reading.sigil n)
  | _ => return .sigil .pass

/-- A sigil that gives a value: `definite_sigil ::= "~" | "+"` -/
def fixedSigil (n : Node) : Reading Phrase := return .sigil (.fixed (n.alternative ≠ 0))

/-- An exclusion: `exclusion ::= CHR "through" CHR | terminal | NT` -/
def exclusion (n : Node) : Reading Phrase := do
  match n.alternative with
  | 0 =>
    let low ← tokenText n
    skip n 1
    return .exclusion (.range low (← tokenText n))
  | 1 => return .exclusion (.terminal (← Reading.terminal n).1)
  | _ => return .exclusion (.nonterminal (← tokenText n))

/-- A further exclusion:
`exclusion_tail ::= "," "or" exclusion | "or" exclusion | "," exclusion` -/
def exclusionTail (n : Node) : Reading Phrase := do
  skip n (if n.alternative = 0 then 2 else 1)
  return .exclusion (← Reading.exclusion n)

/-- The tokens of a lookahead set, each entry of which must be a single terminal. -/
def singleTokens : List LookaheadEntry → Reading (List String)
  | [] => return []
  | e :: es =>
    match e.single? with
    | some spelling => return spelling :: (← singleTokens es)
    | none => throw (.grammar (.unsupportedLookahead e.display e.span))

/-- A lookahead: `lookahead_assertion ::= "==" terminal | "!=" terminal |
"<!" "{" lookahead_exclusion lookahead_exclusion_tail* "}" | "<!" NT` -/
def lookahead (n : Node) : Reading Phrase := do
  match n.alternative with
  | 0 =>
    skip n 1
    return .lookahead (.tokenSet (.ofList [(← Reading.terminal n).1]) true)
  | 1 =>
    skip n 1
    return .lookahead (.tokenSet (.ofList [(← Reading.terminal n).1]) false)
  | 2 =>
    skip n 2
    let first ← Reading.entry n
    let others ← repeatedOf n "a lookahead sequence" Phrase.entry?
    return .lookahead (.tokenSet (.ofList (← singleTokens (first :: others))) false)
  | _ =>
    skip n 1
    return .lookahead (.notNonterminal (← tokenText n))

/-- A further entry: `lookahead_exclusion_tail ::= "," lookahead_exclusion` -/
def lookaheadEntryTail (n : Node) : Reading Phrase := do
  skip n 1
  return .entry (← Reading.entry n)

/-- An entry of a lookahead set: `lookahead_exclusion ::= lookahead_exclusion_element+` -/
def lookaheadEntry (n : Node) : Reading Phrase := do
  return .entry ⟨← repeatedOf n "a lookahead element" Phrase.element?, n.span⟩

/-- A piece of an entry:
`lookahead_exclusion_element ::= terminal | no_line_terminator_here` -/
def lookaheadElement (n : Node) : Reading Phrase := do
  match n.alternative with
  | 0 => return .element (.terminal (← Reading.terminal n).1)
  | _ =>
    let _ ← Reading.symbol n
    return .element .noLineTerminatorHere

end GrammarText.Reduction
