import GrammarText.Reduction.Reading
import GrammarText.Text.Blank
import GrammarText.Text.Split

/-!
The meaning of definitions: of a whole text, of a declaration and its head, and of the lines that
it is made of. The rule of each node stands before its function.
-/

namespace GrammarText.Reduction

open Reading

/-- A whole text: `grammar ::= block* EOF`. Blank lines drop out. -/
def grammar (n : Node) : Reading Phrase := do
  let blocks ← repeated n
  skip n 1
  return .declarations (blocks.filterMap fun
    | .block d => d
    | _ => none)

/-- A declaration or a blank line: `block ::= NL | nt_def` -/
def block (n : Node) : Reading Phrase := do
  match n.alternative with
  | 0 => return .block none
  | _ => return .block (some (← take n "a definition" Phrase.declaration?))

/-- The declaration that a head and productions make. Its places are those gathered since the
declaration before it. -/
def declare (n : Node) (head : Head) (separator : String) (productions : List Production) :
    Reading Phrase := do
  let gathered ← getThe Gathered
  set Gathered.none
  return .declaration
    { name := head.name
      separator := separator
      definition := match head.params with
        | some params => .parameterized params productions
        | none => .alternatives productions
      nameSpan := head.span
      span := n.span
      terminalSpans := gathered.terminals
      productionSpans := gathered.productions }

/-- A declaration:
`nt_def ::= nt_lhs EQ "one" "of" NL t_list_line+ block_end | nt_lhs EQ NL rhs_line+ block_end`.
Each terminal listed under `one of` is a production. -/
def definition (n : Node) : Reading Phrase := do
  let head ← take n "a left-hand side" Phrase.head?
  let separator ← tokenText n
  match n.alternative with
  | 0 =>
    skip n 3
    let lines ← repeatedOf n "a line of terminals" Phrase.terminals?
    declare n head separator (lines.flatten.map fun s => .symbols [.terminal s])
  | _ =>
    skip n 1
    declare n head separator (← repeatedOf n "a production" Phrase.production?)

/-- What stands before the colons: `nt_lhs ::= NTCALL "[" param param_tail* "]" | NT` -/
def head (n : Node) : Reading Phrase := do
  let t ← token n
  match n.alternative with
  | 0 =>
    skip n 1
    let first ← name n
    let others ← repeatedOf n "a parameter name" Phrase.name?
    return .head ⟨t.text, some (first :: others), t.span⟩
  | _ => return .head ⟨t.text, none, t.span⟩

/-- A further parameter: `param_tail ::= "," param` -/
def paramTail (n : Node) : Reading Phrase := do
  skip n 1
  return .name (← name n)

/-- A parameter: `param ::= NT` -/
def param (n : Node) : Reading Phrase := return .name (← tokenText n)

/-- Notes the places of terminals, up to the first phrase that is none. -/
def gatherTerminals (n : Node) : List Phrase → Reading (List String)
  | [] => return []
  | .terminal spelling span :: ps => do
    gatherTerminal spelling span
    return spelling :: (← gatherTerminals n ps)
  | _ :: _ => throw (n.malformed "a terminal")

/-- A line of terminals: `t_list_line ::= terminal+ line_end` -/
def terminalLine (n : Node) : Reading Phrase := do
  return .terminals (← gatherTerminals n (← repeated n))

/-- A terminal: `terminal ::= T | CHR`. A control character keeps its spelling, a quoted terminal
loses its quotes. -/
def terminal (n : Node) : Reading Phrase := do
  let t ← token n
  match t.lexeme with
  | .terminal quoted =>
    match Text.unquote? quoted.toList with
    | some spelling => return .terminal (String.ofList spelling) t.span
    | none => throw (.grammar (.malformedTerminal quoted t.span))
  | other => return .terminal other.text t.span

/-- The prose of a line, without the bracket that marks it and the blanks around it. -/
def proseText (text : String) : String :=
  let cs := text.toList
  String.ofList (Text.trim ((Text.dropStart? ['>'] cs).getD cs))

/-- The prose between brackets, without the blanks around it. -/
def wrappedProseText (text : String) : String :=
  let cs := text.toList
  String.ofList (Text.trim ((Text.dropStart? ['[', '>'] cs >>= Text.dropEnd? [']']).getD cs))

/-- A production line:
`rhs_line ::= PROSE line_end | WPROSE line_end | ifdef? rhs PRODID? line_end`. A guard makes the
production conditional; a label adds nothing. -/
def production (n : Node) : Reading Phrase := do
  let p ← match n.alternative with
    | 0 => pure (.prose (proseText (← tokenText n)))
    | 1 => pure (.prose (wrappedProseText (← tokenText n)))
    | _ =>
      -- The guard is judged after the symbols, so an error there comes second.
      let guard ← next
      let symbols ← take n "a production" Phrase.symbols?
      match guard with
      | .guard param value => pure (.conditional param value (.symbols symbols))
      | .absent => pure (.symbols symbols)
      | _ => throw (n.malformed "a \x60[+Param]\x60 or \x60[~Param]\x60 guard")
  gatherProduction n.span
  return .production p

/-- A guard: `ifdef ::= "[" definite_sigil NT "]"` -/
def guard (n : Node) : Reading Phrase := do
  skip n 1
  match ← sigil n with
  | .fixed value => return .guard (← tokenText n) value
  | .pass => throw (n.malformed "\x60+\x60 or \x60~\x60")

/-- The symbols of a production: `rhs ::= "[" "empty" "]" | symbol+` -/
def body (n : Node) : Reading Phrase := do
  match n.alternative with
  | 0 => return .symbols []
  | _ => return .symbols (← repeatedOf n "a symbol" Phrase.symbol?)

end GrammarText.Reduction
