/-!
The rules that a description of the notation may define. A description gives a rule by its name,
a tree node carries its rule, and the reduction of a node is chosen by it.
-/

namespace GrammarText

/-- A rule of the notation's own grammar. -/
inductive Rule where
  /-- A whole text: definitions and blank lines. -/
  | grammar
  | block
  | definition
  | blockEnd
  /-- What stands before a definition's colons. -/
  | head
  | paramTail
  | param
  | lineEnd
  /-- A line of terminals under `one of`. -/
  | terminalLine
  | terminal
  /-- A line that is one production. -/
  | production
  /-- The parameter that a production depends on. -/
  | guard
  | body
  | symbol
  | noLineTerminatorHere
  | nonterminal
  | argTail
  | arg
  | sigil
  | fixedSigil
  | exclusion
  | exclusionTail
  | lookahead
  | lookaheadEntryTail
  | lookaheadEntry
  | lookaheadElement
  deriving DecidableEq, Repr, Inhabited

namespace Rule

/-- Every rule, in the order of the built-in description. -/
def all : List Rule :=
  [grammar, block, definition, blockEnd, head, paramTail, param, lineEnd, terminalLine, terminal,
    production, guard, body, symbol, noLineTerminatorHere, nonterminal, argTail, arg, sigil,
    fixedSigil, exclusion, exclusionTail, lookahead, lookaheadEntryTail, lookaheadEntry,
    lookaheadElement]

def name : Rule → String
  | grammar => "grammar"
  | block => "block"
  | definition => "nt_def"
  | blockEnd => "block_end"
  | head => "nt_lhs"
  | paramTail => "param_tail"
  | param => "param"
  | lineEnd => "line_end"
  | terminalLine => "t_list_line"
  | terminal => "terminal"
  | production => "rhs_line"
  | guard => "ifdef"
  | body => "rhs"
  | symbol => "symbol"
  | noLineTerminatorHere => "no_line_terminator_here"
  | nonterminal => "nonterminal"
  | argTail => "arg_tail"
  | arg => "arg"
  | sigil => "sigil"
  | fixedSigil => "definite_sigil"
  | exclusion => "exclusion"
  | exclusionTail => "exclusion_tail"
  | lookahead => "lookahead_assertion"
  | lookaheadEntryTail => "lookahead_exclusion_tail"
  | lookaheadEntry => "lookahead_exclusion"
  | lookaheadElement => "lookahead_exclusion_element"

def ofName? (s : String) : Option Rule := all.find? (·.name = s)

theorem mem_all (r : Rule) : r ∈ all := by cases r <;> decide

theorem ofName?_name (r : Rule) : ofName? r.name = some r := by cases r <;> decide

end Rule
end GrammarText
