import GrammarText.Grammar.Basic

/-!
The terminals of a production: the spellings that stand for a token of the language itself. What
an exclusion takes out and what a lookahead asks for are not among them.
-/

namespace GrammarText

def Symbol.terminals : Symbol → List String
  | terminal spelling => [spelling]
  | optional inner => inner.terminals
  | exclusion base _ => base.terminals
  | _ => []

/-- The terminals of a production from left to right, repetitions included. -/
def Production.terminals : Production → List String
  | symbols ss => ss.flatMap Symbol.terminals
  | conditional _ _ body => body.terminals
  | prose _ => []

end GrammarText
