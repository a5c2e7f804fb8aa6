/-!
The reserved words: the operators and keywords that the notation spells out letter by letter.
-/

namespace GrammarText

/-- An operator or keyword of the notation. -/
inductive Word where
  | openBracket
  | closeBracket
  | openBrace
  | closeBrace
  | comma
  | tilde
  | plus
  | question
  | outside
  | equal
  | unequal
  | but
  | empty
  | here
  | lookahead
  | no
  | not
  | of
  | one
  | or
  | through
  deriving DecidableEq, Repr, Inhabited

namespace Word

/-- Every reserved word, in the order in which they are listed to a reader. -/
def all : List Word :=
  [openBracket, closeBracket, openBrace, closeBrace, comma, tilde, plus, question, outside, equal,
    unequal, but, empty, here, lookahead, no, not, of, one, or, through]

def spelling : Word → String
  | openBracket => "["
  | closeBracket => "]"
  | openBrace => "\x7b"
  | closeBrace => "\x7d"
  | comma => ","
  | tilde => "~"
  | plus => "+"
  | question => "?"
  | outside => "<!"
  | equal => "=="
  | unequal => "!="
  | but => "but"
  | empty => "empty"
  | here => "here"
  | lookahead => "lookahead"
  | no => "no"
  | not => "not"
  | of => "of"
  | one => "one"
  | or => "or"
  | through => "through"

def ofSpelling? (s : String) : Option Word := all.find? (·.spelling = s)

theorem mem_all (w : Word) : w ∈ all := by cases w <;> decide

theorem ofSpelling?_spelling (w : Word) : ofSpelling? w.spelling = some w := by
  cases w <;> decide

end Word
end GrammarText
