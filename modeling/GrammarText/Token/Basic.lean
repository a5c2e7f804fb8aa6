import GrammarText.Span
import GrammarText.Token.Word

/-!
Tokens: what a text of the notation is made of, blanks aside.

A `Kind` is the class of a token without its text; a description of a grammar names tokens by
their kind. A `Lexeme` adds the text, kept as it was written, quotes and bars included, and a
`Token` says where the lexeme stands.
-/

namespace GrammarText

inductive Kind where
  | eof
  | newline
  | reserved
  | colons
  | terminal
  | control
  | call
  | nonterminal
  | barred
  | label
  | prose
  | wrappedProse
  deriving DecidableEq, Repr, Inhabited

namespace Kind

/-- Every kind. Where two classes have lexemes of one length, the class that stands first here has
the token. -/
def all : List Kind :=
  [eof, newline, reserved, colons, terminal, control, call, nonterminal, barred, label, prose,
    wrappedProse]

/-- The capital letters that name a kind. -/
def symbol : Kind → String
  | eof => "EOF"
  | newline => "NL"
  | reserved => "RESERVED"
  | colons => "EQ"
  | terminal => "T"
  | control => "CHR"
  | call => "NTCALL"
  | nonterminal => "NT"
  | barred => "NTALT"
  | label => "PRODID"
  | prose => "PROSE"
  | wrappedProse => "WPROSE"

def phrase : Kind → String
  | eof => "end of input"
  | newline => "a newline"
  | reserved => "a reserved word"
  | colons => "\x60:\x60"
  | terminal => "a terminal"
  | control => "a control character"
  | call => "a parameterized nonterminal"
  | nonterminal => "a nonterminal"
  | barred => "a |nonterminal|"
  | label => "a production label"
  | prose => "a prose line"
  | wrappedProse => "bracketed prose"

/-- The kind that capital letters name in a description. Reserved words are written there one by
one, so their class as a whole has no name. -/
def ofSymbol? (s : String) : Option Kind :=
  all.find? fun k => k ≠ reserved ∧ k.symbol = s

theorem mem_all (k : Kind) : k ∈ all := by cases k <;> decide

theorem ofSymbol?_symbol {k : Kind} (h : k ≠ reserved) : ofSymbol? k.symbol = some k := by
  cases k <;> first | exact absurd rfl h | decide

end Kind

/-- A token without its place. -/
inductive Lexeme where
  /-- The end of the text. -/
  | eof
  /-- A line break. Blank lines separate definitions, so line breaks count. -/
  | newline
  | reserved (word : Word)
  /-- A run of colons between a name and its productions. -/
  | colons (text : String)
  /-- A terminal in backticks. -/
  | terminal (text : String)
  /-- The name or code point of a control character. -/
  | control (text : String)
  /-- A nonterminal's name with an opening bracket right after it. -/
  | call (text : String)
  | nonterminal (text : String)
  /-- A nonterminal between vertical bars. -/
  | barred (text : String)
  /-- A production's label, from its number sign on. -/
  | label (text : String)
  /-- Prose to the end of the line, from its angle bracket on. -/
  | prose (text : String)
  /-- Prose in square brackets. -/
  | wrappedProse (text : String)
  deriving DecidableEq, Repr, Inhabited

namespace Lexeme

def kind : Lexeme → Kind
  | eof => .eof
  | newline => .newline
  | reserved _ => .reserved
  | colons _ => .colons
  | terminal _ => .terminal
  | control _ => .control
  | call _ => .call
  | nonterminal _ => .nonterminal
  | barred _ => .barred
  | label _ => .label
  | prose _ => .prose
  | wrappedProse _ => .wrappedProse

def text : Lexeme → String
  | eof => ""
  | newline => "\n"
  | reserved word => word.spelling
  | colons s | terminal s | control s | call s | nonterminal s | barred s | label s | prose s
  | wrappedProse s => s

/-- The lexeme of a class with a text. A reserved word of an unknown spelling reads as the
question mark. -/
def ofKind (k : Kind) (text : String) : Lexeme :=
  match k with
  | .eof => eof
  | .newline => newline
  | .reserved => reserved ((Word.ofSpelling? text).getD .question)
  | .colons => colons text
  | .terminal => terminal text
  | .control => control text
  | .call => call text
  | .nonterminal => nonterminal text
  | .barred => barred text
  | .label => label text
  | .prose => prose text
  | .wrappedProse => wrappedProse text

@[simp] theorem kind_ofKind (k : Kind) (text : String) : (ofKind k text).kind = k := by
  cases k <;> rfl

@[simp] theorem ofKind_kind_text (l : Lexeme) : ofKind l.kind l.text = l := by
  cases l <;> simp [ofKind, kind, text, Word.ofSpelling?_spelling]

end Lexeme

/-- A lexeme and the bytes that it covers. -/
structure Token where
  lexeme : Lexeme
  start : Nat
  stop : Nat
  deriving DecidableEq, Repr, Inhabited

namespace Token

def kind (t : Token) : Kind := t.lexeme.kind

def text (t : Token) : String := t.lexeme.text

def span (t : Token) : Span := ⟨t.start, t.stop⟩

def isEof (t : Token) : Bool := t.lexeme = .eof

end Token
end GrammarText
