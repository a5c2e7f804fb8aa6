import GrammarText.Text.Position
import GrammarText.Text.Quote
import GrammarText.Text.WordChar
import GrammarText.Token.Basic

/-!
Token classes, and the rule that picks one: the longest lexeme wins, and of two classes that reach
equally far the one listed first.

`Kind.reach` says how many characters at the start of a text are the longest lexeme of one class;
zero stands for none, as no lexeme is empty. `matchAt` is the rule over all classes.
-/

namespace GrammarText

def isCapital (c : Char) : Bool := c.isUpper

/-- A digit of a code point in base sixteen, of either case. -/
def isHexDigit (c : Char) : Bool :=
  c.isDigit || ('a' ≤ c && c ≤ 'f') || ('A' ≤ c && c ≤ 'F')

def isTerminalChar (c : Char) : Bool := c ≠ Text.backtick && c ≠ ' ' && c ≠ '\n'

/-- The count of leading characters that satisfy a test. -/
def spanCount (p : Char → Bool) (cs : List Char) : Nat := (cs.takeWhile p).length

namespace Kind

/-- The longest reserved word at the start of a text. No word boundary is asked for after it. -/
def reachReserved (cs : List Char) : Nat :=
  Word.all.foldl (fun n w =>
    let s := w.spelling.toList
    if s.isPrefixOf cs then max n s.length else n) 0

/-- A terminal is one or more characters between backticks, neither blank nor line break, or a
backtick between backticks. -/
def reachTerminal : List Char → Nat
  | c :: cs =>
    if c = Text.backtick then
      let n := spanCount isTerminalChar cs
      match n, cs.drop n with
      -- Three backticks in a row.
      | 0, d :: e :: _ => if d = Text.backtick ∧ e = Text.backtick then 3 else 0
      | n + 1, d :: _ => if d = Text.backtick then n + 3 else 0
      | _, _ => 0
    else 0
  | [] => 0

/-- A control character is written as capital letters in angle brackets, or as its code point:
`U+` and four digits in base sixteen. -/
def reachControl : List Char → Nat
  | '<' :: cs =>
    let n := spanCount isCapital cs
    match n, cs.drop n with
    | n + 1, '>' :: _ => n + 3
    | _, _ => 0
  | 'U' :: '+' :: a :: b :: c :: d :: _ =>
    if isHexDigit a && isHexDigit b && isHexDigit c && isHexDigit d then 6 else 0
  | _ => 0

/-- A nonterminal's name starts with a capital letter or with `uri` and goes on with word
characters. -/
def reachName : List Char → Nat
  | 'u' :: 'r' :: 'i' :: cs => 3 + spanCount Text.isWordChar cs
  | c :: cs => if isCapital c then 1 + spanCount Text.isWordChar cs else 0
  | [] => 0

/-- A call is a name with an opening bracket right after it, which stays outside. -/
def reachCall (cs : List Char) : Nat :=
  let n := reachName cs
  match cs.drop n with
  | '[' :: _ => n
  | _ => 0

/-- A barred nonterminal is a capital letter and one or more word characters between bars. -/
def reachBarred : List Char → Nat
  | '|' :: c :: cs =>
    let n := spanCount Text.isWordChar cs
    match isCapital c, n, cs.drop n with
    | true, n + 1, '|' :: _ => n + 4
    | _, _, _ => 0
  | _ => 0

/-- A label is a number sign, an ASCII letter, and word characters. -/
def reachLabel : List Char → Nat
  | '#' :: c :: cs => if c.isAlpha then 2 + spanCount Text.isWordChar cs else 0
  | _ => 0

/-- Prose goes from its angle bracket to the end of the line. -/
def reachProse : List Char → Nat
  | '>' :: cs => 1 + spanCount (· ≠ '\n') cs
  | _ => 0

/-- Wrapped prose goes from its brackets to the next closing bracket, over line breaks too. -/
def reachWrappedProse : List Char → Nat
  | '[' :: '>' :: cs =>
    let n := spanCount (· ≠ ']') cs
    match cs.drop n with
    | ']' :: _ => n + 3
    | _ => 0
  | _ => 0

/-- How many characters at the start of a text are a lexeme of the class, the longest one; zero
if there is none. -/
def reach : Kind → List Char → Nat
  | eof, _ => 0
  | newline, cs => match cs with
    | '\n' :: _ => 1
    | _ => 0
  | reserved, cs => reachReserved cs
  | colons, cs => spanCount (· = ':') cs
  | terminal, cs => reachTerminal cs
  | control, cs => reachControl cs
  | call, cs => reachCall cs
  | nonterminal, cs => reachName cs
  | barred, cs => reachBarred cs
  | label, cs => reachLabel cs
  | prose, cs => reachProse cs
  | wrappedProse, cs => reachWrappedProse cs

end Kind

/-- The class of a list that reaches farthest into a text, the first such, and how far. -/
def farthest (cs : List Char) : List Kind → Option (Kind × Nat)
  | [] => none
  | k :: ks =>
    let n := k.reach cs
    match farthest cs ks with
    | some (l, m) => if n < m then some (l, m) else some (k, n)
    | none => if n = 0 then none else some (k, n)

/-- The class of the lexeme at the start of a text, and the characters that it takes. -/
def matchAt (cs : List Char) : Option (Kind × Nat) := farthest cs Kind.all

theorem farthest_pos {cs : List Char} {ks : List Kind} {k : Kind} {n : Nat}
    (h : farthest cs ks = some (k, n)) : 0 < n := by
  induction ks generalizing k n with
  | nil => simp [farthest] at h
  | cons a ks ih =>
    simp only [farthest] at h
    split at h
    · rename_i l m hm
      split at h
      · obtain ⟨rfl, rfl⟩ := by simpa using h
        exact ih hm
      · obtain ⟨rfl, rfl⟩ := by simpa using h
        have := ih hm
        omega
    · split at h
      · simp at h
      · obtain ⟨rfl, rfl⟩ := by simpa using h
        omega

theorem matchAt_pos {cs : List Char} {k : Kind} {n : Nat} (h : matchAt cs = some (k, n)) :
    0 < n := farthest_pos h

end GrammarText
