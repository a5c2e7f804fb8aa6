import GrammarText.Diagnostic.Basic
import GrammarText.Description.Builtin
import GrammarText.Tree.Attempt
import GrammarText.Text.Quote
import Std.Data.ExtTreeSet

/-!
Parsing: the tree that a description gives to a list of tokens.

Alternatives are tried in order and the first that matches is taken for good; an item that is
asked for any number of times takes all that it can. `Description.parse` asks that the start rule
take every token up to the one for the end of the text. Where that fails, the error names all that
was asked for at the farthest place that any attempt has reached.
-/

namespace GrammarText

def takeToken (test : Token → Bool) (wanted : Wanted) (ahead : List Token) : Attempt Tree :=
  match ahead with
  | [] => .fail ahead wanted
  | t :: rest => if test t then .hit (.token t) rest else .fail ahead wanted

def Matcher.attempt (call : Rule → List Token → Attempt Tree) (m : Matcher)
    (ahead : List Token) : Attempt Tree :=
  match m with
  | .token k => takeToken (·.kind = k) (.kind k) ahead
  | .word w => takeToken (·.lexeme = .reserved w) (.word w) ahead
  | .rule r => call r ahead

/-- Matches an item. The value holds the children that the item adds to its node: one, or none for
a peek. -/
def Item.attempt (call : Rule → List Token → Attempt Tree) (i : Item)
    (ahead : List Token) : Attempt (List Tree) :=
  let once := i.matcher.attempt call
  -- Every round of a repetition but the last takes a token, so no repetition runs out of rounds.
  match i.quantifier with
  | .one => (once ahead).map ([·])
  | .optional => ((once ahead).map ([·])).orElse fun _ => .hit [.absent] ahead
  | .star => (Attempt.repeated once (ahead.length + 1) ahead).map fun ts => [.repeated ts]
  | .plus =>
    (Attempt.repeated once (ahead.length + 1) ahead).andThen fun ts rest =>
      if ts.isEmpty then ⟨.miss, []⟩ else .hit [.repeated ts] rest
  | .peek => (once ahead).andThen fun _ _ => .hit [] ahead

def attemptItems (call : Rule → List Token → Attempt Tree) :
    List Item → List Token → Attempt (List Tree)
  | [], ahead => .hit [] ahead
  | i :: items, ahead =>
    (i.attempt call ahead).andThen fun children rest =>
      (attemptItems call items rest).map (children ++ ·)

/-- Matches the first alternative that can be matched. The value holds its number, where the first
one has the number `n`. -/
def attemptFirst (call : Rule → List Token → Attempt Tree) :
    Nat → List (List Item) → List Token → Attempt (Nat × List Tree)
  | _, [], _ => ⟨.miss, []⟩
  | n, items :: alternatives, ahead =>
    ((attemptItems call items ahead).map (n, ·)).orElse fun _ =>
      attemptFirst call (n + 1) alternatives ahead

/-- Where the last of all tokens stops. -/
def closeOf (tokens : List Token) : Nat := (tokens.getLast?.map Token.stop).getD 0

/-- Where the tokens ahead start, or where the last token has ended if there are none. -/
def startOf (close : Nat) : List Token → Nat
  | [] => close
  | t :: _ => t.start

/-- Where the tokens between two places end, or where the first place is if there are none. -/
def stopOf (close : Nat) (ahead rest : List Token) : Nat :=
  match (ahead.take (ahead.length - rest.length)).getLast? with
  | some t => t.stop
  | none => startOf close ahead

namespace Description

/-- Matches a rule, with at most `depth` calls of rules inside one another. The last token of the
whole list stops at `close`. -/
def attempt (g : Description) (close : Nat) : Nat → Rule → List Token → Attempt Tree
  | 0, r, _ => ⟨.tooDeep r, []⟩
  | depth + 1, r, ahead =>
    match g.rules.alternatives? r with
    | none => ⟨.miss, []⟩
    | some alternatives =>
      (attemptFirst (g.attempt close depth) 0 alternatives ahead).andThen
        fun (alternative, children) rest =>
          .hit (.node ⟨r, alternative, startOf close ahead, stopOf close ahead rest⟩ children) rest

/-- How deeply rules can call one another over some tokens: at each place each rule once. A rule
that is called at one place from within itself would be called there without end. -/
def depthBound (g : Description) (tokens : List Token) : Nat :=
  (tokens.length + 1) * g.rules.length

end Description

def Wanted.phrase : Wanted → String
  | kind k => k.phrase
  | word w => Text.quoted w.spelling

def sortedDistinct (ss : List String) : List String := (Std.ExtTreeSet.ofList ss).toList

theorem mem_sortedDistinct {s : String} {ss : List String} : s ∈ sortedDistinct ss ↔ s ∈ ss := by
  simp [sortedDistinct]

theorem pairwise_sortedDistinct (ss : List String) : (sortedDistinct ss).Pairwise (· < ·) := by
  have h : (sortedDistinct ss).Pairwise fun a b => compare a b = .lt :=
    Std.ExtTreeSet.ordered_toList
  exact h.imp compareOfLessAndEq_eq_lt.mp

def listing : List String → String
  | [] => "nothing more"
  | [d] => d
  | ds => "one of " ++ ", ".intercalate ds

/-- The phrase for all that was asked for at one place. -/
def expectation (wanted : List Wanted) : String :=
  listing (sortedDistinct (wanted.map Wanted.phrase))

/-- The count of tokens from the farthest of some misses on. No misses count as misses at the
start. -/
def farthestLeft (total : Nat) (misses : List Miss) : Nat :=
  misses.foldl (fun left m => min left m.left) total

/-- The error for tokens that no attempt could match, given the misses of all attempts. -/
def farthestError (tokens : List Token) (close : Nat) (misses : List Miss) : ParseError :=
  let left := farthestLeft tokens.length misses
  let expected := expectation ((misses.filter (·.left = left)).map Miss.wanted)
  let ahead := tokens.drop (tokens.length - left)
  match ahead with
  | [] => .unexpectedEnd expected (.point (startOf close ahead))
  | t :: _ =>
    if t.isEof then .unexpectedEnd expected (.point t.start)
    else .unexpectedToken expected ⟨t.start, max t.stop (t.start + 1)⟩

def atEnd : List Token → Bool
  | [] => true
  | t :: _ => t.isEof

namespace Description

def parse (g : Description) (tokens : List Token) : Except ParseError Tree :=
  let close := closeOf tokens
  let a := g.attempt close (g.depthBound tokens) g.start tokens
  match a.outcome with
  | .hit tree rest =>
    if atEnd rest then .ok tree else .error (farthestError tokens close a.misses)
  | .miss => .error (farthestError tokens close a.misses)
  | .tooDeep r => .error (.leftRecursion r (.point (startOf close tokens)))

end Description

def Tree.ofTokens (tokens : List Token) : Except ParseError Tree :=
  Description.builtin.parse tokens

end GrammarText
