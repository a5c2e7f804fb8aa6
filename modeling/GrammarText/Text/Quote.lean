/-!
Backtick quoting. A quoted text stands between two backticks and is not empty, so the two
functions are inverse on texts that are not empty.
-/

namespace GrammarText.Text

def backtick : Char := '\x60'

def quote (cs : List Char) : List Char := backtick :: (cs ++ [backtick])

/-- What stands between the two backticks of a quoted text. Nothing between them is no quoted
text, and neither is a lone backtick. -/
def unquote? : List Char → Option (List Char)
  | [] => none
  | c :: cs =>
    match cs.reverse with
    | d :: e :: body =>
      if c = backtick ∧ d = backtick then some (e :: body).reverse else none
    | _ => none

theorem unquote?_quote {cs : List Char} (h : cs ≠ []) : unquote? (quote cs) = some cs := by
  cases hr : cs.reverse with
  | nil => exact absurd (List.reverse_eq_nil_iff.mp hr) h
  | cons e body =>
    have hcs : cs = (e :: body).reverse := by rw [← hr, List.reverse_reverse]
    simp [quote, unquote?, hcs]

def quoted (s : String) : String := String.ofList (quote s.toList)

end GrammarText.Text
