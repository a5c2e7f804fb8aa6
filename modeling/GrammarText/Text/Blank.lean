/-!
White space: the characters that count as blank, and the three ways of cutting a text at them.
`trim` drops them at both ends, `words` splits at them, and `lines` splits at line ends.
-/

namespace GrammarText.Text

/-- A character with the Unicode property White_Space. -/
def isBlank (c : Char) : Bool :=
  let n := c.toNat
  (0x9 ≤ n && n ≤ 0xD) || n = 0x20 || n = 0x85 || n = 0xA0 || n = 0x1680 ||
  (0x2000 ≤ n && n ≤ 0x200A) || n = 0x2028 || n = 0x2029 || n = 0x202F || n = 0x205F || n = 0x3000

def trimStart (cs : List Char) : List Char := cs.dropWhile isBlank

def trimEnd (cs : List Char) : List Char := (cs.reverse.dropWhile isBlank).reverse

def trim (cs : List Char) : List Char := trimEnd (trimStart cs)

/-- Nothing is dropped where the first character fails the test. -/
theorem dropWhile_eq_self {p : Char → Bool} {cs : List Char} (h : ∀ c ∈ cs.head?, p c = false) :
    cs.dropWhile p = cs := by
  cases cs with
  | nil => rfl
  | cons c cs => simp [h c rfl]

theorem dropWhile_dropWhile (p : Char → Bool) (cs : List Char) :
    (cs.dropWhile p).dropWhile p = cs.dropWhile p := by
  refine dropWhile_eq_self fun c hc => ?_
  have := List.head?_dropWhile_not p cs
  rw [hc] at this
  exact this

theorem trim_cons_of_isBlank {c : Char} (h : isBlank c = true) (cs : List Char) :
    trim (c :: cs) = trim cs := by
  rw [trim, trim, trimStart, List.dropWhile_cons_of_pos h, trimStart]

theorem trimEnd_prefix (cs : List Char) : trimEnd cs <+: cs := by
  rw [← List.reverse_suffix, trimEnd, List.reverse_reverse]
  exact List.dropWhile_suffix isBlank

/-- What was trimmed has no blanks at its ends. -/
theorem trim_trim (cs : List Char) : trim (trim cs) = trim cs := by
  have hstart : trimStart (trim cs) = trim cs := by
    refine dropWhile_eq_self fun c hc => ?_
    obtain ⟨tail, htail⟩ := trimEnd_prefix (trimStart cs)
    have hfirst : (trimStart cs).head? = some c := by
      rw [← htail, List.head?_append]
      exact congrArg (Option.or · _) hc
    have := List.head?_dropWhile_not isBlank cs
    rw [← trimStart, hfirst] at this
    exact this
  have hend : trimEnd (trim cs) = trim cs := by
    rw [trim, trimEnd, trimEnd, List.reverse_reverse, dropWhile_dropWhile]
  rw [trim, hstart, hend]

/-- The pieces of a text between its blanks, empty pieces included. -/
def fields : List Char → List (List Char)
  | [] => [[]]
  | c :: cs =>
    if isBlank c then [] :: fields cs
    else match fields cs with
      | [] => [[c]]
      | f :: fs => (c :: f) :: fs

def words (cs : List Char) : List (List Char) := (fields cs).filter (!·.isEmpty)

/-- The lines of a text without their ends. A line ends in a line feed, before which one carriage
return may stand; the last line needs no end. -/
def lines : List Char → List (List Char)
  | [] => []
  | '\n' :: cs => [] :: lines cs
  | '\r' :: '\n' :: cs => [] :: lines cs
  | c :: cs =>
    match lines cs with
    | [] => [[c]]
    | l :: ls => (c :: l) :: ls

end GrammarText.Text
