import GrammarText.Diagnostic.Basic
import GrammarText.Token.Class

/-!
Scanning: a text as a stream of tokens, read one by one.

`Scanner.nextToken` reads the token at the scanner's place. `Scanner.next` is the stream: it ends
after the token for the end of the text, or after the first error. `Scanner.lex` reads what is
left of the stream, and `tokensOf` all tokens of a text.
-/

namespace GrammarText

/-- A character that separates tokens and is none itself. Line breaks are tokens. -/
def isSeparator (c : Char) : Bool := c = ' ' || c = '\t' || c = '\r'

/-- A place in a text that is being read, and whether its stream has ended. -/
structure Scanner where
  text : List Char
  /-- What is still to be read: the text from `offset` on. -/
  rest : List Char
  offset : Nat
  finished : Bool
  deriving DecidableEq, Repr

namespace Scanner

def ofText (text : List Char) : Scanner := ⟨text, text, 0, false⟩

def advance (s : Scanner) (n : Nat) : Scanner :=
  { s with rest := s.rest.drop n, offset := s.offset + Text.byteLength (s.rest.take n) }

def skipSeparators (s : Scanner) : Scanner := s.advance (spanCount isSeparator s.rest)

/-- Reads the token ahead. At the end of the text the answer is the token for that end, each time
it is asked for; where no token class fits, an error, and the scanner stays before it. -/
def nextToken (s : Scanner) : Except LexicalError Token × Scanner :=
  let s := s.skipSeparators
  match s.rest with
  | [] => (.ok ⟨.eof, s.offset, s.offset⟩, s)
  | c :: _ =>
    -- The separators before an error count as read, the character itself does not.
    match matchAt s.rest with
    | some (kind, n) =>
      let s' := s.advance n
      (.ok ⟨.ofKind kind (String.ofList (s.rest.take n)), s.offset, s'.offset⟩, s')
    | none =>
      (.error (.unexpectedCharacter c (Text.placeAt s.text s.offset)
        ⟨s.offset, s.offset + c.utf8Size⟩), s)

/-- Reads on in the stream, whose last answer is the end of the text or an error. -/
def next (s : Scanner) : Option (Except LexicalError Token) × Scanner :=
  if s.finished then (none, s)
  else
    let (answer, s') := s.nextToken
    match answer with
    | .ok t => (some (.ok t), { s' with finished := t.isEof })
    | .error e => (some (.error e), { s' with finished := true })

/-- What is left of a stream: one more than the characters ahead, and nothing once it ended. -/
def remaining (s : Scanner) : Nat := if s.finished then 0 else s.rest.length + 1

theorem length_rest_advance (s : Scanner) (n : Nat) :
    (s.advance n).rest.length = s.rest.length - n := by
  simp [advance]

theorem length_rest_skipSeparators_le (s : Scanner) :
    s.skipSeparators.rest.length ≤ s.rest.length := by
  rw [skipSeparators, length_rest_advance]
  exact Nat.sub_le _ _

theorem length_rest_nextToken {s s' : Scanner} {t : Token} (h : s.nextToken = (.ok t, s')) :
    t.isEof = true ∨ s'.rest.length < s.rest.length := by
  have hle := s.length_rest_skipSeparators_le
  simp only [nextToken] at h
  split at h
  · obtain ⟨h, -⟩ := Prod.mk.injEq _ _ _ _ ▸ h
    cases h
    exact .inl rfl
  · rename_i c cs hrest
    split at h
    · rename_i kind n hm
      have hn := matchAt_pos hm
      obtain ⟨-, rfl⟩ := Prod.mk.injEq _ _ _ _ ▸ h
      right
      rw [length_rest_advance]
      have : 0 < s.skipSeparators.rest.length := by rw [hrest]; simp
      omega
    · simp at h

theorem remaining_next {s s' : Scanner} {t : Token} (h : s.next = (some (.ok t), s')) :
    s'.remaining < s.remaining := by
  simp only [next] at h
  split at h
  · simp at h
  · rename_i hf
    split at h
    · rename_i t' ht
      obtain ⟨ht', rfl⟩ := Prod.mk.injEq _ _ _ _ ▸ h
      have hlen : t'.isEof = true ∨ s.nextToken.2.rest.length < s.rest.length :=
        length_rest_nextToken (by rw [← ht])
      simp only [remaining, hf]
      rcases hlen with hlen | hlen
      · simp [hlen]
      · by_cases he : t'.isEof = true
        · simp [he]
        · simp [he]; omega
    · simp at h

/-- Reads the stream to its end: all tokens, or the first error. -/
def lex (s : Scanner) : Except LexicalError (List Token) × Scanner :=
  match _h : s.next with
  | (none, s') => (.ok [], s')
  | (some (.error e), s') => (.error e, s')
  | (some (.ok t), s') =>
    match s'.lex with
    | (.ok ts, s'') => (.ok (t :: ts), s'')
    | (.error e, s'') => (.error e, s'')
termination_by s.remaining
decreasing_by exact remaining_next _h

end Scanner

/-- The tokens of a text, the last of which stands for its end. -/
def tokensOf (text : String) : Except LexicalError (List Token) :=
  (Scanner.ofText text.toList).lex.1

end GrammarText
