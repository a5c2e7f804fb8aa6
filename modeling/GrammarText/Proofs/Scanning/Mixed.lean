import GrammarText.Proofs.Scanning.Partition

/-!
# Calls of a scanner in any order

A scanner may be asked for one answer of its stream, for a token, or for all that is left, in any
order (`Scanner.ask`).  What is ahead of it are tokens and an answer after which nothing new comes
(`Scanner.Ahead`); the mark for a stream that has ended is no part of that, and once it is set no
token is ahead.  Each call takes tokens from the front (`Scanner.ask_token`), and answers what comes
last only where no token is left (`Scanner.ask_last`) or where the call itself fails.  So all calls
together answer tokens from the front of the stream, and then its last answer any number of times
(`Scanner.answers_mixed`).
-/

namespace GrammarText

open Text (byteLength)

namespace Scanner

inductive Call where
  | next
  | nextToken
  | lex
  deriving DecidableEq, Repr

inductive Answer where
  | next (answer : Option (Except LexicalError Token))
  | nextToken (answer : Except LexicalError Token)
  | lex (answer : Except LexicalError (List Token))

/-- The tokens and errors of an answer.  Several tokens in one answer count as one after another. -/
def Answer.items : Answer → List (Except LexicalError Token)
  | next none => []
  | next (some item) => [item]
  | nextToken item => [item]
  | lex (.ok ts) => ts.map .ok
  | lex (.error e) => [.error e]

def ask (s : Scanner) : Call → Answer × Scanner
  | .next => (.next s.next.1, s.next.2)
  | .nextToken => (.nextToken s.nextToken.1, s.nextToken.2)
  | .lex => (.lex s.lex.1, s.lex.2)

def answers (s : Scanner) : List Call → List Answer
  | [] => []
  | c :: cs => (s.ask c).1 :: (s.ask c).2.answers cs

/-- After an error, and after the token for the end of the text, there is no other token. -/
def IsLast (item : Except LexicalError Token) : Prop := ∀ t, item = .ok t → t.isEof = true

/-- What the stream of a scanner is: tokens, and the answer that ends it. -/
structure Streams (s : Scanner) (body : List Token) (ending : Except LexicalError Token) :
    Prop where
  reads : ∃ s' s'', s.Reads body s' ∧ s'.next = (some ending, s'')
  isEof : ∀ t ∈ body, t.isEof = false
  isLast : IsLast ending

/-- Tokens are ahead of a scanner, and an answer that comes last. -/
inductive Ahead : Scanner → List Token → Except LexicalError Token → Prop where
  | last {s s' e} (h : s.nextToken = (e, s')) (he : IsLast e) : Ahead s [] e
  | token {s s' t ts e} (h : s.nextToken = (.ok t, s')) (ht : t.isEof = false)
      (hs : Ahead s' ts e) : Ahead s (t :: ts) e

variable {s s' : Scanner} {t : Token} {ts : List Token} {e : Except LexicalError Token}

/-! ## Tokens do not depend on whether the stream has ended -/

theorem nextToken_finished (s : Scanner) (b : Bool) : { s with finished := b }.nextToken =
    (s.nextToken.1, { s.nextToken.2 with finished := b }) := by
  have hskip : ({ s with finished := b } : Scanner).skipSeparators =
      { s.skipSeparators with finished := b } := rfl
  rcases skipSeparators_cases s with hrest | ⟨l, rest, hrest, hl⟩ | ⟨c, rest, hrest, hm⟩
  · rw [nextToken_of_nil hrest, nextToken_of_nil (by rw [hskip, hrest]), hskip]
  · rw [nextToken_of_stands hrest hl, nextToken_of_stands (by rw [hskip, hrest]) hl, hskip]
  · rw [nextToken_of_none hrest hm, nextToken_of_none (by rw [hskip, hrest]) hm, hskip]

theorem finished_nextToken (s : Scanner) : s.nextToken.2.finished = s.finished :=
  congrArg (fun r => r.2.finished) (nextToken_finished s s.finished)

/-- Separators are skipped once. -/
theorem skipSeparators_skipSeparators (s : Scanner) :
    s.skipSeparators.skipSeparators = s.skipSeparators := by
  have hcount : spanCount isSeparator s.skipSeparators.rest = 0 := by
    cases hrest : s.skipSeparators.rest with
    | nil => rfl
    | cons c rest => simp [spanCount, isSeparator_skip hrest]
  rw [skipSeparators, hcount]
  simp [advance]

/-- What comes last comes each time that it is asked for. -/
theorem nextToken_again (h : s.nextToken = (e, s')) (he : IsLast e) : s'.nextToken = (e, s') := by
  have hagain := skipSeparators_skipSeparators s
  rcases skipSeparators_cases s with hrest | ⟨l, rest, hrest, hl⟩ | ⟨c, rest, hrest, hm⟩
  · rw [nextToken_of_nil hrest] at h
    cases h
    rw [nextToken_of_nil (by rw [hagain, hrest]), hagain]
  · rw [nextToken_of_stands hrest hl] at h
    cases h
    exact absurd (of_decide_eq_true (he _ rfl)) hl.ne_eof
  · rw [nextToken_of_none hrest hm] at h
    cases h
    rw [nextToken_of_none (by rw [hagain, hrest]) hm, hagain]

def close (s : Scanner) : Nat := s.offset + byteLength s.rest

theorem close_skipSeparators (s : Scanner) : s.skipSeparators.close = s.close := by
  rw [close, skipSeparators, advance, Nat.add_assoc, ← Text.byteLength_append,
    List.take_append_drop, close]

theorem close_nextToken (s : Scanner) : s.nextToken.2.close = s.close := by
  rw [← close_skipSeparators s]
  rcases skipSeparators_cases s with hrest | ⟨l, rest, hrest, hl⟩ | ⟨c, rest, hrest, hm⟩
  · rw [nextToken_of_nil hrest]
  · rw [nextToken_of_stands hrest hl, close, close, hrest, Text.byteLength_append, Nat.add_assoc]
  · rw [nextToken_of_none hrest hm]

/-- The token for the end of the text stands there. -/
theorem eq_eof_of_isEof (h : s.nextToken.1 = .ok t) (ht : t.isEof = true) :
    t = ⟨.eof, s.close, s.close⟩ := by
  rcases skipSeparators_cases s with hrest | ⟨l, rest, hrest, hl⟩ | ⟨c, rest, hrest, hm⟩
  · have hclose : s.skipSeparators.offset = s.close := by
      rw [← close_skipSeparators, close, hrest, Text.byteLength_nil, Nat.add_zero]
    rw [nextToken_of_nil hrest, hclose] at h
    exact (Except.ok.inj h).symm
  · rw [nextToken_of_stands hrest hl] at h
    obtain rfl := Except.ok.inj h
    exact absurd (of_decide_eq_true ht) hl.ne_eof
  · rw [nextToken_of_none hrest hm] at h
    cases h

/-! ## What is ahead of a scanner -/

theorem exists_ahead (s : Scanner) : ∃ ts e, s.Ahead ts e := by
  induction hn : s.rest.length using Nat.strongRecOn generalizing s with
  | ind n ih =>
    cases hnext : s.nextToken with
    | mk answer s' =>
      cases answer with
      | error e => exact ⟨[], _, .last hnext fun t ht => by cases ht⟩
      | ok t =>
        cases ht : t.isEof with
        | true => exact ⟨[], _, .last hnext fun u hu => Except.ok.inj hu ▸ ht⟩
        | false =>
          have hlen : s'.rest.length < n := by
            simpa [ht, hn] using length_rest_nextToken hnext
          obtain ⟨ts, e, hs⟩ := ih _ hlen s' rfl
          exact ⟨t :: ts, e, .token hnext ht hs⟩

namespace Ahead

theorem isLast (h : s.Ahead ts e) : IsLast e := by
  induction h with
  | last h he => exact he
  | token h ht hs ih => exact ih

theorem isEof (h : s.Ahead ts e) : ∀ t ∈ ts, t.isEof = false := by
  induction h with
  | last h he => simp
  | token h ht hs ih => exact List.forall_mem_cons.mpr ⟨ht, ih⟩

theorem finished (h : s.Ahead ts e) (b : Bool) : { s with finished := b }.Ahead ts e := by
  induction h with
  | last h he => exact .last ((nextToken_finished _ b).trans (by rw [h])) he
  | token h ht hs ih => exact .token ((nextToken_finished _ b).trans (by rw [h])) ht ih

/-- The text ends where the token for its end stands. -/
theorem eq_eof (h : s.Ahead ts e) (he : e = .ok t) : t = ⟨.eof, s.close, s.close⟩ := by
  induction h with
  | @last s s' e h hlast => exact eq_eof_of_isEof ((congrArg Prod.fst h).trans he) (hlast t he)
  | @token s s' u ts e h hu hs ih =>
    have hclose : s'.close = s.close := by rw [← close_nextToken s, h]
    rw [ih he, hclose]

/-- The stream answers a token that is ahead, and goes on. -/
theorem next_token (h : s.Ahead (t :: ts) e) (hf : s.finished = false) :
    ∃ s', s.next = (some (.ok t), s') ∧ s'.finished = false ∧ s'.Ahead ts e := by
  cases h with
  | @token _ s' _ _ _ h ht hs =>
    refine ⟨{ s' with finished := false }, ?_, rfl, hs.finished false⟩
    rw [Scanner.next, hf, h]
    simp only [Bool.false_eq_true, if_false, ht]

/-- The stream answers what comes last, and ends. -/
theorem next_last (h : s.Ahead [] e) (hf : s.finished = false) :
    ∃ s', s.next = (some e, s') ∧ s'.finished = true ∧ s'.Ahead [] e := by
  cases h with
  | @last _ s' _ h he =>
    refine ⟨{ s' with finished := true }, ?_, rfl, (last (nextToken_again h he) he).finished true⟩
    rw [Scanner.next, hf, h]
    cases e with
    | error e => rfl
    | ok t => simp only [Bool.false_eq_true, if_false, he t rfl]

/-- What comes last is answered again and again. -/
theorem nextToken_last (h : s.Ahead [] e) :
    s.nextToken.1 = e ∧ s.nextToken.2.Ahead [] e := by
  cases h with
  | last h he =>
    rw [h]
    exact ⟨rfl, .last (nextToken_again h he) he⟩

/-- All that is left of a stream are the tokens that are ahead, with the one for the end of the
text, or the error that comes last. -/
theorem lex_eq (h : s.Ahead ts e) (hf : s.finished = false) :
    ∃ s', s.lex = (e.map fun t => ts ++ [t], s') ∧ s'.finished = true ∧ s'.Ahead [] e := by
  induction ts generalizing s with
  | nil =>
    obtain ⟨s', hnext, hf', hs'⟩ := h.next_last hf
    cases e with
    | error e => exact ⟨s', lex_eq_of_next_error hnext, hf', hs'⟩
    | ok t =>
      refine ⟨s', ?_, hf', hs'⟩
      rw [lex_eq_of_next hnext, lex_eq_of_finished hf']
      rfl
  | cons t ts ih =>
    obtain ⟨s', hnext, hf', hs'⟩ := h.next_token hf
    obtain ⟨s'', hlex, hf'', hs''⟩ := ih hs' hf'
    refine ⟨s'', ?_, hf'', hs''⟩
    rw [lex_eq_of_next hnext, hlex]
    cases e <;> rfl

/-- What is ahead of a scanner at the start of its stream is its stream. -/
theorem streams (h : s.Ahead ts e) (hf : s.finished = false) : s.Streams ts e := by
  refine ⟨?_, h.isEof, h.isLast⟩
  induction ts generalizing s with
  | nil =>
    obtain ⟨s', hnext, -, -⟩ := h.next_last hf
    exact ⟨s, s', .done, hnext⟩
  | cons t ts ih =>
    obtain ⟨s', hnext, hf', hs'⟩ := h.next_token hf
    obtain ⟨last, after, hreads, hlast⟩ := ih hs' hf'
    exact ⟨last, after, .token hnext hreads, hlast⟩

end Ahead

/-! ## One call, and then many -/

/-- Once the stream has ended, it has nothing more, and all that is left of it is nothing. -/
theorem ask_finished (hf : s.finished = true) (c : Call) :
    c = .nextToken ∨ s.ask c = (.next none, s) ∨ s.ask c = (.lex (.ok []), s) := by
  cases c with
  | next =>
    have hnext : s.next = (none, s) := by rw [next, if_pos hf]
    exact .inr (.inl (by rw [ask, hnext]))
  | nextToken => exact .inl rfl
  | lex => exact .inr (.inr (by rw [ask, lex_eq_of_finished hf]))

/-- Where no token is ahead, a call answers what comes last, or nothing. -/
theorem ask_last (h : s.Ahead [] e) (c : Call) : ∃ count,
    (s.ask c).1.items = List.replicate count e ∧ (s.ask c).2.Ahead [] e := by
  have htoken : ∃ count, (s.ask .nextToken).1.items = List.replicate count e ∧
      (s.ask .nextToken).2.Ahead [] e := by
    obtain ⟨hitem, hs'⟩ := h.nextToken_last
    exact ⟨1, by rw [ask, hitem]; rfl, hs'⟩
  cases hf : s.finished with
  | true =>
    rcases ask_finished hf c with rfl | hask | hask
    · exact htoken
    · exact ⟨0, by rw [hask]; rfl, by rw [hask]; exact h⟩
    · exact ⟨0, by rw [hask]; rfl, by rw [hask]; exact h⟩
  | false =>
    cases c with
    | next =>
      obtain ⟨s', hnext, -, hs'⟩ := h.next_last hf
      exact ⟨1, by rw [ask, hnext]; rfl, by rw [ask, hnext]; exact hs'⟩
    | nextToken => exact htoken
    | lex =>
      obtain ⟨s', hlex, -, hs'⟩ := h.lex_eq hf
      refine ⟨1, ?_, by rw [ask, hlex]; exact hs'⟩
      rw [ask, hlex]
      cases e <;> rfl

/-- Where a token is ahead, a call for one token takes it, if the stream has not ended. -/
theorem ask_token (h : s.Ahead (t :: ts) e) (hf : s.finished = false) {c : Call} (hc : c ≠ .lex) :
    (s.ask c).1.items = [.ok t] ∧ (s.ask c).2.Ahead ts e ∧ (s.ask c).2.finished = false := by
  cases c with
  | next =>
    obtain ⟨s', hnext, hf', hs'⟩ := h.next_token hf
    rw [ask, hnext]
    exact ⟨rfl, hs', hf'⟩
  | nextToken =>
    have hf' := (finished_nextToken s).trans hf
    cases h with
    | token h ht hs =>
      rw [h] at hf'
      rw [ask, h]
      exact ⟨rfl, hs, hf'⟩
  | lex => exact absurd rfl hc

/-- However a scanner is asked, what it has ahead after that comes last in the same answer. -/
theorem ask_ahead (h : s.Ahead ts e) (c : Call) : ∃ left, (s.ask c).2.Ahead left e := by
  cases h with
  | last h he =>
    obtain ⟨-, -, hs'⟩ := ask_last (.last h he) c
    exact ⟨[], hs'⟩
  | @token _ s' t ts _ hnext ht hs =>
    have h : s.Ahead (t :: ts) e := .token hnext ht hs
    cases hf : s.finished with
    | true =>
      rcases ask_finished hf c with rfl | hask | hask
      · exact ⟨ts, by rw [ask, hnext]; exact hs⟩
      · exact ⟨t :: ts, by rw [hask]; exact h⟩
      · exact ⟨t :: ts, by rw [hask]; exact h⟩
    | false =>
      by_cases hc : c = .lex
      · obtain ⟨s', hlex, -, hs'⟩ := h.lex_eq hf
        exact ⟨[], by rw [hc, ask, hlex]; exact hs'⟩
      · exact ⟨ts, (ask_token h hf hc).2.1⟩

theorem answers_last (h : s.Ahead [] e) (calls : List Call) : ∃ count,
    (s.answers calls).flatMap Answer.items = List.replicate count e := by
  induction calls generalizing s with
  | nil => exact ⟨0, rfl⟩
  | cons c calls ih =>
    obtain ⟨count, hitems, hs'⟩ := ask_last h c
    obtain ⟨more, hmore⟩ := ih hs'
    exact ⟨count + more, by rw [answers, List.flatMap_cons, hitems, hmore,
      List.replicate_append_replicate]⟩

/-- Calls take tokens from the front of those that are ahead, and then answer what comes last.  They
do so before all tokens are taken only if one of them fails to read all that is left. -/
theorem answers_take (h : s.Ahead ts e) (hf : s.finished = false) (calls : List Call) :
    ∃ taken count, taken <+: ts ∧
      (s.answers calls).flatMap Answer.items = taken.map .ok ++ List.replicate count e ∧
      (count ≠ 0 → taken = ts ∨ ∃ x, .lex (.error x) ∈ s.answers calls) := by
  induction calls generalizing s ts with
  | nil => exact ⟨[], 0, List.nil_prefix, rfl, fun h => absurd rfl h⟩
  | cons c calls ih =>
    cases ts with
    | nil =>
      obtain ⟨count, hitems⟩ := answers_last h (c :: calls)
      exact ⟨[], count, List.nil_prefix, hitems, fun _ => .inl rfl⟩
    | cons t ts =>
      by_cases hc : c = .lex
      · subst hc
        obtain ⟨s', hlex, -, hs'⟩ := h.lex_eq hf
        obtain ⟨count, hitems⟩ := answers_last hs' calls
        have hanswers : s.answers (.lex :: calls) =
            .lex (e.map fun u => (t :: ts) ++ [u]) :: s'.answers calls := by
          rw [answers, ask, hlex]
        rw [hanswers, List.flatMap_cons, hitems]
        cases e with
        | ok u =>
          refine ⟨t :: ts, count + 1, List.prefix_rfl, ?_, fun _ => .inl rfl⟩
          simp [Answer.items, Except.map, List.replicate_succ]
        | error x => exact ⟨[], count + 1, List.nil_prefix, rfl, fun _ => .inr ⟨x, .head _⟩⟩
      · obtain ⟨hitem, hs', hf'⟩ := ask_token h hf hc
        obtain ⟨taken, count, htaken, hitems, hcount⟩ := ih hs' hf'
        refine ⟨t :: taken, count, (List.prefix_cons_inj t).mpr htaken, ?_, fun hne => ?_⟩
        · rw [answers, List.flatMap_cons, hitem, hitems]
          rfl
        · rcases hcount hne with rfl | ⟨x, hx⟩
          · exact .inl rfl
          · exact .inr ⟨x, .tail _ hx⟩

/-- Once the stream has ended, only what comes last is answered, and only to a call for a token. -/
theorem answers_finished (h : s.Ahead [] e) (hf : s.finished = true) (calls : List Call) :
    ∀ a ∈ s.answers calls, a = .next none ∨ a = .nextToken e ∨ a = .lex (.ok []) := by
  induction calls generalizing s with
  | nil => simp [answers]
  | cons c calls ih =>
    rw [answers, List.forall_mem_cons]
    rcases ask_finished hf c with rfl | hask | hask
    · obtain ⟨hitem, hs'⟩ := h.nextToken_last
      exact ⟨.inr (.inl (congrArg Answer.nextToken hitem)),
        ih hs' ((finished_nextToken s).trans hf)⟩
    · rw [hask]
      exact ⟨.inl rfl, ih h hf⟩
    · rw [hask]
      exact ⟨.inr (.inr rfl), ih h hf⟩

/-- Once the stream has answered what comes last, it has ended. -/
theorem answers_after {calls : List Call} {before later : List Answer} (h : s.Ahead ts e)
    (ha : s.answers calls = before ++ .next (some e) :: later) :
    ∀ a ∈ later, a = .next none ∨ a = .nextToken e ∨ a = .lex (.ok []) := by
  induction before generalizing s ts calls with
  | nil =>
    cases calls with
    | nil => cases ha
    | cons c calls =>
      obtain ⟨hanswer, rfl⟩ := List.cons_eq_cons.mp ha
      cases c with
      | nextToken | lex => cases hanswer
      | next =>
        have hnext : s.next.1 = some e := Answer.next.inj hanswer
        have hf : s.finished = false := by
          refine Bool.eq_false_iff.mpr fun hf => ?_
          rw [next, if_pos hf] at hnext
          cases hnext
        cases ts with
        | nil =>
          obtain ⟨s', hs, hf', hs'⟩ := h.next_last hf
          rw [ask, hs]
          exact answers_finished hs' hf' calls
        | cons t ts =>
          -- A token that is ahead does not come last.
          obtain ⟨s', hs, -, -⟩ := h.next_token hf
          rw [hs] at hnext
          have hlast := h.isLast t (Option.some.inj hnext).symm
          simp [h.isEof t (.head _)] at hlast
  | cons b before ih =>
    cases calls with
    | nil => cases ha
    | cons c calls =>
      obtain ⟨-, ha⟩ := List.cons_eq_cons.mp ha
      obtain ⟨left, hs'⟩ := ask_ahead h c
      exact ih hs' ha

/-- However calls of a scanner are mixed, what they answer are tokens of the stream of its text,
from the first one on and in order, and then the answer that ends the stream, any number of times:
the token for the end of the text, or the first error.  This answer comes before all tokens only
where an attempt to read all that is left has failed.  And once the stream has given it, the stream
has nothing more, while a token asked for is still that answer. -/
theorem answers_mixed (text : String) (calls : List Call) :
    let s := ofText text.toList
    let close := byteLength text.toList
    ∃ body ending, s.Streams body ending ∧ (∀ t, ending = .ok t → t = ⟨.eof, close, close⟩) ∧
      (∃ taken count, taken <+: body ∧
        (s.answers calls).flatMap Answer.items = taken.map .ok ++ List.replicate count ending ∧
        (count ≠ 0 → taken = body ∨ ∃ x, .lex (.error x) ∈ s.answers calls)) ∧
      ∀ before later, s.answers calls = before ++ .next (some ending) :: later →
        ∀ a ∈ later, a = .next none ∨ a = .nextToken ending ∨ a = .lex (.ok []) := by
  intro s close
  have hclose : s.close = close := Nat.zero_add _
  obtain ⟨body, ending, h⟩ := exists_ahead s
  refine ⟨body, ending, h.streams rfl, fun t ht => ?_, answers_take h rfl calls,
    fun before later ha => answers_after h ha⟩
  rw [← hclose]
  exact h.eq_eof ht

/-- Where the stream of a text ends in an error, this error is the answer to the calls after it. -/
theorem answers_mixed_refused :
    let a : Token := ⟨.nonterminal "A", 0, 1⟩
    let error : LexicalError := .unexpectedCharacter '<' ⟨1, 3⟩ ⟨2, 3⟩
    (ofText "A <".toList).answers [.nextToken, .next, .nextToken, .next] =
        [.nextToken (.ok a)] ++ .next (some (.error error)) ::
          [.nextToken (.error error), .next none] ∧
      ∀ b ∈ [Answer.nextToken (.error error), .next none],
        b = .next none ∨ b = .nextToken (.error error) ∨ b = .lex (.ok []) := by
  intro a error
  have hanswers : (ofText "A <".toList).answers [.nextToken, .next, .nextToken, .next] =
      [.nextToken (.ok a)] ++ .next (some (.error error)) ::
        [.nextToken (.error error), .next none] := rfl
  obtain ⟨body, ending, -, -, ⟨taken, count, -, hitems, -⟩, hafter⟩ :=
    answers_mixed "A <" [.nextToken, .next, .nextToken, .next]
  -- Only the answer that ends the stream is an error.
  have hending : .error error = ending := by
    have hmem : .error error ∈ taken.map Except.ok ++ List.replicate count ending := by
      rw [← hitems, hanswers]
      simp [Answer.items]
    obtain ⟨-, h⟩ : count ≠ 0 ∧ .error error = ending := by simpa using hmem
    exact h
  subst hending
  exact ⟨hanswers, hafter _ _ hanswers⟩

end Scanner
end GrammarText
