import GrammarText.Proofs.Scanning.Slices

/-!
# Scanning loses nothing

The tokens of a text part it: each of them covers its own text, they stand one after another, and
all that lies outside of them are separators (`Partitions`).  Where a text is refused, the tokens
that the scanner has read until then part the characters before the one that it is refused for
(`tokensOf_partitions`).
-/

namespace GrammarText

open Text (byteLength)

structure Partitions (text : List Char) (ts : List Token) : Prop where
  /-- No token stands for the end of the text. -/
  isEof : ∀ t ∈ ts, t.isEof = false
  nonempty : ∀ t ∈ ts, t.start < t.stop
  /-- The bytes of a token go from a character to a character, and they are its own text. -/
  covers : ∀ t ∈ ts, Covers text t.span t.text.toList
  ordered : ts.Pairwise fun t u => t.stop ≤ u.start
  /-- A character with a byte that lies in no token is a separator. -/
  separators : ∀ before c after, text = before ++ c :: after →
    ∀ i, byteLength before ≤ i → i < byteLength before + c.utf8Size →
      (∀ t ∈ ts, ¬ (t.start ≤ i ∧ i < t.stop)) → isSeparator c = true

/-! ## Characters that are read -/

/-- Some characters, the first of which has an offset, are the texts of tokens and separators. -/
inductive Passes : Nat → List Char → List Token → Prop where
  | done {o} : Passes o [] []
  | separator {o c cs ts} (hc : isSeparator c = true) (h : Passes (o + c.utf8Size) cs ts) :
      Passes o (c :: cs) ts
  | token {o l cs ts} (hl : l.text.toList ≠ [])
      (h : Passes (o + byteLength l.text.toList) cs ts) :
      Passes o (l.text.toList ++ cs) (⟨l, o, o + byteLength l.text.toList⟩ :: ts)

namespace Passes

variable {cs blanks : List Char} {o : Nat} {ts : List Token}

/-- Only the end of the text is empty, and it is not passed. -/
theorem bounds (h : Passes o cs ts) :
    ∀ t ∈ ts, o ≤ t.start ∧ t.start < t.stop ∧ t.isEof = false := by
  induction h with
  | done => simp
  | separator hc h ih =>
    intro t ht
    obtain ⟨hstart, hrest⟩ := ih t ht
    exact ⟨by omega, hrest⟩
  | @token o l cs ts hl h ih =>
    have hpos := byteLength_pos hl
    have heof : l ≠ .eof := by
      rintro rfl
      exact hl rfl
    rw [List.forall_mem_cons]
    refine ⟨⟨Nat.le_refl o, by simpa using hpos, decide_eq_false heof⟩, fun t ht => ?_⟩
    obtain ⟨hstart, hrest⟩ := ih t ht
    exact ⟨by omega, hrest⟩

theorem pairwise (h : Passes o cs ts) : ts.Pairwise fun t u => t.stop ≤ u.start := by
  induction h with
  | done => exact .nil
  | separator hc h ih => exact ih
  | token hl h ih => exact List.pairwise_cons.mpr ⟨fun u hu => (h.bounds u hu).1, ih⟩

/-- The text of a token stands where the token does. -/
theorem exists_span (h : Passes o cs ts) : ∀ t ∈ ts, ∃ before after,
    cs = before ++ t.text.toList ++ after ∧
      t.span = ⟨o + byteLength before, o + byteLength (before ++ t.text.toList)⟩ := by
  induction h with
  | done => simp
  | @separator o c cs ts hc h ih =>
    intro t ht
    obtain ⟨before, after, rfl, hspan⟩ := ih t ht
    exact ⟨c :: before, after, rfl, by simp [hspan, Nat.add_assoc]⟩
  | @token o l cs ts hl h ih =>
    rw [List.forall_mem_cons]
    refine ⟨⟨[], cs, rfl, rfl⟩, fun t ht => ?_⟩
    obtain ⟨before, after, rfl, hspan⟩ := ih t ht
    exact ⟨l.text.toList ++ before, after, by simp, by simp [hspan, Nat.add_assoc]⟩

/-- A character with a byte outside of all tokens is a separator. -/
theorem isSeparator {before after : List Char} {c : Char} {i : Nat} (h : Passes o cs ts)
    (hcs : cs = before ++ c :: after) (hle : o + byteLength before ≤ i)
    (hlt : i < o + byteLength before + c.utf8Size)
    (hout : ∀ t ∈ ts, ¬ (t.start ≤ i ∧ i < t.stop)) : isSeparator c = true := by
  induction h generalizing before with
  | done => simp at hcs
  | @separator o d cs ts hd h ih =>
    cases before with
    | nil =>
      obtain ⟨rfl, rfl⟩ := List.cons_eq_cons.mp hcs
      exact hd
    | cons b before =>
      obtain ⟨rfl, rfl⟩ := List.cons_eq_cons.mp hcs
      rw [Text.byteLength_cons] at hle hlt
      exact ih rfl (by omega) (by omega) hout
  | @token o l cs ts hl h ih =>
    rw [List.forall_mem_cons] at hout
    -- The character stands behind the text of the token, or in it.
    have hbehind : ∀ before', before = l.text.toList ++ before' → cs = before' ++ c :: after →
        GrammarText.isSeparator c = true := by
      rintro before' rfl hcs'
      rw [Text.byteLength_append] at hle hlt
      exact ih hcs' (by omega) (by omega) hout.2
    rcases List.append_eq_append_iff.mp hcs with ⟨before', hbefore, hcs'⟩ | ⟨inner, htext, hcs'⟩
    · exact hbehind before' hbefore hcs'
    · cases inner with
      | nil => exact hbehind [] (by simpa using htext.symm) hcs'.symm
      | cons d inner =>
        obtain ⟨rfl, -⟩ := List.cons_eq_cons.mp hcs'
        refine absurd ⟨?_, ?_⟩ hout.1
        · show o ≤ i
          omega
        · show i < o + byteLength l.text.toList
          rw [htext, Text.byteLength_append, Text.byteLength_cons]
          omega

/-- Characters that are read from the start of a text on are parted by their tokens. -/
theorem partitions (h : Passes 0 cs ts) : Partitions cs ts where
  isEof t ht := (h.bounds t ht).2.2
  nonempty t ht := (h.bounds t ht).2.1
  covers t ht := by
    obtain ⟨before, after, hcs, hspan⟩ := h.exists_span t ht
    exact ⟨before, after, hcs, by simpa using hspan⟩
  ordered := h.pairwise
  separators before c after hcs i hle hlt := h.isSeparator hcs (by omega) (by omega)

/-- Separators may come first. -/
theorem skip (hb : ∀ c ∈ blanks, GrammarText.isSeparator c = true)
    (h : Passes (o + byteLength blanks) cs ts) : Passes o (blanks ++ cs) ts := by
  induction blanks generalizing o with
  | nil => exact h
  | cons c blanks ih =>
    rw [List.forall_mem_cons] at hb
    rw [Text.byteLength_cons, ← Nat.add_assoc] at h
    exact .separator hb.1 (ih hb.2 h)

end Passes

/-- The tokens that stand in a text are read up to its end. -/
theorem Scans.exists_passes {o : Nat} {cs : List Char} {ts : List Token} (h : Scans o cs ts) :
    ∃ body, ts = body ++ [⟨.eof, o + byteLength cs, o + byteLength cs⟩] ∧ Passes o cs body := by
  induction h with
  | done => exact ⟨[], rfl, .done⟩
  | separator hc h ih =>
    obtain ⟨body, rfl, hbody⟩ := ih
    exact ⟨body, by simp [Nat.add_assoc], .separator hc hbody⟩
  | token hl h ih =>
    obtain ⟨body, rfl, hbody⟩ := ih
    exact ⟨_, by simp [Nat.add_assoc], .token hl.text_ne_nil hbody⟩

/-! ## What the scanner has read when it refuses a character -/

/-- A scanner reads tokens one after another until it is somewhere else. -/
inductive Scanner.Reads : Scanner → List Token → Scanner → Prop where
  | done {s} : Reads s [] s
  | token {s s' s'' t ts} (h : s.next = (some (.ok t), s')) (hs : Reads s' ts s'') :
      Reads s (t :: ts) s''

/-- Before the scanner refuses a character, it reads the tokens that stand before the character. -/
theorem exists_reads_of_lex_error {s : Scanner} {e : LexicalError} (hf : s.finished = false)
    (h : s.lex.1 = .error e) :
    ∃ before c after ts s' s'', s.rest = before ++ c :: after ∧
      e = .unexpectedCharacter c (Text.placeAt s.text (s.offset + byteLength before))
        ⟨s.offset + byteLength before, s.offset + byteLength before + c.utf8Size⟩ ∧
      s.Reads ts s' ∧ s'.next = (some (.error e), s'') ∧ Passes s.offset before ts ∧
      isSeparator c = false ∧ matchAt (c :: after) = none := by
  induction hn : s.rest.length using Nat.strongRecOn generalizing s with
  | ind n ih =>
    let blanks := s.rest.take (spanCount isSeparator s.rest)
    have hsplit : blanks ++ s.skipSeparators.rest = s.rest := List.take_append_drop _ _
    have hblanks : ∀ c ∈ blanks, isSeparator c = true := all_take_spanCount isSeparator s.rest
    have hoffset : s.skipSeparators.offset = s.offset + byteLength blanks := rfl
    rcases skipSeparators_cases s with hrest | ⟨l, rest, hrest, hl⟩ | ⟨c, rest, hrest, hm⟩
    · rw [lex_of_next (next_of_nil hf hrest), lex_of_finished rfl] at h
      cases h
    · have hnext := next_of_stands hf hrest hl
      have hpos := List.length_pos_iff.mpr hl.text_ne_nil
      rw [lex_of_next hnext] at h
      rw [hrest] at hsplit
      have hlen := congrArg List.length hsplit
      simp only [List.length_append] at hlen
      obtain ⟨before, c, after, ts, s', s'', hafter, he, hreads, herror, hpasses, hc, hm⟩ :=
        ih rest.length (by omega) (s :=
          { s.skipSeparators with
            rest := rest
            offset := s.skipSeparators.offset + byteLength l.text.toList
            finished := false }) rfl (by
              revert h
              generalize Scanner.lex _ = answer
              obtain ⟨answer, -⟩ := answer
              cases answer <;> simp [Except.map]) rfl
      obtain rfl : rest = before ++ c :: after := hafter
      have hbefore : s.offset + byteLength (blanks ++ (l.text.toList ++ before)) =
          s.skipSeparators.offset + byteLength l.text.toList + byteLength before := by
        rw [hoffset, Text.byteLength_append, Text.byteLength_append]
        omega
      refine ⟨blanks ++ (l.text.toList ++ before), c, after, _, s', s'', ?_, ?_,
        .token hnext hreads, herror, .skip hblanks (.token hl.text_ne_nil hpasses), hc, hm⟩
      · simpa using hsplit.symm
      · rw [hbefore]
        exact he
    · have hnext := next_of_none hf hrest hm
      rw [lex_of_next_error hnext] at h
      obtain rfl := Except.error.inj h
      refine ⟨blanks, c, rest, [], s, _, by rw [← hrest, hsplit], rfl, .done, hnext, ?_,
        isSeparator_skip hrest, hm⟩
      simpa using Passes.skip hblanks .done

/-- The character that a text is refused for stands at the place that the error names. -/
theorem exists_of_tokensOf_error {text : String} {e : LexicalError} (h : tokensOf text = .error e) :
    ∃ c before after, text.toList = before ++ c :: after ∧
      e = .unexpectedCharacter c (Text.placeAt text.toList (byteLength before))
        ⟨byteLength before, byteLength before + c.utf8Size⟩ := by
  obtain ⟨before, c, after, -, -, -, htext, he, -⟩ :=
    exists_reads_of_lex_error (s := Scanner.ofText text.toList) rfl h
  exact ⟨c, before, after, htext, by simpa [Scanner.ofText] using he⟩

/-- The tokens of a text part it, and the token for its end stands behind them.  Where the text is
refused, the scanner has read tokens that part what stands before the character that it is refused
for.  This character is no separator, and no lexeme begins there. -/
theorem tokensOf_partitions (text : String) :
    match tokensOf text with
    | .ok ts => ∃ body,
        ts = body ++ [⟨.eof, byteLength text.toList, byteLength text.toList⟩] ∧
        Partitions text.toList body
    | .error e => ∃ before c after ts s s', text.toList = before ++ c :: after ∧
        e = .unexpectedCharacter c (Text.placeAt text.toList (byteLength before))
          ⟨byteLength before, byteLength before + c.utf8Size⟩ ∧
        (Scanner.ofText text.toList).Reads ts s ∧ s.next = (some (.error e), s') ∧
        Partitions before ts ∧ isSeparator c = false ∧ matchAt (c :: after) = none := by
  cases htokens : tokensOf text with
  | ok ts =>
    obtain ⟨body, rfl, hbody⟩ := (tokensOf_ok_iff.mp htokens).exists_passes
    exact ⟨body, by simp, hbody.partitions⟩
  | error e =>
    obtain ⟨before, c, after, ts, s, s', htext, he, hreads, herror, hpasses, hc, hm⟩ :=
      exists_reads_of_lex_error (s := Scanner.ofText text.toList) rfl htokens
    refine ⟨before, c, after, ts, s, s', htext, ?_, hreads, herror, hpasses.partitions, hc, hm⟩
    simpa [Scanner.ofText] using he

end GrammarText
