import GrammarText.Proofs.Scanning.Lexemes

/-!
# Where tokens stand in a text

`Scans` says that tokens stand in some characters one after another, with separators between them:
each covers the bytes of its lexeme, which is read as it is written before the characters that come
next (`Lexeme.Stands`), and the last one stands at the end of the text.  The tokens of a text are
just those that stand in it (`tokensOf_ok_iff`), so every lexeme is written as its class asks
(`tokensOf_written`).
-/

namespace GrammarText

open Text (byteLength)

variable {cs rest : List Char} {k : Kind} {n : Nat}

/-! ## What is reached is the text of a lexeme -/

theorem spanCount_le (p : Char → Bool) (cs : List Char) : spanCount p cs ≤ cs.length :=
  List.takeWhile_prefix p |>.length_le

theorem drop_spanCount (p : Char → Bool) (cs : List Char) :
    cs.drop (spanCount p cs) = cs.dropWhile p := by
  calc cs.drop (spanCount p cs)
      = (cs.takeWhile p ++ cs.dropWhile p).drop (cs.takeWhile p).length := by
        rw [List.takeWhile_append_dropWhile, spanCount]
    _ = cs.dropWhile p := List.drop_left

theorem lt_length_of_drop {c : Char} (h : cs.drop n = c :: rest) : n < cs.length := by
  have := congrArg List.length h
  simp only [List.length_drop, List.length_cons] at this
  omega

/-- The longest reserved word is a word. -/
theorem exists_word_of_reach (h : 0 < Kind.reachReserved cs) :
    ∃ w : Word, w.spelling.toList <+: cs ∧ Kind.reachReserved cs = w.spelling.toList.length := by
  unfold Kind.reachReserved at h ⊢
  generalize Word.all = words at h ⊢
  -- The greatest length so far is that of a word, or nothing was found yet.
  suffices hfold : ∀ n, (n = 0 ∨ ∃ w : Word, w.spelling.toList <+: cs ∧
      n = w.spelling.toList.length) →
      let m := words.foldl (fun n w =>
        let s := w.spelling.toList
        if s.isPrefixOf cs then max n s.length else n) n
      m = 0 ∨ ∃ w : Word, w.spelling.toList <+: cs ∧ m = w.spelling.toList.length by
    rcases hfold 0 (.inl rfl) with h0 | hw
    · omega
    · exact hw
  clear h
  induction words with
  | nil => exact fun n hn => hn
  | cons w words ih =>
    intro n hn
    rw [List.foldl_cons]
    refine ih _ ?_
    dsimp only
    by_cases hw : w.spelling.toList.isPrefixOf cs = true
    · rw [if_pos hw]
      rcases Nat.le_total n w.spelling.toList.length with hle | hle
      · exact .inr ⟨w, List.isPrefixOf_iff_prefix.mp hw, Nat.max_eq_right hle⟩
      · rw [Nat.max_eq_left hle]
        exact hn
    · rw [if_neg hw]
      exact hn

theorem reachName_le (cs : List Char) : Kind.reachName cs ≤ cs.length := by
  unfold Kind.reachName
  split
  · rename_i cs
    have := spanCount_le Text.isWordChar cs
    simp only [List.length_cons]
    omega
  · rename_i c cs _
    have := spanCount_le Text.isWordChar cs
    split
    · simp only [List.length_cons]
      omega
    · exact Nat.zero_le _
  · exact Nat.zero_le _

theorem reachTerminal_le (cs : List Char) : Kind.reachTerminal cs ≤ cs.length := by
  unfold Kind.reachTerminal
  split
  · rename_i c cs
    split
    · simp only
      split
      · rename_i d e rest hn hdrop
        have hlen := congrArg List.length hdrop
        rw [hn] at hlen
        split <;> simp_all
      · rename_i n d rest hn hdrop
        have := lt_length_of_drop hdrop
        split <;> simp only [List.length_cons] <;> omega
      · exact Nat.zero_le _
    · exact Nat.zero_le _
  · exact Nat.zero_le _

theorem reachControl_le (cs : List Char) : Kind.reachControl cs ≤ cs.length := by
  unfold Kind.reachControl
  split
  · simp only
    split
    · rename_i cs n rest hn hdrop
      have := lt_length_of_drop hdrop
      simp only [List.length_cons]
      omega
    · exact Nat.zero_le _
  · split <;> simp
  · exact Nat.zero_le _

theorem reachBarred_le (cs : List Char) : Kind.reachBarred cs ≤ cs.length := by
  unfold Kind.reachBarred
  split
  · simp only
    split
    · rename_i c cs n rest hc hn hdrop
      have := lt_length_of_drop hdrop
      simp only [List.length_cons]
      omega
    · exact Nat.zero_le _
  · exact Nat.zero_le _

theorem reachWrappedProse_le (cs : List Char) : Kind.reachWrappedProse cs ≤ cs.length := by
  unfold Kind.reachWrappedProse
  split
  · simp only
    split
    · rename_i cs rest hdrop
      have := lt_length_of_drop hdrop
      simp only [List.length_cons]
      omega
    · exact Nat.zero_le _
  · exact Nat.zero_le _

/-- No class reaches beyond the end of a text. -/
theorem reach_le_length (k : Kind) (cs : List Char) : k.reach cs ≤ cs.length := by
  cases k with
  | eof => exact Nat.zero_le _
  | newline =>
    cases cs with
    | nil => exact Nat.le_refl _
    | cons c cs => by_cases hc : c = '\n' <;> simp [Kind.reach, hc]
  | reserved =>
    show Kind.reachReserved cs ≤ _
    by_cases h : 0 < Kind.reachReserved cs
    · obtain ⟨w, hw, heq⟩ := exists_word_of_reach h
      rw [heq]
      exact hw.length_le
    · omega
  | colons => exact spanCount_le _ _
  | terminal => exact reachTerminal_le cs
  | control => exact reachControl_le cs
  | call =>
    show Kind.reachCall cs ≤ _
    by_cases h : 0 < Kind.reachCall cs
    · rw [reachCall_of_pos h]
      exact reachName_le cs
    · omega
  | nonterminal => exact reachName_le cs
  | barred => exact reachBarred_le cs
  | label =>
    show Kind.reachLabel cs ≤ _
    unfold Kind.reachLabel
    split
    · rename_i c cs
      have := spanCount_le Text.isWordChar cs
      split <;> simp only [List.length_cons] <;> omega
    · exact Nat.zero_le _
  | prose =>
    show Kind.reachProse cs ≤ _
    unfold Kind.reachProse
    split
    · rename_i cs
      have := spanCount_le (· ≠ '\n') cs
      simp only [List.length_cons]
      omega
    · exact Nat.zero_le _
  | wrappedProse => exact reachWrappedProse_le cs

/-- The text of the lexeme that a class reaches is what it reaches. -/
theorem text_ofKind_of_reach (h : 0 < k.reach cs) :
    (Lexeme.ofKind k (String.ofList (cs.take (k.reach cs)))).text.toList =
      cs.take (k.reach cs) := by
  cases k with
  | eof => cases h
  | newline =>
    cases cs with
    | nil => cases h
    | cons c cs =>
      by_cases hc : c = '\n'
      · subst hc
        have hreach : Kind.reach .newline ('\n' :: cs) = 1 := by simp [Kind.reach]
        rw [hreach]
        show "\n".toList = ['\n']
        rfl
      · simp [Kind.reach, hc] at h
  | reserved =>
    obtain ⟨w, ⟨rest, rfl⟩, hreach⟩ := exists_word_of_reach h
    have htake : (w.spelling.toList ++ rest).take
        (Kind.reach .reserved (w.spelling.toList ++ rest)) = w.spelling.toList := by
      show (w.spelling.toList ++ rest).take (Kind.reachReserved _) = _
      rw [hreach, List.take_left]
    rw [htake, String.ofList_toList, Lexeme.ofKind, Word.ofSpelling?_spelling]
    rfl
  | colons | terminal | control | call | nonterminal | barred | label | prose | wrappedProse =>
    exact String.toList_ofList

/-! ## Tokens in a text -/

/-- The text of a lexeme, before some characters, is read as that lexeme. -/
def Lexeme.Stands (l : Lexeme) (rest : List Char) : Prop :=
  matchAt (l.text.toList ++ rest) = some (l.kind, l.text.toList.length)

/-- Tokens stand in some characters, the first of which has an offset: each where the text of its
lexeme is read, and the last one at the end. -/
inductive Scans : Nat → List Char → List Token → Prop where
  | done {o} : Scans o [] [⟨.eof, o, o⟩]
  | separator {o c cs ts} (hc : isSeparator c = true) (h : Scans (o + c.utf8Size) cs ts) :
      Scans o (c :: cs) ts
  | token {o l cs ts} (hl : l.Stands cs) (h : Scans (o + byteLength l.text.toList) cs ts) :
      Scans o (l.text.toList ++ cs) (⟨l, o, o + byteLength l.text.toList⟩ :: ts)

/-- What is matched at the start of a text is a lexeme that stands there. -/
theorem exists_stands_of_matchAt (h : matchAt cs = some (k, n)) :
    ∃ (l : Lexeme) (rest : List Char), cs = l.text.toList ++ rest ∧ l.Stands rest ∧
      l = .ofKind k (String.ofList (cs.take n)) ∧ n = l.text.toList.length := by
  have hpos := matchAt_pos h
  obtain rfl := reach_of_farthest h
  have htext := text_ofKind_of_reach hpos
  have hcs : (Lexeme.ofKind k (String.ofList (cs.take (k.reach cs)))).text.toList ++
      cs.drop (k.reach cs) = cs := by
    rw [htext, List.take_append_drop]
  have hlen : k.reach cs =
      (Lexeme.ofKind k (String.ofList (cs.take (k.reach cs)))).text.toList.length := by
    rw [htext, List.length_take, Nat.min_eq_left (reach_le_length k cs)]
  refine ⟨_, cs.drop (k.reach cs), hcs.symm, ?_, rfl, hlen⟩
  rw [Lexeme.Stands, hcs, h, Lexeme.kind_ofKind, ← hlen]

/-- No lexeme begins with a separator. -/
theorem matchAt_separator {c : Char} (hc : isSeparator c = true) (cs : List Char) :
    matchAt (c :: cs) = none := by
  simp only [isSeparator, Bool.or_eq_true, decide_eq_true_eq] at hc
  rcases hc with (rfl | rfl) | rfl <;> rfl

theorem Lexeme.Stands.text_ne_nil {l : Lexeme} (h : l.Stands rest) : l.text.toList ≠ [] := by
  have hpos := matchAt_pos h
  exact List.ne_nil_of_length_pos hpos

/-- A lexeme that stands before some characters does not begin with a separator. -/
theorem Lexeme.Stands.isSeparator_head {l : Lexeme} (h : l.Stands rest) :
    ∃ c more, l.text.toList = c :: more ∧ isSeparator c = false := by
  obtain ⟨c, more, htext⟩ := List.exists_cons_of_ne_nil h.text_ne_nil
  refine ⟨c, more, htext, Bool.eq_false_iff.mpr fun hc => ?_⟩
  rw [Stands, htext, List.cons_append, matchAt_separator hc] at h
  cases h

/-- The end of the text is no lexeme that is read. -/
theorem Lexeme.Stands.ne_eof {l : Lexeme} (h : l.Stands rest) : l ≠ .eof := by
  rintro rfl
  exact h.text_ne_nil rfl

theorem scans_nil_iff {o : Nat} {ts : List Token} : Scans o [] ts ↔ ts = [⟨.eof, o, o⟩] := by
  constructor
  · generalize hcs : [] = cs
    intro h
    cases h with
    | done => rfl
    | separator => cases hcs
    | token hl => exact absurd (List.append_eq_nil_iff.mp hcs.symm).1 hl.text_ne_nil
  · rintro rfl
    exact .done

theorem scans_separator_iff {o : Nat} {c : Char} {ts : List Token} (hc : isSeparator c = true) :
    Scans o (c :: cs) ts ↔ Scans (o + c.utf8Size) cs ts := by
  constructor
  · generalize hcs : c :: cs = ds
    intro h
    cases h with
    | done => cases hcs
    | separator _ h =>
      obtain ⟨rfl, rfl⟩ := List.cons_eq_cons.mp hcs
      exact h
    | token hl =>
      obtain ⟨d, more, htext, hd⟩ := hl.isSeparator_head
      rw [htext] at hcs
      obtain ⟨rfl, -⟩ := List.cons_eq_cons.mp hcs
      simp [hc] at hd
  · exact .separator hc

/-- The token at the start of a text is the one that is matched there. -/
theorem scans_token_iff {o : Nat} {l : Lexeme} {ts : List Token} (hl : l.Stands cs) :
    Scans o (l.text.toList ++ cs) ts ↔
      ∃ us, ts = ⟨l, o, o + byteLength l.text.toList⟩ :: us ∧
        Scans (o + byteLength l.text.toList) cs us := by
  constructor
  · generalize hds : l.text.toList ++ cs = ds
    intro h
    cases h with
    | done => exact absurd (List.append_eq_nil_iff.mp hds).1 hl.text_ne_nil
    | separator hc =>
      obtain ⟨d, more, htext, hd⟩ := hl.isSeparator_head
      rw [htext] at hds
      obtain ⟨rfl, -⟩ := List.cons_eq_cons.mp hds
      simp [hc] at hd
    | @token _ l' cs' us hl' h =>
      -- Both lexemes are what is matched here.
      have hsame : some (l.kind, l.text.toList.length) = some (l'.kind, l'.text.toList.length) := by
        rw [← hl, ← hl', hds]
      obtain ⟨hkind, hlen⟩ : l.kind = l'.kind ∧ l.text.toList.length = l'.text.toList.length := by
        simpa using hsame
      obtain ⟨htext, rfl⟩ := List.append_inj hds hlen
      obtain rfl : l = l' := by
        rw [← Lexeme.ofKind_kind_text l, ← Lexeme.ofKind_kind_text l', hkind,
          String.toList_inj.mp htext]
      exact ⟨us, rfl, h⟩
  · rintro ⟨us, rfl, h⟩
    exact .token hl h

/-! ## The scanner reads what stands in the text -/

/-- Separators are skipped. -/
theorem scans_skip_iff {o : Nat} {ts : List Token} : Scans o cs ts ↔
    Scans (o + byteLength (cs.take (spanCount isSeparator cs)))
      (cs.drop (spanCount isSeparator cs)) ts := by
  induction cs generalizing o with
  | nil => simp [spanCount]
  | cons c cs ih =>
    by_cases hc : isSeparator c = true
    · have hspan : spanCount isSeparator (c :: cs) = spanCount isSeparator cs + 1 := by
        simp [spanCount, hc]
      rw [hspan, List.take_succ_cons, List.drop_succ_cons, Text.byteLength_cons, ← Nat.add_assoc,
        scans_separator_iff hc, ih]
    · have hspan : spanCount isSeparator (c :: cs) = 0 := by simp [spanCount, hc]
      simp [hspan]

/-- At the end of the text comes the token for that end. -/
theorem nextToken_of_nil {s : Scanner} (hs : s.skipSeparators.rest = []) : s.nextToken =
    (.ok ⟨.eof, s.skipSeparators.offset, s.skipSeparators.offset⟩, s.skipSeparators) := by
  rw [Scanner.nextToken]
  simp only [hs]

/-- At a lexeme comes its token, and the scanner moves behind it. -/
theorem nextToken_of_stands {s : Scanner} {l : Lexeme}
    (hs : s.skipSeparators.rest = l.text.toList ++ rest) (hl : l.Stands rest) :
    s.nextToken = (.ok ⟨l, s.skipSeparators.offset,
        s.skipSeparators.offset + byteLength l.text.toList⟩,
      { s.skipSeparators with
        rest := rest
        offset := s.skipSeparators.offset + byteLength l.text.toList }) := by
  have hadvance : s.skipSeparators.advance l.text.toList.length =
      { s.skipSeparators with
        rest := rest
        offset := s.skipSeparators.offset + byteLength l.text.toList } := by
    simp [Scanner.advance, hs]
  have hlexeme : Lexeme.ofKind l.kind (String.ofList l.text.toList) = l := by
    rw [String.ofList_toList]
    exact Lexeme.ofKind_kind_text l
  obtain ⟨c, more, htext, -⟩ := hl.isSeparator_head
  rw [← hadvance, Scanner.nextToken]
  simp only [hs, htext, List.cons_append]
  rw [← List.cons_append, ← htext, hl]
  simp only [List.take_left', hlexeme, hadvance]

/-- Where no class has a lexeme, the scanner refuses the character and stays before it. -/
theorem nextToken_of_none {s : Scanner} {c : Char} (hs : s.skipSeparators.rest = c :: rest)
    (hm : matchAt (c :: rest) = none) : s.nextToken = (.error (.unexpectedCharacter c
        (Text.placeAt s.skipSeparators.text s.skipSeparators.offset)
        ⟨s.skipSeparators.offset, s.skipSeparators.offset + c.utf8Size⟩), s.skipSeparators) := by
  rw [Scanner.nextToken]
  simp only [hs, hm]

/-- At the end of the text the scanner has the token for that end, and then nothing more. -/
theorem next_of_nil {s : Scanner} (hf : s.finished = false) (hs : s.skipSeparators.rest = []) :
    s.next = (some (.ok ⟨.eof, s.skipSeparators.offset, s.skipSeparators.offset⟩),
      { s.skipSeparators with finished := true }) := by
  rw [Scanner.next, hf, nextToken_of_nil hs]
  rfl

/-- At a lexeme the scanner reads its token and moves behind it. -/
theorem next_of_stands {s : Scanner} {l : Lexeme} (hf : s.finished = false)
    (hs : s.skipSeparators.rest = l.text.toList ++ rest) (hl : l.Stands rest) :
    s.next = (some (.ok ⟨l, s.skipSeparators.offset,
        s.skipSeparators.offset + byteLength l.text.toList⟩),
      { s.skipSeparators with
        rest := rest
        offset := s.skipSeparators.offset + byteLength l.text.toList
        finished := false }) := by
  -- The token for the end of the text is never matched, so this token is not the last one.
  have hlast : (⟨l, s.skipSeparators.offset,
      s.skipSeparators.offset + byteLength l.text.toList⟩ : Token).isEof = false :=
    decide_eq_false hl.ne_eof
  rw [Scanner.next, hf, nextToken_of_stands hs hl]
  simp only [Bool.false_eq_true, if_false, hlast]

/-- Where no class has a lexeme, the scanner refuses the character. -/
theorem next_of_none {s : Scanner} {c : Char} (hf : s.finished = false)
    (hs : s.skipSeparators.rest = c :: rest) (hm : matchAt (c :: rest) = none) :
    s.next = (some (.error (.unexpectedCharacter c
        (Text.placeAt s.skipSeparators.text s.skipSeparators.offset)
        ⟨s.skipSeparators.offset, s.skipSeparators.offset + c.utf8Size⟩)),
      { s.skipSeparators with finished := true }) := by
  rw [Scanner.next, hf, nextToken_of_none hs hm]
  simp only [Bool.false_eq_true, if_false]

section Lex

variable {s s' : Scanner} {t : Token} {ts : List Token}

/-- After a token the scanner reads on. -/
theorem lex_eq_of_next (h : s.next = (some (.ok t), s')) :
    s.lex = (s'.lex.1.map (t :: ·), s'.lex.2) := by
  rw [Scanner.lex]
  split
  · rename_i heq
    rw [h] at heq
    cases heq
  · rename_i heq
    rw [h] at heq
    cases heq
  · rename_i t' s'' heq
    rw [h] at heq
    cases heq
    cases s'.lex with
    | mk answer s'' => cases answer <;> rfl

theorem lex_of_next (h : s.next = (some (.ok t), s')) : s.lex.1 = s'.lex.1.map (t :: ·) := by
  rw [lex_eq_of_next h]

theorem lex_eq_of_next_error {e : LexicalError} (h : s.next = (some (.error e), s')) :
    s.lex = (.error e, s') := by
  rw [Scanner.lex]
  split
  · rename_i heq
    rw [h] at heq
    cases heq
  · rename_i heq
    rw [h] at heq
    cases heq
    rfl
  · rename_i heq
    rw [h] at heq
    cases heq

theorem lex_of_next_error {e : LexicalError} (h : s.next = (some (.error e), s')) :
    s.lex.1 = .error e := by
  rw [lex_eq_of_next_error h]

/-- A stream that has ended has no more tokens. -/
theorem lex_eq_of_finished (h : s.finished = true) : s.lex = (.ok [], s) := by
  have hnext : s.next = (none, s) := by rw [Scanner.next, if_pos h]
  rw [Scanner.lex]
  split
  · rename_i heq
    rw [hnext] at heq
    cases heq
    rfl
  · rename_i heq
    rw [hnext] at heq
    cases heq
  · rename_i heq
    rw [hnext] at heq
    cases heq

theorem lex_of_finished (h : s.finished = true) : s.lex.1 = .ok [] := by
  rw [lex_eq_of_finished h]

/-- What the scanner meets next: the end of the text, a lexeme that stands there, or a character at
which no lexeme is matched. -/
theorem skipSeparators_cases (s : Scanner) :
    s.skipSeparators.rest = [] ∨
    (∃ (l : Lexeme) (rest : List Char), s.skipSeparators.rest = l.text.toList ++ rest ∧
      l.Stands rest) ∨
    ∃ c rest, s.skipSeparators.rest = c :: rest ∧ matchAt (c :: rest) = none := by
  cases hrest : s.skipSeparators.rest with
  | nil => exact .inl rfl
  | cons c rest =>
    cases hm : matchAt (c :: rest) with
    | none => exact .inr (.inr ⟨c, rest, rfl, hm⟩)
    | some r =>
      obtain ⟨l, rest', hcs, hl, -, -⟩ := exists_stands_of_matchAt (k := r.1) (n := r.2) hm
      exact .inr (.inl ⟨l, rest', hcs, hl⟩)

/-- After separators there is no other. -/
theorem isSeparator_skip {c : Char} (h : s.skipSeparators.rest = c :: rest) :
    isSeparator c = false := by
  have hdrop : s.rest.dropWhile isSeparator = c :: rest := by
    rw [← h]
    exact (drop_spanCount isSeparator s.rest).symm
  have := List.head?_dropWhile_not isSeparator s.rest
  rw [hdrop] at this
  exact this

/-- The first character that is no separator has to begin a lexeme. -/
theorem not_scans_of_none {o : Nat} {c : Char} (hc : isSeparator c = false)
    (hm : matchAt (c :: rest) = none) : ¬ Scans o (c :: rest) ts := by
  generalize hcs : c :: rest = cs at *
  intro h
  cases h with
  | done => cases hcs
  | separator hd =>
    obtain ⟨rfl, -⟩ := List.cons_eq_cons.mp hcs
    simp [hd] at hc
  | token hl => cases hm.symm.trans hl

/-- The scanner reads just the tokens that stand in what is still to be read. -/
theorem lex_ok_iff (hf : s.finished = false) :
    s.lex.1 = .ok ts ↔ Scans s.offset s.rest ts := by
  induction hn : s.rest.length using Nat.strongRecOn generalizing s ts with
  | ind n ih =>
    have hlen := s.length_rest_skipSeparators_le
    have hskip : Scans s.offset s.rest ts ↔
        Scans s.skipSeparators.offset s.skipSeparators.rest ts := scans_skip_iff
    rw [hskip]
    rcases skipSeparators_cases s with hrest | ⟨l, rest, hrest, hl⟩ | ⟨c, rest, hrest, hm⟩
    · rw [hrest, scans_nil_iff, lex_of_next (next_of_nil hf hrest), lex_of_finished rfl]
      simp [Except.map, eq_comm]
    · have hpos := List.length_pos_iff.mpr hl.text_ne_nil
      rw [hrest, List.length_append] at hlen
      rw [hrest, scans_token_iff hl, lex_of_next (next_of_stands hf hrest hl)]
      simp only [← ih rest.length (by omega) (s := { s.skipSeparators with
        rest := rest
        offset := s.skipSeparators.offset + byteLength l.text.toList
        finished := false }) rfl rfl]
      generalize Scanner.lex _ = answer
      obtain ⟨answer, -⟩ := answer
      cases answer with
      | ok us => simp [Except.map, eq_comm]
      | error e => simp [Except.map]
    · rw [hrest, lex_of_next_error (next_of_none hf hrest hm)]
      simp [not_scans_of_none (isSeparator_skip hrest) hm]

end Lex

/-- The tokens of a text are those that stand in it. -/
theorem tokensOf_ok_iff {text : String} {ts : List Token} :
    tokensOf text = .ok ts ↔ Scans 0 text.toList ts :=
  lex_ok_iff (s := Scanner.ofText text.toList) rfl

/-- Every token but that for the end of the text is read as it is written. -/
theorem Scans.stands {o : Nat} {ts : List Token} (h : Scans o cs ts) :
    ∀ t ∈ ts, t.lexeme = .eof ∨ ∃ rest, t.lexeme.Stands rest := by
  induction h with
  | done =>
    rw [List.forall_mem_singleton]
    exact .inl rfl
  | separator hc h ih => exact ih
  | token hl h ih =>
    rw [List.forall_mem_cons]
    exact ⟨.inr ⟨_, hl⟩, ih⟩

theorem Lexeme.Stands.written {l : Lexeme} (h : l.Stands rest) : l.Written := by
  have hpos := matchAt_pos h
  have hreach := reach_of_farthest h
  have hwritten := written_of_reach (hreach.symm ▸ hpos)
  rwa [hreach, List.take_left, String.ofList_toList, Lexeme.ofKind_kind_text] at hwritten

/-- The tokens of a text are written as their classes ask. -/
theorem tokensOf_written {text : String} {ts : List Token} (h : tokensOf text = .ok ts) :
    ∀ t ∈ ts, t.lexeme.Written := by
  intro t ht
  rcases (tokensOf_ok_iff.mp h).stands t ht with heof | ⟨rest, hstands⟩
  · rw [heof]
    trivial
  · exact hstands.written

end GrammarText
