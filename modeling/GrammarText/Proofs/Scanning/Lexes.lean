import GrammarText.Proofs.Scanning.Partition
import GrammarText.Proofs.Scanning.Stands

/-!
# Lexemes in a row

`Lexes` says that lexemes stand in some characters one after another, and what is left behind them.
The scanner reads as far as that and no farther (`Lexes.lex`), and any characters have such lexemes
up to their end or up to a character that is refused (`exists_lexes`).
-/

namespace GrammarText

open Text (byteLength)

/-- Lexemes stand in some characters one after another, with separators before them.  What is left
may have separators before it as well. -/
inductive Lexes : List Char → List Lexeme → List Char → Prop where
  | done {blanks rest} (hb : ∀ c ∈ blanks, isSeparator c = true) : Lexes (blanks ++ rest) [] rest
  | token {blanks l cs ls rest} (hb : ∀ c ∈ blanks, isSeparator c = true) (hl : l.Stands cs)
      (h : Lexes cs ls rest) : Lexes (blanks ++ (l.text.toList ++ cs)) (l :: ls) rest

/-- No lexeme comes next, and no separator. -/
def Stuck (rest : List Char) : Prop :=
  matchAt rest = none ∧ ∀ c ∈ rest.head?, isSeparator c = false

variable {cs rest blanks : List Char} {ls : List Lexeme}

/-- A separator that comes first may be left out. -/
theorem Lexes.tail {c : Char} (h : Lexes (c :: cs) ls rest) (hc : isSeparator c = true)
    (hstuck : Stuck rest) : Lexes cs ls rest := by
  generalize hds : c :: cs = ds at h
  cases h with
  | @done blanks rest hb =>
    cases blanks with
    | nil =>
      rw [List.nil_append] at hds
      subst hds
      exact absurd (hstuck.2 c rfl) (by simp [hc])
    | cons b blanks =>
      obtain ⟨rfl, rfl⟩ := List.cons_eq_cons.mp hds
      exact .done (List.forall_mem_cons.mp hb).2
  | @token blanks l cs' ls rest hb hl h =>
    cases blanks with
    | nil =>
      obtain ⟨d, more, htext, hd⟩ := hl.isSeparator_head
      rw [List.nil_append, htext] at hds
      obtain ⟨rfl, -⟩ := List.cons_eq_cons.mp hds
      exact absurd hd (by simp [hc])
    | cons b blanks =>
      obtain ⟨rfl, rfl⟩ := List.cons_eq_cons.mp hds
      exact .token (List.forall_mem_cons.mp hb).2 hl h

/-- Any characters have lexemes up to a place where no other comes next. -/
theorem exists_lexes (cs : List Char) : ∃ ls rest, Lexes cs ls rest ∧ Stuck rest := by
  induction hn : cs.length using Nat.strongRecOn generalizing cs with
  | ind n ih =>
    have hblanks : ∀ c ∈ cs.takeWhile isSeparator, isSeparator c = true :=
      List.all_eq_true.mp List.all_takeWhile
    have hsplit : cs.takeWhile isSeparator ++ cs.dropWhile isSeparator = cs :=
      List.takeWhile_append_dropWhile
    have hhead := List.head?_dropWhile_not isSeparator cs
    revert hsplit hhead
    generalize cs.takeWhile isSeparator = blanks at hblanks
    generalize cs.dropWhile isSeparator = more
    rintro rfl hhead
    cases hm : matchAt more with
    | none =>
      refine ⟨[], more, .done hblanks, hm, fun c hc => ?_⟩
      rw [hc] at hhead
      exact hhead
    | some r =>
      obtain ⟨l, rest, rfl, hl, -, -⟩ := exists_stands_of_matchAt (k := r.1) (n := r.2) hm
      have hpos := List.length_pos_iff.mpr hl.text_ne_nil
      rw [List.length_append, List.length_append] at hn
      obtain ⟨ls, rest', h, hstuck⟩ := ih rest.length (by omega) rest rfl
      exact ⟨l :: ls, rest', .token hblanks hl h, hstuck⟩

/-! ## The scanner reads lexemes in a row -/

/-- What is said of a place where no lexeme comes next: that the text ends there, or that the
character there is refused. -/
def verdict (text : List Char) (n : Nat) : List Char → Except LexicalError Token
  | [] => .ok ⟨.eof, n, n⟩
  | c :: _ => .error (.unexpectedCharacter c (Text.placeAt text n) ⟨n, n + c.utf8Size⟩)

/-- Only separators are skipped, and all of them. -/
theorem skipSeparators_append {s : Scanner} (hb : ∀ c ∈ blanks, isSeparator c = true)
    (hrest : ∀ c ∈ rest.head?, isSeparator c = false) (hs : s.rest = blanks ++ rest) :
    s.skipSeparators = { s with rest := rest, offset := s.offset + byteLength blanks } := by
  have hspan : spanCount isSeparator s.rest = blanks.length := by
    rw [hs]
    exact spanCount_append hb hrest
  rw [Scanner.skipSeparators, hspan, Scanner.advance, hs, List.drop_left, List.take_left]

/-- Where no lexeme comes next, the scanner has nothing more to read. -/
theorem Stuck.lex (hstuck : Stuck rest) (hb : ∀ c ∈ blanks, isSeparator c = true) {s : Scanner}
    (hf : s.finished = false) (hs : s.rest = blanks ++ rest) :
    s.lex.1 = (verdict s.text (s.offset + byteLength blanks) rest).map ([·]) := by
  have hskip := skipSeparators_append hb hstuck.2 hs
  cases rest with
  | nil =>
    rw [lex_of_next (next_of_nil hf (by rw [hskip])), lex_of_finished rfl, hskip]
    rfl
  | cons c rest =>
    rw [lex_of_next_error (next_of_none hf (by rw [hskip]) hstuck.1), hskip]
    rfl

/-- The scanner reads lexemes that stand in a row, and behind them the end of the text or the
character that is refused. -/
theorem Lexes.lex (h : Lexes cs ls rest) (hstuck : Stuck rest) (s : Scanner)
    (hf : s.finished = false) (hs : s.rest = cs) :
    ∃ before ts s', cs = before ++ rest ∧ s.Reads ts s' ∧ ts.map Token.lexeme = ls ∧
      s.lex.1 = (verdict s.text (s.offset + byteLength before) rest).map (ts ++ [·]) := by
  induction h generalizing s with
  | @done blanks rest hb => exact ⟨blanks, [], s, rfl, .done, rfl, hstuck.lex hb hf hs⟩
  | @token blanks l cs ls rest hb hl h ih =>
    have hskip : s.skipSeparators =
        { s with rest := l.text.toList ++ cs, offset := s.offset + byteLength blanks } := by
      obtain ⟨c, more, htext, hc⟩ := hl.isSeparator_head
      refine skipSeparators_append hb ?_ hs
      rw [htext]
      rintro d ⟨⟩
      exact hc
    have hnext := next_of_stands hf (congrArg Scanner.rest hskip) hl
    obtain ⟨before, ts, s', rfl, hreads, rfl, hlex⟩ := ih hstuck
      { s.skipSeparators with
        rest := cs
        offset := s.skipSeparators.offset + byteLength l.text.toList
        finished := false } rfl rfl
    refine ⟨blanks ++ (l.text.toList ++ before), _ :: ts, s', by simp, .token hnext hreads, rfl, ?_⟩
    rw [lex_of_next hnext, hlex, hskip, Text.byteLength_append, Text.byteLength_append]
    simp only [Nat.add_assoc]
    cases verdict _ _ rest <;> rfl

/-- The lexemes that stand in a text in a row are those of its tokens, and what is said of the text
is told by what is left behind them. -/
theorem Lexes.tokensOf {text : String} (h : Lexes text.toList ls rest) (hstuck : Stuck rest) :
    ∃ before ts s', text.toList = before ++ rest ∧
      (Scanner.ofText text.toList).Reads ts s' ∧ ts.map Token.lexeme = ls ∧
      tokensOf text = (verdict text.toList (byteLength before) rest).map (ts ++ [·]) := by
  obtain ⟨before, ts, s', htext, hreads, hls, hlex⟩ := h.lex hstuck (.ofText text.toList) rfl rfl
  refine ⟨before, ts, s', htext, hreads, hls, ?_⟩
  rw [GrammarText.tokensOf, hlex]
  simp [Scanner.ofText]

end GrammarText
