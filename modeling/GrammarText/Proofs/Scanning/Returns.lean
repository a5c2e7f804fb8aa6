import GrammarText.Proofs.Reduction.Prose
import GrammarText.Proofs.Scanning.Lexes
import GrammarText.Proofs.Scanning.Munch
import GrammarText.Proofs.Text.Blanks

/-!
# Carriage returns before line breaks

A carriage return before each line break (`withReturns`) changes nothing that is scanned, unless
prose in brackets goes over a line break.  It is a separator behind all lexemes but prose, since no
lexeme of another class ends in it (`Kind.reach_return`), and prose is trimmed.  So the same lexemes
stand in the text, up to the same place (`Lexes.returns`).
-/

namespace GrammarText

open List (Forall₂)

variable {cs ds rest more : List Char} {k : Kind} {ls : List Lexeme}

/-- A text with a carriage return before each line break. -/
def withReturns : List Char → List Char
  | [] => []
  | c :: cs => if c = '\n' then '\r' :: '\n' :: withReturns cs else c :: withReturns cs

theorem withReturns_break (cs : List Char) :
    withReturns ('\n' :: cs) = '\r' :: '\n' :: withReturns cs := rfl

theorem withReturns_cons {c : Char} (hc : c ≠ '\n') (cs : List Char) :
    withReturns (c :: cs) = c :: withReturns cs := if_neg hc

theorem withReturns_append (cs ds : List Char) :
    withReturns (cs ++ ds) = withReturns cs ++ withReturns ds := by
  induction cs with
  | nil => rfl
  | cons c cs ih =>
    by_cases hc : c = '\n'
    · subst hc
      rw [List.cons_append, withReturns_break, withReturns_break, ih]
      rfl
    · rw [List.cons_append, withReturns_cons hc, withReturns_cons hc, ih]
      rfl

theorem withReturns_eq_self (h : '\n' ∉ cs) : withReturns cs = cs := by
  induction cs with
  | nil => rfl
  | cons c cs ih =>
    rw [List.mem_cons, not_or] at h
    rw [withReturns_cons (Ne.symm h.1), ih h.2]

/-- Text without line breaks stays in front of what comes next. -/
theorem withReturns_line (h : '\n' ∉ cs) (rest : List Char) :
    withReturns (cs ++ rest) = cs ++ withReturns rest := by
  rw [withReturns_append, withReturns_eq_self h]

/-- Only carriage returns are added. -/
theorem mem_of_mem_withReturns {c : Char} (hc : c ≠ '\r') (h : c ∈ withReturns cs) : c ∈ cs := by
  induction cs with
  | nil => cases h
  | cons d cs ih =>
    by_cases hd : d = '\n'
    · subst hd
      rw [withReturns_break, List.mem_cons, List.mem_cons] at h
      rcases h with hr | rfl | h
      · exact absurd hr hc
      · exact List.mem_cons_self
      · exact List.mem_cons_of_mem _ (ih h)
    · rw [withReturns_cons hd, List.mem_cons] at h
      rcases h with rfl | h
      · exact List.mem_cons_self
      · exact List.mem_cons_of_mem _ (ih h)

theorem exists_of_withReturns_cons {c : Char} (hc : c ≠ '\r') (h : withReturns cs = c :: ds) :
    ∃ es, cs = c :: es ∧ ds = withReturns es := by
  cases cs with
  | nil => cases h
  | cons d cs =>
    by_cases hd : d = '\n'
    · subst hd
      rw [withReturns_break] at h
      exact absurd (List.cons_eq_cons.mp h).1.symm hc
    · rw [withReturns_cons hd] at h
      obtain ⟨rfl, rfl⟩ := List.cons_eq_cons.mp h
      exact ⟨cs, rfl, rfl⟩

/-- The place behind a text is the same. -/
theorem foldl_after_withReturns (p : Text.Place) (cs : List Char) :
    (withReturns cs).foldl Text.Place.after p = cs.foldl Text.Place.after p := by
  induction cs generalizing p with
  | nil => rfl
  | cons c cs ih =>
    by_cases hc : c = '\n'
    · subst hc
      rw [withReturns_break, List.foldl_cons, List.foldl_cons, List.foldl_cons, ih]
      rfl
    · rw [withReturns_cons hc, List.foldl_cons, List.foldl_cons, ih]

/-! ## What is reached before a carriage return -/

/-- No lexeme ends in a carriage return but prose. -/
theorem Kind.eq_prose_of_return (h : k.pattern.Matches (cs ++ ['\r'])) : k = prose := by
  have hlast : (cs ++ ['\r']).getLast? = some '\r' := List.getLast?_concat
  have hmem : '\r' ∈ cs ++ ['\r'] := by simp
  generalize cs ++ ['\r'] = u at h hlast hmem
  cases k with
  | eof =>
    obtain ⟨c, -, hc⟩ := h
    cases hc
  | newline =>
    obtain rfl := Pattern.matches_char.mp h
    cases hlast
  | reserved =>
    have hno : ∀ w ∈ Word.all, '\r' ∉ w.spelling.toList := by decide
    obtain ⟨w, rfl⟩ := matches_reserved.mp h
    exact absurd hmem (hno w (Word.mem_all w))
  | colons => cases (Pattern.matches_more.mp h).2 '\r' hmem
  | terminal =>
    obtain ⟨body, rfl, -⟩ := matches_terminal.mp h
    rw [Text.quote, ← List.cons_append, List.getLast?_concat] at hlast
    cases hlast
  | control =>
    obtain ⟨name, rfl, -⟩ | ⟨digits, rfl, -, hall⟩ := matches_control.mp h
    · rw [← List.cons_append, List.getLast?_concat] at hlast
      cases hlast
    · simp only [List.mem_cons] at hmem
      rcases hmem with hU | hplus | hdigit
      · cases hU
      · cases hplus
      · cases hall '\r' hdigit
  | call | nonterminal =>
    obtain ⟨first, more, rfl, hmore, hfirst⟩ := matches_name.mp h
    rcases List.mem_append.mp hmem with hr | hr
    · rcases hfirst with ⟨c, rfl, hc⟩ | rfl
      · obtain rfl := List.mem_singleton.mp hr
        cases hc
      · simp at hr
    · cases hmore '\r' hr
  | barred =>
    obtain ⟨c, more, rfl, -⟩ := matches_barred.mp h
    rw [← List.cons_append, ← List.cons_append, List.getLast?_concat] at hlast
    cases hlast
  | label =>
    obtain ⟨c, more, rfl, hc, hmore⟩ := matches_label.mp h
    simp only [List.mem_cons] at hmem
    rcases hmem with hsign | rfl | hr
    · cases hsign
    · cases hc
    · cases hmore '\r' hr
  | prose => rfl
  | wrappedProse =>
    obtain ⟨body, rfl, -⟩ := matches_wrappedProse.mp h
    rw [← List.cons_append, ← List.cons_append, List.getLast?_concat] at hlast
    cases hlast

/-- A carriage return is as good as the end of the text behind a lexeme. -/
theorem Kind.allows_return : k.allows (rest ++ ['\r']) = k.allows rest := by
  cases rest <;> simp [allows]

/-- A carriage return at the end of a text is reached by prose only. -/
theorem Kind.reach_return (hk : k ≠ prose) (cs : List Char) :
    k.reach (cs ++ ['\r']) = k.reach cs := by
  refine Nat.le_antisymm ?_ ?_
  · by_cases hpos : 0 < k.reach (cs ++ ['\r'])
    · have hmatches := matches_reach hpos
      have hallows := allows_reach hpos
      have hbound := reach_le_length k (cs ++ ['\r'])
      revert hmatches hallows hbound
      generalize k.reach (cs ++ ['\r']) = n
      intro hmatches hallows hbound
      -- The carriage return itself is not reached.
      have hn : n ≤ cs.length := by
        refine Nat.le_of_not_lt fun hlt => hk ?_
        rw [List.take_of_length_le (by rw [List.length_append]; exact hlt)] at hmatches
        exact eq_prose_of_return hmatches
      rw [List.take_append_of_le_length hn] at hmatches
      rw [List.drop_append_of_le_length hn, allows_return] at hallows
      have hle := length_le_reach ⟨hmatches, hallows⟩
      rwa [List.take_append_drop, List.length_take_of_le hn] at hle
    · exact Nat.le_trans (Nat.le_of_not_lt hpos) (Nat.zero_le _)
  · by_cases hpos : 0 < k.reach cs
    · have hn := reach_le_length k cs
      have hallows := allows_reach hpos
      rw [← allows_return] at hallows
      have hle := length_le_reach ⟨matches_reach hpos, hallows⟩
      rwa [← List.append_assoc, List.take_append_drop, List.length_take_of_le hn] at hle
    · exact Nat.le_trans (Nat.le_of_not_lt hpos) (Nat.zero_le _)

/-! ## Prose in brackets -/

/-- What begins with prose in brackets has it up to the first bracket that closes it. -/
theorem reachWrappedProse_pos_iff : 0 < Kind.reachWrappedProse cs ↔
    ∃ body rest, cs = '[' :: '>' :: (body ++ ']' :: rest) ∧ ∀ c ∈ body, c ≠ ']' := by
  constructor
  · intro h
    obtain ⟨body, hbody, hno⟩ := isWrappedProse_take h
    refine ⟨body, cs.drop (Kind.reachWrappedProse cs), ?_, hno⟩
    have hcs := List.take_append_drop (Kind.reachWrappedProse cs) cs
    rw [hbody] at hcs
    simpa using hcs.symm
  · rintro ⟨body, rest, rfl, hno⟩
    rw [reachWrappedProse_closed hno]
    exact Nat.succ_pos _

/-- Prose in brackets is read wherever a text begins with it. -/
theorem Lexeme.Stands.kind_of_wrappedProse {l : Lexeme} (hl : l.Stands rest)
    (h : 0 < Kind.reachWrappedProse (l.text.toList ++ rest)) : l.kind = .wrappedProse := by
  obtain ⟨body, more, htext, hno⟩ := reachWrappedProse_pos_iff.mp h
  have hle : Kind.reachWrappedProse (l.text.toList ++ rest) ≤ l.text.toList.length :=
    le_of_matchAt hl .wrappedProse
  rw [htext, reachWrappedProse_closed hno] at hle
  have hstarts : l.kind.starts '[' = true := hl.starts htext
  cases l with
  | wrappedProse q => rfl
  | reserved w =>
    -- The reserved word that begins as prose in brackets does is shorter.
    have hshort : ∀ v ∈ Word.all, v.spelling.toList.head? = some '[' →
        v.spelling.toList.length < 3 := by decide
    have hhead : w.spelling.toList.head? = some '[' := by
      have hfirst := congrArg List.head? htext
      rwa [List.head?_append_of_ne_nil _ hl.text_ne_nil] at hfirst
    have hlt : w.spelling.toList.length < 3 := hshort w (Word.mem_all w) hhead
    exact absurd (Nat.le_trans (Nat.le_add_left 3 _) hle) (Nat.not_le.mpr hlt)
  | _ => cases hstarts

/-- Prose in brackets on one line is reached as it was. -/
theorem reachWrappedProse_withReturns
    (h : '\n' ∉ cs.take (Kind.reachWrappedProse cs)) :
    Kind.reachWrappedProse (withReturns cs) = Kind.reachWrappedProse cs := by
  by_cases hpos : 0 < Kind.reachWrappedProse cs
  · obtain ⟨body, rest, rfl, hno⟩ := reachWrappedProse_pos_iff.mp hpos
    have hcs : '[' :: '>' :: (body ++ ']' :: rest) = '[' :: '>' :: (body ++ [']']) ++ rest := by
      simp
    rw [reachWrappedProse_closed hno, hcs, List.take_left' (by simp)] at h
    rw [reachWrappedProse_closed hno, hcs, withReturns_line h]
    simpa using reachWrappedProse_closed hno (withReturns rest)
  · have hzero := Nat.eq_zero_of_not_pos hpos
    rw [hzero]
    refine Nat.eq_zero_of_not_pos fun hpos' => hpos ?_
    obtain ⟨body, rest, hcs, -⟩ := reachWrappedProse_pos_iff.mp hpos'
    obtain ⟨es, rfl, hes⟩ := exists_of_withReturns_cons (by decide) hcs
    obtain ⟨fs, rfl, hfs⟩ := exists_of_withReturns_cons (by decide) hes.symm
    have hclose : ']' ∈ fs := mem_of_mem_withReturns (by decide) (by simp [← hfs])
    obtain ⟨body', rest', rfl, hno⟩ := List.eq_append_cons_of_mem hclose
    exact reachWrappedProse_pos_iff.mpr ⟨body', rest', rfl, fun c hc => by
      rintro rfl
      exact hno hc⟩

/-! ## Lexemes before carriage returns -/

/-- What is matched stays the same, but for line breaks and prose. -/
theorem matchAt_withReturns (hbreak : cs.head? ≠ some '\n') (hprose : cs.head? ≠ some '>')
    (h : '\n' ∉ cs.take (Kind.reachWrappedProse cs)) : matchAt (withReturns cs) = matchAt cs := by
  refine farthest_congr (fun k => ?_) Kind.all
  by_cases hwrapped : k = .wrappedProse
  · subst hwrapped
    exact reachWrappedProse_withReturns h
  by_cases hmem : '\n' ∈ cs
  · obtain ⟨line, more, rfl, hline⟩ := List.eq_append_cons_of_mem hmem
    obtain ⟨c, line, rfl⟩ : ∃ c ds, line = c :: ds :=
      List.exists_cons_of_ne_nil (by rintro rfl; exact hbreak rfl)
    have hsplit : withReturns (c :: line ++ '\n' :: more) =
        (c :: line ++ ['\r']) ++ '\n' :: withReturns more := by
      rw [withReturns_line hline, withReturns_break]
      simp
    rw [hsplit, reach_break (by simp) hwrapped, reach_break (by simp) hwrapped]
    by_cases hk : k = .prose
    · subst hk
      have hstarts : Kind.starts c .prose = false := by
        simpa [Kind.starts] using hprose
      rw [List.cons_append, Kind.reach_eq_zero hstarts, Kind.reach_eq_zero hstarts]
    · exact Kind.reach_return hk _
  · rw [withReturns_eq_self hmem]

/-- A lexeme on one line stands before carriage returns as before line breaks, but for prose. -/
theorem Lexeme.Stands.returns {l : Lexeme} (hl : l.Stands rest) (hbreak : l ≠ .newline)
    (hprose : l.kind ≠ .prose) (hline : l.kind = .wrappedProse → '\n' ∉ l.text.toList) :
    '\n' ∉ l.text.toList ∧ l.Stands (withReturns rest) := by
  have htext : '\n' ∉ l.text.toList := by
    by_cases hwrapped : l.kind = .wrappedProse
    · exact hline hwrapped
    · exact hl.newline_not_mem hbreak hwrapped
  refine ⟨htext, ?_⟩
  obtain ⟨c, more, hc, -⟩ := hl.isSeparator_head
  have hhead : (l.text.toList ++ rest).head? = some c := by rw [hc]; rfl
  rw [Stands, ← withReturns_line htext, matchAt_withReturns]
  · exact hl
  · rw [hhead]
    rintro ⟨⟩
    exact htext (hc ▸ List.mem_cons_self)
  · rw [hhead]
    rintro ⟨⟩
    refine hprose ?_
    have hstarts : l.kind.starts '>' = true := hl.starts (congrArg (· ++ rest) hc)
    revert hstarts
    generalize l.kind = k
    cases k <;> first | exact fun _ => rfl | exact fun h => by cases h
  · by_cases hpos : 0 < Kind.reachWrappedProse (l.text.toList ++ rest)
    · have hreach : Kind.reachWrappedProse (l.text.toList ++ rest) = l.text.toList.length := by
        have hkind := reach_of_farthest hl
        rwa [hl.kind_of_wrappedProse hpos] at hkind
      rw [hreach, List.take_left]
      exact htext
    · rw [Nat.eq_zero_of_not_pos hpos]
      exact List.not_mem_nil

/-- Prose goes on to the end of its line. -/
theorem head?_of_stands_prose {q : String} (h : (Lexeme.prose q).Stands rest) :
    ∀ c ∈ rest.head?, c = '\n' := by
  intro c hc
  obtain ⟨ds, rfl⟩ := List.head?_eq_some_iff.mp hc
  obtain ⟨more, hq, hmore⟩ := h.written
  refine Classical.byContradiction fun hne => ?_
  have hreach : Kind.reachProse (q.toList ++ c :: ds) = q.toList.length := reach_of_farthest h
  have hspan := Kind.length_le_spanCount (t := (· ≠ '\n')) (u := more ++ [c])
    (by simpa [or_imp, forall_and] using ⟨hmore, hne⟩) ds
  rw [hq, List.cons_append, Kind.reachProse, List.length_cons] at hreach
  rw [List.append_assoc, List.singleton_append, List.length_append, List.length_singleton] at hspan
  omega

/-- Prose agrees with itself before a carriage return. -/
theorem agrees_return {q : String} (h : IsProse q.toList) :
    (Lexeme.prose q).Agrees (.prose (String.ofList (q.toList ++ ['\r']))) := by
  obtain ⟨more, hq, -⟩ := h
  have hdrop : ∀ cs, Text.dropStart? ['>'] ('>' :: cs) = some cs := fun cs => rfl
  refine .prose ?_
  rw [Reduction.proseText, Reduction.proseText, String.toList_ofList, hq, List.cons_append, hdrop,
    hdrop, Option.getD_some, Option.getD_some, Text.trim_append_blanks (List.forall_mem_singleton.mpr rfl)]

/-- Where nothing comes next, nothing does with carriage returns. -/
theorem Stuck.returns (h : Stuck rest) : Stuck (withReturns rest) := by
  cases rest with
  | nil => exact h
  | cons c rest =>
    obtain ⟨hmatch, hhead⟩ := h
    have hzero := reach_of_farthest_none hmatch
    have hbreak : c ≠ '\n' := by
      rintro rfl
      cases hmatch
    refine ⟨?_, ?_⟩
    · rw [matchAt_withReturns]
      · exact hmatch
      · simpa using hbreak
      · rw [List.head?_cons]
        rintro ⟨⟩
        have hreach := hzero .prose (Kind.mem_all _)
        exact absurd hreach (by simp [Kind.reach, Kind.reachProse])
      · rw [show Kind.reachWrappedProse _ = 0 from hzero .wrappedProse (Kind.mem_all _)]
        exact List.not_mem_nil
    · rw [withReturns_cons hbreak]
      exact hhead

/-- Separators have no line breaks. -/
theorem newline_not_mem_of_isSeparator {blanks : List Char}
    (hb : ∀ c ∈ blanks, isSeparator c = true) : '\n' ∉ blanks := fun h => by cases hb '\n' h

section

variable {blanks : List Char} {ms : List Lexeme}

/-- The carriage return before a line break is a separator. -/
theorem Lexes.token_newline (h : Lexes (withReturns cs) ms rest)
    (hb : ∀ c ∈ blanks, isSeparator c = true) :
    Lexes (withReturns (blanks ++ '\n' :: cs)) (.newline :: ms) rest := by
  have hreturn : ∀ c ∈ blanks ++ ['\r'], isSeparator c = true :=
    List.forall_mem_append.mpr ⟨hb, List.forall_mem_singleton.mpr rfl⟩
  have htoken := Lexes.token hreturn (stands_newline _) h
  rw [List.append_assoc] at htoken
  rw [withReturns_line (newline_not_mem_of_isSeparator hb), withReturns_break]
  exact htoken

/-- The carriage return behind prose becomes part of it. -/
theorem Lexes.token_prose {q : String} (h : Lexes (withReturns cs) ms rest) (hstuck : Stuck rest)
    (hb : ∀ c ∈ blanks, isSeparator c = true) (hl : (Lexeme.prose q).Stands cs) :
    ∃ m, (Lexeme.prose q).Agrees m ∧
      Lexes (withReturns (blanks ++ (q.toList ++ cs))) (m :: ms) rest := by
  have hq : IsProse q.toList := hl.written
  have htext : '\n' ∉ q.toList := hl.newline_not_mem (by simp) (by simp [Lexeme.kind])
  rw [withReturns_line (newline_not_mem_of_isSeparator hb), withReturns_line htext]
  cases cs with
  | nil => exact ⟨.prose q, .refl _, .token hb hl h⟩
  | cons c more =>
    obtain rfl := head?_of_stands_prose hl c rfl
    refine ⟨.prose (String.ofList (q.toList ++ ['\r'])), agrees_return hq, ?_⟩
    have hstands : (Lexeme.prose (String.ofList (q.toList ++ ['\r']))).Stands
        ('\n' :: withReturns more) := by
      obtain ⟨body, hbody, hno⟩ := hq
      refine stands_prose ?_ (by simp)
      rw [String.toList_ofList, hbody]
      exact ⟨body ++ ['\r'], rfl, List.forall_mem_append.mpr ⟨hno, by simp⟩⟩
    have htoken := Lexes.token hb hstands (h.tail rfl hstuck)
    rw [Lexeme.text, String.toList_ofList, List.append_assoc] at htoken
    exact htoken

/-- With carriage returns before its line breaks a text has lexemes that agree with those it had,
and the same is left behind them. -/
theorem Lexes.returns (h : Lexes cs ls rest) (hstuck : Stuck rest)
    (hline : ∀ l ∈ ls, l.kind = .wrappedProse → '\n' ∉ l.text.toList) :
    ∃ ms, Forall₂ Lexeme.Agrees ls ms ∧ Lexes (withReturns cs) ms (withReturns rest) := by
  induction h with
  | @done blanks rest hb =>
    refine ⟨[], .nil, ?_⟩
    rw [withReturns_line (newline_not_mem_of_isSeparator hb)]
    exact .done hb
  | @token blanks l cs ls rest hb hl h ih =>
    rw [List.forall_mem_cons] at hline
    obtain ⟨ms, hagree, hms⟩ := ih hstuck hline.2
    by_cases hbreak : l = .newline
    · subst hbreak
      exact ⟨.newline :: ms, .cons (.refl _) hagree, hms.token_newline hb⟩
    by_cases hprose : l.kind = .prose
    · obtain ⟨q, rfl⟩ : ∃ q, l = .prose q := by
        cases l with
        | prose q => exact ⟨q, rfl⟩
        | _ => cases hprose
      obtain ⟨m, hm, htoken⟩ := hms.token_prose hstuck.returns hb hl
      exact ⟨m :: ms, .cons hm hagree, htoken⟩
    · obtain ⟨htext, hstands⟩ := hl.returns hbreak hprose hline.1
      rw [withReturns_line (newline_not_mem_of_isSeparator hb), withReturns_line htext]
      exact ⟨l :: ms, .cons (.refl l) hagree, .token hb hstands hms⟩

end

end GrammarText
