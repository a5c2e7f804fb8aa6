import GrammarText.Proofs.Scanning.Stands

/-!
# Lines are scanned one by one

No lexeme goes over a line break, but for prose in brackets and the break itself.  So what a class
reaches does not depend on what comes after the next line break (`reach_break`).
-/

namespace GrammarText

variable {cs more rest : List Char} {k : Kind} {n : Nat}

/-! ## What is reached before a line break -/

theorem spanCount_break {p : Char → Bool} (hp : p '\n' = false) (cs more : List Char) :
    spanCount p (cs ++ '\n' :: more) = spanCount p cs := by
  induction cs with
  | nil => simp [spanCount, hp]
  | cons c cs ih =>
    unfold spanCount at ih ⊢
    by_cases hc : p c = true
    · rw [List.cons_append, List.takeWhile_cons_of_pos hc, List.takeWhile_cons_of_pos hc,
        List.length_cons, List.length_cons, ih]
    · rw [List.cons_append, List.takeWhile_cons_of_neg hc, List.takeWhile_cons_of_neg hc]

theorem drop_spanCount_break (p : Char → Bool) (cs more : List Char) :
    (cs ++ '\n' :: more).drop (spanCount p cs) = cs.drop (spanCount p cs) ++ '\n' :: more :=
  List.drop_append_of_le_length (spanCount_le p cs)

theorem isPrefixOf_break {w : List Char} (hw : '\n' ∉ w) (cs more : List Char) :
    w.isPrefixOf (cs ++ '\n' :: more) = w.isPrefixOf cs := by
  induction w generalizing cs with
  | nil => simp
  | cons d w ih =>
    rw [List.mem_cons, not_or] at hw
    cases cs with
    | nil =>
      have hd : (d == '\n') = false := beq_eq_false_iff_ne.mpr (Ne.symm hw.1)
      simp [List.isPrefixOf, hd]
    | cons c cs => simp [List.isPrefixOf, ih hw.2]

theorem reachReserved_break (cs more : List Char) :
    Kind.reachReserved (cs ++ '\n' :: more) = Kind.reachReserved cs := by
  have hwords : ∀ w ∈ Word.all, '\n' ∉ w.spelling.toList := by decide
  unfold Kind.reachReserved
  revert hwords
  generalize Word.all = words
  intro hwords
  have hstep : ∀ n, words.foldl (fun n w =>
        let s := w.spelling.toList
        if s.isPrefixOf (cs ++ '\n' :: more) then max n s.length else n) n =
      words.foldl (fun n w =>
        let s := w.spelling.toList
        if s.isPrefixOf cs then max n s.length else n) n := by
    induction words with
    | nil => exact fun _ => rfl
    | cons w words ih =>
      intro n
      rw [List.forall_mem_cons] at hwords
      rw [List.foldl_cons, List.foldl_cons, ih hwords.2]
      simp only [isPrefixOf_break hwords.1]
  exact hstep 0

theorem reachName_of_not_uri {c : Char} (h : ['u', 'r', 'i'].isPrefixOf (c :: cs) = false) :
    Kind.reachName (c :: cs) = if isCapital c then 1 + spanCount Text.isWordChar cs else 0 := by
  unfold Kind.reachName
  split
  · rename_i heq
    rw [heq] at h
    cases h
  · rename_i heq
    obtain ⟨rfl, rfl⟩ := List.cons_eq_cons.mp heq
    rfl
  · rename_i heq
    cases heq

theorem reachName_break (cs more : List Char) :
    Kind.reachName (cs ++ '\n' :: more) = Kind.reachName cs := by
  have hstarts := isPrefixOf_break (w := ['u', 'r', 'i']) (by decide) cs more
  have hword := fun ds => spanCount_break (p := Text.isWordChar) rfl ds more
  cases huri : ['u', 'r', 'i'].isPrefixOf cs with
  | true =>
    obtain ⟨ds, rfl⟩ := List.isPrefixOf_iff_prefix.mp huri
    exact congrArg (3 + ·) (hword ds)
  | false =>
    cases cs with
    | nil => rfl
    | cons c cs =>
      rw [List.cons_append] at hstarts ⊢
      rw [reachName_of_not_uri huri, reachName_of_not_uri (hstarts.trans huri), hword]

theorem reachCall_break (cs more : List Char) :
    Kind.reachCall (cs ++ '\n' :: more) = Kind.reachCall cs := by
  have hdrop : (cs ++ '\n' :: more).drop (Kind.reachName cs) =
      cs.drop (Kind.reachName cs) ++ '\n' :: more :=
    List.drop_append_of_le_length (reachName_le cs)
  simp only [Kind.reachCall, reachName_break, hdrop]
  cases cs.drop (Kind.reachName cs) with
  | nil => rfl
  | cons d ds => by_cases hd : d = '[' <;> simp [hd]

theorem reachTerminal_break (cs more : List Char) :
    Kind.reachTerminal (cs ++ '\n' :: more) = Kind.reachTerminal cs := by
  cases cs with
  | nil => rfl
  | cons c cs =>
    by_cases hc : c = Text.backtick
    · subst hc
      simp only [Kind.reachTerminal, List.cons_append, if_true,
        spanCount_break (p := isTerminalChar) rfl cs more, drop_spanCount_break]
      -- Whatever comes after the characters of the terminal, a line break is no backtick.
      generalize spanCount isTerminalChar cs = n
      cases n with
      | zero =>
        cases cs.drop 0 with
        | nil => cases more <;> rfl
        | cons d ds =>
          cases ds with
          | nil => simp [Text.backtick]
          | cons e ds => rfl
      | succ n =>
        cases cs.drop (n + 1) with
        | nil => rfl
        | cons d ds => rfl
    · simp [Kind.reachTerminal, hc]

theorem reachControl_name_break (cs more : List Char) :
    Kind.reachControl ('<' :: (cs ++ '\n' :: more)) = Kind.reachControl ('<' :: cs) := by
  simp only [Kind.reachControl, spanCount_break (p := isCapital) rfl cs more, drop_spanCount_break]
  generalize spanCount isCapital cs = n
  cases n with
  | zero => rfl
  | succ n =>
    cases cs.drop (n + 1) with
    | nil => rfl
    | cons d ds => by_cases hd : d = '>' <;> simp [hd]

/-- A line break is no digit of a code point. -/
theorem reachControl_codePoint_break (cs more : List Char) :
    Kind.reachControl ('U' :: '+' :: (cs ++ '\n' :: more)) =
      Kind.reachControl ('U' :: '+' :: cs) := by
  have hbreak : isHexDigit '\n' = false := rfl
  match cs with
  | [] | [a] | [a, b] | [a, b, c] =>
    match more with
    | [] | [x] | [x, y] => simp [Kind.reachControl, hbreak]
    | x :: y :: z :: more => simp [Kind.reachControl, hbreak]
  | a :: b :: c :: d :: cs => rfl

theorem reachControl_eq_zero (hname : cs.head? ≠ some '<')
    (hpoint : ['U', '+'].isPrefixOf cs = false) : Kind.reachControl cs = 0 := by
  unfold Kind.reachControl
  split
  · exact absurd rfl hname
  · cases hpoint
  · rfl

theorem reachControl_break (cs more : List Char) :
    Kind.reachControl (cs ++ '\n' :: more) = Kind.reachControl cs := by
  have hstarts := isPrefixOf_break (w := ['U', '+']) (by decide) cs more
  cases hpoint : ['U', '+'].isPrefixOf cs with
  | true =>
    obtain ⟨ds, rfl⟩ := List.isPrefixOf_iff_prefix.mp hpoint
    exact reachControl_codePoint_break ds more
  | false =>
    cases cs with
    | nil => rfl
    | cons c cs =>
      by_cases hc : c = '<'
      · subst hc
        exact reachControl_name_break cs more
      · rw [reachControl_eq_zero (by simpa using hc) hpoint,
          reachControl_eq_zero (by simpa using hc) (hstarts.trans hpoint)]

theorem reachBarred_break (cs more : List Char) :
    Kind.reachBarred (cs ++ '\n' :: more) = Kind.reachBarred cs := by
  match cs with
  | [] => cases more <;> simp [Kind.reachBarred]
  | [c] =>
    have hbreak : isCapital '\n' = false := rfl
    by_cases hc : c = '|' <;> simp [Kind.reachBarred, hc, hbreak]
  | c :: d :: cs =>
    by_cases hc : c = '|'
    · subst hc
      simp only [Kind.reachBarred, List.cons_append,
        spanCount_break (p := Text.isWordChar) rfl cs more, drop_spanCount_break]
      generalize spanCount Text.isWordChar cs = n
      cases n with
      | zero => simp
      | succ n =>
        cases cs.drop (n + 1) with
        | nil => simp
        | cons e ds =>
          by_cases he : e = '|'
          · subst he
            cases isCapital d <;> rfl
          · simp [he]
    · simp [Kind.reachBarred, hc]

theorem reachLabel_break (cs more : List Char) :
    Kind.reachLabel (cs ++ '\n' :: more) = Kind.reachLabel cs := by
  match cs with
  | [] => cases more <;> simp [Kind.reachLabel]
  | [c] =>
    have hbreak : '\n'.isAlpha = false := rfl
    by_cases hc : c = '#' <;> simp [Kind.reachLabel, hc, hbreak]
  | c :: d :: cs =>
    by_cases hc : c = '#'
    · subst hc
      simp only [Kind.reachLabel, List.cons_append,
        spanCount_break (p := Text.isWordChar) rfl cs more]
    · simp [Kind.reachLabel, hc]

theorem reachProse_break (cs more : List Char) :
    Kind.reachProse (cs ++ '\n' :: more) = Kind.reachProse cs := by
  cases cs with
  | nil => rfl
  | cons c cs =>
    by_cases hc : c = '>'
    · subst hc
      simp only [Kind.reachProse, List.cons_append, spanCount_break (p := (· ≠ '\n')) rfl cs more]
    · simp [Kind.reachProse, hc]

/-- What a class reaches before a line break does not depend on what comes after it. -/
theorem reach_break (hne : cs ≠ []) (hk : k ≠ .wrappedProse) (more : List Char) :
    k.reach (cs ++ '\n' :: more) = k.reach cs := by
  cases k with
  | eof => rfl
  | newline =>
    cases cs with
    | nil => exact absurd rfl hne
    | cons c cs => by_cases hc : c = '\n' <;> simp [Kind.reach, hc]
  | reserved => exact reachReserved_break cs more
  | colons => exact spanCount_break rfl cs more
  | terminal => exact reachTerminal_break cs more
  | control => exact reachControl_break cs more
  | call => exact reachCall_break cs more
  | nonterminal => exact reachName_break cs more
  | barred => exact reachBarred_break cs more
  | label => exact reachLabel_break cs more
  | prose => exact reachProse_break cs more
  | wrappedProse => exact absurd rfl hk

/-- Prose in brackets goes to the first bracket that closes it. -/
theorem reachWrappedProse_closed {body : List Char} (h : ∀ c ∈ body, c ≠ ']') (rest : List Char) :
    Kind.reachWrappedProse ('[' :: '>' :: (body ++ ']' :: rest)) = body.length + 3 := by
  have hspan : spanCount (· ≠ ']') (body ++ ']' :: rest) = body.length :=
    spanCount_append (by simpa using h) (by simp)
  simp only [Kind.reachWrappedProse, hspan, List.drop_left]

/-- Prose in brackets that is closed before a line break stays as it is. -/
theorem reachWrappedProse_break (h : 0 < Kind.reachWrappedProse cs) (more : List Char) :
    Kind.reachWrappedProse (cs ++ '\n' :: more) = Kind.reachWrappedProse cs := by
  obtain ⟨body, hbody, hno⟩ := isWrappedProse_take h
  have hcs : cs = '[' :: '>' :: (body ++ ']' :: cs.drop (Kind.reachWrappedProse cs)) := by
    calc cs = cs.take (Kind.reachWrappedProse cs) ++ cs.drop (Kind.reachWrappedProse cs) :=
          (List.take_append_drop _ cs).symm
      _ = '[' :: '>' :: (body ++ ']' :: cs.drop (Kind.reachWrappedProse cs)) := by
          rw [hbody]
          simp
  rw [hcs]
  simp only [List.cons_append, List.append_assoc, reachWrappedProse_closed hno]

theorem reachWrappedProse_eq_zero (h : ['[', '>'].isPrefixOf cs = false) :
    Kind.reachWrappedProse cs = 0 := by
  unfold Kind.reachWrappedProse
  split
  · cases h
  · rfl

theorem farthest_congr {ds : List Char} (h : ∀ k : Kind, k.reach cs = k.reach ds) (ks : List Kind) :
    farthest cs ks = farthest ds ks := by
  induction ks with
  | nil => rfl
  | cons k ks ih => simp only [farthest, ih, h]

/-! ## Lexemes before a line break -/

/-- A lexeme is matched as it was before a line break comes after it, unless prose in brackets is
left open before the break. -/
theorem matchAt_break (hne : cs ≠ []) (more : List Char)
    (h : ['[', '>'].isPrefixOf cs = true → 0 < Kind.reachWrappedProse cs) :
    matchAt (cs ++ '\n' :: more) = matchAt cs := by
  refine farthest_congr (fun k => ?_) Kind.all
  by_cases hk : k = .wrappedProse
  · subst hk
    show Kind.reachWrappedProse _ = Kind.reachWrappedProse _
    have hstarts := isPrefixOf_break (w := ['[', '>']) (by decide) cs more
    cases hopen : ['[', '>'].isPrefixOf cs with
    | true => exact reachWrappedProse_break (h hopen) more
    | false =>
      rw [reachWrappedProse_eq_zero hopen, reachWrappedProse_eq_zero (hstarts.trans hopen)]
  · exact reach_break hne hk more

/-- A lexeme begins with a character with which its class does. -/
theorem Lexeme.Stands.starts {l : Lexeme} {c : Char} (hl : l.Stands rest)
    (h : l.text.toList ++ rest = c :: more) : l.kind.starts c = true := by
  refine Classical.byContradiction fun hno => ?_
  have hreach := reach_of_farthest hl
  rw [h, Kind.reach_eq_zero (Bool.eq_false_iff.mpr hno)] at hreach
  exact hl.text_ne_nil (List.length_eq_zero_iff.mp hreach.symm)

/-- What begins with prose in brackets that is left open is read as a bracket before prose. -/
theorem eq_openBracket_of_torn {l : Lexeme} (hl : l.Stands rest)
    (hopen : ['[', '>'].isPrefixOf (l.text.toList ++ rest) = true)
    (htorn : Kind.reachWrappedProse (l.text.toList ++ rest) = 0) :
    l = .reserved .openBracket ∧ rest.head? = some '>' := by
  obtain ⟨ds, hds⟩ := List.isPrefixOf_iff_prefix.mp hopen
  have hstarts : l.kind.starts '[' = true := hl.starts hds.symm
  cases l with
  | reserved w =>
    have hw : w = .openBracket ∧ rest = '>' :: ds := by
      revert hds
      cases w <;> simp [Lexeme.text, Word.spelling, eq_comm]
    obtain ⟨rfl, rfl⟩ := hw
    exact ⟨rfl, rfl⟩
  | wrappedProse q =>
    have hreach := (reach_of_farthest hl).symm.trans htorn
    exact absurd (List.length_eq_zero_iff.mp hreach) hl.text_ne_nil
  | _ => cases hstarts

/-- A lexeme stands where it stood before a line break comes, unless it is the bracket before prose.
-/
theorem Lexeme.Stands.append_break {l : Lexeme} (hl : l.Stands rest) (more : List Char)
    (h : l = .reserved .openBracket → rest.head? ≠ some '>') :
    l.Stands (rest ++ '\n' :: more) := by
  have hne : l.text.toList ++ rest ≠ [] := by simp [hl.text_ne_nil]
  rw [Stands, ← List.append_assoc, matchAt_break hne]
  · exact hl
  · intro hopen
    refine Nat.pos_of_ne_zero fun htorn => ?_
    obtain ⟨hl', hrest⟩ := eq_openBracket_of_torn hl hopen htorn
    exact h hl' hrest

/-- Only a line break and prose in brackets have a line break in their text. -/
theorem Lexeme.Stands.newline_not_mem {l : Lexeme} (hl : l.Stands rest) (hbreak : l ≠ .newline)
    (hprose : l.kind ≠ .wrappedProse) : '\n' ∉ l.text.toList := by
  intro hmem
  obtain ⟨pre, post, htext⟩ := List.append_of_mem hmem
  have hreach := reach_of_farthest hl
  rw [htext, List.append_assoc, List.cons_append] at hreach
  cases pre with
  | nil =>
    have hkind : l.kind.starts '\n' = false := by
      cases l with
      | newline => exact absurd rfl hbreak
      | _ => rfl
    rw [List.nil_append, Kind.reach_eq_zero hkind] at hreach
    simp at hreach
  | cons c pre =>
    -- The class of the lexeme reaches no farther than to the break.
    have hle := reach_le_length l.kind (c :: pre)
    rw [reach_break (List.cons_ne_nil c pre) hprose] at hreach
    simp only [List.length_append, List.length_cons] at hreach hle
    omega

/-! ## Texts in two parts -/

section Scans

variable {o : Nat} {ts us : List Token}

def Token.shift (t : Token) (distance : Nat) : Token :=
  ⟨t.lexeme, t.start + distance, t.stop + distance⟩

/-- The same characters farther on have the same tokens farther on. -/
theorem Scans.shift (h : Scans o cs ts) (k : Nat) : Scans (o + k) cs (ts.map (·.shift k)) := by
  induction h with
  | done => exact .done
  | separator hc h ih =>
    rw [Nat.add_right_comm] at ih
    exact .separator hc ih
  | token hl h ih =>
    rw [Nat.add_right_comm] at ih
    rw [List.map_cons, Token.shift, Nat.add_right_comm]
    exact .token hl ih

theorem Scans.ne_nil (h : Scans o cs ts) : ts ≠ [] := by
  induction h with
  | done | token => exact List.cons_ne_nil _ _
  | separator hc h ih => exact ih

/-- Only prose begins with its bracket. -/
theorem Scans.kind_of_head {t : Token} (h : Scans o ('>' :: cs) (t :: ts)) : t.kind = .prose := by
  generalize hds : '>' :: cs = ds at h
  generalize hus : t :: ts = us at h
  cases h with
  | done => cases hds
  | separator hc =>
    obtain ⟨rfl, -⟩ := List.cons_eq_cons.mp hds
    cases hc
  | @token _ l rest us hl h =>
    obtain ⟨rfl, -⟩ := List.cons_eq_cons.mp hus
    obtain ⟨c, more, htext, -⟩ := hl.isSeparator_head
    rw [htext] at hds
    obtain ⟨rfl, -⟩ := List.cons_eq_cons.mp hds
    have hstarts : l.kind.starts '>' = true := hl.starts (congrArg (· ++ rest) htext)
    show l.kind = .prose
    generalize l.kind = k at hstarts
    cases k <;> first | rfl | cases hstarts

/-- Tokens stay where they are when a line break and other tokens come after them, unless a bracket
stands right before prose. -/
theorem Scans.append_break (h : Scans o cs ts)
    (hno : ∀ pre t u post, ts = pre ++ t :: u :: post →
      t.lexeme = .reserved .openBracket → u.kind ≠ .prose)
    {more : List Char} (hmore : Scans (o + Text.byteLength cs) ('\n' :: more) us) :
    Scans o (cs ++ '\n' :: more) (ts.dropLast ++ us) := by
  induction h with
  | done => exact hmore
  | separator hc h ih =>
    rw [Text.byteLength_cons, ← Nat.add_assoc] at hmore
    exact .separator hc (ih hno hmore)
  | @token o l rest ts hl h ih =>
    rw [Text.byteLength_append, ← Nat.add_assoc] at hmore
    have hrest : l = .reserved .openBracket → rest.head? ≠ some '>' := by
      rintro rfl hhead
      obtain ⟨ds, rfl⟩ := List.head?_eq_some_iff.mp hhead
      obtain ⟨u, us, rfl⟩ := List.exists_cons_of_ne_nil h.ne_nil
      exact hno [] _ u us rfl rfl h.kind_of_head
    have htail := ih (fun pre t u post heq => hno (_ :: pre) t u post (congrArg (_ :: ·) heq)) hmore
    rw [List.append_assoc, List.dropLast_cons_of_ne_nil h.ne_nil]
    exact .token (hl.append_break more hrest) htail

end Scans

end GrammarText
