import GrammarText.Compile

/-!
# How lexemes are written

The texts that the scanner takes for lexemes of a class: what a name, a control character, a quoted
terminal and the others are made of.  What a class reaches in a text is written so
(`written_of_reach`).
-/

namespace GrammarText

variable {cs : List Char} {k : Kind} {n : Nat}

/-! ## Leading characters that satisfy a test -/

section SpanCount

variable (p : Char → Bool) (cs : List Char)

theorem take_spanCount : cs.take (spanCount p cs) = cs.takeWhile p :=
  (List.prefix_iff_eq_take.mp (List.takeWhile_prefix p)).symm

theorem all_take_spanCount : ∀ c ∈ cs.take (spanCount p cs), p c = true := by
  rw [take_spanCount]
  intro c hc
  exact List.all_eq_true.mp List.all_takeWhile c hc

end SpanCount

/-- The characters before a place and the one there. -/
theorem take_succ_of_drop {c : Char} {rest : List Char} (h : cs.drop n = c :: rest) :
    cs.take (n + 1) = cs.take n ++ [c] := by
  have hget : cs[n]? = some c := by
    rw [← List.head?_drop, h]
    rfl
  rw [List.take_add_one, hget]
  rfl

/-- Before a later place there are characters. -/
theorem take_ne_nil_of_drop {c : Char} {rest : List Char} (h : cs.drop (n + 1) = c :: rest) :
    cs.take (n + 1) ≠ [] := by
  cases cs with
  | nil => simp at h
  | cons d cs => simp

/-! ## What lexemes are made of -/

/-- A name: a capital letter, or `uri`, and word characters. -/
def IsName (cs : List Char) : Prop :=
  ∃ first more, cs = first ++ more ∧ (∀ c ∈ more, Text.isWordChar c = true) ∧
    ((∃ c, first = [c] ∧ isCapital c = true) ∨ first = ['u', 'r', 'i'])

def IsTerminal (cs : List Char) : Prop :=
  ∃ body, cs = Text.quote body ∧
    (body ≠ [] ∧ (∀ c ∈ body, isTerminalChar c = true) ∨ body = [Text.backtick])

def IsControl (cs : List Char) : Prop :=
  (∃ name, cs = '<' :: (name ++ ['>']) ∧ name ≠ [] ∧ ∀ c ∈ name, isCapital c = true) ∨
    ∃ digits, cs = 'U' :: '+' :: digits ∧ digits.length = 4 ∧ ∀ c ∈ digits, isHexDigit c = true

def IsBarred (cs : List Char) : Prop :=
  ∃ c more, cs = '|' :: c :: (more ++ ['|']) ∧ isCapital c = true ∧
    ∀ c ∈ more, Text.isWordChar c = true

def IsProse (cs : List Char) : Prop := ∃ more, cs = '>' :: more ∧ ∀ c ∈ more, c ≠ '\n'

def IsWrappedProse (cs : List Char) : Prop :=
  ∃ body, cs = '[' :: '>' :: (body ++ [']']) ∧ ∀ c ∈ body, c ≠ ']'

/-- How the lexemes of a class are written, as far as it matters here. -/
def Lexeme.Written : Lexeme → Prop
  | terminal text => IsTerminal text.toList
  | control text => IsControl text.toList
  | call text | nonterminal text => IsName text.toList
  | barred text => IsBarred text.toList
  | prose text => IsProse text.toList
  | wrappedProse text => IsWrappedProse text.toList
  | _ => True

/-! ## What is taken is written so -/

theorem isTerminal_take (h : 0 < Kind.reachTerminal cs) :
    IsTerminal (cs.take (Kind.reachTerminal cs)) := by
  cases cs with
  | nil => simp [Kind.reachTerminal] at h
  | cons c cs =>
    by_cases hc : c = Text.backtick
    · subst hc
      have hbody := all_take_spanCount isTerminalChar cs
      simp only [Kind.reachTerminal, if_true] at h ⊢
      split at h
      · rename_i d e rest hn hdrop
        by_cases hde : d = Text.backtick ∧ e = Text.backtick
        · rw [hn, List.drop_zero] at hdrop
          rw [if_pos hde, hdrop]
          exact ⟨[Text.backtick], by simp [Text.quote, hde], .inr rfl⟩
        · simp [hde] at h
      · rename_i n d rest hn hdrop
        by_cases hd : d = Text.backtick
        · rw [hn] at hdrop hbody
          rw [if_pos hd, List.take_succ_cons, take_succ_of_drop hdrop, hd]
          exact ⟨cs.take (n + 1), rfl, .inl ⟨take_ne_nil_of_drop hdrop, hbody⟩⟩
        · simp [hd] at h
      · simp at h
    · simp [Kind.reachTerminal, hc] at h

theorem isControl_take (h : 0 < Kind.reachControl cs) :
    IsControl (cs.take (Kind.reachControl cs)) := by
  unfold Kind.reachControl at h ⊢
  split at h
  · rename_i cs
    have hname := all_take_spanCount isCapital cs
    simp only at h ⊢
    split at h
    · rename_i n rest hn hdrop
      rw [hn] at hdrop hname
      rw [List.take_succ_cons, take_succ_of_drop hdrop]
      exact .inl ⟨cs.take (n + 1), rfl, take_ne_nil_of_drop hdrop, hname⟩
    · simp at h
  · rename_i a b c d rest
    by_cases hd : (isHexDigit a && isHexDigit b && isHexDigit c && isHexDigit d) = true
    · rw [if_pos hd]
      refine .inr ⟨[a, b, c, d], rfl, rfl, ?_⟩
      simpa [and_assoc] using hd
    · simp [hd] at h
  · simp at h

theorem isName_take (h : 0 < Kind.reachName cs) : IsName (cs.take (Kind.reachName cs)) := by
  unfold Kind.reachName at h ⊢
  split at h
  · rename_i cs
    refine ⟨['u', 'r', 'i'], _, ?_, all_take_spanCount Text.isWordChar cs, .inr rfl⟩
    rw [Nat.add_comm]
    rfl
  · rename_i c cs _
    by_cases hc : isCapital c = true
    · refine ⟨[c], _, ?_, all_take_spanCount Text.isWordChar cs, .inl ⟨c, rfl, hc⟩⟩
      rw [if_pos hc, Nat.add_comm]
      rfl
    · simp [hc] at h
  · simp at h

theorem isBarred_take (h : 0 < Kind.reachBarred cs) : IsBarred (cs.take (Kind.reachBarred cs)) := by
  unfold Kind.reachBarred at h ⊢
  split at h
  · rename_i c cs
    have hmore := all_take_spanCount Text.isWordChar cs
    simp only at h ⊢
    split at h
    · rename_i n rest hc hn hdrop
      rw [hn] at hdrop hmore
      rw [List.take_succ_cons, List.take_succ_cons, take_succ_of_drop hdrop]
      exact ⟨c, cs.take (n + 1), rfl, hc, hmore⟩
    · simp at h
  · simp at h

theorem isProse_take (h : 0 < Kind.reachProse cs) : IsProse (cs.take (Kind.reachProse cs)) := by
  unfold Kind.reachProse at h ⊢
  split at h
  · rename_i cs
    refine ⟨cs.take (spanCount (· ≠ '\n') cs), ?_, ?_⟩
    · rw [Nat.add_comm]
      rfl
    · intro c hc
      simpa using all_take_spanCount (· ≠ '\n') cs c hc
  · simp at h

theorem isWrappedProse_take (h : 0 < Kind.reachWrappedProse cs) :
    IsWrappedProse (cs.take (Kind.reachWrappedProse cs)) := by
  unfold Kind.reachWrappedProse at h ⊢
  split at h
  · rename_i cs
    have hbody := all_take_spanCount (· ≠ ']') cs
    simp only at h ⊢
    split at h
    · rename_i rest hdrop
      rw [List.take_succ_cons, List.take_succ_cons, take_succ_of_drop hdrop]
      exact ⟨_, rfl, by simpa using hbody⟩
    · simp at h
  · simp at h

/-- A call reaches as far as its name does. -/
theorem reachCall_of_pos (h : 0 < Kind.reachCall cs) : Kind.reachCall cs = Kind.reachName cs := by
  simp only [Kind.reachCall] at h ⊢
  split at h
  · rfl
  · simp at h

/-- What a class reaches is the text of a lexeme of the class. -/
theorem written_of_reach (h : 0 < k.reach cs) :
    (Lexeme.ofKind k (String.ofList (cs.take (k.reach cs)))).Written := by
  cases k with
  | terminal =>
    show IsTerminal _
    rw [String.toList_ofList]
    exact isTerminal_take h
  | control =>
    show IsControl _
    rw [String.toList_ofList]
    exact isControl_take h
  | call =>
    show IsName _
    rw [String.toList_ofList]
    have hreach := reachCall_of_pos h
    show IsName (cs.take (Kind.reachCall cs))
    rw [hreach]
    exact isName_take (hreach ▸ h)
  | nonterminal =>
    show IsName _
    rw [String.toList_ofList]
    exact isName_take h
  | barred =>
    show IsBarred _
    rw [String.toList_ofList]
    exact isBarred_take h
  | prose =>
    show IsProse _
    rw [String.toList_ofList]
    exact isProse_take h
  | wrappedProse =>
    show IsWrappedProse _
    rw [String.toList_ofList]
    exact isWrappedProse_take h
  | eof | newline | reserved | colons | label => exact trivial

theorem reach_of_farthest {ks : List Kind} (h : farthest cs ks = some (k, n)) :
    k.reach cs = n := by
  induction ks generalizing k n with
  | nil => cases h
  | cons l ks ih =>
    simp only [farthest] at h
    split at h
    · rename_i k' n' hf
      split at h
      · cases h
        exact ih hf
      · cases h
        rfl
    · split at h
      · cases h
      · cases h
        rfl

theorem mem_of_farthest {ks : List Kind} (h : farthest cs ks = some (k, n)) : k ∈ ks := by
  induction ks generalizing k n with
  | nil => cases h
  | cons l ks ih =>
    simp only [farthest] at h
    split at h
    · rename_i k' n' hf
      split at h
      · cases h
        exact List.mem_cons_of_mem _ (ih hf)
      · cases h
        exact List.mem_cons_self
    · split at h
      · cases h
      · cases h
        exact List.mem_cons_self

end GrammarText
