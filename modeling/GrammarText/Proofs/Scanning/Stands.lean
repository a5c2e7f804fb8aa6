import GrammarText.Proofs.Scanning.Spells

/-!
# Where lexemes stand

For each class of lexemes that a printed grammar has: the characters before which a lexeme of the
class is read as it is written, because no class reaches farther there.
-/

namespace GrammarText

variable {cs rest : List Char} {k : Kind} {w : Word}

/-- The text has ended, or a character comes with which no name goes on. -/
def Stops (rest : List Char) : Prop := ∀ c ∈ rest.head?, c ∈ [' ', '\n', ',', ']', '\x7d', '?']

theorem stops_cons {c : Char} (h : c ∈ [' ', '\n', ',', ']', '\x7d', '?']) : Stops (c :: rest) := by
  intro d hd
  obtain rfl : c = d := by simpa using hd
  exact h

/-! ## The class that reaches farthest -/

theorem farthest_split {pre post : List Kind} (hpos : 0 < k.reach cs)
    (hpre : ∀ l ∈ pre, l.reach cs < k.reach cs) (hpost : ∀ l ∈ post, l.reach cs ≤ k.reach cs) :
    farthest cs (pre ++ k :: post) = some (k, k.reach cs) := by
  induction pre with
  | nil =>
    rw [List.nil_append, farthest]
    cases hf : farthest cs post with
    | none =>
      simp only
      rw [if_neg (by omega)]
    | some r =>
      obtain ⟨l, m⟩ := r
      have hm := reach_of_farthest hf
      have hle := hpost l (mem_of_farthest hf)
      simp only
      rw [if_neg (by omega)]
  | cons l pre ih =>
    rw [List.forall_mem_cons] at hpre
    rw [List.cons_append, farthest, ih hpre.2]
    simp only
    rw [if_pos hpre.1]

/-- A class that reaches farther than all others has the token. -/
theorem matchAt_of_reach (h : ∀ l, l ≠ k → l.reach cs < k.reach cs) :
    matchAt cs = some (k, k.reach cs) := by
  have hpos : 0 < k.reach cs := by
    by_cases hk : k = .eof
    · exact Nat.zero_lt_of_lt (h .newline (by simp [hk]))
    · exact Nat.zero_lt_of_lt (h .eof (Ne.symm hk))
  -- Among equals the first class wins, so the classes before and after this one are told apart.
  obtain ⟨pre, post, hall⟩ := List.append_of_mem (Kind.mem_all k)
  have hnodup : Kind.all.Nodup := by decide
  rw [hall, List.nodup_append] at hnodup
  rw [matchAt, hall]
  refine farthest_split hpos (fun l hl => ?_) fun l hl => ?_
  · exact h l (hnodup.2.2 l hl k List.mem_cons_self)
  · by_cases hlk : l = k
    · exact Nat.le_of_eq (congrArg (Kind.reach · cs) hlk)
    · exact Nat.le_of_lt (h l hlk)

/-- A lexeme stands where its class reaches to its end and no other class does. -/
theorem stands_of_reach {l : Lexeme}
    (hreach : l.kind.reach (l.text.toList ++ rest) = l.text.toList.length)
    (h : ∀ k, k ≠ l.kind → k.reach (l.text.toList ++ rest) < l.text.toList.length) :
    l.Stands rest := by
  rw [Lexeme.Stands, ← hreach]
  refine matchAt_of_reach fun k hk => ?_
  rw [hreach]
  exact h k hk

def Kind.starts (c : Char) : Kind → Bool
  | eof => false
  | newline => c = '\n'
  | reserved => Word.all.any fun w => w.spelling.toList.head? = some c
  | colons => c = ':'
  | terminal => c = Text.backtick
  | control => c = '<' || c = 'U'
  | call | nonterminal => c = 'u' || isCapital c
  | barred => c = '|'
  | label => c = '#'
  | prose => c = '>'
  | wrappedProse => c = '['

theorem reachReserved_eq_zero (h : ∀ w ∈ Word.all, w.spelling.toList.isPrefixOf cs = false) :
    Kind.reachReserved cs = 0 := by
  unfold Kind.reachReserved
  revert h
  generalize Word.all = words
  intro h
  induction words with
  | nil => rfl
  | cons w words ih =>
    rw [List.forall_mem_cons] at h
    simp only [List.foldl_cons, h.1, Bool.false_eq_true, if_false]
    exact ih h.2

theorem reachCall_eq_zero (h : Kind.reachName cs = 0) : Kind.reachCall cs = 0 := by
  simp only [Kind.reachCall, h]
  split <;> rfl

/-- A class has no lexeme with another first character. -/
theorem Kind.reach_eq_zero {c : Char} (h : k.starts c = false) (cs : List Char) :
    k.reach (c :: cs) = 0 := by
  cases k with
  | eof => rfl
  | newline =>
    have hc : c ≠ '\n' := of_decide_eq_false h
    rw [reach]
    intro tail heq
    exact hc (List.cons_eq_cons.mp heq).1
  | reserved =>
    refine reachReserved_eq_zero fun w hw => ?_
    have hfirst := List.any_eq_false.mp h w hw
    cases w <;> simp_all [Word.spelling, List.isPrefixOf]
  | colons => simp_all [starts, reach, spanCount]
  | terminal => simp_all [starts, reach, reachTerminal]
  | control =>
    show reachControl (c :: cs) = 0
    unfold reachControl
    split <;> simp_all [starts]
  | call =>
    refine reachCall_eq_zero ?_
    unfold reachName
    split <;> simp_all [starts]
  | nonterminal =>
    show reachName (c :: cs) = 0
    unfold reachName
    split <;> simp_all [starts]
  | barred =>
    show reachBarred (c :: cs) = 0
    unfold reachBarred
    split <;> simp_all [starts]
  | label =>
    show reachLabel (c :: cs) = 0
    unfold reachLabel
    split <;> simp_all [starts]
  | prose =>
    show reachProse (c :: cs) = 0
    unfold reachProse
    split <;> simp_all [starts]
  | wrappedProse =>
    show reachWrappedProse (c :: cs) = 0
    unfold reachWrappedProse
    split <;> simp_all [starts]

/-! ## Names -/

theorem spanCount_append {p : Char → Bool} (hcs : ∀ c ∈ cs, p c = true)
    (hrest : ∀ c ∈ rest.head?, p c = false) : spanCount p (cs ++ rest) = cs.length := by
  rw [spanCount, List.takeWhile_append_of_pos hcs]
  cases rest with
  | nil => simp
  | cons c rest => simp [hrest c rfl]

theorem isWordChar_of_stops (h : Stops rest) : ∀ c ∈ rest.head?, Text.isWordChar c = false := by
  intro c hc
  have hmem := h c hc
  simp only [List.mem_cons, List.not_mem_nil, or_false] at hmem
  rcases hmem with rfl | rfl | rfl | rfl | rfl | rfl <;> rfl

/-- A name is taken to its end. -/
theorem reachName_append (h : IsName cs) (hrest : ∀ c ∈ rest.head?, Text.isWordChar c = false) :
    Kind.reachName (cs ++ rest) = cs.length := by
  obtain ⟨first, more, rfl, hmore, ⟨c, rfl, hc⟩ | rfl⟩ := h
  · have hspan := spanCount_append hmore hrest
    show Kind.reachName (c :: (more ++ rest)) = (more.length + 1)
    unfold Kind.reachName
    split
    · rename_i heq
      obtain ⟨rfl, -⟩ := List.cons_eq_cons.mp heq
      simp [isCapital] at hc
    · rename_i d ds _ heq
      obtain ⟨rfl, rfl⟩ := List.cons_eq_cons.mp heq
      rw [if_pos hc, hspan, Nat.add_comm]
    · rename_i heq
      cases heq
  · have hspan := spanCount_append hmore hrest
    show 3 + spanCount Text.isWordChar (more ++ rest) = more.length + 3
    rw [hspan, Nat.add_comm]

/-- Of the other classes none but control characters begins as a name does. -/
theorem starts_eq_false {c : Char} (hc : isCapital c = true ∨ c = 'u')
    (hk : k ∉ [.control, .call, .nonterminal]) : k.starts c = false := by
  rcases hc with hc | rfl
  · rw [Bool.eq_false_iff]
    intro hs
    cases k with
    | eof => cases hs
    | reserved =>
      obtain ⟨w, -, hw⟩ := List.any_eq_true.mp hs
      cases w <;> cases of_decide_eq_true hw <;> cases hc
    | control | call | nonterminal => simp at hk
    | _ =>
      cases of_decide_eq_true hs
      cases hc
  · cases k <;> first | rfl | simp at hk

/-- A name is no control character, where no plus sign comes after it. -/
theorem reachControl_name (h : IsName cs)
    (hrest : ∀ c ∈ rest.head?, Text.isWordChar c = false ∧ c ≠ '+') :
    Kind.reachControl (cs ++ rest) = 0 := by
  unfold Kind.reachControl
  split
  -- As `<NAME>`: a name has no such first character.
  · rename_i heq
    obtain ⟨first, more, rfl, -, ⟨c, rfl, hc⟩ | rfl⟩ := h
    · obtain ⟨rfl, -⟩ := List.cons_eq_cons.mp heq
      cases hc
    · cases heq
  -- As `U+` and four digits: the plus sign is neither in the name nor after it.
  · rename_i heq
    obtain ⟨first, more, rfl, hmore, ⟨c, rfl, hc⟩ | rfl⟩ := h
    · obtain ⟨-, heq⟩ := List.cons_eq_cons.mp heq
      cases more with
      | nil =>
        obtain rfl : rest = _ := heq
        exact absurd rfl (hrest '+' rfl).2
      | cons d more =>
        obtain ⟨rfl, -⟩ := List.cons_eq_cons.mp heq
        cases hmore '+' List.mem_cons_self
    · cases heq
  · rfl

/-- What a name does not reach as a name, it does not reach at all. -/
theorem reach_name (h : IsName cs)
    (hrest : ∀ c ∈ rest.head?, Text.isWordChar c = false ∧ c ≠ '+')
    (hk : k ∉ [.call, .nonterminal]) : k.reach (cs ++ rest) = 0 := by
  by_cases hcontrol : k = .control
  · subst hcontrol
    exact reachControl_name h hrest
  · have hstart : ∃ c ds, cs = c :: ds ∧ (isCapital c = true ∨ c = 'u') := by
      obtain ⟨first, more, rfl, -, ⟨c, rfl, hc⟩ | rfl⟩ := h
      · exact ⟨c, more, rfl, .inl hc⟩
      · exact ⟨'u', 'r' :: 'i' :: more, rfl, .inr rfl⟩
    obtain ⟨c, ds, rfl, hc⟩ := hstart
    exact Kind.reach_eq_zero (starts_eq_false hc (by simp_all)) _

theorem IsName.length_pos (h : IsName cs) : 0 < cs.length := by
  obtain ⟨first, more, rfl, -, ⟨c, rfl, -⟩ | rfl⟩ := h <;> simp

/-- A nonterminal stands where its name stops. -/
theorem stands_nonterminal {name : String} (h : IsName name.toList) (hrest : Stops rest) :
    (Lexeme.nonterminal name).Stands rest := by
  have hword := isWordChar_of_stops hrest
  have hname : Kind.reachName (name.toList ++ rest) = name.toList.length := reachName_append h hword
  have hplus : ∀ c ∈ rest.head?, Text.isWordChar c = false ∧ c ≠ '+' := by
    intro c hc
    refine ⟨hword c hc, ?_⟩
    rintro rfl
    simpa using hrest '+' hc
  -- A call would need its opening bracket next.
  have hcall : Kind.reachCall (name.toList ++ rest) = 0 := by
    simp only [Kind.reachCall, hname, List.drop_left]
    split
    · simpa using hrest '[' rfl
    · rfl
  have hpos := h.length_pos
  refine stands_of_reach hname fun l hl => ?_
  show l.reach (name.toList ++ rest) < name.toList.length
  by_cases hk : l = .call
  · rw [hk]
    show Kind.reachCall _ < _
    omega
  · rw [reach_name h hplus (by simpa using ⟨hk, hl⟩)]
    exact hpos

/-- A call stands before its opening bracket. -/
theorem stands_call {name : String} (h : IsName name.toList) :
    (Lexeme.call name).Stands ('[' :: rest) := by
  have hword : ∀ c ∈ ('[' :: rest).head?, Text.isWordChar c = false ∧ c ≠ '+' := by
    rintro c ⟨⟩
    exact ⟨rfl, by decide⟩
  have hname : Kind.reachName (name.toList ++ '[' :: rest) = name.toList.length :=
    reachName_append h fun c hc => (hword c hc).1
  have hcall : Kind.reachCall (name.toList ++ '[' :: rest) = name.toList.length := by
    simp only [Kind.reachCall, hname, List.drop_left]
  have hpos := h.length_pos
  -- The name alone is a nonterminal that reaches as far, but its class comes after that of calls.
  have hsplit : farthest (name.toList ++ '[' :: rest)
      ([.eof, .newline, .reserved, .colons, .terminal, .control] ++ .call ::
        [.nonterminal, .barred, .label, .prose, .wrappedProse]) =
      some (.call, Kind.reachCall (name.toList ++ '[' :: rest)) := by
    refine farthest_split ?_ (fun l hl => ?_) fun l hl => ?_
    · show 0 < Kind.reachCall _
      omega
    · show l.reach _ < Kind.reachCall _
      rw [reach_name h hword ((by decide : ∀ l ∈ [Kind.eof, .newline, .reserved, .colons, .terminal,
        .control], l ∉ [.call, .nonterminal]) l hl)]
      omega
    · show l.reach _ ≤ Kind.reachCall _
      rcases (by decide : ∀ l ∈ [Kind.nonterminal, .barred, .label, .prose, .wrappedProse],
        l = .nonterminal ∨ l ∉ [.call, .nonterminal]) l hl with rfl | hk
      · show Kind.reachName _ ≤ _
        omega
      · rw [reach_name h hword hk]
        exact Nat.zero_le _
  rw [hcall] at hsplit
  exact hsplit

/-! ## Terminals, control characters and prose -/

theorem reachTerminal_quote (h : IsTerminal cs) (rest : List Char) :
    Kind.reachTerminal (cs ++ rest) = cs.length := by
  obtain ⟨body, rfl, ⟨hne, hbody⟩ | rfl⟩ := h
  · have hspan : spanCount isTerminalChar (body ++ Text.backtick :: rest) = body.length :=
      spanCount_append hbody (by rintro c ⟨⟩; rfl)
    have hlen : (Text.quote body).length = body.length + 2 := by simp [Text.quote]
    have hcs : Text.quote body ++ rest = Text.backtick :: (body ++ Text.backtick :: rest) := by
      simp [Text.quote]
    obtain ⟨n, hn⟩ := Nat.exists_eq_succ_of_ne_zero (mt List.length_eq_zero_iff.mp hne)
    rw [hcs, Kind.reachTerminal, if_pos rfl]
    simp only [hspan, List.drop_left]
    rw [hn, hlen, hn]
    exact if_pos rfl
  · rfl

/-- A lexeme stands where its class reaches to its end, if no other class begins as it does. -/
theorem stands_of_starts {l : Lexeme} {c : Char} {more : List Char}
    (htext : l.text.toList = c :: more)
    (hreach : l.kind.reach (l.text.toList ++ rest) = l.text.toList.length)
    (h : ∀ k, k ≠ l.kind → k.starts c = false) : l.Stands rest := by
  refine stands_of_reach hreach fun k hk => ?_
  rw [htext, List.cons_append, Kind.reach_eq_zero (h k hk)]
  exact Nat.succ_pos _

/-- A quoted terminal stands anywhere. -/
theorem stands_terminal {q : String} (h : IsTerminal q.toList) (rest : List Char) :
    (Lexeme.terminal q).Stands rest := by
  have hreach := reachTerminal_quote h rest
  obtain ⟨body, hq, -⟩ := h
  exact stands_of_starts hq hreach fun k hk => by
    cases k <;> first | rfl | exact absurd rfl hk

/-- A prose line stands at the end of its line. -/
theorem stands_prose {q : String} (h : IsProse q.toList) (hrest : ∀ c ∈ rest.head?, c = '\n') :
    (Lexeme.prose q).Stands rest := by
  obtain ⟨more, hq, hmore⟩ := h
  have hspan : spanCount (fun c => decide (c ≠ '\n')) (more ++ rest) = more.length :=
    spanCount_append (by simpa using hmore) (by simpa using hrest)
  refine stands_of_starts hq ?_ fun k hk => by
    cases k <;> first | rfl | exact absurd rfl hk
  show Kind.reachProse (q.toList ++ rest) = q.toList.length
  rw [hq, List.cons_append, Kind.reachProse, hspan, List.length_cons, Nat.add_comm]

/-- The name of a control character stands anywhere. -/
theorem stands_controlName {q : String} {name : List Char} (hq : q.toList = '<' :: (name ++ ['>']))
    (hne : name ≠ []) (hname : ∀ c ∈ name, isCapital c = true) (rest : List Char) :
    (Lexeme.control q).Stands rest := by
  obtain ⟨c, more, rfl⟩ := List.exists_cons_of_ne_nil hne
  have hspan : spanCount isCapital (c :: more ++ '>' :: rest) = (c :: more).length :=
    spanCount_append hname (by rintro c ⟨⟩; rfl)
  have hcs : q.toList ++ rest = '<' :: (c :: more ++ '>' :: rest) := by simp [hq]
  have hreach : Kind.reachControl (q.toList ++ rest) = q.toList.length := by
    rw [hcs]
    simp only [Kind.reachControl, hspan, List.drop_left]
    simp [hq]
  -- The sign for what is outside of a set is no control character, but begins as one.
  have hword : Kind.reachReserved (q.toList ++ rest) = 0 := by
    rw [hcs]
    refine reachReserved_eq_zero fun w _ => ?_
    have hc : c ≠ '!' := by
      rintro rfl
      cases hname '!' List.mem_cons_self
    cases w <;> simp [Word.spelling, List.isPrefixOf, Ne.symm hc]
  have hpos : 0 < q.toList.length := by simp [hq]
  refine stands_of_reach hreach fun k hk => ?_
  show k.reach (q.toList ++ rest) < q.toList.length
  by_cases hr : k = .reserved
  · rw [hr]
    show Kind.reachReserved (q.toList ++ rest) < _
    omega
  · have hstart : k.starts '<' = false := by
      cases k <;> first | rfl | exact absurd rfl hk | exact absurd rfl hr
    rw [hcs, Kind.reach_eq_zero hstart]
    exact hpos

/-- The code point of a control character stands anywhere. -/
theorem stands_codePoint {q : String} {digits : List Char} (hq : q.toList = 'U' :: '+' :: digits)
    (hlen : digits.length = 4) (hdigits : ∀ c ∈ digits, isHexDigit c = true) (rest : List Char) :
    (Lexeme.control q).Stands rest := by
  obtain ⟨a, b, c, d, rfl⟩ : ∃ a b c d, digits = [a, b, c, d] := by
    match digits, hlen with
    | [a, b, c, d], _ => exact ⟨a, b, c, d, rfl⟩
  have hcs : q.toList ++ rest = 'U' :: '+' :: a :: b :: c :: d :: rest := by simp [hq]
  have hreach : Kind.reachControl (q.toList ++ rest) = q.toList.length := by
    rw [hcs, hq]
    refine if_pos ?_
    simpa [and_assoc] using hdigits
  -- Its first letter is a name, but a shorter lexeme.
  have hname : Kind.reachName (q.toList ++ rest) = 1 := by
    rw [hcs]
    rfl
  have hcall : Kind.reachCall (q.toList ++ rest) = 0 := by
    rw [hcs]
    rfl
  have hsix : q.toList.length = 6 := by simp [hq]
  refine stands_of_reach hreach fun k hk => ?_
  show k.reach (q.toList ++ rest) < q.toList.length
  cases k with
  | control => exact absurd rfl hk
  | nonterminal =>
    show Kind.reachName (q.toList ++ rest) < _
    omega
  | call =>
    show Kind.reachCall (q.toList ++ rest) < _
    omega
  | _ =>
    rw [hcs, Kind.reach_eq_zero rfl]
    omega

/-- A control character stands anywhere. -/
theorem stands_control {q : String} (h : IsControl q.toList) (rest : List Char) :
    (Lexeme.control q).Stands rest := by
  rcases h with ⟨name, hq, hne, hname⟩ | ⟨digits, hq, hlen, hdigits⟩
  · exact stands_controlName hq hne hname rest
  · exact stands_codePoint hq hlen hdigits rest

/-! ## Line breaks, colons and reserved words -/

theorem stands_newline (rest : List Char) : Lexeme.newline.Stands rest := rfl

/-- A single colon stands before a line break. -/
theorem stands_colon (rest : List Char) : (Lexeme.colons ":").Stands ('\n' :: rest) := rfl

/-- A bracket stands unless prose comes in it. -/
theorem stands_openBracket (h : ∀ c ∈ rest.head?, c ≠ '>') :
    (Lexeme.reserved .openBracket).Stands rest := by
  have hprose : Kind.reachWrappedProse ('[' :: rest) = 0 := by
    unfold Kind.reachWrappedProse
    split
    · rename_i heq
      obtain ⟨-, rfl⟩ := List.cons_eq_cons.mp heq
      exact absurd rfl (h '>' rfl)
    · rfl
  show matchAt ('[' :: rest) = _
  simp [matchAt, farthest, Kind.all, Kind.reach, hprose]
  rfl

/-- Only the two reserved words that other lexemes begin with do not stand anywhere. -/
theorem stands_word {w : Word} (hw : w ∉ [.openBracket, .no]) (rest : List Char) :
    (Lexeme.reserved w).Stands rest := by
  cases w <;> first | rfl | simp at hw

theorem stands_no (rest : List Char) : (Lexeme.reserved .no).Stands (' ' :: rest) := rfl

end GrammarText
