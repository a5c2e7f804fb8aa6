import GrammarText.Proofs.Scanning.Breaks
import GrammarText.Proofs.Scanning.Patterns
import Mathlib.Data.List.Sort

/-!
# Maximal munch

The classes of lexemes are given by patterns (`Kind.pattern`), each of which is tried once at the
start of a text: only its first match counts, and a call needs its bracket right after that match
(`Kind.preferred`).  This match is as long as any lexeme of the class there (`reach_eq_preferred`),
so the longest lexeme of all classes is read (`matchAt_munch`), and the order of the classes tells
calls from other nonterminals and nothing else (`Kind.eq_of_admits`).
-/

namespace GrammarText

open Pattern (char word more moreTo anyOf)

/-! ## The patterns of the classes -/

def Word.longestFirst : List (List Char) :=
  (all.map (·.spelling.toList)).insertionSort fun v w => w.length ≤ v.length

namespace Kind

/-- How the lexemes of a class are written.  The end of the text has no lexeme. -/
def pattern : Kind → Pattern
  | eof => .one fun _ => false
  | newline => char '\n'
  | reserved => anyOf Word.longestFirst
  | colons => more (· = ':')
  | terminal => .alt (.seq (char Text.backtick) (moreTo isTerminalChar Text.backtick))
      (word [Text.backtick, Text.backtick, Text.backtick])
  | control => .alt (.seq (char '<') (moreTo isCapital '>'))
      (.seq (char 'U') (.seq (char '+') (.seq (.one isHexDigit) (.seq (.one isHexDigit)
        (.seq (.one isHexDigit) (.one isHexDigit))))))
  | call | nonterminal =>
      .seq (.alt (word ['u', 'r', 'i']) (.one isCapital)) (.many Text.isWordChar)
  | barred => .seq (char '|') (.seq (.one isCapital) (moreTo Text.isWordChar '|'))
  | label => .seq (char '#') (.seq (.one Char.isAlpha) (.many Text.isWordChar))
  | prose => .seq (char '>') (.many (· ≠ '\n'))
  | wrappedProse => .seq (char '[') (.seq (char '>') (.seq (.many (· ≠ ']')) (char ']')))

/-- A lexeme of a class may stand before some characters.  A call stands before its bracket only. -/
def allows (k : Kind) (rest : List Char) : Bool := k ≠ call || rest.head? = some '['

/-- How many characters the first match of a pattern takes, if a lexeme may stand there.  No other
match is tried. -/
def preferred (k : Kind) (cs : List Char) : Nat :=
  match (k.pattern.runs cs).head? with
  | some n => if k.allows (cs.drop n) then n else 0
  | none => 0

/-- A text begins with a lexeme of a class, before some characters. -/
def Admits (k : Kind) (u rest : List Char) : Prop := k.pattern.Matches u ∧ k.allows rest = true

variable {k l : Kind} {cs u rest : List Char}

/-! ## The lexemes of each class -/

theorem matches_terminal : (pattern terminal).Matches u ↔ IsTerminal u := by
  simp only [pattern, Pattern.matches_alt, Pattern.matches_seq_char, Pattern.matches_moreTo,
    Pattern.matches_word, IsTerminal]
  constructor
  · rintro (⟨_, rfl, body, rfl, hne, hall⟩ | rfl)
    · exact ⟨body, rfl, .inl ⟨hne, hall⟩⟩
    · exact ⟨[Text.backtick], rfl, .inr rfl⟩
  · rintro ⟨body, rfl, ⟨hne, hall⟩ | rfl⟩
    · exact .inl ⟨_, rfl, body, rfl, hne, hall⟩
    · exact .inr rfl

theorem matches_control : (pattern control).Matches u ↔ IsControl u := by
  have hdigits : ∀ more : List Char, (Pattern.seq (.one isHexDigit) (.seq (.one isHexDigit)
      (.seq (.one isHexDigit) (.one isHexDigit)))).Matches more ↔
      more.length = 4 ∧ ∀ c ∈ more, isHexDigit c = true := by
    intro more
    simp only [Pattern.matches_seq_one, Pattern.matches_one]
    constructor
    · rintro ⟨a, _, rfl, ha, b, _, rfl, hb, c, _, rfl, hc, d, rfl, hd⟩
      exact ⟨rfl, by simp [ha, hb, hc, hd]⟩
    · rintro ⟨hlength, hall⟩
      match more, hlength with
      | [a, b, c, d], _ =>
        simp only [List.forall_mem_cons] at hall
        obtain ⟨ha, hb, hc, hd, -⟩ := hall
        exact ⟨a, _, rfl, ha, b, _, rfl, hb, c, _, rfl, hc, d, rfl, hd⟩
  simp only [pattern, Pattern.matches_alt, Pattern.matches_seq_char, Pattern.matches_moreTo,
    hdigits, IsControl]
  constructor
  · rintro (⟨_, rfl, name, rfl, hname⟩ | ⟨_, rfl, digits, rfl, hall⟩)
    · exact .inl ⟨name, rfl, hname⟩
    · exact .inr ⟨digits, rfl, hall⟩
  · rintro (⟨name, rfl, hname⟩ | ⟨digits, rfl, hall⟩)
    · exact .inl ⟨_, rfl, name, rfl, hname⟩
    · exact .inr ⟨_, rfl, digits, rfl, hall⟩

theorem matches_name : (pattern nonterminal).Matches u ↔ IsName u := by
  constructor
  · rintro ⟨first, more, rfl, hfirst, hmore⟩
    rw [Pattern.matches_alt, Pattern.matches_word] at hfirst
    exact ⟨first, more, rfl, hmore, hfirst.symm⟩
  · rintro ⟨first, more, rfl, hmore, hfirst⟩
    refine ⟨first, more, rfl, ?_, hmore⟩
    rw [Pattern.matches_alt, Pattern.matches_word]
    exact hfirst.symm

theorem matches_barred : (pattern barred).Matches u ↔ ∃ c more, u = '|' :: c :: (more ++ ['|']) ∧
    isCapital c = true ∧ more ≠ [] ∧ ∀ d ∈ more, Text.isWordChar d = true := by
  simp only [pattern, Pattern.matches_seq_char, Pattern.matches_seq_one, Pattern.matches_moreTo]
  constructor
  · rintro ⟨_, rfl, c, _, rfl, hc, more, rfl, hmore⟩
    exact ⟨c, more, rfl, hc, hmore⟩
  · rintro ⟨c, more, rfl, hc, hmore⟩
    exact ⟨_, rfl, c, _, rfl, hc, more, rfl, hmore⟩

theorem matches_label : (pattern label).Matches u ↔ ∃ c more, u = '#' :: c :: more ∧
    c.isAlpha = true ∧ ∀ d ∈ more, Text.isWordChar d = true := by
  simp only [pattern, Pattern.matches_seq_char, Pattern.matches_seq_one, Pattern.matches_many]
  constructor
  · rintro ⟨_, rfl, c, more, rfl, hc, hmore⟩
    exact ⟨c, more, rfl, hc, hmore⟩
  · rintro ⟨c, more, rfl, hc, hmore⟩
    exact ⟨_, rfl, c, more, rfl, hc, hmore⟩

theorem matches_prose : (pattern prose).Matches u ↔ IsProse u := by
  simp only [pattern, Pattern.matches_seq_char, Pattern.matches_many, decide_eq_true_eq, IsProse]

theorem matches_wrappedProse : (pattern wrappedProse).Matches u ↔ IsWrappedProse u := by
  simp only [pattern, Pattern.matches_seq_char, Pattern.matches_closed, IsWrappedProse]
  constructor
  · rintro ⟨_, rfl, _, rfl, body, rfl, hbody⟩
    exact ⟨body, rfl, by simpa [Pattern.matches_many] using hbody⟩
  · rintro ⟨body, rfl, hbody⟩
    exact ⟨_, rfl, _, rfl, body, rfl, by simpa [Pattern.matches_many] using hbody⟩

theorem matches_reserved : (pattern reserved).Matches u ↔ ∃ w : Word, u = w.spelling.toList := by
  rw [pattern, Pattern.matches_anyOf, Word.longestFirst, List.mem_insertionSort, List.mem_map]
  constructor
  · rintro ⟨w, -, rfl⟩
    exact ⟨w, rfl⟩
  · rintro ⟨w, rfl⟩
    exact ⟨w, Word.mem_all w, rfl⟩

/-- A name has one match at most before its word characters. -/
theorem exact_first : (Pattern.alt (word ['u', 'r', 'i']) (.one isCapital)).Exact := by
  refine (Pattern.exact_word _).alt (Pattern.exact_one _) ?_
  rintro u v rest rest' hu ⟨c, rfl, hc⟩ heq
  rw [Pattern.matches_word.mp hu] at heq
  obtain ⟨rfl, -⟩ := List.cons_eq_cons.mp heq
  cases hc

theorem exact_terminal : (pattern terminal).Exact := by
  refine .alt ((Pattern.exact_one _).seq (Pattern.exact_moreTo rfl)) (Pattern.exact_word _) ?_
  intro u v rest rest' hu hv heq
  obtain ⟨_, rfl, hbody⟩ := Pattern.matches_seq_char.mp hu
  obtain ⟨body, rfl, hne, hall⟩ := Pattern.matches_moreTo.mp hbody
  obtain ⟨c, body, rfl⟩ := List.exists_cons_of_ne_nil hne
  rw [Pattern.matches_word.mp hv] at heq
  -- What comes after the first backtick is none.
  obtain ⟨-, htail⟩ := List.cons_eq_cons.mp heq
  obtain ⟨rfl, -⟩ := List.cons_eq_cons.mp htail
  cases hall _ List.mem_cons_self

theorem exact_control : (pattern control).Exact := by
  have hpoint : (Pattern.seq (char 'U') (.seq (char '+') (.seq (.one isHexDigit)
      (.seq (.one isHexDigit) (.seq (.one isHexDigit) (.one isHexDigit)))))).Exact :=
    (Pattern.exact_one _).seq <| (Pattern.exact_one _).seq <| (Pattern.exact_one _).seq <|
      (Pattern.exact_one _).seq <| (Pattern.exact_one _).seq <| Pattern.exact_one _
  refine .alt ((Pattern.exact_one _).seq (Pattern.exact_moreTo rfl)) hpoint ?_
  intro u v rest rest' hu hv heq
  obtain ⟨_, rfl, -⟩ := Pattern.matches_seq_char.mp hu
  obtain ⟨_, rfl, -⟩ := Pattern.matches_seq_char.mp hv
  cases heq

/-- Each class tries longer matches before shorter ones. -/
theorem pattern_descends (k : Kind) : k.pattern.Descends := by
  have hone := Pattern.exact_one
  cases k with
  | eof | newline => exact (hone _).descends
  | reserved =>
    have hlongest : Word.longestFirst.Pairwise fun v w => w.length ≤ v.length := by decide +kernel
    exact Pattern.descends_anyOf hlongest
  | colons => exact Pattern.descends_more _
  | terminal => exact exact_terminal.descends
  | control => exact exact_control.descends
  | call | nonterminal => exact exact_first.seq_descends (Pattern.descends_many _)
  | barred => exact ((hone _).seq ((hone _).seq (Pattern.exact_moreTo rfl))).descends
  | label => exact (hone _).seq_descends ((hone _).seq_descends (Pattern.descends_many _))
  | prose => exact (hone _).seq_descends (Pattern.descends_many _)
  | wrappedProse =>
    have hclosed := (hone _).many_seq (Pattern.avoids_char (c := ']') (t := (· ≠ ']')) rfl)
    exact ((hone _).seq ((hone _).seq hclosed)).descends

/-! ## How far a class reaches -/

theorem four_le_reachBarred (h : 0 < reachBarred cs) : 4 ≤ reachBarred cs := by
  unfold reachBarred at h ⊢
  split at h
  · dsimp only at h ⊢
    split at h
    · omega
    · cases h
  · cases h

theorem matches_reachBarred (h : 0 < reachBarred cs) :
    (pattern barred).Matches (cs.take (reachBarred cs)) := by
  obtain ⟨c, more, htake, hc, hmore⟩ := isBarred_take h
  refine matches_barred.mpr ⟨c, more, htake, hc, ?_, hmore⟩
  rintro rfl
  have hle := four_le_reachBarred h
  have hlength := congrArg List.length htake
  rw [List.length_take_of_le (reachBarred_le cs)] at hlength
  simp only [List.nil_append, List.length_cons, List.length_nil] at hlength
  omega

/-- What a class reaches is a lexeme of it. -/
theorem matches_reach (h : 0 < k.reach cs) : k.pattern.Matches (cs.take (k.reach cs)) := by
  cases k with
  | eof => cases h
  | newline =>
    cases cs with
    | nil => cases h
    | cons c cs =>
      by_cases hc : c = '\n'
      · subst hc
        exact Pattern.matches_char.mpr rfl
      · simp [reach, hc] at h
  | reserved =>
    obtain ⟨w, hprefix, hw⟩ := exists_word_of_reach h
    refine matches_reserved.mpr ⟨w, ?_⟩
    rw [show reach reserved cs = _ from hw]
    exact (List.prefix_iff_eq_take.mp hprefix).symm
  | colons =>
    refine Pattern.matches_more.mpr ⟨?_, all_take_spanCount _ cs⟩
    intro hnil
    have hlength := congrArg List.length hnil
    rw [List.length_take_of_le (reach_le_length colons cs)] at hlength
    exact Nat.ne_of_gt h hlength
  | terminal => exact matches_terminal.mpr (isTerminal_take h)
  | control => exact matches_control.mpr (isControl_take h)
  | call =>
    have hreach : reach call cs = reachName cs := reachCall_of_pos h
    rw [hreach] at h ⊢
    exact matches_name.mpr (isName_take h)
  | nonterminal => exact matches_name.mpr (isName_take h)
  | barred => exact matches_reachBarred h
  | label =>
    show (pattern label).Matches (cs.take (reachLabel cs))
    have hpos : 0 < reachLabel cs := h
    unfold reachLabel at hpos ⊢
    split at hpos
    · rename_i c cs
      cases hc : c.isAlpha with
      | false => simp [hc] at hpos
      | true =>
        rw [if_pos rfl, Nat.add_comm]
        exact matches_label.mpr ⟨c, _, rfl, hc, all_take_spanCount Text.isWordChar cs⟩
    · cases hpos
  | prose => exact matches_prose.mpr (isProse_take h)
  | wrappedProse => exact matches_wrappedProse.mpr (isWrappedProse_take h)

/-- What a class reaches may stand there. -/
theorem allows_reach (h : 0 < k.reach cs) : k.allows (cs.drop (k.reach cs)) = true := by
  cases k with
  | call =>
    have hreach : reachCall cs = reachName cs := reachCall_of_pos h
    have hpos : 0 < reachCall cs := h
    show allows call (cs.drop (reachCall cs)) = true
    rw [hreach]
    unfold reachCall at hpos
    dsimp only at hpos
    split at hpos
    · rename_i hdrop
      rw [hdrop]
      rfl
    · cases hpos
  | _ => rfl

theorem length_le_spanCount {t : Char → Bool} (h : ∀ c ∈ u, t c = true) (rest : List Char) :
    u.length ≤ spanCount t (u ++ rest) :=
  le_spanCount_iff.mpr ⟨by simp, by simpa using h⟩

theorem length_le_reachReserved (w : Word) (rest : List Char) :
    w.spelling.toList.length ≤ reachReserved (w.spelling.toList ++ rest) := by
  have hprefix : w.spelling.toList.isPrefixOf (w.spelling.toList ++ rest) = true :=
    List.isPrefixOf_iff_prefix.mpr (List.prefix_append _ _)
  generalize w.spelling.toList ++ rest = cs at hprefix
  -- The greatest length so far never falls, and it is as great as that of any word passed.
  have hfold : ∀ (words : List Word) (n : Nat),
      let m := words.foldl (fun n w =>
        let s := w.spelling.toList
        if s.isPrefixOf cs then max n s.length else n) n
      n ≤ m ∧ ∀ v ∈ words, v.spelling.toList.isPrefixOf cs = true →
        v.spelling.toList.length ≤ m := by
    intro words
    induction words with
    | nil => exact fun n => ⟨Nat.le_refl n, nofun⟩
    | cons v words ih =>
      intro n
      rw [List.foldl_cons]
      obtain ⟨hle, hwords⟩ := ih (if v.spelling.toList.isPrefixOf cs then
        max n v.spelling.toList.length else n)
      refine ⟨Nat.le_trans ?_ hle, List.forall_mem_cons.mpr ⟨fun hv => ?_, hwords⟩⟩
      · split
        · exact Nat.le_max_left _ _
        · exact Nat.le_refl n
      · dsimp only
        rw [if_pos hv] at hle ⊢
        exact Nat.le_trans (Nat.le_max_right _ _) hle
  exact (hfold Word.all 0).2 w (Word.mem_all w) hprefix

theorem length_le_reachName (h : IsName u) (rest : List Char) :
    u.length ≤ reachName (u ++ rest) := by
  obtain ⟨first, more, rfl, hmore, ⟨c, rfl, hc⟩ | rfl⟩ := h
  · have hspan := length_le_spanCount hmore rest
    have hnot : ['u', 'r', 'i'].isPrefixOf (c :: (more ++ rest)) = false := by
      have hne : ('u' == c) = false := by
        rw [beq_eq_false_iff_ne]
        rintro rfl
        cases hc
      rw [List.isPrefixOf, hne, Bool.false_and]
    show more.length + 1 ≤ reachName (c :: (more ++ rest))
    rw [reachName_of_not_uri hnot, if_pos hc]
    omega
  · have hspan := length_le_spanCount hmore rest
    show more.length + 3 ≤ 3 + spanCount Text.isWordChar (more ++ rest)
    omega

theorem length_le_reachControl (h : IsControl u) (rest : List Char) :
    u.length ≤ reachControl (u ++ rest) := by
  have hstands := stands_control (q := String.ofList u) (by rwa [String.toList_ofList]) rest
  have hreach : reachControl ((String.ofList u).toList ++ rest) = (String.ofList u).toList.length :=
    reach_of_farthest hstands
  rw [String.toList_ofList] at hreach
  exact Nat.le_of_eq hreach.symm

/-- A class reaches as far as any lexeme of it. -/
theorem length_le_reach (h : k.Admits u rest) : u.length ≤ k.reach (u ++ rest) := by
  obtain ⟨hu, hrest⟩ := h
  cases k with
  | eof =>
    obtain ⟨c, -, hc⟩ := hu
    cases hc
  | newline =>
    obtain rfl := Pattern.matches_char.mp hu
    exact Nat.le_refl 1
  | reserved =>
    obtain ⟨w, rfl⟩ := matches_reserved.mp hu
    exact length_le_reachReserved w rest
  | colons => exact length_le_spanCount (Pattern.matches_more.mp hu).2 rest
  | terminal => exact Nat.le_of_eq (reachTerminal_quote (matches_terminal.mp hu) rest).symm
  | control => exact length_le_reachControl (matches_control.mp hu) rest
  | call =>
    -- The name ends before the bracket, so it is not taken for longer.
    obtain ⟨more, rfl⟩ : ∃ more, rest = '[' :: more :=
      List.head?_eq_some_iff.mp (of_decide_eq_true hrest)
    have hname : reachName (u ++ '[' :: more) = u.length :=
      reachName_append (matches_name.mp hu) (by rintro c ⟨⟩; rfl)
    refine Nat.le_of_eq ?_
    show u.length = reachCall (u ++ '[' :: more)
    simp only [reachCall, hname, List.drop_left]
  | nonterminal => exact length_le_reachName (matches_name.mp hu) rest
  | barred =>
    obtain ⟨c, more, rfl, hc, hne, hmore⟩ := matches_barred.mp hu
    have hspan : spanCount Text.isWordChar (more ++ '|' :: rest) = more.length :=
      spanCount_append hmore (by rintro d ⟨⟩; rfl)
    obtain ⟨n, hn⟩ := Nat.exists_eq_succ_of_ne_zero (mt List.length_eq_zero_iff.mp hne)
    have hcs : '|' :: c :: (more ++ ['|']) ++ rest = '|' :: c :: (more ++ '|' :: rest) := by simp
    refine Nat.le_of_eq ?_
    rw [hcs, show reach barred _ = reachBarred _ from rfl, reachBarred]
    simp only [hspan, List.drop_left, hc]
    simp [hn]
  | label =>
    obtain ⟨c, more, rfl, hc, hmore⟩ := matches_label.mp hu
    have hspan := length_le_spanCount hmore rest
    show more.length + 2 ≤ reachLabel ('#' :: c :: (more ++ rest))
    rw [reachLabel, if_pos hc]
    omega
  | prose =>
    obtain ⟨more, rfl, hmore⟩ := matches_prose.mp hu
    have hspan : more.length ≤ spanCount (· ≠ '\n') (more ++ rest) :=
      length_le_spanCount (by simpa using hmore) rest
    show more.length + 1 ≤ reachProse ('>' :: (more ++ rest))
    rw [reachProse]
    omega
  | wrappedProse =>
    obtain ⟨body, rfl, hbody⟩ := matches_wrappedProse.mp hu
    have hreach := reachWrappedProse_closed hbody rest
    have hcs : '[' :: '>' :: (body ++ [']']) ++ rest = '[' :: '>' :: (body ++ ']' :: rest) := by
      simp
    rw [hcs, show reach wrappedProse _ = reachWrappedProse _ from rfl, hreach]
    simp

/-- A class reaches as far as its first match, which is the only one that is tried. -/
theorem reach_eq_preferred (k : Kind) (cs : List Char) : k.reach cs = k.preferred cs := by
  -- What the class reaches is one of the matches.
  have hmem : 0 < k.reach cs → k.reach cs ∈ k.pattern.runs cs := fun hpos =>
    Pattern.mem_runs_iff.mpr ⟨reach_le_length k cs, matches_reach hpos⟩
  rw [preferred]
  cases hhead : (k.pattern.runs cs).head? with
  | none =>
    rw [List.head?_eq_none_iff] at hhead
    rw [hhead] at hmem
    exact Nat.eq_zero_of_not_pos fun hpos => by cases hmem hpos
  | some m =>
    obtain ⟨hm, hmatches⟩ := Pattern.mem_runs_iff.mp (List.mem_of_head? hhead)
    dsimp only
    cases hallows : k.allows (cs.drop m) with
    | true =>
      rw [if_pos rfl]
      have hle := length_le_reach ⟨hmatches, hallows⟩
      rw [List.take_append_drop, List.length_take_of_le hm] at hle
      by_cases hpos : 0 < k.reach cs
      · exact Nat.le_antisymm ((pattern_descends k).le_of_head? hhead (hmem hpos)) hle
      · omega
    | false =>
      rw [if_neg (by simp)]
      refine Nat.eq_zero_of_not_pos fun hpos => ?_
      -- A call would have to end before a bracket, and there its first match ends.
      have hcall : k = call := by
        refine Classical.byContradiction fun hne => ?_
        simp [allows, hne] at hallows
      subst hcall
      have hbracket : (cs.drop (reach call cs)).head? = some '[' :=
        of_decide_eq_true (allows_reach hpos)
      have hfirst := Pattern.head?_of_stop exact_first (hmem hpos) hbracket rfl
      obtain rfl : m = reach call cs := Option.some.inj (hhead.symm.trans hfirst)
      rw [allows_reach hpos] at hallows
      cases hallows

/-! ## Classes that are told apart -/

/-- The class that the first characters of a lexeme tell.  Calls count as nonterminals. -/
def told : List Char → Kind
  | [] => eof
  | c :: more =>
    if c = '\n' then newline
    else if c = ':' then colons
    else if c = Text.backtick then terminal
    else if c = '|' then barred
    else if c = '#' then label
    else if c = '>' then prose
    else if c = '[' then if more.head? = some '>' then wrappedProse else reserved
    else if c = '<' then if more.head? = some '!' then reserved else control
    else if c = 'U' then if more.head? = some '+' then control else nonterminal
    else if c = 'u' || isCapital c then nonterminal
    else reserved

theorem told_name (h : IsName u) : told u = nonterminal := by
  obtain ⟨first, more, rfl, hmore, ⟨c, rfl, hc⟩ | rfl⟩ := h
  · have hne : ∀ d : Char, isCapital d = false → c ≠ d := by
      rintro d hd rfl
      rw [hc] at hd
      cases hd
    have hplus : more.head? ≠ some '+' := by
      intro hhead
      cases hmore '+' (List.mem_of_head? hhead)
    simp [told, hne '\n' rfl, hne ':' rfl, hne Text.backtick rfl, hne '|' rfl, hne '#' rfl,
      hne '>' rfl, hne '[' rfl, hne '<' rfl, hplus, hc]
  · rfl

theorem told_control (h : IsControl u) : told u = control := by
  obtain ⟨name, rfl, hne, hname⟩ | ⟨digits, rfl, -, -⟩ := h
  · obtain ⟨c, name, rfl⟩ := List.exists_cons_of_ne_nil hne
    have hc : c ≠ '!' := by
      rintro rfl
      cases hname '!' List.mem_cons_self
    simp [told, Text.backtick, hc]
  · rfl

/-- The class of a lexeme is told by its first characters. -/
theorem told_of_admits (h : k.Admits u rest) : told u = if k = call then nonterminal else k := by
  obtain ⟨hu, -⟩ := h
  cases k with
  | eof =>
    obtain ⟨c, -, hc⟩ := hu
    cases hc
  | newline =>
    obtain rfl := Pattern.matches_char.mp hu
    rfl
  | reserved =>
    obtain ⟨w, rfl⟩ := matches_reserved.mp hu
    cases w <;> decide
  | colons =>
    obtain ⟨hne, hall⟩ := Pattern.matches_more.mp hu
    obtain ⟨c, more, rfl⟩ := List.exists_cons_of_ne_nil hne
    obtain rfl : c = ':' := of_decide_eq_true (hall c List.mem_cons_self)
    rfl
  | terminal =>
    obtain ⟨body, rfl, -⟩ := matches_terminal.mp hu
    rfl
  | control => exact told_control (matches_control.mp hu)
  | call | nonterminal => exact told_name (matches_name.mp hu)
  | barred =>
    obtain ⟨c, more, rfl, -⟩ := matches_barred.mp hu
    rfl
  | label =>
    obtain ⟨c, more, rfl, -⟩ := matches_label.mp hu
    rfl
  | prose =>
    obtain ⟨more, rfl, -⟩ := matches_prose.mp hu
    rfl
  | wrappedProse =>
    obtain ⟨body, rfl, -⟩ := matches_wrappedProse.mp hu
    rfl

/-- A text is a lexeme of one class only, but for the names of calls and other nonterminals. -/
theorem eq_of_admits {rest' : List Char} (h : k.Admits u rest) (h' : l.Admits u rest')
    (hne : k ≠ l) : k = call ∧ l = nonterminal ∨ k = nonterminal ∧ l = call := by
  have htold := (told_of_admits h).symm.trans (told_of_admits h')
  by_cases hk : k = call
  · by_cases hl : l = call
    · exact absurd (hk.trans hl.symm) hne
    · rw [if_pos hk, if_neg hl] at htold
      exact .inl ⟨hk, htold.symm⟩
  · by_cases hl : l = call
    · rw [if_neg hk, if_pos hl] at htold
      exact .inr ⟨htold, hl⟩
    · rw [if_neg hk, if_neg hl] at htold
      exact absurd htold hne

end Kind

/-! ## The longest lexeme -/

variable {cs : List Char} {k : Kind} {n : Nat}

/-- No class is taken where none reaches anything. -/
theorem reach_of_farthest_none {ks : List Kind} (h : farthest cs ks = none) :
    ∀ k ∈ ks, k.reach cs = 0 := by
  induction ks with
  | nil => exact nofun
  | cons k ks ih =>
    simp only [farthest] at h
    split at h
    · split at h <;> cases h
    · rename_i hnone
      split at h
      · rename_i hzero
        exact List.forall_mem_cons.mpr ⟨hzero, ih hnone⟩
      · cases h

/-- Of the classes that reach farthest the first one is taken. -/
theorem exists_of_farthest {ks : List Kind} (h : farthest cs ks = some (k, n)) :
    ∃ pre post, ks = pre ++ k :: post ∧ (∀ l ∈ pre, l.reach cs < n) ∧
      ∀ l ∈ post, l.reach cs ≤ n := by
  induction ks generalizing k n with
  | nil => cases h
  | cons j ks ih =>
    simp only [farthest] at h
    split at h
    · rename_i l m hlater
      obtain ⟨pre, post, rfl, hpre, hpost⟩ := ih hlater
      split at h
      · rename_i hlt
        cases h
        exact ⟨j :: pre, post, rfl, List.forall_mem_cons.mpr ⟨hlt, hpre⟩, hpost⟩
      · rename_i hnlt
        cases h
        have hle := Nat.le_of_not_lt hnlt
        refine ⟨[], pre ++ l :: post, rfl, List.forall_mem_nil _, ?_⟩
        rw [List.forall_mem_append, List.forall_mem_cons, reach_of_farthest hlater]
        exact ⟨fun i hi => Nat.le_trans (Nat.le_of_lt (hpre i hi)) hle, hle,
          fun i hi => Nat.le_trans (hpost i hi) hle⟩
    · rename_i hnone
      split at h
      · cases h
      · cases h
        refine ⟨[], ks, rfl, List.forall_mem_nil _, fun l hl => ?_⟩
        rw [reach_of_farthest_none hnone l hl]
        exact Nat.zero_le _

/-- What is read is a lexeme of its class. -/
theorem admits_of_matchAt (h : matchAt cs = some (k, n)) : k.Admits (cs.take n) (cs.drop n) := by
  obtain rfl : k.reach cs = n := reach_of_farthest h
  have hpos := matchAt_pos h
  exact ⟨Kind.matches_reach hpos, Kind.allows_reach hpos⟩

/-- No class reaches farther than what is read. -/
theorem le_of_matchAt (h : matchAt cs = some (k, n)) (l : Kind) : l.reach cs ≤ n := by
  obtain ⟨pre, post, hall, hpre, hpost⟩ := exists_of_farthest h
  have hmem := Kind.mem_all l
  rw [hall, List.mem_append, List.mem_cons] at hmem
  rcases hmem with hl | rfl | hl
  · exact Nat.le_of_lt (hpre l hl)
  · exact Nat.le_of_eq (reach_of_farthest h)
  · exact hpost l hl

/-- Maximal munch.  Each class is tried for the first match of its pattern only, and yet nothing is
read only where no text begins with a lexeme of some class; otherwise the longest such lexeme is
read, as one of the first class that has it.  No other classes share it than calls and
nonterminals. -/
theorem matchAt_munch (cs : List Char) :
    (∀ k : Kind, k.reach cs = k.preferred cs) ∧
    (matchAt cs = none ↔ ∀ (k : Kind) u rest, cs = u ++ rest → k.Admits u rest → u = []) ∧
    ∀ k n, matchAt cs = some (k, n) → ∃ u rest, cs = u ++ rest ∧ u.length = n ∧ u ≠ [] ∧
      k.Admits u rest ∧
      (∀ (l : Kind) v rest', cs = v ++ rest' → l.Admits v rest' →
        Text.byteLength v ≤ Text.byteLength u) ∧
      (∃ pre post, Kind.all = pre ++ k :: post ∧ ∀ l ∈ pre, ¬ l.Admits u rest) ∧
      ∀ l m : Kind, l.Admits u rest → m.Admits u rest → l ≠ m →
        l = .call ∧ m = .nonterminal ∨ l = .nonterminal ∧ m = .call := by
  have hnil : matchAt cs = none → ∀ (k : Kind) u rest, cs = u ++ rest → k.Admits u rest →
      u = [] := by
    rintro hnone k u rest rfl hadmits
    have hle := Kind.length_le_reach hadmits
    rw [reach_of_farthest_none hnone k (Kind.mem_all k)] at hle
    exact List.length_eq_zero_iff.mp (Nat.le_zero.mp hle)
  have hlength : ∀ k n, matchAt cs = some (k, n) → (cs.take n).length = n := by
    intro k n hmatch
    obtain rfl : k.reach cs = n := reach_of_farthest hmatch
    exact List.length_take_of_le (reach_le_length k cs)
  refine ⟨fun k => k.reach_eq_preferred cs, ⟨hnil, fun h => ?_⟩, fun k n hmatch => ?_⟩
  · cases hmatch : matchAt cs with
    | none => rfl
    | some r =>
      have hempty := h r.1 _ _ (List.take_append_drop r.2 cs).symm (admits_of_matchAt hmatch)
      have hpos := matchAt_pos hmatch
      rw [← List.length_eq_zero_iff, hlength r.1 r.2 hmatch] at hempty
      omega
  · obtain ⟨pre, post, hall, hpre, -⟩ := exists_of_farthest hmatch
    refine ⟨cs.take n, cs.drop n, (List.take_append_drop n cs).symm, hlength k n hmatch, ?_,
      admits_of_matchAt hmatch, fun l v rest' hv hl => ?_,
      ⟨pre, post, hall, fun l hl hl' => ?_⟩, fun l m hl hm hne => Kind.eq_of_admits hl hm hne⟩
    · rw [← List.length_pos_iff, hlength k n hmatch]
      exact matchAt_pos hmatch
    · -- Of two beginnings of a text the one of fewer characters has fewer bytes.
      have hle := Kind.length_le_reach hl
      rw [← hv] at hle
      have hprefix : v <+: cs.take n := by
        rw [List.prefix_take_iff]
        exact ⟨⟨rest', hv.symm⟩, Nat.le_trans hle (le_of_matchAt hmatch l)⟩
      obtain ⟨w, hw⟩ := hprefix
      rw [← hw, Text.byteLength_append]
      exact Nat.le_add_right _ _
    · have hreach := Kind.length_le_reach hl'
      rw [List.take_append_drop, hlength k n hmatch] at hreach
      exact Nat.lt_irrefl n (Nat.lt_of_le_of_lt hreach (hpre l hl))

end GrammarText
