import GrammarText.Grammar.Display
import GrammarText.Proofs.Grammar.Data
import GrammarText.Proofs.Reduction.Fits
import GrammarText.Proofs.Scanning.Stands

/-!
# What the display of a grammar is spelled with

The lexemes that the display of each part of a grammar is meant to be made of, and that it is: where
the part fits and nothing comes after it that would go on with its last name, its display spells
those lexemes.
-/

namespace GrammarText

/-! ## Names and spellings that were read -/

theorem isTerminalChar_of_ne {c : Char} (h : c ∉ [Text.backtick, ' ', '\n']) :
    isTerminalChar c = true := by
  simpa [isTerminalChar, and_assoc] using h

/-- A control character is written without backticks and blanks. -/
theorem IsControl.isTerminalChar {cs : List Char} (h : IsControl cs) :
    ∀ c ∈ cs, isTerminalChar c = true := by
  rcases h with ⟨name, rfl, -, hname⟩ | ⟨digits, rfl, -, hdigits⟩
  · intro c hc
    refine isTerminalChar_of_ne fun hblank => ?_
    simp only [List.mem_cons, List.mem_append, List.not_mem_nil, or_false] at hc hblank
    rcases hc with rfl | hc | rfl
    · exact absurd hblank (by decide)
    · have := hname c hc
      rcases hblank with rfl | rfl | rfl <;> cases this
    · exact absurd hblank (by decide)
  · intro c hc
    refine isTerminalChar_of_ne fun hblank => ?_
    simp only [List.mem_cons, List.not_mem_nil, or_false] at hc hblank
    rcases hc with rfl | rfl | hc
    · exact absurd hblank (by decide)
    · exact absurd hblank (by decide)
    · have := hdigits c hc
      rcases hblank with rfl | rfl | rfl <;> cases this

/-- A spelling that was read may stand between backticks. -/
theorem Spelled.isTerminal {s : String} (h : Spelled Lexeme.Written s) :
    IsTerminal (Text.quoted s).toList := by
  rw [Text.quoted, String.toList_ofList]
  rcases h with ⟨q, ⟨body, hq, hbody⟩, hs⟩ | hs
  · have hne : body ≠ [] := by
      rcases hbody with ⟨hne, -⟩ | rfl
      · exact hne
      · simp
    rw [hq, Text.unquote?_quote hne] at hs
    exact ⟨body, congrArg Text.quote (Option.some.inj hs).symm, hbody⟩
  · have hchar := IsControl.isTerminalChar hs
    have hne : s.toList ≠ [] := by
      rcases hs with ⟨name, hs, -⟩ | ⟨digits, hs, -⟩ <;> simp [hs]
    exact ⟨s.toList, rfl, .inl ⟨hne, hchar⟩⟩

/-- What stands between bars is left without them, if it has none itself. -/
theorem stripBars_eq {q : String} {cs : List Char} (hq : q.toList = '|' :: (cs ++ ['|']))
    (hcs : '|' ∉ cs) : Reduction.stripBars q = String.ofList cs := by
  have hbar : ∀ d ∈ cs, decide (d = '|') = false := by
    intro d hd
    rw [decide_eq_false_iff_not]
    rintro rfl
    exact hcs hd
  have hlast : cs.reverse.dropWhile (· = '|') = cs.reverse :=
    Text.dropWhile_eq_self fun d hd => hbar d (List.mem_reverse.mp (List.mem_of_mem_head? hd))
  rw [Reduction.stripBars, hq, List.dropWhile_cons_of_pos (by rfl)]
  cases cs with
  | nil => rfl
  | cons c more =>
    have hfirst : (c :: (more ++ ['|'])).dropWhile (· = '|') = c :: (more ++ ['|']) := by
      refine Text.dropWhile_eq_self ?_
      rintro d ⟨⟩
      exact hbar c List.mem_cons_self
    have hreverse : (c :: (more ++ ['|'])).reverse = '|' :: (c :: more).reverse := by simp
    rw [List.cons_append, hfirst, hreverse, List.dropWhile_cons_of_pos (by rfl), hlast,
      List.reverse_reverse]

/-- A name that stood between bars is one without them. -/
theorem isName_stripBars {q : String} (h : IsBarred q.toList) :
    IsName (Reduction.stripBars q).toList := by
  obtain ⟨c, more, hq, hc, hmore⟩ := h
  have hbar : '|' ∉ c :: more := by
    intro hd
    rcases List.mem_cons.mp hd with rfl | hd
    · cases hc
    · cases hmore _ hd
  rw [stripBars_eq hq hbar, String.toList_ofList]
  exact ⟨[c], more, rfl, hmore, .inl ⟨c, rfl, hc⟩⟩

/-! ## The lexemes of a display -/

/-- Lexemes of several parts, with some more between a part and the next. -/
def separated (between : List Lexeme) : List (List Lexeme) → List Lexeme
  | [] => []
  | ls :: lss => ls ++ lss.flatMap (between ++ ·)

def Argument.lexemes (param : String) : Argument → List Lexeme
  | fixed value => [.reserved (if value then .plus else .tilde), .nonterminal param]
  | var _ => [.reserved .question, .nonterminal param]

def Exclusion.lexemes : Exclusion → List Lexeme
  | terminal spelling => [.terminal (Text.quoted spelling)]
  | nonterminal name => [.nonterminal name]
  | range low high => [.control low, .reserved .through, .control high]

def Lookahead.lexemes : Lookahead → List Lexeme
  | tokenSet tokens positive =>
    match tokens.toList with
    | [token] => [.reserved (if positive then .equal else .unequal), .terminal (Text.quoted token)]
    | all =>
      .reserved .outside :: .reserved .openBrace ::
        (separated [.reserved .comma] (all.map fun token => [.terminal (Text.quoted token)]) ++
          [.reserved .closeBrace])
  | notNonterminal name => [.reserved .outside, .nonterminal name]

def Symbol.lexemes : Symbol → List Lexeme
  | terminal spelling => [.terminal (Text.quoted spelling)]
  | nonterminal name => [.nonterminal name]
  | apply name args =>
    .call name :: .reserved .openBracket ::
      (separated [.reserved .comma] (args.map fun (param, arg) => arg.lexemes param) ++
        [.reserved .closeBracket])
  | optional inner => inner.lexemes ++ [.reserved .question]
  | exclusion base exclusions =>
    base.lexemes ++ .reserved .but :: .reserved .not ::
      ((if exclusions.length > 1 then [.reserved .one, .reserved .of] else []) ++
        separated [.reserved .or] (exclusions.map Exclusion.lexemes))
  | lookahead rule =>
    .reserved .openBracket :: .reserved .lookahead :: (rule.lexemes ++ [.reserved .closeBracket])
  | noLineTerminatorHere =>
    [.reserved .openBracket, .reserved .no, .nonterminal "LineTerminator", .reserved .here,
      .reserved .closeBracket]

def Production.lexemes : Production → List Lexeme
  | symbols [] => [.reserved .openBracket, .reserved .empty, .reserved .closeBracket]
  | symbols ss => ss.flatMap Symbol.lexemes
  | conditional param value body =>
    .reserved .openBracket :: .reserved (if value then .plus else .tilde) :: .nonterminal param ::
      .reserved .closeBracket :: body.lexemes
  | prose text => [.prose ("> " ++ text)]

/-! ## Spelling lexeme by lexeme -/

section Spells

variable {cs : List Char} {ls : List Lexeme}

theorem spells_word {w : Word} (hw : w ∉ [.openBracket, .no]) (h : Spells cs ls) :
    Spells (w.spelling.toList ++ cs) (.reserved w :: ls) :=
  .lexeme (l := .reserved w) (stands_word hw cs) h

theorem spells_blank (h : Spells cs ls) : Spells (' ' :: cs) ls := .separator rfl h

theorem spells_openBracket (hstop : ∀ c ∈ cs.head?, c ≠ '>') (h : Spells cs ls) :
    Spells ('[' :: cs) (.reserved .openBracket :: ls) :=
  .lexeme (stands_openBracket hstop) h

theorem spells_closeBracket (h : Spells cs ls) :
    Spells (']' :: cs) (.reserved .closeBracket :: ls) :=
  spells_word (w := .closeBracket) (by decide) h

theorem spells_nonterminal {name : String} (hname : IsName name.toList) (hstop : Stops cs)
    (h : Spells cs ls) : Spells (name.toList ++ cs) (.nonterminal name :: ls) :=
  .lexeme (stands_nonterminal hname hstop) h

theorem spells_call {name : String} (hname : IsName name.toList) (h : Spells ('[' :: cs) ls) :
    Spells (name.toList ++ '[' :: cs) (.call name :: ls) :=
  .lexeme (stands_call hname) h

theorem spells_terminal {s : String} (hs : Spelled Lexeme.Written s) (h : Spells cs ls) :
    Spells ((Text.quoted s).toList ++ cs) (.terminal (Text.quoted s) :: ls) :=
  .lexeme (l := .terminal (Text.quoted s)) (stands_terminal hs.isTerminal cs) h

theorem spells_control {q : String} (hq : IsControl q.toList) (h : Spells cs ls) :
    Spells (q.toList ++ cs) (.control q :: ls) :=
  .lexeme (stands_control hq cs) h

end Spells

/-! ## Spelling part by part -/

/-- A text spells some lexemes wherever no name goes on after it. -/
def Prints (text : String) (ls : List Lexeme) : Prop :=
  ∀ rest ms, Stops rest → Spells rest ms → Spells (text.toList ++ rest) (ls ++ ms)

/-- Texts with separators between them spell what they spell themselves, and the separators. -/
theorem prints_intercalate {α : Type} (sep : String) {between : List Lexeme} {f : α → String}
    {g : α → List Lexeme} {xs : List α} (hne : xs ≠ []) (h : ∀ x ∈ xs, Prints (f x) (g x))
    (hsep : ∀ rest ms, Spells rest ms →
      Stops (sep.toList ++ rest) ∧ Spells (sep.toList ++ rest) (between ++ ms)) :
    Prints (sep.intercalate (xs.map f)) (separated between (xs.map g)) := by
  intro rest ms hrest hms
  rw [String.toList_intercalate]
  induction xs with
  | nil => exact absurd rfl hne
  | cons x xs ih =>
    rw [List.forall_mem_cons] at h
    cases xs with
    | nil =>
      rw [List.map_singleton, List.map_singleton, List.intercalate_singleton]
      simpa [separated] using h.1 rest ms hrest hms
    | cons y ys =>
      have hmore := ih (by simp) h.2
      obtain ⟨hstop, hspells⟩ := hsep _ _ hmore
      have := h.1 _ _ hstop hspells
      simpa [separated, List.intercalate_cons_cons] using this

/-- A comma and a blank separate. -/
theorem spells_comma {rest : List Char} {ms : List Lexeme} (h : Spells rest ms) :
    Stops (", ".toList ++ rest) ∧ Spells (", ".toList ++ rest) ([.reserved .comma] ++ ms) := by
  show Stops (',' :: ' ' :: rest) ∧ Spells (Word.comma.spelling.toList ++ ' ' :: rest) _
  exact ⟨stops_cons (by simp), spells_word (by decide) (spells_blank h)⟩

/-- The word for an alternative separates. -/
theorem spells_or {rest : List Char} {ms : List Lexeme} (h : Spells rest ms) :
    Stops (" or ".toList ++ rest) ∧ Spells (" or ".toList ++ rest) ([.reserved .or] ++ ms) := by
  show Stops (' ' :: 'o' :: 'r' :: ' ' :: rest) ∧
    Spells (' ' :: (Word.or.spelling.toList ++ ' ' :: rest)) _
  exact ⟨stops_cons (by simp), spells_blank (spells_word (by decide) (spells_blank h))⟩

/-- Texts with separators between them begin as the first of them. -/
theorem head?_intercalate {sep x : String} {xs : List String} {rest : List Char}
    (hx : x.toList ≠ []) :
    ((sep.intercalate (x :: xs)).toList ++ rest).head? = x.toList.head? := by
  obtain ⟨c, cs, hc⟩ := List.exists_cons_of_ne_nil hx
  cases xs <;> simp [hc]

theorem prints_argument {param : String} {a : Argument} (h : a.Fits Lexeme.Written param) :
    Prints (a.display param) (a.lexemes param) := by
  intro rest ms hrest hms
  have hparam := spells_nonterminal h.1 hrest hms
  rcases h.2 with ⟨value, rfl⟩ | rfl
  · cases value with
    | true =>
      rw [Argument.display, String.toList_append, List.append_assoc]
      exact spells_word (w := .plus) (by decide) hparam
    | false =>
      rw [Argument.display, String.toList_append, List.append_assoc]
      exact spells_word (w := .tilde) (by decide) hparam
  · rw [Argument.display, String.toList_append, List.append_assoc]
    exact spells_word (w := .question) (by decide) hparam

theorem prints_exclusion {e : Exclusion} (h : e.Fits Lexeme.Written) :
    Prints e.display e.lexemes := by
  intro rest ms hrest hms
  cases e with
  | terminal spelling => exact spells_terminal h hms
  | nonterminal name => exact spells_nonterminal h hrest hms
  | range low high =>
    rw [Exclusion.display]
    simp only [String.toList_append, List.append_assoc]
    show Spells
      (low.toList ++ ' ' :: (Word.through.spelling.toList ++ ' ' :: (high.toList ++ rest))) _
    have hhigh := spells_control h.2 hms
    have hword := spells_word (w := .through) (by decide) (spells_blank hhigh)
    exact spells_control h.1 (spells_blank hword)

/-- A set of one name lists that name. -/
theorem toList_ofList_singleton (s : String) :
    (Std.ExtTreeSet.ofList [s] : Names).toList = [s] := by
  have hlength : (Std.ExtTreeSet.ofList [s] : Names).toList.length = 1 := by
    rw [Std.ExtTreeSet.length_toList, Std.ExtTreeSet.size_ofList (by simp)]
    rfl
  obtain ⟨t, ht⟩ := List.length_eq_one_iff.mp hlength
  have hmem : t ∈ (Std.ExtTreeSet.ofList [s] : Names) := by
    rw [← Std.ExtTreeSet.mem_toList, ht]
    exact List.mem_singleton_self t
  obtain rfl : s = t := by simpa using hmem
  exact ht

/-- A set of lookahead has one token, or it has more and rules them out. -/
theorem tokenSet_cases {tokens : Names} {positive : Bool}
    (h : (Lookahead.tokenSet tokens positive).Fits Lexeme.Written) :
    (∃ s, tokens = .ofList [s] ∧ Spelled Lexeme.Written s) ∨
      positive = false ∧ ∃ s s' ss, tokens = .ofList (s :: s' :: ss) ∧
        tokens.toList = s :: s' :: ss ∧ ∀ t ∈ s :: s' :: ss, Spelled Lexeme.Written t := by
  obtain ⟨hspelled, hne, hpositive⟩ := h
  have htoken : ∀ s ∈ tokens.toList, Spelled Lexeme.Written s := by
    intro s hs
    exact hspelled s (Std.ExtTreeSet.mem_toList.mp hs)
  have hset := Names.ofList_toList tokens
  cases htokens : tokens.toList with
  | nil => exact absurd (Std.ExtTreeSet.toList_eq_nil_iff.mp htokens) hne
  | cons s ss =>
    rw [htokens] at htoken hset
    cases ss with
    | nil => exact .inl ⟨s, hset.symm, htoken s List.mem_cons_self⟩
    | cons s' ss =>
      refine .inr ⟨?_, s, s', ss, hset.symm, rfl, htoken⟩
      rw [Bool.eq_false_iff]
      intro hp
      obtain ⟨t, rfl⟩ := hpositive hp
      rw [toList_ofList_singleton] at htokens
      cases htokens

theorem prints_lookahead {l : Lookahead} (h : l.Fits Lexeme.Written) :
    Prints l.display l.lexemes := by
  intro rest ms hrest hms
  cases l with
  | tokenSet tokens positive =>
    rcases tokenSet_cases h with ⟨s, rfl, hs⟩ | ⟨rfl, s, s', ss, -, htokens, hss⟩
    · have htoken := spells_blank (spells_terminal hs hms)
      rw [Lookahead.display, Lookahead.lexemes, toList_ofList_singleton]
      cases positive with
      | true =>
        have hsign := spells_word (w := .equal) (by decide) htoken
        simpa [Word.spelling] using hsign
      | false =>
        have hsign := spells_word (w := .unequal) (by decide) htoken
        simpa [Word.spelling] using hsign
    · have hclose : Spells ('\x7d' :: rest) (.reserved .closeBrace :: ms) :=
        spells_word (w := .closeBrace) (by decide) hms
      have hlist : Prints (", ".intercalate ((s :: s' :: ss).map Text.quoted))
          (separated [.reserved .comma]
            ((s :: s' :: ss).map fun token => [.terminal (Text.quoted token)])) := by
        refine prints_intercalate ", " (by simp) (fun t ht rest ms _ hms => ?_)
          fun _ _ => spells_comma
        exact spells_terminal (hss t ht) hms
      have hopen := spells_word (w := .openBrace) (by decide)
        (hlist _ _ (stops_cons (by simp)) hclose)
      have houtside := spells_word (w := .outside) (by decide) (spells_blank hopen)
      simpa [Lookahead.display, Lookahead.lexemes, htokens, Word.spelling] using houtside
  | notNonterminal name =>
    rw [Lookahead.display, String.toList_append, List.append_assoc]
    exact spells_word (w := .outside) (by decide)
      (spells_blank (spells_nonterminal h hrest hms))

/-- A symbol that names a nonterminal spells the name, and its arguments. -/
theorem prints_refers {s : Symbol} (h : s.Refers Lexeme.Written) : Prints s.display s.lexemes := by
  intro rest ms hrest hms
  cases s with
  | nonterminal name =>
    have hname : IsName name.toList := by
      rcases h with h | ⟨q, hq, rfl⟩
      · exact h
      · exact isName_stripBars hq
    exact spells_nonterminal hname hrest hms
  | apply name args =>
    obtain ⟨hname, hne, -, hargs⟩ := h
    have hclose := spells_closeBracket hms
    have hlist : Prints (", ".intercalate (args.map fun (param, arg) => arg.display param))
        (separated [.reserved .comma] (args.map fun (param, arg) => arg.lexemes param)) :=
      prints_intercalate ", " hne (fun a ha => prints_argument (hargs a ha)) fun _ _ => spells_comma
    have hopen := spells_openBracket ?_ (hlist _ _ (stops_cons (by simp)) hclose)
    · simpa [Symbol.display, Symbol.lexemes, Word.spelling] using spells_call hname hopen
    · obtain ⟨⟨param, a⟩, as, rfl⟩ := List.exists_cons_of_ne_nil hne
      obtain ⟨c, hc, htext⟩ : ∃ c, c ≠ '>' ∧ (a.display param).toList = c :: param.toList := by
        rcases a with (_ | _) | _
        · exact ⟨'~', by decide, by simp [Argument.display]⟩
        · exact ⟨'+', by decide, by simp [Argument.display]⟩
        · exact ⟨'?', by decide, by simp [Argument.display]⟩
      rw [List.map_cons, head?_intercalate (by simp [htext]), htext]
      rintro d ⟨⟩
      exact hc
  | _ => exact absurd h (by simp [Symbol.Refers])

theorem prints_symbol {s : Symbol} (h : s.Fits Lexeme.Written) : Prints s.display s.lexemes := by
  rcases h with h | h
  · exact prints_refers h
  · intro rest ms hrest hms
    cases s with
    | terminal spelling => exact spells_terminal h hms
    | optional inner =>
      have hmark : Spells ('?' :: rest) (.reserved .question :: ms) :=
        spells_word (w := .question) (by decide) hms
      have hinner : Prints inner.display inner.lexemes := by
        rcases h with h | ⟨spelling, rfl, h⟩
        · exact prints_refers h
        · exact fun rest ms _ hms => spells_terminal h hms
      simpa [Symbol.display, Symbol.lexemes, Word.spelling] using
        hinner _ _ (stops_cons (by simp)) hmark
    | exclusion base exclusions =>
      obtain ⟨hbase, hne, hexclusions⟩ := h
      have hlist := prints_intercalate " or " hne
        (fun e he => prints_exclusion (hexclusions e he)) (fun _ _ => spells_or) rest ms hrest hms
      by_cases hone : exclusions.length > 1
      · have hof := spells_word (w := .of) (by decide) (spells_blank hlist)
        have hone' := spells_word (w := .one) (by decide) (spells_blank hof)
        have hnot := spells_word (w := .not) (by decide) (spells_blank hone')
        have hbut := spells_blank (spells_word (w := .but) (by decide) (spells_blank hnot))
        simpa [Symbol.display, Symbol.lexemes, Word.spelling, hone] using
          prints_refers hbase _ _ (stops_cons (by simp)) hbut
      · have hnot := spells_word (w := .not) (by decide) (spells_blank hlist)
        have hbut := spells_blank (spells_word (w := .but) (by decide) (spells_blank hnot))
        simpa [Symbol.display, Symbol.lexemes, Word.spelling, hone] using
          prints_refers hbase _ _ (stops_cons (by simp)) hbut
    | lookahead rule =>
      have hclose := spells_closeBracket hms
      have hrule := prints_lookahead h _ _ (stops_cons (by simp)) hclose
      have hlookahead := spells_word (w := .lookahead) (by decide) (spells_blank hrule)
      have hopen := spells_openBracket (by rintro c ⟨⟩; decide) hlookahead
      simpa [Symbol.display, Symbol.lexemes, Word.spelling] using hopen
    | noLineTerminatorHere =>
      have hname : IsName "LineTerminator".toList :=
        ⟨['L'], "ineTerminator".toList, rfl, List.all_eq_true.mp rfl, .inl ⟨'L', rfl, rfl⟩⟩
      have hclose := spells_closeBracket hms
      have hhere := spells_word (w := .here) (by decide) hclose
      have hmark := spells_nonterminal hname (stops_cons (by simp)) (spells_blank hhere)
      have hno := Spells.lexeme (stands_no _) (spells_blank hmark)
      have hopen := spells_openBracket (by rintro c ⟨⟩; decide) hno
      exact hopen
    | nonterminal name => exact absurd h not_false
    | apply name args => exact absurd h not_false

def Production.OneLine : Production → Prop
  | symbols _ => True
  | conditional _ _ body => body.OneLine
  | prose text => '\n' ∉ text.toList

instance Production.decidableOneLine : DecidablePred Production.OneLine
  | symbols _ => .isTrue trivial
  | conditional _ _ body => decidableOneLine body
  | prose text => inferInstanceAs (Decidable ('\n' ∉ text.toList))

/-- A blank between symbols spells nothing. -/
theorem spells_between {rest : List Char} {ms : List Lexeme} (h : Spells rest ms) :
    Stops (" ".toList ++ rest) ∧ Spells (" ".toList ++ rest) ([] ++ ms) := by
  show Stops (' ' :: rest) ∧ Spells (' ' :: rest) ms
  exact ⟨stops_cons (by simp), spells_blank h⟩

theorem prints_symbols {ss : List Symbol} (h : ∀ s ∈ ss, s.Fits Lexeme.Written) :
    Prints (Production.symbols ss).display (Production.symbols ss).lexemes := by
  cases ss with
  | nil =>
    intro rest ms hrest hms
    have hclose := spells_closeBracket hms
    have hempty := spells_word (w := .empty) (by decide) hclose
    exact spells_openBracket (by rintro c ⟨⟩; decide) hempty
  | cons s ss =>
    have hlist := prints_intercalate " " (by simp) (fun s hs => prints_symbol (h s hs))
      fun _ _ => spells_between
    simpa [Production.display, Production.lexemes, separated, List.flatMap_map] using hlist

/-- The line of a production. -/
theorem spells_line {p : Production} (h : p.Fits Lexeme.Written) (hline : p.OneLine)
    {rest : List Char} {ms : List Lexeme} (hms : Spells rest ms) :
    Spells (p.display.toList ++ '\n' :: rest) (p.lexemes ++ .newline :: ms) := by
  have hend : Spells ('\n' :: rest) (.newline :: ms) := .lexeme (stands_newline rest) hms
  cases p with
  | symbols ss => exact prints_symbols h _ _ (stops_cons (by simp)) hend
  | conditional param value body =>
    obtain ⟨hparam, ss, rfl, hss⟩ := h
    have hbody := spells_blank (prints_symbols hss _ _ (stops_cons (by simp)) hend)
    have hclose := spells_closeBracket hbody
    have hname := spells_nonterminal hparam (stops_cons (by simp)) hclose
    cases value with
    | true =>
      have hsign := spells_word (w := .plus) (by decide) hname
      have hopen := spells_openBracket (by rintro c ⟨⟩; decide) hsign
      simpa [Production.display, Production.lexemes, Word.spelling] using hopen
    | false =>
      have hsign := spells_word (w := .tilde) (by decide) hname
      have hopen := spells_openBracket (by rintro c ⟨⟩; decide) hsign
      simpa [Production.display, Production.lexemes, Word.spelling] using hopen
  | prose text =>
    have hprose : IsProse ("> " ++ text).toList := by
      refine ⟨' ' :: text.toList, by simp, ?_⟩
      rintro c hc rfl
      rcases List.mem_cons.mp hc with hc | hc
      · cases hc
      · exact hline hc
    exact .lexeme (l := .prose ("> " ++ text)) (stands_prose hprose (by rintro c ⟨⟩; rfl)) hend

end GrammarText
