import GrammarText.Proofs.Reduction.Same
import GrammarText.Proofs.Variants.Meaning

/-!
# Lists of terminals are shorthand

A definition may list terminals on lines behind the words `one of`, instead of having a production
of one terminal on each line.  `Unlisted` relates the lexemes of two texts that differ in one such
definition; each list of a text that is accepted can be written so (`Tree.exists_lines`).  The
lexemes tell where the list ends (`lines_inj`), so the definition can be derived with productions in
its place (`Derives.exists_unlisted`), and then it declares the same (`Tree.declarations_unlisted`).
-/

namespace GrammarText

open List (Forall₂)

/-! ## Lexemes -/

structure IsTerminalLine (line : List Lexeme) : Prop where
  ne_nil : line ≠ []
  terminals : ∀ l ∈ line, l.isTerminal = true

/-- What comes behind lines of terminals does not go on with the last line, and is no further
line. -/
structure EndsLines (post : List Lexeme) : Prop where
  line : ∀ l, l.isTerminal = true → ¬ [l] <+: post
  lines : ∀ l, l.isTerminal = true → ¬ [.newline, l] <+: post

/-- Lexemes in which the terminals that a definition lists are productions on lines of their own. -/
inductive Unlisted : List Lexeme → List Lexeme → Prop where
  | mk (pre post : List Lexeme) (separator : String) {lines : List (List Lexeme)}
      (hne : lines ≠ []) (hlines : ∀ line ∈ lines, IsTerminalLine line) (hpost : EndsLines post) :
      Unlisted
        (pre ++ .colons separator :: .reserved .one :: .reserved .of :: .newline ::
          (separated [.newline] lines ++ post))
        (pre ++ .colons separator :: .newline ::
          (separated [.newline] (lines.flatten.map ([·])) ++ post))

variable {as bs cs ds post post' line : List Lexeme} {lines lines' : List (List Lexeme)}

/-- Terminals up to the first lexeme that is none are read in one way. -/
theorem terminals_inj (has : ∀ l ∈ as, l.isTerminal = true) (hbs : ∀ l ∈ bs, l.isTerminal = true)
    (hcs : ∀ l, l.isTerminal = true → ¬ [l] <+: cs) (hds : ∀ l, l.isTerminal = true → ¬ [l] <+: ds)
    (h : as ++ cs = bs ++ ds) : as = bs ∧ cs = ds := by
  induction as generalizing bs with
  | nil =>
    cases bs with
    | nil => exact ⟨rfl, h⟩
    | cons b bs =>
      obtain rfl : cs = b :: (bs ++ ds) := h
      exact absurd (List.prefix_append [b] _) (hcs b (hbs b List.mem_cons_self))
  | cons a as ih =>
    rw [List.forall_mem_cons] at has
    cases bs with
    | nil =>
      obtain rfl : a :: (as ++ cs) = ds := h
      exact absurd (List.prefix_append [a] _) (hds a has.1)
    | cons b bs =>
      rw [List.forall_mem_cons] at hbs
      obtain ⟨rfl, htail⟩ := List.cons_eq_cons.mp h
      obtain ⟨rfl, rfl⟩ := ih has.2 hbs.2 htail
      exact ⟨rfl, rfl⟩

theorem not_prefix_newline (l : Lexeme) (hl : l.isTerminal = true) : ¬ [l] <+: .newline :: as := by
  intro hstart
  obtain ⟨rfl, -⟩ := List.cons_prefix_cons.mp hstart
  cases hl

theorem endsLines_nil : EndsLines [] :=
  ⟨fun l _ => by simp, fun l _ => by simp⟩

/-- A line break ends the lines if no terminal comes behind it. -/
theorem endsLines_newline (h : ∀ l, l.isTerminal = true → ¬ [l] <+: post) :
    EndsLines (.newline :: post) :=
  ⟨not_prefix_newline, fun l hl hstart => h l hl (List.cons_prefix_cons.mp hstart).2⟩

/-- Behind a line no terminal comes. -/
theorem EndsLines.not_prefix (h : EndsLines post) (lines : List (List Lexeme)) :
    ∀ l, l.isTerminal = true → ¬ [l] <+: lines.flatMap ([.newline] ++ ·) ++ post := by
  cases lines with
  | nil => exact h.line
  | cons line lines => exact not_prefix_newline

/-- No further line comes behind the last one. -/
theorem EndsLines.ne_line (h : EndsLines post) (hline : IsTerminalLine line) (ls : List Lexeme) :
    post ≠ .newline :: (line ++ ls) := by
  rintro rfl
  obtain ⟨l, line, rfl⟩ := List.exists_cons_of_ne_nil hline.ne_nil
  exact h.lines l (hline.terminals l List.mem_cons_self) (List.prefix_append [.newline, l] _)

/-- Further lines of terminals are read in one way. -/
theorem more_lines_inj (hlines : ∀ line ∈ lines, IsTerminalLine line)
    (hlines' : ∀ line ∈ lines', IsTerminalLine line) (hpost : EndsLines post)
    (hpost' : EndsLines post') (h : lines.flatMap ([.newline] ++ ·) ++ post =
      lines'.flatMap ([.newline] ++ ·) ++ post') : lines = lines' ∧ post = post' := by
  induction lines generalizing lines' with
  | nil =>
    cases lines' with
    | nil => exact ⟨rfl, h⟩
    | cons line' lines' =>
      exact absurd (by simpa using h) (hpost.ne_line (hlines' line' List.mem_cons_self)
        (lines'.flatMap ([.newline] ++ ·) ++ post'))
  | cons line lines ih =>
    rw [List.forall_mem_cons] at hlines
    cases lines' with
    | nil =>
      exact absurd (by simpa using h.symm) (hpost'.ne_line hlines.1
        (lines.flatMap ([.newline] ++ ·) ++ post))
    | cons line' lines' =>
      rw [List.forall_mem_cons] at hlines'
      rw [List.flatMap_cons, List.flatMap_cons, List.append_assoc, List.append_assoc,
        List.append_assoc, List.append_assoc] at h
      obtain ⟨rfl, htail⟩ := terminals_inj hlines.1.terminals hlines'.1.terminals
        (hpost.not_prefix lines) (hpost'.not_prefix lines') (List.append_cancel_left h)
      obtain ⟨rfl, rfl⟩ := ih hlines.2 hlines'.2 htail
      exact ⟨rfl, rfl⟩

/-- Lines of terminals are read in one way. -/
theorem lines_inj (hlines : ∀ line ∈ lines, IsTerminalLine line)
    (hlines' : ∀ line ∈ lines', IsTerminalLine line) (hne : lines ≠ []) (hne' : lines' ≠ [])
    (hpost : EndsLines post) (hpost' : EndsLines post')
    (h : separated [.newline] lines ++ post = separated [.newline] lines' ++ post') :
    lines = lines' ∧ post = post' := by
  obtain ⟨line, lines, rfl⟩ := List.exists_cons_of_ne_nil hne
  obtain ⟨line', lines', rfl⟩ := List.exists_cons_of_ne_nil hne'
  -- A line break in front makes all lines alike.
  refine more_lines_inj hlines hlines' hpost hpost' ?_
  have hbreak := congrArg (Lexeme.newline :: ·) h
  exact hbreak

/-! ## Lines in a derivation -/

variable {close : Nat} {taken rest more run ending u v : List Token} {ts : List Tree} {c : Token}

theorem Token.isEof_of_isTerminal {t : Token} (h : t.lexeme.isTerminal = true) :
    t.isEof = false := by
  refine decide_eq_false fun he => ?_
  rw [he] at h
  cases h

/-- Lines of terminals that are derived are lines of terminals, with a line break or the end of the
text behind the last one. -/
theorem Derives.exists_lines
    (h : Derives .builtin close (.rounds (.rule .terminalLine)) taken rest ts) (hne : taken ≠ []) :
    ∃ lines ending, lines ≠ [] ∧ (∀ line ∈ lines, IsTerminalLine line) ∧ LineEnds ending rest ∧
      taken.map Token.lexeme = separated [.newline] lines ++ ending.map Token.lexeme := by
  induction h using rounds_induction with
  | done => exact absurd rfl hne
  | @round u v rest ts us h hs ih =>
    obtain ⟨⟨run, ending, rfl, hrun, hall, hend⟩, -⟩ := h.collects_terminalLine
    have hline : IsTerminalLine (run.map Token.lexeme) :=
      ⟨by simpa using hrun, by simpa using hall⟩
    by_cases hv : v = []
    · subst hv
      exact ⟨[run.map Token.lexeme], ending, by simp, by simpa using hline, hend,
        by simp [separated]⟩
    · obtain ⟨lines, last, hlines, hall', hlast, hlexemes⟩ := ih hv
      obtain ⟨line, lines, rfl⟩ := List.exists_cons_of_ne_nil hlines
      refine ⟨run.map Token.lexeme :: line :: lines, last, by simp,
        List.forall_mem_cons.mpr ⟨hline, hall'⟩, hlast, ?_⟩
      -- A terminal comes next, so the line ends in a line break.
      rcases hend with ⟨t, rfl, ht⟩ | ⟨rfl, e, more, hrest, he⟩
      · rw [List.map_append, List.map_append, List.map_singleton, ht, hlexemes]
        simp [separated]
      · obtain ⟨t, v, rfl⟩ := List.exists_cons_of_ne_nil hv
        obtain ⟨rfl, -⟩ := List.cons_eq_cons.mp hrest
        rw [List.forall_mem_cons] at hall'
        obtain ⟨l, line, rfl⟩ := List.exists_cons_of_ne_nil hall'.1.ne_nil
        obtain ⟨rfl, -⟩ := List.cons_eq_cons.mp hlexemes
        rw [Token.isEof_of_isTerminal (hall'.1.terminals _ List.mem_cons_self)] at he
        cases he

/-- Terminals alone on their lines are productions. -/
theorem exists_productions (close : Nat) {ls : List Lexeme}
    (hls : ∀ l ∈ ls, l.isTerminal = true) (hne : ls ≠ []) (hend : LineEnds ending rest)
    (hrun : run.map Token.lexeme = separated [.newline] (ls.map ([·]))) :
    ∃ ts, Derives .builtin close (.rounds (.rule .production)) (run ++ ending) rest ts ∧
      Collects (Tree.visitAll Reduction.visitor ts) (run ++ ending) AreProductions := by
  obtain ⟨l, ls, rfl⟩ := List.exists_cons_of_ne_nil hne
  induction ls generalizing l run with
  | nil =>
    obtain ⟨t, rfl, rfl⟩ := List.map_eq_singleton_iff.mp hrun
    obtain ⟨ts, hts, hcollects⟩ := exists_production (hls _ List.mem_cons_self) hend close
    refine ⟨ts ++ [], ?_, ?_⟩
    · have hround : Derives .builtin close (.rounds (.rule .production)) ((t :: ending) ++ []) rest
          (ts ++ []) := .round hts .done
      simpa using hround
    · rwa [List.append_nil]
  | cons m ls ih =>
    rw [List.forall_mem_cons] at hls
    obtain ⟨t, more, rfl, rfl, hmore⟩ := List.map_eq_cons_iff.mp hrun
    obtain ⟨b, run, rfl, hb, hrun⟩ := List.map_eq_cons_iff.mp hmore
    obtain ⟨us, hus, hcollects'⟩ := ih m hls.2 (List.cons_ne_nil m ls) hrun
    have hbreak : LineEnds [b] ((run ++ ending) ++ rest) := .inl ⟨b, rfl, hb⟩
    obtain ⟨ts, hts, hcollects⟩ := exists_production hls.1 hbreak close
    have hrounds := Derives.round hts hus
    exact ⟨ts ++ us, hrounds, hcollects.append hcollects'
      fun _ _ _ _ _ _ _ hp hq => hp.append hq⟩

/-! ## Colons -/

/-- There is one place for the only token of a kind. -/
theorem eq_of_only {p : Token → Prop} {c d : Token} {as bs cs ds : List Token}
    (has : ∀ t ∈ as, ¬ p t) (hbs : ∀ t ∈ bs, ¬ p t) (hd : p d)
    (h : as ++ c :: bs = cs ++ d :: ds) : as = cs ∧ c = d ∧ bs = ds := by
  rcases split_cases h with ⟨mid, rfl, -⟩ | ⟨mid, hmid, rfl⟩
  · exact absurd hd (has d (by simp))
  · cases mid with
    | nil =>
      obtain ⟨rfl, rfl⟩ := List.cons_eq_cons.mp hmid
      exact ⟨(List.append_nil as).symm, rfl, rfl⟩
    | cons t mid =>
      obtain ⟨-, rfl⟩ := List.cons_eq_cons.mp hmid
      exact absurd hd (hbs d (by simp))

/-- The colons of a definition stand between its head and items without colons. -/
theorem Derives.exists_around_colons {is : List Item}
    (h : Derives .builtin close (.items (.rule .head :: .token .colons :: is)) (u ++ c :: v) rest
      ts)
    (hc : c.kind = .colons) (his : ∀ i ∈ is, i.matcher.colonless = true) :
    ∃ hs us, ts = hs ++ .token c :: us ∧
      Derives .builtin close (.matcher (.rule .head)) u (c :: (v ++ rest)) hs ∧
      Derives .builtin close (.items is) v rest us := by
  obtain ⟨hd, tail, hs, vs, htaken, rfl, hhead, htail⟩ := cons_iff.mp h
  obtain ⟨c', w, us, -, rfl, rfl, hw⟩ := (cons_token_iff rfl).mp htail
  have hhead := one_iff.mp hhead
  have hcolonless : (Matcher.rule .head).colonless = true := by decide
  obtain ⟨rfl, rfl, rfl⟩ := eq_of_only (p := fun t => t.kind = .colons)
    (hhead.kind_ne_colons hcolonless) (hw.kind_ne_colons his) hc htaken.symm
  exact ⟨hs, us, rfl, hhead, hw⟩

/-- Behind the colons of a definition comes a line break, or the words before lines of terminals. -/
theorem Derives.exists_lists
    (h : Derives .builtin close (.matcher (.rule .definition)) (u ++ c :: v) rest ts)
    (hc : c.kind = .colons) :
    (∃ b more, v = b :: more ∧ b.lexeme = .newline) ∨
      ∃ o f b lines last hs ls es, v = o :: f :: b :: (lines ++ last) ∧
        [o, f, b].map Token.lexeme = [.reserved .one, .reserved .of, .newline] ∧ lines ≠ [] ∧
        Derives .builtin close (.matcher (.rule .head)) u (c :: (v ++ rest)) hs ∧
        Derives .builtin close (.rounds (.rule .terminalLine)) lines (last ++ rest) ls ∧
        Derives .builtin close (.matcher (.rule .blockEnd)) last rest es ∧
        ts = [.node (.over close .definition 0 (u ++ c :: v) rest)
          (hs ++ ([.token c, .token o, .token f, .token b] ++ ([.repeated ls] ++ es)))] := by
  obtain ⟨k, is, us, his, hus, rfl⟩ := h.exists_alternative
  match k with
  | 0 =>
    cases his
    obtain ⟨hs, vs, rfl, hhead, htail⟩ := hus.exists_around_colons hc (by decide)
    obtain ⟨o, v, vs, ho, rfl, rfl, htail₁⟩ := cons_word_iff.mp htail
    obtain ⟨f, v, vs, hf, rfl, rfl, htail₂⟩ := cons_word_iff.mp htail₁
    obtain ⟨b, v, vs, hb, rfl, rfl, htail₃⟩ := (cons_token_iff rfl).mp htail₂
    obtain ⟨lines, last, ls, es, rfl, rfl, hlines, hlast⟩ := cons_iff.mp htail₃
    obtain ⟨x, y, xs, ys, rfl, rfl, hx, hy⟩ := plus_iff.mp hlines
    have hbreak : b.lexeme = .newline := Wanted.eq_ofKind_of_accepts hb
    have hwords : [o, f, b].map Token.lexeme = [.reserved .one, .reserved .of, .newline] := by
      simp [ho, hf, hbreak]
    refine .inr ⟨o, f, b, x ++ y, last, hs, xs ++ ys, es, rfl, hwords, ?_, hhead, .round hx hy,
      one_iff.mp (singleton_iff.mp hlast), rfl⟩
    obtain ⟨run, ending, rfl, hne, -⟩ := hx.collects_terminalLine.1
    simp [hne]
  | 1 =>
    cases his
    obtain ⟨hs, vs, rfl, hhead, htail⟩ := hus.exists_around_colons hc (by decide)
    obtain ⟨b, v, vs, hb, rfl, rfl, -⟩ := (cons_token_iff rfl).mp htail
    exact .inl ⟨b, v, rfl, Wanted.eq_ofKind_of_accepts hb⟩

/-! ## Definitions that list terminals -/

/-- Some colons among blocks are those of a definition that lists terminals on lines: what the
blocks before it, its head, its lines, its end and the blocks behind it derive. -/
inductive Lists (close : Nat) (rest : List Token) (ts : List Tree) (pre : List Token) (c : Token)
    (post : List Token) : Prop where
  | mk {front u o f b lines last back xs hs ls es ys start stop start' stop'}
    (hpre : pre = front ++ u) (hpost : post = o :: f :: b :: (lines ++ (last ++ back)))
    (hwords : [o, f, b].map Token.lexeme = [.reserved .one, .reserved .of, .newline])
    (hne : lines ≠ [])
    (hfront : Derives .builtin close (.rounds (.rule .block)) front (u ++ c :: (post ++ rest)) xs)
    (hhead : Derives .builtin close (.matcher (.rule .head)) u (c :: (post ++ rest)) hs)
    (hlines : Derives .builtin close (.rounds (.rule .terminalLine)) lines
      (last ++ (back ++ rest)) ls)
    (hlast : Derives .builtin close (.matcher (.rule .blockEnd)) last (back ++ rest) es)
    (hback : Derives .builtin close (.rounds (.rule .block)) back rest ys)
    (hts : ts = xs ++ ([.node ⟨.block, 1, start, stop⟩ [.node ⟨.definition, 0, start', stop'⟩
      (hs ++ ([.token c, .token o, .token f, .token b] ++ ([.repeated ls] ++ es)))]] ++ ys)) :
    Lists close rest ts pre c post

/-- Colons with a word behind them are those of a definition that lists terminals. -/
theorem Derives.lists {pre post : List Token} {o : Token}
    (h : Derives .builtin close (.rounds (.rule .block)) (pre ++ c :: o :: post) rest ts)
    (hc : c.kind = .colons) (ho : o.lexeme ≠ .newline) :
    Lists close rest ts pre c (o :: post) := by
  obtain ⟨front, u, v, back, xs, x, ys, rfl, hpost, rfl, hfront, hx, hback⟩ := h.exists_round
  obtain ⟨k, is, us, his, hus, rfl⟩ := hx.exists_alternative
  match k with
  | 0 =>
    cases his
    obtain ⟨t, w, us, ht, hsplit, rfl, hw⟩ := (cons_token_iff rfl).mp hus
    obtain ⟨rfl, rfl⟩ := nil_iff.mp hw
    have hmem : c ∈ [t] := hsplit ▸ List.mem_append_right u List.mem_cons_self
    obtain rfl := List.mem_singleton.mp hmem
    -- A blank line has no colons.
    have hnewline : c.kind = .newline := of_decide_eq_true ht
    rw [hc] at hnewline
    cases hnewline
  | 1 =>
    cases his
    rcases (one_iff.mp (singleton_iff.mp hus)).exists_lists hc with ⟨b, more, rfl, hb⟩ |
      ⟨o', f, b, lines, last, hs, ls, es, rfl, hwords, hne, hhead, hlines, hlast, rfl⟩
    · obtain ⟨rfl, -⟩ := List.cons_eq_cons.mp hpost
      exact absurd hb ho
    · rw [hpost]
      refine .mk rfl (by simp) hwords hne ?_ ?_ hlines hlast hback rfl
      · simpa using hfront
      · simpa using hhead

/-! ## Definitions with productions in the place of a list -/

theorem LineEnds.elsewhere {ending' rest' : List Token} (h : LineEnds ending rest)
    (hlexemes : ending.map Token.lexeme = ending'.map Token.lexeme) (hrest : EndsWith rest rest') :
    LineEnds ending' rest' := by
  rcases h with ⟨t, rfl, ht⟩ | ⟨rfl, e, more, rfl, he⟩
  · obtain ⟨t', rfl, ht'⟩ := List.map_eq_singleton_iff.mp hlexemes.symm
    exact .inl ⟨t', rfl, ht'.trans ht⟩
  · obtain rfl := List.map_eq_nil_iff.mp hlexemes.symm
    obtain ⟨e', hhead, he'⟩ := hrest e rfl he
    obtain ⟨more', rfl⟩ := List.head?_eq_some_iff.mp hhead
    exact .inr ⟨rfl, e', more', rfl, he'⟩

/-- No blocks begin with the end of the text. -/
theorem Derives.eq_nil_of_eof {e : Token} {more : List Token}
    (h : Derives .builtin close (.rounds (.rule .block)) taken rest ts)
    (hsplit : taken ++ rest = e :: more) (he : e.isEof = true) : taken = [] := by
  cases taken with
  | nil => rfl
  | cons t taken =>
    obtain ⟨rfl, -⟩ := List.cons_eq_cons.mp hsplit
    rw [Description.builtin_orderly.isEof_of_derives h apt_blocks t List.mem_cons_self] at he
    cases he

/-- The ends of the last line and of the block end the lines. -/
theorem endsLines_of_ends {last back : List Token}
    (hend : LineEnds ending (last ++ (back ++ rest))) (hlast : LineEnds last (back ++ rest))
    (hback : Derives .builtin close (.rounds (.rule .block)) back rest ts) :
    EndsLines ((ending ++ (last ++ back)).map Token.lexeme) := by
  rcases hend with ⟨t, rfl, ht⟩ | ⟨rfl, e, more, hmore, he⟩
  · rw [List.map_append, List.map_singleton, ht, List.singleton_append]
    refine endsLines_newline ?_
    rcases hlast with ⟨t', rfl, ht'⟩ | ⟨rfl, e, more, hmore, he⟩
    · rw [List.map_append, List.map_singleton, ht', List.singleton_append]
      exact not_prefix_newline
    · obtain rfl := hback.eq_nil_of_eof hmore he
      exact endsLines_nil.line
  · rcases hlast with ⟨t, rfl, ht⟩ | ⟨rfl, -⟩
    · obtain ⟨rfl, -⟩ := List.cons_eq_cons.mp hmore
      rw [Token.isEof, ht] at he
      cases he
    · obtain rfl := hback.eq_nil_of_eof hmore he
      exact endsLines_nil

/-- Lines of terminals come behind the words of a definition that lists terminals. -/
theorem Lists.exists_lines {pre post : List Token} (h : Lists close rest ts pre c post) :
    ∃ lines bs, lines ≠ [] ∧ (∀ line ∈ lines, IsTerminalLine line) ∧ EndsLines bs ∧
      post.map Token.lexeme = .reserved .one :: .reserved .of :: .newline ::
        (separated [.newline] lines ++ bs) := by
  obtain ⟨rfl, rfl, hwords, hne, -, -, hlists, hlast, hback, rfl⟩ := h
  rename_i front u o f b lists last back xs hs ls es ys start stop start' stop'
  obtain ⟨lines, ending, hne, hlines, hending, hlexemes⟩ := hlists.exists_lines hne
  obtain ⟨hend, -⟩ := hlast.lineEnds rfl
  refine ⟨lines, (ending ++ (last ++ back)).map Token.lexeme, hne, hlines,
    endsLines_of_ends hending hend hback, ?_⟩
  obtain ⟨ho, hf, hb⟩ : _ ∧ _ ∧ _ := by simpa using hwords
  simp [ho, hf, hb, hlexemes]

/-- A head, colons and productions are a definition. -/
theorem Derives.definition {b : Token} {lines last : List Token} {hs ps es : List Tree}
    (hc : c.kind = .colons) (hb : b.lexeme = .newline) (hne : lines ≠ [])
    (hhead : Derives .builtin close (.matcher (.rule .head)) u (c :: b :: (lines ++ last) ++ rest)
      hs)
    (hlines : Derives .builtin close (.rounds (.rule .production)) lines (last ++ rest) ps)
    (hlast : Derives .builtin close (.matcher (.rule .blockEnd)) last rest es) :
    Derives .builtin close (.matcher (.rule .block)) (u ++ c :: b :: (lines ++ last)) rest
      [.node (.over close .block 1 (u ++ c :: b :: (lines ++ last)) rest)
        [.node (.over close .definition 1 (u ++ c :: b :: (lines ++ last)) rest)
          (hs ++ ([.token c, .token b] ++ ([.repeated ps] ++ es)))]] := by
  have hbody : Derives .builtin close (.items [(Item.rule .production).times .plus,
      .rule .blockEnd]) (lines ++ last) rest ([.repeated ps] ++ es) :=
    .cons (hlines.plus_of_rounds hne) (singleton_iff.mpr (.one hlast))
  have haccepts : (Wanted.kind .colons).accepts c = true := decide_eq_true hc
  have hcolons : Derives .builtin close (.items [.token .colons, .token .newline,
      (Item.rule .production).times .plus, .rule .blockEnd]) (c :: b :: (lines ++ last)) rest
      (.token c :: .token b :: ([.repeated ps] ++ es)) :=
    (cons_token_iff rfl).mpr ⟨c, _, _, haccepts, rfl, rfl,
      (cons_token_iff rfl).mpr ⟨b, _, _, Wanted.accepts_newline hb, rfl, rfl, hbody⟩⟩
  have hall := Derives.cons (.one hhead) hcolons
  have hdefinition := hall.alternative (r := .definition) (k := 1) rfl
  exact (singleton_iff.mpr (.one hdefinition)).alternative (k := 1) rfl

/-- The terminals on lines, without the line breaks. -/
theorem filter_separated (hlines : ∀ line ∈ lines, ∀ l ∈ line, l.isTerminal = true) :
    (separated [.newline] lines).filter Lexeme.isTerminal = lines.flatten := by
  have hmore : (lines.flatMap ([.newline] ++ ·)).filter Lexeme.isTerminal = lines.flatten := by
    induction lines with
    | nil => rfl
    | cons line lines ih =>
      rw [List.forall_mem_cons] at hlines
      rw [List.flatMap_cons, List.filter_append, ih hlines.2, List.flatten_cons]
      congr 1
      exact List.filter_eq_self.mpr hlines.1
  -- A line break in front is no terminal either.
  cases lines with
  | nil => rfl
  | cons line lines => exact hmore

/-- A definition that lists terminals may have productions in the place of the list. -/
theorem exists_block {u' run' ending' last last' rest' : List Token} {o f b c' b' : Token}
    {hs ls es : List Tree} {start stop start' stop' : Nat} (close' : Nat)
    (hhead : Derives .builtin close (.matcher (.rule .head)) u rest hs)
    (hlists : Derives .builtin close (.rounds (.rule .terminalLine)) taken (last ++ more) ls)
    (hlast : Derives .builtin close (.matcher (.rule .blockEnd)) last more es)
    (hne : lines ≠ []) (hlines : ∀ line ∈ lines, IsTerminalLine line)
    (htaken : taken.map Token.lexeme = separated [.newline] lines ++ ending.map Token.lexeme)
    (hending : LineEnds ending (last ++ more)) (hc : c.kind = .colons)
    (hu : u.map Token.lexeme = u'.map Token.lexeme) (hc' : c.lexeme = c'.lexeme)
    (hb' : b'.lexeme = .newline)
    (hrun : run'.map Token.lexeme = separated [.newline] (lines.flatten.map ([·])))
    (hending' : ending.map Token.lexeme = ending'.map Token.lexeme)
    (hlast' : last.map Token.lexeme = last'.map Token.lexeme) (hrest : EndsWith more rest') :
    ∃ x, Derives .builtin close' (.matcher (.rule .block))
        (u' ++ c' :: b' :: ((run' ++ ending') ++ last')) rest' x ∧
      EndAlike Anywhere Anywhere (Forall₂ Phrase.Same)
        (Tree.visitAll Reduction.visitor [.node ⟨.block, 1, start, stop⟩
          [.node ⟨.definition, 0, start', stop'⟩
            (hs ++ ([.token c, .token o, .token f, .token b] ++ ([.repeated ls] ++ es)))]])
        (Tree.visitAll Reduction.visitor x) := by
  have hall : ∀ l ∈ lines.flatten, l.isTerminal = true := by
    intro l hl
    obtain ⟨line, hline, hl⟩ := List.mem_flatten.mp hl
    exact (hlines line hline).terminals l hl
  have hflatten : lines.flatten ≠ [] := by
    obtain ⟨line, lines, rfl⟩ := List.exists_cons_of_ne_nil hne
    simpa using fun h => absurd h (hlines line List.mem_cons_self).ne_nil
  have hends : EndsWith (last ++ more) (last' ++ rest') :=
    hrest.append (forall₂_alike_of_lexemes hlast')
  obtain ⟨hend, -⟩ := hlast.lineEnds rfl
  obtain ⟨ps, hps, hcollects⟩ := exists_productions close' hall hflatten
    (hending.elsewhere hending' hends) hrun
  obtain ⟨es', hes'⟩ := (hend.elsewhere hlast' hrest).derives (r := .blockEnd) rfl close'
  have hapt : Description.builtin_orderly.Apt false (.matcher (.rule .head)) := by decide
  obtain ⟨hs', hhs', hheads⟩ : ∃ us, Derives .builtin close' (.matcher (.rule .head)) u'
      (c' :: b' :: ((run' ++ ending') ++ last') ++ rest') us ∧
        Tree.AllAlike Anywhere Anywhere hs us :=
    hhead.transfer (fun _ _ _ _ => trivial) trivial hapt (forall₂_alike_of_lexemes hu) nofun
  have hkind : c'.kind = .colons := by rw [← hc, Token.kind, Token.kind, hc']
  have hrun' : run' ++ ending' ≠ [] := by
    obtain ⟨l, ls, hcons⟩ := List.exists_cons_of_ne_nil hflatten
    rw [hcons] at hrun
    obtain ⟨t, run', rfl, -⟩ := List.map_eq_cons_iff.mp hrun
    exact List.cons_ne_nil t _
  refine ⟨_, hhs'.definition hkind hb' hrun' hps hes', EndAlike.block ?_⟩
  refine (hlists.declares_lines hlast).same (Derives.declares_productions hcollects hes')
    (congrArg Lexeme.text hc') (hhead.head_alike hheads) ?_
  -- Both have the terminals of the lines, and the same ends.
  have hlisted : (separated [.newline] lines).filter Lexeme.isTerminal = lines.flatten :=
    filter_separated fun line hline => (hlines line hline).terminals
  have hspread : (separated [.newline] (lines.flatten.map ([·]))).filter Lexeme.isTerminal =
      lines.flatten := by
    rw [filter_separated, ← List.flatMap_def, List.flatMap_singleton']
    intro line hline
    obtain ⟨l, hl, rfl⟩ := List.mem_map.mp hline
    simpa using hall l hl
  simp only [List.map_append, htaken, hrun, List.filter_append, hlisted, hspread, hending', hlast']

/-- Where a definition lists terminals, productions may come in the place of the list. -/
theorem Lists.exists_unlisted {pre pre' post run' tail' rest' : List Token} {c' b' : Token}
    (h : Lists close rest ts pre c post) (close' : Nat) (hne : lines ≠ [])
    (hlines : ∀ line ∈ lines, IsTerminalLine line) (hends : EndsLines bs)
    (hpost : post.map Token.lexeme = .reserved .one :: .reserved .of :: .newline ::
      (separated [.newline] lines ++ bs))
    (hc : c.kind = .colons) (hpre : pre.map Token.lexeme = pre'.map Token.lexeme)
    (hc' : c.lexeme = c'.lexeme) (hb' : b'.lexeme = .newline)
    (hrun : run'.map Token.lexeme = separated [.newline] (lines.flatten.map ([·])))
    (htail : tail'.map Token.lexeme = bs) (hrest : EndsWith rest rest') :
    ∃ us, Derives .builtin close' (.rounds (.rule .block)) (pre' ++ c' :: b' :: (run' ++ tail'))
        rest' us ∧
      EndAlike Anywhere Anywhere (Forall₂ Phrase.Same) (Tree.visitAll Reduction.visitor ts)
        (Tree.visitAll Reduction.visitor us) := by
  obtain ⟨rfl, rfl, -, hnelines, hfront, hhead, hlists, hlast, hback, rfl⟩ := h
  rename_i front u o f b lists last back xs hs ls es ys start stop start' stop'
  obtain ⟨lines₁, ending, hne₁, hlines₁, hending, hlexemes⟩ := hlists.exists_lines hnelines
  obtain ⟨hend, -⟩ := hlast.lineEnds rfl
  have hends₁ : EndsLines ((ending ++ (last ++ back)).map Token.lexeme) :=
    endsLines_of_ends hending hend hback
  -- The lines that are derived are the lines that were given.
  have hsame : separated [.newline] lines₁ ++ (ending ++ (last ++ back)).map Token.lexeme =
      separated [.newline] lines ++ bs := by
    rw [List.map_cons, List.map_cons, List.map_cons, List.map_append, hlexemes] at hpost
    simp only [List.cons.injEq, List.append_assoc] at hpost
    simpa using hpost.2.2.2
  obtain ⟨rfl, hbs⟩ := lines_inj hlines₁ hlines hne₁ hne hends₁ hends hsame
  rw [← hbs, List.map_append, List.map_append] at htail
  rw [List.map_append] at hpre
  obtain ⟨front', u', rfl, hfront', hu'⟩ := List.map_eq_append_iff.mp hpre.symm
  obtain ⟨ending', tail', rfl, hending', htail'⟩ := List.map_eq_append_iff.mp htail
  obtain ⟨last', back', rfl, hlast', hback'⟩ := List.map_eq_append_iff.mp htail'
  have hendsBack : EndsWith (back ++ rest) (back' ++ rest') :=
    hrest.append (forall₂_alike_of_lexemes hback'.symm)
  obtain ⟨x, hx, hblock⟩ := exists_block (o := o) (f := f) (b := b) close' hhead hlists hlast hne
    hlines hlexemes hending hc hu'.symm hc' hb' hrun hending'.symm hlast'.symm hendsBack
  obtain ⟨ys', hys', hbacks⟩ := hback.elsewhere close' hrest hback'.symm
  have hrounds := Derives.round hx hys'
  -- The head or the colons come behind the blocks before it, and not the end of the text.
  have hendsFront : EndsWith (u ++ c :: (o :: f :: b :: (lists ++ (last ++ back)) ++ rest))
      ((u' ++ c' :: b' :: ((run' ++ ending') ++ last')) ++ back' ++ rest') := by
    rw [List.append_assoc, List.append_assoc]
    refine EndsWith.append (forall₂_alike_of_lexemes hu'.symm) ?_
    intro e he heof
    obtain rfl : c = e := by simpa using he
    have heof : c.lexeme = .eof := of_decide_eq_true heof
    rw [Token.kind, heof] at hc
    cases hc
  obtain ⟨xs', hxs', hfronts⟩ := hfront.elsewhere close' hendsFront hfront'.symm
  have hall := hxs'.rounds_append hrounds
  exact ⟨_, by simpa using hall, hfronts.sameBlocks.append (hblock.append hbacks.sameBlocks)⟩

/-! ## Lists of tokens -/

theorem IsTerminalLine.eof_not_mem (h : IsTerminalLine line) : .eof ∉ line :=
  fun hmem => nomatch h.terminals .eof hmem

theorem EndsLines.of_prefix (h : EndsLines post) (hstart : post' <+: post) : EndsLines post' :=
  ⟨fun l hl hpre => h.line l hl (hpre.trans hstart),
    fun l hl hpre => h.lines l hl (hpre.trans hstart)⟩

/-- A list of terminals stands before the end of the text or behind it. -/
theorem Unlisted.eof_cases {ls : List Lexeme} (h : Unlisted (as ++ .eof :: bs) ls) :
    (∃ as', Unlisted as as' ∧ ls = as' ++ .eof :: bs) ∨
      ∃ bs', Unlisted bs bs' ∧ ls = as ++ .eof :: bs' := by
  generalize hall : as ++ .eof :: bs = all at h
  obtain ⟨pre, post, separator, hne, hlines, hpost⟩ := h
  rename_i lines
  have heof : .eof ∉ .colons separator :: .reserved .one :: .reserved .of :: .newline ::
      separated [.newline] lines := by
    have hmem : .eof ∉ separated [.newline] lines := by
      cases lines with
      | nil => simp [separated]
      | cons line lines =>
        rw [List.forall_mem_cons] at hlines
        simpa [separated] using ⟨hlines.1.eof_not_mem, fun m hm => (hlines.2 m hm).eof_not_mem⟩
    simpa using hmem
  rcases place_cases hall heof with ⟨post₁, rfl, rfl⟩ | ⟨pre₁, rfl, rfl⟩
  · have hpost₁ := hpost.of_prefix (List.prefix_append ..)
    exact .inl ⟨_, .mk pre post₁ separator hne hlines hpost₁, by simp⟩
  · exact .inr ⟨_, .mk pre₁ post separator hne hlines hpost, by simp⟩

theorem Unlisted.ne_nil (h : Unlisted as bs) : as ≠ [] := by
  cases h
  simp

/-- Where there are no tokens or the text ends, this is so without the list. -/
theorem Unlisted.atEnd {rest' : List Token}
    (h : Unlisted (rest.map Token.lexeme) (rest'.map Token.lexeme)) (hend : atEnd rest = true) :
    atEnd rest' = true := by
  cases rest with
  | nil => exact absurd rfl h.ne_nil
  | cons e rest =>
    have he : e.lexeme = .eof := of_decide_eq_true hend
    rw [List.map_cons, he, ← List.nil_append (_ :: _)] at h
    rcases h.eof_cases with ⟨as', has, -⟩ | ⟨bs', -, hbs⟩
    · exact absurd rfl has.ne_nil
    · obtain ⟨e', rest'', rfl, he', -⟩ := List.map_eq_cons_iff.mp hbs
      exact decide_eq_true he'

/-- Blocks may have productions in the place of a list. -/
theorem Derives.exists_unlisted {taken' rest' : List Token} (close' : Nat)
    (h : Derives .builtin close (.rounds (.rule .block)) taken rest ts)
    (hrest : EndsWith rest rest')
    (hunlisted : Unlisted (taken.map Token.lexeme) (taken'.map Token.lexeme)) :
    ∃ us, Derives .builtin close' (.rounds (.rule .block)) taken' rest' us ∧
      EndAlike Anywhere Anywhere (Forall₂ Phrase.Same) (Tree.visitAll Reduction.visitor ts)
        (Tree.visitAll Reduction.visitor us) := by
  generalize htaken : taken.map Token.lexeme = ls at hunlisted
  generalize htaken' : taken'.map Token.lexeme = ls' at hunlisted
  obtain ⟨pre, post, separator, hne, hlines, hpost⟩ := hunlisted
  obtain ⟨front, tail, rfl, rfl, htail⟩ := List.map_eq_append_iff.mp htaken
  obtain ⟨c, tail, rfl, hc, htail⟩ := List.map_eq_cons_iff.mp htail
  obtain ⟨o, tail, rfl, ho, htail⟩ := List.map_eq_cons_iff.mp htail
  obtain ⟨front', tail', rfl, hfront', htail'⟩ := List.map_eq_append_iff.mp htaken'
  obtain ⟨c', tail', rfl, hc', htail'⟩ := List.map_eq_cons_iff.mp htail'
  obtain ⟨b', tail', rfl, hb', htail'⟩ := List.map_eq_cons_iff.mp htail'
  obtain ⟨run', tail', rfl, hrun', htail'⟩ := List.map_eq_append_iff.mp htail'
  have hkind : c.kind = .colons := by rw [Token.kind, hc, Lexeme.kind]
  have hlists := h.lists hkind (by rw [ho]; exact Lexeme.noConfusion)
  exact hlists.exists_unlisted close' hne hlines hpost (by rw [List.map_cons, ho, htail]) hkind
    hfront'.symm (hc.trans hc'.symm) hb' hrun' htail' hrest

/-- The tokens of some lexemes, before the end of the text and behind it. -/
theorem exists_eof {tokens : List Token} (h : tokens.map Token.lexeme = as ++ .eof :: bs) :
    ∃ body e rest, tokens = body ++ e :: rest ∧ e.isEof = true ∧ body.map Token.lexeme = as ∧
      rest.map Token.lexeme = bs := by
  obtain ⟨body, tail, rfl, rfl, htail⟩ := List.map_eq_append_iff.mp h
  obtain ⟨e, rest, rfl, he, rfl⟩ := List.map_eq_cons_iff.mp htail
  exact ⟨body, e, rest, rfl, decide_eq_true he, rfl, rfl⟩

/-- The end of the text ends lines as well. -/
theorem EndsLines.append_eof (h : EndsLines post) (ls : List Lexeme) :
    EndsLines (post ++ .eof :: ls) where
  line l hl hstart := by
    cases post with
    | nil =>
      obtain ⟨rfl, -⟩ := List.cons_prefix_cons.mp hstart
      cases hl
    | cons a post =>
      obtain ⟨rfl, -⟩ := List.cons_prefix_cons.mp hstart
      exact h.line l hl (List.prefix_append [l] post)
  lines l hl hstart := by
    match post, h with
    | [], h => cases (List.cons_prefix_cons.mp hstart).1
    | [a], h =>
      obtain ⟨rfl, -⟩ := List.cons_prefix_cons.mp (List.cons_prefix_cons.mp hstart).2
      cases hl
    | a :: b :: post, h =>
      obtain ⟨rfl, htail⟩ := List.cons_prefix_cons.mp hstart
      obtain ⟨rfl, -⟩ := List.cons_prefix_cons.mp htail
      exact h.lines l hl (List.prefix_append [.newline, l] post)

/-- Where a list of tokens has a tree, lines of terminals come behind the words of each list. -/
theorem Tree.exists_lines {tokens : List Token} {t : Tree} {separator : String}
    (ht : ofTokens tokens = .ok t) (heof : .eof ∉ as)
    (h : tokens.map Token.lexeme = as ++ .colons separator :: .reserved .one :: bs) :
    ∃ lines post, lines ≠ [] ∧ (∀ line ∈ lines, IsTerminalLine line) ∧ EndsLines post ∧
      bs = .reserved .of :: .newline :: (separated [.newline] lines ++ post) := by
  obtain ⟨taken, rest, rfl, -, hd⟩ := ofTokens_ok_iff.mp ht
  obtain ⟨body, e, us, rfl, he, -, hbody⟩ := Description.builtin_orderly.start_iff.mp hd
  obtain ⟨blocks, rfl, hblocks⟩ := Derives.star_iff.mp hbody
  have heof' : e.lexeme = .eof := of_decide_eq_true he
  rw [List.append_assoc, List.singleton_append, List.map_append, List.map_cons, heof'] at h
  have hwords : .eof ∉ [Lexeme.colons separator, .reserved .one] := by simp
  rcases place_cases h hwords with ⟨post, hfront, rfl⟩ | ⟨front, rfl, -⟩
  · obtain ⟨pre, tail, rfl, rfl, htail⟩ := List.map_eq_append_iff.mp hfront
    obtain ⟨c, tail, rfl, hc, htail⟩ := List.map_eq_cons_iff.mp htail
    obtain ⟨o, tail, rfl, ho, rfl⟩ := List.map_eq_cons_iff.mp htail
    have hkind : c.kind = .colons := by rw [Token.kind, hc, Lexeme.kind]
    obtain ⟨lines, post, hne, hlines, hpost, heq⟩ :=
      (hblocks.lists hkind (by rw [ho]; exact Lexeme.noConfusion)).exists_lines
    refine ⟨lines, _, hne, hlines, hpost.append_eof (rest.map Token.lexeme), ?_⟩
    rw [List.map_cons] at heq
    rw [(List.cons_eq_cons.mp heq).2]
    simp
  · simp at heof

/-- Declarations that are the same make the same grammar, or they are refused for the same thing. -/
theorem assemble_same {ds es : List Declaration} (h : Forall₂ Declaration.Same ds es)
    (goals : Names) : OutcomesAlike Eq (assemble ds goals) (assemble es goals) := by
  refine assemble_alike goals (map_eq_map_iff.mpr (h.imp fun d e hde => ?_))
  exact Declaration.key_eq_iff.mpr ⟨hde.name, hde.separator, hde.definition⟩

/-- A list of terminals is shorthand for productions.  Where a list of tokens has a tree, a list of
tokens with productions in the place of the terminals that a definition lists has one, and it
declares the same, or it is refused for the same thing.  The grammar is the same for any goals. -/
theorem Tree.declarations_unlisted {tokens tokens' : List Token} {t : Tree}
    (ht : ofTokens tokens = .ok t)
    (h : Unlisted (tokens.map Token.lexeme) (tokens'.map Token.lexeme)) :
    ∃ t', ofTokens tokens' = .ok t' ∧
      ResultsAlike (fun ds ds' => Forall₂ Declaration.Same ds ds' ∧
          ∀ goals, OutcomesAlike Eq (assemble ds goals) (assemble ds' goals))
        t.declarations t'.declarations := by
  obtain ⟨taken, rest, rfl, hend, hd⟩ := ofTokens_ok_iff.mp ht
  obtain ⟨body, e, us, rfl, he, hnode, hbody⟩ := Description.builtin_orderly.start_iff.mp hd
  obtain ⟨blocks, rfl, hblocks⟩ := Derives.star_iff.mp hbody
  obtain rfl := List.singleton_inj.mp hnode
  have heof : e.lexeme = .eof := of_decide_eq_true he
  rw [List.append_assoc, List.singleton_append, List.map_append, List.map_cons, heof] at h
  -- The list is in the blocks, or behind the end of the text.
  obtain ⟨body', e', rest', rfl, he', hend', hbody'⟩ : ∃ body' e' rest',
      tokens' = body' ++ e' :: rest' ∧ e'.isEof = true ∧ atEnd rest' = true ∧
      (Unlisted (body.map Token.lexeme) (body'.map Token.lexeme) ∨
        body.map Token.lexeme = body'.map Token.lexeme) := by
    rcases h.eof_cases with ⟨as', has, htokens'⟩ | ⟨bs', hbs, htokens'⟩
    · obtain ⟨body', e', rest', rfl, he', rfl, hrest'⟩ := exists_eof htokens'
      exact ⟨body', e', rest', rfl, he', (atEnd_eq_of_lexemes hrest').trans hend, .inl has⟩
    · obtain ⟨body', e', rest', rfl, he', hbody', rfl⟩ := exists_eof htokens'
      exact ⟨body', e', rest', rfl, he', hbs.atEnd hend, .inr hbody'.symm⟩
  have hends : EndsWith (e :: rest) (e' :: rest') := fun _ _ _ => ⟨e', rfl, he'⟩
  obtain ⟨us', hus', hsame⟩ : ∃ us',
      Derives .builtin (closeOf (body' ++ e' :: rest')) (.rounds (.rule .block)) body'
        (e' :: rest') us' ∧
      EndAlike Anywhere Anywhere (Forall₂ Phrase.Same) (visitAll Reduction.visitor blocks)
        (visitAll Reduction.visitor us') := by
    rcases hbody' with hunlisted | hlexemes
    · exact hblocks.exists_unlisted _ hends hunlisted
    · obtain ⟨us', hus', halike⟩ := hblocks.elsewhere _ hends hlexemes
      exact ⟨us', hus', halike.sameBlocks⟩
  have hderives := Description.builtin_orderly.start_iff.mpr
    ⟨body', e', [.repeated us'], rfl, he', rfl, .star hus'⟩
  have htokens : body' ++ e' :: rest' = (body' ++ [e']) ++ rest' := by simp
  refine ⟨_, ofTokens_ok_iff.mpr ⟨body' ++ [e'], rest', htokens, hend', hderives⟩, ?_⟩
  exact (declarations_same rfl rfl hsame).mono fun _ _ hds => ⟨hds, assemble_same hds⟩

/-- Three terminals on two lines are three productions. -/
theorem Tree.declarations_unlisted_two_lines :
    let tokens : List Token :=
      [⟨.nonterminal "A", 0, 1⟩, ⟨.colons ":", 1, 2⟩, ⟨.reserved .one, 3, 6⟩,
        ⟨.reserved .of, 7, 9⟩, ⟨.newline, 9, 10⟩, ⟨.terminal "\x60x\x60", 10, 13⟩,
        ⟨.terminal "\x60y\x60", 14, 17⟩, ⟨.newline, 17, 18⟩, ⟨.control "<TAB>", 18, 23⟩,
        ⟨.newline, 23, 24⟩, ⟨.eof, 24, 24⟩]
    let tokens' : List Token :=
      [⟨.nonterminal "A", 0, 1⟩, ⟨.colons ":", 1, 2⟩, ⟨.newline, 2, 3⟩,
        ⟨.terminal "\x60x\x60", 3, 6⟩, ⟨.newline, 6, 7⟩, ⟨.terminal "\x60y\x60", 7, 10⟩,
        ⟨.newline, 10, 11⟩, ⟨.control "<TAB>", 11, 16⟩, ⟨.newline, 16, 17⟩, ⟨.eof, 17, 17⟩]
    Unlisted (tokens.map Token.lexeme) (tokens'.map Token.lexeme) ∧
      ∃ t ds, ofTokens tokens = .ok t ∧ t.declarations = .ok ds ∧ ∃ t', ofTokens tokens' = .ok t' ∧
        ResultsAlike (fun ds ds' => Forall₂ Declaration.Same ds ds' ∧
            ∀ goals, OutcomesAlike Eq (assemble ds goals) (assemble ds' goals))
          t.declarations t'.declarations := by
  intro tokens tokens'
  have hlines : ∀ line ∈ [[Lexeme.terminal "\x60x\x60", .terminal "\x60y\x60"],
      [.control "<TAB>"]], IsTerminalLine line := by
    rintro line hline
    rcases List.mem_pair.mp hline with rfl | rfl
    · exact ⟨by simp, by decide⟩
    · exact ⟨by simp, by decide⟩
  have hpost : EndsLines [.newline, .eof] :=
    endsLines_newline fun l hl hstart => by
      obtain ⟨rfl, -⟩ := List.cons_prefix_cons.mp hstart
      cases hl
  have hunlisted : Unlisted (tokens.map Token.lexeme) (tokens'.map Token.lexeme) :=
    .mk [.nonterminal "A"] [.newline, .eof] ":" (by simp) hlines hpost
  have hok : (ofTokens tokens).toOption.any (·.declarations.isOk) = true := by decide +kernel
  cases ht : ofTokens tokens with
  | error e => simp [ht, Except.toOption] at hok
  | ok t =>
    cases hds : t.declarations with
    | error e => simp [ht, hds, Except.toOption, Except.isOk, Except.toBool] at hok
    | ok ds => exact ⟨hunlisted, t, ds, rfl, hds, declarations_unlisted ht hunlisted⟩

end GrammarText
