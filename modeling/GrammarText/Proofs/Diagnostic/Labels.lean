import GrammarText.Diagnostic.Report
import GrammarText.Proofs.Assembly.Specification
import GrammarText.Proofs.Parsing.Refusal
import GrammarText.Proofs.Reduction.Readings
import GrammarText.Proofs.Scanning.Breaks
import GrammarText.Proofs.Scanning.Partition

/-!
# Diagnostics point at what they are about

`Diagnostic.PointsInto` says for each kind of error what the spans of its labels cover in the text.
Every error of a compilation points so (`compile_error_pointsInto`).  The four stages are taken one
by one: an error of the parser lies at a token, one of the reduction at tokens that it read, and one
of assembly at places that the declarations have kept from the tokens that they were read from.
-/

namespace GrammarText

open Text (byteLength)

/-! ## What a diagnostic points at -/

/-- A span covers a line of a text, with the line break at its end but without the separators
before it.  The last line of a text may end without a line break. -/
def CoversLine (text : List Char) (span : Span) (slice : List Char) : Prop :=
  ∃ before blanks line after, text = (before ++ '\n' :: blanks) ++ slice ++ after ∧
    span = ⟨byteLength (before ++ '\n' :: blanks), byteLength ((before ++ '\n' :: blanks) ++ slice)⟩ ∧
    (∀ c ∈ blanks, isSeparator c = true) ∧ '\n' ∉ line ∧
    (slice = line ++ ['\n'] ∨ slice = line ∧ ∀ c ∈ after, isSeparator c = true)

/-- A diagnostic points at what it is about in a text. -/
def Diagnostic.PointsInto (e : Diagnostic) (text : String) : Prop :=
  match e with
  | .lexical (.unexpectedCharacter found _ span) => Covers text.toList span [found]
  | .parse (.unexpectedToken _ span) =>
    ∃ tokens t, tokensOf text = .ok tokens ∧ t ∈ tokens ∧ t.isEof = false ∧ span = t.span ∧
      Covers text.toList span t.text.toList
  | .parse (.unexpectedEnd _ span) => span = .point (byteLength text.toList)
  | .grammar (.duplicateDefinition name span first) =>
    Covers text.toList span name.toList ∧ Covers text.toList first name.toList ∧
      first.stop ≤ span.start
  | .grammar (.nameCollision name span definition) =>
    Covers text.toList span (Text.quote name.toList) ∧
      Covers text.toList definition name.toList
  | .grammar (.duplicateArgument name callee span) =>
    ∃ tokens run slice, tokensOf text = .ok tokens ∧ IsArgument callee name tokens run ∧
      span = Span.over run ∧ Covers text.toList span slice ∧ Spaced (run.map Token.lexeme) slice
  | .grammar (.unsupportedLookahead sequence span) =>
    ∃ tokens run slice, tokensOf text = .ok tokens ∧ IsUnsupportedEntry sequence tokens run ∧
      span = Span.over run ∧ Covers text.toList span slice ∧ Spaced (run.map Token.lexeme) slice
  | .grammar (.invalidConditional _ param value span) =>
    ∃ guard more, CoversLine text.toList span (guard ++ more) ∧
      Spaced (guardLexemes param value) guard
  | .grammar (.malformedTerminal ..) | .parse (.malformedTree ..) | .parse (.leftRecursion ..)
  | .unreadable .. => False

theorem CoversLine.covers {text slice : List Char} {span : Span} (h : CoversLine text span slice) :
    Covers text span slice := by
  obtain ⟨before, blanks, -, after, htext, hspan, -⟩ := h
  exact ⟨_, after, htext, hspan⟩

/-- The end of a text covers nothing. -/
theorem covers_end (text : List Char) : Covers text (.point (byteLength text)) [] :=
  ⟨text, [], by simp, by simp [Span.point]⟩

/-- What a diagnostic points at are bytes of the text, from a character to a character. -/
theorem Diagnostic.PointsInto.labels {e : Diagnostic} {text : String} (h : e.PointsInto text) :
    ∀ l ∈ e.report.labels, ∃ slice, Covers text.toList l.2 slice := by
  match e, h with
  | .lexical (.unexpectedCharacter ..), h => exact List.forall_mem_singleton.mpr ⟨_, h⟩
  | .parse (.unexpectedToken ..), ⟨_, _, _, _, _, _, h⟩ =>
    exact List.forall_mem_singleton.mpr ⟨_, h⟩
  | .parse (.unexpectedEnd _ span), (h : span = _) =>
    exact List.forall_mem_singleton.mpr ⟨[], h ▸ covers_end _⟩
  | .grammar (.duplicateDefinition ..), ⟨hspan, hfirst, _⟩ =>
    exact List.forall_mem_cons.mpr ⟨⟨_, hspan⟩, List.forall_mem_singleton.mpr ⟨_, hfirst⟩⟩
  | .grammar (.nameCollision ..), ⟨hspan, hdefinition⟩ =>
    exact List.forall_mem_cons.mpr ⟨⟨_, hspan⟩, List.forall_mem_singleton.mpr ⟨_, hdefinition⟩⟩
  | .grammar (.duplicateArgument ..), ⟨_, _, _, _, _, _, h, _⟩ =>
    exact List.forall_mem_singleton.mpr ⟨_, h⟩
  | .grammar (.unsupportedLookahead ..), ⟨_, _, _, _, _, _, h, _⟩ =>
    exact List.forall_mem_singleton.mpr ⟨_, h⟩
  | .grammar (.invalidConditional ..), ⟨_, _, h, _⟩ =>
    exact List.forall_mem_singleton.mpr ⟨_, h.covers⟩

/-! ## The parser -/

/-- The parser puts its error at one of the tokens. -/
theorem Tree.exists_of_ofTokens_error {tokens : List Token} {e : ParseError} (hend : Ended tokens)
    (h : ofTokens tokens = .error e) :
    ∃ t ∈ tokens, ∃ expected,
      e = if t.isEof then .unexpectedEnd expected (.point t.start)
        else .unexpectedToken expected ⟨t.start, max t.stop (t.start + 1)⟩ := by
  obtain ⟨ms, htrace, hms, rfl⟩ := exists_trace_of_error hend h
  obtain ⟨m, hm, hleft⟩ :=
    exists_farthest (htrace.exists_miss Description.builtin_orderly.total rfl)
  obtain ⟨pre, ahead, rfl, hl, -⟩ := (hms m hm).place
  cases ahead with
  | nil => exact absurd rfl (ahead_ne_nil hend (hms m hm) hl)
  | cons t rest =>
    refine ⟨t, by simp, listing (sortedDistinct
      (((ms.filter (·.left = (t :: rest).length)).map Miss.wanted).map Wanted.phrase)), ?_⟩
    exact farthestError_eq (hleft.symm.trans hl)

section

variable {text : String} {tokens run : List Token} {d : Declaration}

theorem pointsInto_of_ofTokens_error {e : ParseError} (htokens : tokensOf text = .ok tokens)
    (h : Tree.ofTokens tokens = .error e) : (Diagnostic.parse e).PointsInto text := by
  have hscan := tokensOf_ok_iff.mp htokens
  obtain ⟨t, ht, expected, rfl⟩ := Tree.exists_of_ofTokens_error hscan.ended h
  cases heof : t.isEof with
  | true =>
    rw [if_pos rfl]
    show Span.point t.start = .point _
    rw [hscan.start_of_eof ht heof, Nat.zero_add]
  | false =>
    have hlt := (hscan.bounds t ht).2.2 heof
    have hspan : (⟨t.start, max t.stop (t.start + 1)⟩ : Span) = t.span := by
      rw [Nat.max_eq_left hlt]
      rfl
    rw [if_neg (by simp), hspan]
    exact ⟨tokens, t, htokens, ht, heof, rfl, hscan.covers ht heof⟩

/-! ## The reduction -/

/-- An error of the reduction points at tokens that it has read. -/
theorem pointsInto_of_blames {e : Diagnostic} (htokens : tokensOf text = .ok tokens)
    (h : e.Blames tokens) (hfits : e.Fits Lexeme.Written) : e.PointsInto text := by
  have hscan := tokensOf_ok_iff.mp htokens
  match e, h with
  | .parse (.unexpectedToken ..), ⟨t, ht, heof, hspan⟩ =>
    exact ⟨tokens, t, htokens, ht, heof, hspan, hspan ▸ hscan.covers ht heof⟩
  | .grammar (.duplicateArgument name callee _), ⟨u, harg, hspan⟩ =>
    obtain ⟨t, o, before, sigil, ht, ho, hbefore, hu, hall⟩ := id harg
    have hinfix : u <:+: tokens := by
      refine List.IsInfix.trans ?_ hall
      exact ⟨t :: o :: before, [], by simp⟩
    have hne : u ≠ [] := by
      rintro rfl
      cases hu
    have heof : ∀ x ∈ u, x.isEof = false := by
      intro x hx
      have hmem := List.mem_map_of_mem (f := Token.lexeme) hx
      rw [hu] at hmem
      simp only [List.mem_cons, List.not_mem_nil, or_false] at hmem
      rcases hmem with hl | hl <;> simp [Token.isEof, hl]
    obtain ⟨slice, hcovers, hspaced⟩ := hscan.exists_covers hinfix hne heof
    exact ⟨tokens, u, slice, htokens, harg, hspan, hspan ▸ hcovers, hspaced⟩
  | .grammar (.unsupportedLookahead sequence _), ⟨u, hentry, hspan⟩ =>
    obtain ⟨e, a, b, ⟨-, hne, -⟩, -, -, -, -, pre, post, hall⟩ := id hentry
    have hinfix : u <:+: tokens := ⟨pre ++ [a], b :: post, by simpa using hall⟩
    have heof : ∀ x ∈ u, x.isEof = false := by
      have hsplit : tokens = (pre ++ a :: u) ++ b :: post := by simpa using hall.symm
      have hends := hscan.ended.isEof_of_append hsplit (List.cons_ne_nil b post)
      exact fun x hx => hends x (by simp [hx])
    obtain ⟨slice, hcovers, hspaced⟩ := hscan.exists_covers hinfix hne heof
    exact ⟨tokens, u, slice, htokens, hentry, hspan, hspan ▸ hcovers, hspaced⟩
  | .grammar (.malformedTerminal q _), _ => exact hfits.1.unquote?_ne_none hfits.2

/-! ## Names and terminals of declarations -/

/-- A declaration of a text stands behind those before it. -/
theorem exists_read_of_declarationsOf {front back : List Declaration}
    (h : declarationsOf text = .ok (front ++ d :: back)) :
    ∃ pre run post, Scans 0 text.toList (pre ++ run ++ post) ∧
      (∀ t ∈ pre ++ run, t.isEof = false) ∧ d.ReadFrom run post ∧
      ∀ c ∈ front, ∃ u rest, u <:+: pre ∧ c.ReadFrom u rest := by
  obtain ⟨tokens, htokens, t, ht, hdeclarations⟩ := declarationsOf_ok_iff.mp h
  have hscan := tokensOf_ok_iff.mp htokens
  have hread := Tree.declarations_read hscan.ended ht
  rw [hdeclarations] at hread
  obtain ⟨blocks, body, e, rfl, -, hturn, hds⟩ := hread
  obtain ⟨pre, u, post, rfl, hd, hfront⟩ := hturn.exists_declaration hds.symm
  have hends := hscan.ended.isEof_of_append rfl (List.cons_ne_nil e [])
  refine ⟨pre, u, post ++ [e], by simpa using hscan, ?_, hd, ?_⟩
  · exact fun t ht => hends t (List.mem_append_left _ ht)
  · intro c hc
    obtain ⟨v, rest, hv, hread⟩ := hfront c hc
    exact ⟨v, rest, hv, hread⟩

/-- The name of a declaration stands where its place says. -/
theorem Declaration.ReadFrom.covers_name {rest : List Token} (h : d.ReadFrom run rest)
    (hscan : Scans 0 text.toList tokens) (hrun : run <:+: tokens)
    (heof : ∀ t ∈ run, t.isEof = false) : Covers text.toList d.nameSpan d.name.toList := by
  obtain ⟨t, more, rfl, hname, hspan⟩ := h.name
  rw [← hname, hspan]
  exact hscan.covers (hrun.subset List.mem_cons_self) (heof t List.mem_cons_self)

/-- Control characters are not written like names. -/
theorem IsControl.not_isName {cs : List Char} (h : IsControl cs) : ¬ IsName cs := by
  rintro ⟨first, more, rfl, hmore, ⟨c, rfl, hc⟩ | rfl⟩
  · rcases h with ⟨name, hcs, -⟩ | ⟨digits, hcs, -⟩
    · obtain ⟨rfl, -⟩ := List.cons_eq_cons.mp hcs
      exact absurd hc (by decide)
    · obtain ⟨-, rfl⟩ := List.cons_eq_cons.mp hcs
      exact absurd (hmore '+' List.mem_cons_self) (by decide)
  · rcases h with ⟨name, hcs, -⟩ | ⟨digits, hcs, -⟩
    · simp at hcs
    · simp at hcs

/-- A terminal is written in quotes, or it is a control character. -/
theorem Token.Spells.written {t : Token} {s : String} (h : t.Spells s)
    (hwritten : t.lexeme.Written) :
    t.text.toList = Text.quote s.toList ∨ IsControl s.toList ∧ t.text.toList = s.toList := by
  rcases h with ⟨q, hq, hunquote⟩ | hcontrol
  · rw [hq] at hwritten
    obtain ⟨body, hbody, hshape⟩ : IsTerminal q.toList := hwritten
    have hne : body ≠ [] := by
      rcases hshape with ⟨hne, -⟩ | rfl
      · exact hne
      · exact List.cons_ne_nil _ _
    rw [hbody, Text.unquote?_quote hne] at hunquote
    rw [text, hq, Lexeme.text, hbody, Option.some.inj hunquote]
    exact .inl rfl
  · rw [hcontrol] at hwritten
    rw [text, hcontrol]
    exact .inr ⟨hwritten, rfl⟩

/-- A terminal that is spelled like a name is written as this name in quotes. -/
theorem Token.Spells.toList_text {t : Token} {s : String} (h : t.Spells s)
    (hwritten : t.lexeme.Written) (hs : IsName s.toList) :
    t.text.toList = Text.quote s.toList := by
  rcases h.written hwritten with htext | ⟨hcontrol, -⟩
  · exact htext
  · exact absurd hs hcontrol.not_isName

/-- Each token of a text is written as its class has it. -/
theorem Scans.written {cs : List Char} {o : Nat} {tokens : List Token} (h : Scans o cs tokens)
    {t : Token} (ht : t ∈ tokens) : t.lexeme.Written := by
  rcases h.stands t ht with htext | ⟨rest, hstands⟩
  · rw [htext]
    trivial
  · exact hstands.written

theorem Located.exists_of_mem {run : List Token} {xs : List (String × Span)} (h : Located run xs)
    {x : String × Span} (hx : x ∈ xs) : ∃ t ∈ run, t.Spells x.1 ∧ x.2 = t.span := by
  induction h with
  | nil => cases hx
  | skip h ih =>
    obtain ⟨t, ht, hspells⟩ := ih hx
    exact ⟨t, List.mem_cons_of_mem _ ht, hspells⟩
  | @found t s ts xs ht h ih =>
    rcases List.mem_cons.mp hx with rfl | hx
    · exact ⟨t, List.mem_cons_self, ht, rfl⟩
    · obtain ⟨u, hu, hspells⟩ := ih hx
      exact ⟨u, List.mem_cons_of_mem _ hu, hspells⟩

/-- A terminal of a plain definition stands where it is used first. -/
theorem Declaration.ReadFrom.exists_firstUse {rest : List Token} (h : d.ReadFrom run rest)
    {s : String} (hs : s ∈ d.definition.plainTerminals) :
    ∃ t ∈ run, t.Spells s ∧ d.firstUse s = t.span := by
  have hmem : s ∈ d.terminalSpans.map Prod.fst := by
    rw [h.terminals]
    cases hd : d.definition with
    | alternatives ps =>
      rw [hd] at hs
      exact hs
    | parameterized params ps =>
      rw [hd] at hs
      cases hs
  cases hlookup : d.terminalSpans.lookup s with
  | none =>
    obtain ⟨x, hx, rfl⟩ := List.mem_map.mp hmem
    simpa using List.lookup_eq_none_iff.mp hlookup x hx
  | some span =>
    obtain ⟨before, after, hspans, -⟩ := List.lookup_eq_some_iff.mp hlookup
    obtain ⟨t, ht, hspells, hspan⟩ := h.located.exists_of_mem (x := (s, span)) (by simp [hspans])
    exact ⟨t, ht, hspells, by rw [firstUse, hlookup, ← hspan]; rfl⟩

/-! ## Lines -/

/-- Before a line that some text follows stands a line break: that of the line before it, or the one
before all lines. -/
theorem InTurn.exists_newline {lines : List (Production × Span)} {pre rest : List Token}
    (h : InTurn Production.Line lines pre rest) {t x : Token} (ht : t.lexeme = .newline)
    (heof : ∀ t ∈ pre, t.isEof = false) (hrest : rest.head? = some x) (hx : x.isEof = false) :
    ∃ front nl, t :: pre = front ++ [nl] ∧ nl.lexeme = .newline := by
  induction h generalizing t with
  | nil => exact ⟨[], t, rfl, ht⟩
  | @cons line lines u v rest hline hs ih =>
    rw [List.forall_mem_append] at heof
    obtain ⟨body, ending, rfl, -, hend, -⟩ := hline
    rcases hend with ⟨nl, rfl, hnl⟩ | ⟨rfl, e, more, hmore, he⟩
    · obtain ⟨front, nl', hfront, hnl'⟩ := ih hnl heof.2 hrest
      refine ⟨t :: (body ++ front), nl', ?_, hnl'⟩
      simp [← hfront]
    · -- The text does not end before tokens of a later line.
      have hhead : (v ++ rest).head? = some e := by simp [hmore]
      cases v with
      | nil =>
        obtain rfl : x = e := Option.some.inj (hrest.symm.trans hhead)
        simp [he] at hx
      | cons y v =>
        obtain rfl : y = e := Option.some.inj hhead
        simp [heof.2 y List.mem_cons_self] at he

/-- The line of a conditional production stands behind a line break. -/
theorem Declaration.ReadFrom.exists_line {rest : List Token} (h : d.ReadFrom run rest)
    (heof : ∀ t ∈ run, t.isEof = false) {before after : List Production} {param : String}
    {value : Bool} {q : Production}
    (hd : d.definition.productions = before ++ .conditional param value q :: after) :
    ∃ front nl u post, run = front ++ nl :: (u ++ post) ∧ nl.lexeme = .newline ∧
      Production.Line (.conditional param value q, d.productionSpan before.length) u
        (post ++ rest) := by
  rcases h.lines with ⟨-, hlisted⟩ | ⟨front, t, body, ending, lines, hrun, ht, hlines, hps, hspans⟩
  · obtain ⟨s, hs⟩ := hlisted (.conditional param value q) (by simp [hd])
    cases hs
  · rw [hd] at hps
    obtain ⟨bs, cs, rfl, hbs, hcs⟩ := List.append_eq_map_iff.mp hps
    obtain ⟨line, cs, rfl, hline, -⟩ := List.map_eq_cons_iff.mp hcs
    have hspan : d.productionSpan before.length = line.2 := by
      rw [productionSpan, hspans, ← hbs]
      simp
    obtain ⟨pre, u, post, rfl, hpre, hu, -⟩ := hlines.exists_of_append
    rw [hrun] at heof
    simp only [List.forall_mem_append, List.forall_mem_cons] at heof
    obtain ⟨x, hx⟩ : ∃ x, u.head? = some x := by
      obtain ⟨content, ending, rfl, hne, -⟩ := hu
      obtain ⟨x, content, rfl⟩ := List.exists_cons_of_ne_nil hne
      exact ⟨x, rfl⟩
    have hxeof : x.isEof = false := heof.2.2.1.1.2 x (List.mem_of_head? hx)
    obtain ⟨front', nl, hfront, hnl⟩ :=
      hpre.exists_newline ht heof.2.2.1.1.1 (x := x) (by simp [hx]) hxeof
    refine ⟨front ++ front', nl, u, post ++ ending, ?_, hnl, ?_⟩
    · rw [hrun]
      have hsplit : t :: (pre ++ u ++ post ++ ending) = (t :: pre) ++ (u ++ post ++ ending) := by
        simp
      rw [hsplit, hfront]
      simp
    · rw [hspan, ← hline]
      simpa using hu

/-- Tokens inside a line have no line break in their texts. -/
theorem Scans.newline_not_mem {o : Nat} {cs : List Char} (h : Scans o cs tokens) {t : Token}
    (ht : t ∈ tokens) (hinline : t.isInline = true) : '\n' ∉ t.text.toList := by
  rcases h.stands t ht with heof | ⟨rest, hstands⟩
  · rw [Token.isInline, Token.kind, heof] at hinline
    cases hinline
  · refine hstands.newline_not_mem (fun hnl => ?_) fun hprose => ?_
    · rw [Token.isInline, Token.kind, hnl] at hinline
      cases hinline
    · rw [Token.isInline, Token.kind, hprose] at hinline
      cases hinline

/-- A line has its only line break at its end, unless nothing but separators comes after it. -/
theorem LineEnds.exists_line {body ending post : List Token} {slice after : List Char} {o : Nat}
    (h : LineEnds ending post) (hne : body ≠ [])
    (hspaced : Spaced ((body ++ ending).map Token.lexeme) slice) (hpost : Scans o after post)
    (hbreak : ∀ l ∈ body.map Token.lexeme, '\n' ∉ l.text.toList) :
    ∃ line, '\n' ∉ line ∧
      (slice = line ++ ['\n'] ∨ slice = line ∧ ∀ c ∈ after, isSeparator c = true) := by
  rcases h with ⟨t, rfl, ht⟩ | ⟨rfl, e, rest, rfl, he⟩
  · rw [List.map_append] at hspaced
    obtain ⟨line, blanks, last, rfl, hl, hblanks, hlast⟩ :=
      hspaced.exists_of_append (by simp [hne]) (by simp)
    have hlast : last = ['\n'] := by
      rw [spaced_singleton hlast, ht]
      rfl
    refine ⟨line ++ blanks, ?_, .inl (by simp [hlast])⟩
    rw [List.mem_append, not_or]
    exact ⟨hl.newline_not_mem hbreak, fun hmem => absurd (hblanks _ hmem) (by decide)⟩
  · rw [List.append_nil] at hspaced
    have hafter := (hpost.isSeparator_of_eof he).1
    exact ⟨slice, hspaced.newline_not_mem hbreak, .inr ⟨rfl, hafter⟩⟩

/-- A conditional production covers its whole line, from its guard on. -/
theorem Scans.exists_coversLine {cs : List Char} {front u post : List Token} {nl : Token}
    (h : Scans 0 cs (front ++ nl :: (u ++ post))) (hnl : nl.lexeme = .newline)
    (heof : ∀ t ∈ front ++ nl :: u, t.isEof = false) {param : String} {value : Bool}
    {q : Production} {span : Span}
    (hline : Production.Line (.conditional param value q, span) u post) :
    ∃ guard more, CoversLine cs span (guard ++ more) ∧ Spaced (guardLexemes param value) guard := by
  obtain ⟨body, ending, rfl, hne, hend, rfl, hguard, hinline⟩ := hline
  have hbreak : ∀ l ∈ body.map Token.lexeme, '\n' ∉ l.text.toList := by
    intro l hl
    obtain ⟨t, ht, rfl⟩ := List.mem_map.mp hl
    exact h.newline_not_mem (by simp [ht]) (hinline t ht)
  simp only [List.forall_mem_append, List.forall_mem_cons] at heof
  obtain ⟨before, rest, rfl, hrest⟩ := h.exists_of_append heof.1
  obtain ⟨blanks, rest, rfl, -, -, hstart, hstop, hrest⟩ := hrest.exists_of_cons heof.2.1
  obtain ⟨blanks', slice, after, rfl, hb', hspaced, hspan, hpost⟩ :=
    hrest.exists_run (by simp [hne]) (List.forall_mem_append.mpr heof.2.2)
  have hnltext : nl.text.toList = ['\n'] := by
    rw [Token.text, hnl]
    rfl
  have hstarts : guardLexemes param value <+: (body ++ ending).map Token.lexeme := by
    rw [List.map_append]
    exact hguard.trans (List.prefix_append _ _)
  obtain ⟨guard, more, rfl, hspacedGuard⟩ :=
    hspaced.exists_of_isPrefix hstarts (by simp [guardLexemes])
  obtain ⟨line, hline, hclosed⟩ := hend.exists_line hne hspaced hpost hbreak
  have hoffset : nl.stop = byteLength (before ++ blanks ++ ['\n']) := by
    rw [hstop, hstart, hnltext]
    simp only [Text.byteLength_append, Nat.zero_add]
  refine ⟨guard, more, ⟨before ++ blanks, blanks', line, after, ?_, ?_, hb', hline, hclosed⟩,
    hspacedGuard⟩
  · simp [hnltext]
  · rw [hspan, hoffset]
    simp only [Text.byteLength_append, Text.byteLength_cons, Text.byteLength_nil, Nat.add_assoc,
      Nat.add_zero]

/-! ## Assembly -/

variable {ds : List Declaration} {goals : Names} {e : GrammarError}

theorem covers_name_of_mem (hds : declarationsOf text = .ok ds) (hd : d ∈ ds) :
    Covers text.toList d.nameSpan d.name.toList := by
  obtain ⟨front, back, rfl⟩ := List.append_of_mem hd
  obtain ⟨pre, run, post, hscan, heof, hread, -⟩ := exists_read_of_declarationsOf hds
  exact hread.covers_name hscan ⟨pre, post, rfl⟩ (List.forall_mem_append.mp heof).2

theorem isName_of_mem (hds : declarationsOf text = .ok ds) (hd : d ∈ ds) :
    IsName d.name.toList := by
  have hfits := declarationsOf_fits text
  rw [hds] at hfits
  obtain ⟨-, -, hhead⟩ := hfits d hd
  split at hhead
  · exact hhead
  · exact hhead.1

/-- Where a terminal that is spelled like a name is used first, it stands in quotes. -/
theorem covers_firstUse_of_mem (hds : declarationsOf text = .ok ds) (hd : d ∈ ds) {s : String}
    (hs : s ∈ d.definition.plainTerminals) (hname : IsName s.toList) :
    Covers text.toList (d.firstUse s) (Text.quote s.toList) := by
  obtain ⟨front, back, rfl⟩ := List.append_of_mem hd
  obtain ⟨pre, run, post, hscan, heof, hread, -⟩ := exists_read_of_declarationsOf hds
  obtain ⟨t, ht, hspells, huse⟩ := hread.exists_firstUse hs
  have hmem : t ∈ pre ++ run ++ post := by simp [ht]
  rw [huse, ← hspells.toList_text (hscan.written hmem) hname]
  exact hscan.covers hmem ((List.forall_mem_append.mp heof).2 t ht)

/-- A fault of a declaration lies in the declaration, and a name in an earlier one. -/
theorem pointsInto_of_fault {front back : List Declaration}
    (hds : declarationsOf text = .ok (front ++ d :: back)) (h : d.Fault front e) :
    (Diagnostic.grammar e).PointsInto text := by
  obtain ⟨pre, run, post, hscan, heof, hread, hearlier⟩ := exists_read_of_declarationsOf hds
  have heof' := List.forall_mem_append.mp heof
  cases h with
  | @conditional before param value q after hd hbefore =>
    obtain ⟨inside, nl, u, rest, rfl, hnl, hline⟩ := hread.exists_line heof'.2
      (congrArg Definition.productions hd)
    have hscan' : Scans 0 text.toList ((pre ++ inside) ++ nl :: (u ++ (rest ++ post))) := by
      simpa using hscan
    refine hscan'.exists_coversLine hnl (fun t ht => heof t ?_) hline
    simp only [List.mem_append, List.mem_cons] at ht ⊢
    grind
  | @duplicate first hu hplain hfirst =>
    obtain ⟨hmem, -, hname⟩ := Assembly.mem_of_lastStored? hfirst
    have hcovers := covers_name_of_mem hds (List.mem_append_left _ hmem)
    rw [hname] at hcovers
    refine ⟨hread.covers_name hscan ⟨pre, post, rfl⟩ heof'.2, hcovers, ?_⟩
    -- The tokens that the earlier declaration was read from come before those of this one.
    obtain ⟨v, rest, hv, hfirstRead⟩ := hearlier first hmem
    obtain ⟨t, more, rfl, -, ht⟩ := hfirstRead.name
    obtain ⟨x, more', rfl, -, hx⟩ := hread.name
    have hbefore := (List.pairwise_append.mp (List.pairwise_append.mp hscan.pairwise).1).2.2
    rw [ht, hx]
    exact hbefore t (hv.subset List.mem_cons_self) x List.mem_cons_self

/-- An error of assembly points at places that the declarations have kept. -/
theorem pointsInto_of_assemble_error (hds : declarationsOf text = .ok ds)
    (h : assemble ds goals = .error e) : (Diagnostic.grammar e).PointsInto text := by
  rcases assemble_error_iff_fault.mp h with ⟨front, d, back, rfl, -, hfault⟩ |
    ⟨-, name, used, first, -, -, ⟨front, d, back, rfl, -, hs, rfl⟩, hfirst, rfl⟩
  · exact pointsInto_of_fault hds hfault
  · obtain ⟨hmem, -, rfl⟩ := Assembly.mem_of_lastStored? hfirst
    exact ⟨covers_firstUse_of_mem hds (by simp) hs (isName_of_mem hds hmem),
      covers_name_of_mem hds hmem⟩

/-! ## Compilation -/

theorem pointsInto_of_declarationsOf_error {e : Diagnostic} (h : declarationsOf text = .error e) :
    e.PointsInto text := by
  have hfits := declarationsOf_fits text
  rw [h] at hfits
  cases htokens : tokensOf text with
  | error l =>
    obtain rfl : .lexical l = e := Except.error.inj ((declarationsOf_eq_error htokens).symm.trans h)
    obtain ⟨c, pre, post, htext, rfl⟩ := exists_of_tokensOf_error htokens
    exact ⟨pre, post, by simpa using htext, by simp⟩
  | ok tokens =>
    rw [declarationsOf_eq htokens] at h
    cases ht : Tree.ofTokens tokens with
    | error p =>
      simp only [ht] at h
      obtain rfl := Except.error.inj h
      exact pointsInto_of_ofTokens_error htokens ht
    | ok t =>
      simp only [ht] at h
      have hread := Tree.declarations_read (tokensOf_ok_iff.mp htokens).ended ht
      rw [h] at hread
      exact pointsInto_of_blames htokens hread hfits

/-- Every error of a compilation points at what it is about: each of its labels covers characters
of the text, and for each kind of error these are the ones that it names. -/
theorem compile_error_pointsInto {options : Options} {e : Diagnostic}
    (h : compile text options = .error e) :
    (∀ l ∈ e.report.labels, ∃ slice, Covers text.toList l.2 slice) ∧ e.PointsInto text := by
  have hpoints : e.PointsInto text := by
    rw [compile_eq] at h
    cases hds : declarationsOf text with
    | error e' =>
      simp only [hds] at h
      obtain rfl := Except.error.inj h
      exact pointsInto_of_declarationsOf_error hds
    | ok ds =>
      simp only [hds] at h
      cases hassemble : assemble ds options.goals with
      | ok g =>
        rw [hassemble] at h
        cases h
      | error e' =>
        rw [hassemble] at h
        obtain rfl := Except.error.inj h
        exact pointsInto_of_assemble_error hds hassemble
  exact ⟨hpoints.labels, hpoints⟩

/-- The guarded line behind a character of two bytes goes from its guard to the end of the text. -/
theorem compile_error_pointsInto_guarded_line :
    let text := "A:\n\t> \u00e9\n\t[+ P]  B "
    let e := Diagnostic.grammar (.invalidConditional "A" "P" true ⟨10, 18⟩)
    compile text .new = .error e ∧ (∀ l ∈ e.report.labels, ∃ slice, Covers text.toList l.2 slice) ∧
      e.PointsInto text := by
  intro text e
  have hcompile : (match compile text .new with
      | .error e' => decide (e' = e)
      | .ok _ => false) = true := by decide +kernel
  cases hg : compile text .new with
  | ok g => simp [hg] at hcompile
  | error e' =>
    obtain rfl : e' = e := by simpa [hg] using hcompile
    exact ⟨rfl, compile_error_pointsInto hg⟩

end
end GrammarText
