import GrammarText.Proofs.Assembly.Steps
import GrammarText.Proofs.Display.Meanings
import GrammarText.Proofs.Display.Render

/-!
# What the lines of a rendered grammar are read as

The line of a production, the head of a definition and a whole definition are read as what was
written, so the declarations of a rendered text have the names and definitions of the grammar
(`declarationsOf_render`).
-/

namespace GrammarText

open Reading

/-! ## Productions -/

theorem means_body {ss : List Symbol} (h : ∀ s ∈ ss, s.Fits Lexeme.Written) :
    Means .body (Production.symbols ss).lexemes (· = .symbols ss) := by
  cases ss with
  | nil =>
    exact ((reads_word .openBracket).cons ((reads_word .empty).cons ((reads_word .closeBracket).cons
      reads_nil))).node (k := 0) rfl rfl fun _ _ _ _ => yields_pure rfl
  | cons s ss =>
    have hsymbols := reads_plus (v := id) (w := id) (List.cons_ne_nil s ss) fun x hx =>
      (means_symbol (h x hx)).mono fun _ hp => ⟨x, hp, rfl⟩
    refine (hsymbols.cons reads_nil).node (k := 1) rfl (by simp [Production.lexemes]) ?_
    rintro start stop _ ⟨_, _, rfl, ⟨xs, rfl, hxs⟩, rfl⟩
    obtain rfl : xs = s :: ss := by simpa using hxs
    exact yields_body rfl

theorem means_guard (param : String) (value : Bool) :
    Means .guard [.reserved .openBracket, .reserved (if value then .plus else .tilde),
      .nonterminal param, .reserved .closeBracket] (· = .guard param value) := by
  refine ((reads_word .openBracket).cons ((means_fixedSigil value).reads.cons
    ((reads_token rfl).cons ((reads_word .closeBracket).cons reads_nil)))).node (k := 0) rfl rfl ?_
  rintro start stop _ ⟨_, _, rfl, ⟨t, rfl⟩, _, _, rfl, ⟨_, rfl, rfl⟩, _, _, rfl, ⟨u, rfl, hu⟩,
    _, _, rfl, ⟨v, rfl⟩, rfl⟩
  refine yields_pure ?_
  rw [Token.text, hu, Lexeme.text]

/-- A line break ends a line. -/
theorem means_lineEnd : Means .lineEnd [.newline] (· = .lineEnd) :=
  ((reads_token rfl).cons reads_nil).node (k := 0) rfl rfl fun _ _ _ _ => yields_pure rfl

/-- A blank line ends a definition. -/
theorem means_blockEnd : Means .blockEnd [.newline] (· = .blockEnd) :=
  ((reads_token rfl).cons reads_nil).node (k := 0) rfl rfl fun _ _ _ _ => yields_pure rfl

/-- Prose that was read is read again behind its bracket. -/
theorem proseText_append {text : String} (h : (Production.prose text).Fits Lexeme.Written) :
    Reduction.proseText ("> " ++ text) = text := by
  have htrim : Text.trim text.toList = text.toList := by
    obtain ⟨q, ⟨-, rfl⟩ | ⟨-, rfl⟩⟩ := h
    · rw [Reduction.proseText, String.toList_ofList, Text.trim_trim]
    · rw [Reduction.wrappedProseText, String.toList_ofList, Text.trim_trim]
  have htext : ("> " ++ text).toList = '>' :: ' ' :: text.toList := by simp
  have hdrop : Text.dropStart? ['>'] ('>' :: ' ' :: text.toList) = some (' ' :: text.toList) :=
    Text.dropStart?_append ['>'] _
  rw [Reduction.proseText, htext, hdrop]
  show String.ofList (Text.trim (' ' :: text.toList)) = text
  rw [Text.trim_cons_of_isBlank rfl, htrim, String.ofList_toList]

/-- The line of a production. -/
theorem means_production {p : Production} (h : p.Fits Lexeme.Written) :
    Means .production (p.lexemes ++ [.newline]) (· = .production p) := by
  cases p with
  | symbols ss =>
    refine ((reads_absent _).cons ((means_body h).reads.cons ((reads_absent _).cons
      (means_lineEnd.reads.cons reads_nil)))).node (k := 2) rfl (by simp) ?_
    rintro start stop _ ⟨_, _, rfl, rfl, _, _, rfl, ⟨_, rfl, rfl⟩, _, _, rfl, rfl, _, _, rfl,
      ⟨_, rfl, rfl⟩, rfl⟩
    exact fun _ => rfl
  | conditional param value body =>
    obtain ⟨-, ss, rfl, hss⟩ := h
    refine ((means_guard param value).reads_optional.cons ((means_body hss).reads.cons
      ((reads_absent _).cons (means_lineEnd.reads.cons reads_nil)))).node (k := 2) rfl
      (by simp [Production.lexemes]) ?_
    rintro start stop _ ⟨_, _, rfl, ⟨_, rfl, rfl⟩, _, _, rfl, ⟨_, rfl, rfl⟩, _, _, rfl, rfl, _, _,
      rfl, ⟨_, rfl, rfl⟩, rfl⟩
    exact fun _ => rfl
  | prose text =>
    refine ((reads_token rfl).cons (means_lineEnd.reads.cons reads_nil)).node (k := 0) rfl rfl ?_
    rintro start stop _ ⟨_, _, rfl, ⟨t, rfl, ht⟩, _, _, rfl, ⟨_, rfl, rfl⟩, rfl⟩
    have hprose : Reduction.proseText t.text = text := by
      rw [Token.text, ht, Lexeme.text, proseText_append h]
    refine fun _ => ?_
    show Phrase.production (.prose (Reduction.proseText t.text)) = _
    rw [hprose]

/-! ## Definitions -/

theorem means_param (s : String) : Means .param [.nonterminal s] (· = .name s) := by
  refine ((reads_token rfl).cons reads_nil).node (k := 0) rfl rfl ?_
  rintro start stop _ ⟨_, _, rfl, ⟨t, rfl, ht⟩, rfl⟩
  refine yields_pure ?_
  rw [Token.text, ht, Lexeme.text]

theorem means_paramTail (s : String) :
    Means .paramTail [.reserved .comma, .nonterminal s] (· = .name s) := by
  refine ((reads_word .comma).cons ((means_param s).reads.cons reads_nil)).node (k := 0) rfl rfl ?_
  rintro start stop _ ⟨_, _, rfl, ⟨t, rfl⟩, _, _, rfl, ⟨_, rfl, rfl⟩, rfl⟩
  exact yields_pure rfl

def Definition.params? : Definition → Option (List String)
  | alternatives _ => none
  | parameterized params _ => some params

theorem means_head {name : String} {d : Definition} (h : d.Fits Lexeme.Written name) :
    Means .head (d.headLexemes name) fun p => ∃ span, p = .head ⟨name, d.params?, span⟩ := by
  cases d with
  | alternatives ps =>
    refine ((reads_token rfl).cons reads_nil).node (k := 1) rfl rfl ?_
    rintro start stop _ ⟨_, _, rfl, ⟨t, rfl, ht⟩, rfl⟩
    refine yields_pure ⟨t.span, ?_⟩
    rw [Token.text, ht]
    rfl
  | parameterized params ps =>
    obtain ⟨-, hne, -⟩ := h.2.2
    obtain ⟨param, params, rfl⟩ := List.exists_cons_of_ne_nil hne
    have htails := reads_star (v := id) (w := id) fun x (_ : x ∈ params) =>
      (means_paramTail x).mono fun _ hp => ⟨x, hp, rfl⟩
    refine ((reads_token (l := .call name) rfl).cons ((reads_word .openBracket).cons
      ((means_param param).reads.cons (htails.cons ((reads_word .closeBracket).cons
        reads_nil))))).node (k := 0) rfl ?_ ?_
    · simp [Definition.headLexemes, separated_cons, List.flatMap_map]
    · rintro start stop _ ⟨_, _, rfl, ⟨t, rfl, ht⟩, _, _, rfl, ⟨u, rfl⟩, _, _, rfl, ⟨_, rfl, rfl⟩,
        _, _, rfl, ⟨xs, rfl, hxs⟩, _, _, rfl, ⟨v, rfl⟩, rfl⟩
      obtain rfl : xs = params := by simpa using hxs
      refine yields_head ⟨t.span, ?_⟩
      rw [Token.text, ht, Lexeme.text, Definition.params?]

theorem means_definition {name : String} {d : Definition} (h : d.Fits Lexeme.Written name) :
    Means .definition (d.lexemes name)
      fun p => ∃ x, p = .declaration x ∧ x.key = (name, ":", d) := by
  have hlines := reads_plus (v := id) (w := id) h.1 fun x hx =>
    (means_production (h.2.1 x hx)).mono fun _ hp => ⟨x, hp, rfl⟩
  refine ((means_head h).reads.cons ((reads_token (l := .colons ":") rfl).cons
    ((reads_token (l := .newline) rfl).cons (hlines.cons (means_blockEnd.reads.cons
      reads_nil))))).node (k := 1) rfl (by simp [Definition.lexemes]) ?_
  rintro start stop _ ⟨_, _, rfl, ⟨_, rfl, span, rfl⟩, _, _, rfl, ⟨t, rfl, ht⟩, _, _, rfl,
    ⟨u, rfl, -⟩, _, _, rfl, ⟨ps, rfl, hps⟩, _, _, rfl, ⟨_, rfl, rfl⟩, rfl⟩
  obtain rfl : ps = d.productions := by simpa using hps
  refine yields_definition.mono ?_
  rintro p ⟨x, hp, hname, hseparator, hd⟩
  refine ⟨x, hp, ?_⟩
  rw [Declaration.key, hname, hseparator, hd, Token.text, ht, Lexeme.text]
  cases d <;> rfl

theorem means_block {name : String} {d : Definition} (h : d.Fits Lexeme.Written name) :
    Means .block (d.lexemes name) fun p => ∃ x, p = .block (some x) ∧ x.key = (name, ":", d) := by
  refine ((means_definition h).reads.cons reads_nil).node (k := 1) rfl (by simp) ?_
  rintro start stop _ ⟨_, _, rfl, ⟨_, rfl, x, rfl, hx⟩, rfl⟩
  exact yields_pure ⟨x, rfl, hx⟩

theorem means_grammar {ds : List (String × Definition)}
    (h : ∀ d ∈ ds, d.2.Fits Lexeme.Written d.1) :
    Means .grammar ((ds.flatMap fun (name, d) => d.lexemes name) ++ [.eof])
      fun p => ∃ xs, p = .declarations xs ∧
        xs.map Declaration.key = ds.map fun (name, d) => (name, ":", d) := by
  have hblocks := reads_star (c := fun d => Phrase.block (some d)) fun x hx => means_block (h x hx)
  refine (hblocks.cons ((reads_token (l := .eof) rfl).cons reads_nil)).node (k := 0) rfl rfl ?_
  rintro start stop _ ⟨_, _, rfl, ⟨xs, rfl, hxs⟩, _, _, rfl, ⟨t, rfl, -⟩, rfl⟩
  refine Yields.run' ?_
  simp only [Reduction.node, Reduction.grammar, StateT.run_bind, List.cons_append, run_repeated,
    run_skip_succ, run_skip_zero, pure_bind, List.nil_append]
  refine yields_pure ⟨xs, congrArg Phrase.declarations ?_, hxs⟩
  rw [List.filterMap_map]
  exact List.filterMap_some

/-! ## Rendered texts -/

/-- The declarations of a rendered text are the definitions that were rendered. -/
theorem declarationsOf_render {indent : String}
    (hindent : ∀ c ∈ indent.toList, isSeparator c = true) {g : Grammar}
    (h : ∀ d ∈ g.nonterminals.toList, d.2.Fits Lexeme.Written d.1)
    (hline : ∀ d ∈ g.nonterminals.toList, ∀ p ∈ d.2.productions, p.OneLine) :
    ∃ xs, declarationsOf (g.render indent) = .ok xs ∧
      xs.map Declaration.key = g.nonterminals.toList.map fun (name, d) => (name, ":", d) := by
  obtain ⟨tokens, htokens, hlexemes⟩ := exists_tokensOf (spells_render hindent h hline)
  obtain ⟨ts, hts, hyields⟩ := means_grammar h (closeOf tokens) tokens [] hlexemes
  obtain ⟨t, rfl⟩ := hts.exists_tree
  have htree := Tree.ofTokens_of_derivationOf hts
  have hvisit := yields_visit_of_singleton hyields .none
  rw [Grammar.render, declarationsOf_eq htokens, htree]
  dsimp only
  rw [Tree.declarations, Tree.reduce]
  split at hvisit
  · rename_i hrun
    obtain ⟨xs, rfl, hxs⟩ := hvisit
    rw [hrun]
    exact ⟨xs, rfl, hxs⟩
  · exact absurd hvisit not_false

end GrammarText
