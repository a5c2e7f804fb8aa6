import GrammarText.Proofs.Parsing.Notation
import GrammarText.Proofs.Reduction.Nodes
import GrammarText.Proofs.Scanning.Places

/-!
# The reduction agrees with the grammar

Whatever the notation's own description derives can be reduced: no node is malformed, and a whole
text means declarations (`Derives.yields_fits`).  By this and by what the scanner reads, a text is
never refused for a tree or for a terminal that would be malformed (`compile_ne_malformed`).
-/

namespace GrammarText

/-! ## Visiting trees one after another -/

variable {P Q : List Phrase → Prop} {E : Diagnostic → Prop} {us vs : List Tree}

/-- What trees mean, one after another. -/
theorem yields_visitAll_append (hu : Yields (Tree.visitAll Reduction.visitor us) P E)
    (hv : Yields (Tree.visitAll Reduction.visitor vs) Q E) :
    Yields (Tree.visitAll Reduction.visitor (us ++ vs))
      (fun rs => ∃ ps qs, rs = ps ++ qs ∧ P ps ∧ Q qs) E := by
  rw [Tree.visitAll_append]
  exact hu.bind fun ps hp => hv.bind fun qs hq => yields_pure ⟨ps, qs, rfl, hp, hq⟩

/-- What a single tree means. -/
theorem yields_visitAll_singleton {t : Tree} {P : Phrase → Prop}
    (h : Yields (t.visit Reduction.visitor) P E) :
    Yields (Tree.visitAll Reduction.visitor [t]) (fun ps => ∃ p, ps = [p] ∧ P p) E := by
  rw [Tree.visitAll]
  exact h.bind fun p hp => yields_pure ⟨p, rfl, hp⟩

theorem yields_visit_of_singleton {t : Tree} {P : Phrase → Prop}
    (h : Yields (Tree.visitAll Reduction.visitor [t]) (fun ps => ∃ p, ps = [p] ∧ P p) E) :
    Yields (t.visit Reduction.visitor) P E := by
  intro gathered
  have hall := h gathered
  have hmap : Tree.visitAll Reduction.visitor [t] = ([·]) <$> t.visit Reduction.visitor := by
    simp [Tree.visitAll]
  rw [hmap, ExceptT.run_map, StateT.run_map] at hall
  cases hrun : (t.visit Reduction.visitor).run.run gathered with
  | mk answer gathered' =>
    rw [hrun] at hall
    cases answer with
    | ok p =>
      obtain ⟨_, heq, hp⟩ := hall
      obtain rfl := List.singleton_inj.mp heq
      exact hp
    | error e => exact hall

/-- What a repetition means. -/
theorem yields_visitAll_repeated {ts : List Tree}
    (h : Yields (Tree.visitAll Reduction.visitor ts) P E) :
    Yields (Tree.visitAll Reduction.visitor [.repeated ts])
      (fun ps => ∃ xs, ps = [.repeated xs] ∧ P xs) E := by
  refine (yields_visitAll_singleton (P := fun p => ∃ xs, p = .repeated xs ∧ P xs) ?_).mono ?_
  · rw [Tree.visit]
    exact h.bind fun xs hxs => yields_pure ⟨xs, rfl, hxs⟩
  · rintro _ ⟨_, rfl, xs, rfl, hxs⟩
    exact ⟨xs, rfl, hxs⟩

/-- What a node means. -/
theorem yields_visit_node {n : Node} {ts : List Tree} {Q : Phrase → Prop}
    (h : Yields (Tree.visitAll Reduction.visitor ts) P E)
    (hn : ∀ ps, P ps → Yields ((Reduction.node n).run' ps) Q E) :
    Yields ((Tree.node n ts).visit Reduction.visitor) Q E := by
  rw [Tree.visit]
  exact h.bind hn

/-! ## What is derived fits -/

section Derives

variable {ok : Lexeme → Prop}

def Part.Fits (ok : Lexeme → Prop) : Part → List Phrase → Prop
  | .matcher m, ps => ∃ p, ps = [p] ∧ m.Fits ok p
  | .rounds m, ps => ∀ p ∈ ps, m.Fits ok p
  | .item i, ps => FitsAll ok [i] ps
  | .items is, ps => FitsAll ok is ps
  | .choice r _ _, ps => ∃ p, ps = [p] ∧ p.Fits ok r

/-- The alternatives of a choice are those of the rule from the number on. -/
def Part.Placed : Part → Prop
  | .choice r n alternatives => ((builtinRules.alternatives? r).getD []).drop n = alternatives
  | _ => True

section Placed

variable {r : Rule} {n : Nat} {is : List Item} {alternatives : List (List Item)}

theorem Part.placed_rule (hr : builtinRules.alternatives? r = some alternatives) :
    (choice r 0 alternatives).Placed := by
  simp [Placed, hr]

/-- The first alternative of a choice is the one of the rule at the number. -/
theorem Part.Placed.getElem? (h : (choice r n (is :: alternatives)).Placed) :
    ((builtinRules.alternatives? r).getD [])[n]? = some is := by
  have hfirst := congrArg (·[0]?) h
  simpa [List.getElem?_drop] using hfirst

theorem Part.Placed.later (h : (choice r n (is :: alternatives)).Placed) :
    (choice r (n + 1) alternatives).Placed := by
  have hrest := congrArg (List.drop 1) h
  simpa [Placed, List.drop_drop] using hrest

end Placed

/-- A token of a class is a lexeme of the class. -/
theorem Wanted.matcher_fits {m : Matcher} {w : Wanted} {t : Token} (hw : m.wanted? = some w)
    (ht : w.accepts t = true) (hok : ok t.lexeme) : m.Fits ok (.token t) := by
  cases m with
  | token k =>
    cases hw
    have hk : t.kind = k := by simpa [accepts] using ht
    have hl : Lexeme.ofKind k t.text = t.lexeme := by
      rw [← hk]
      exact Lexeme.ofKind_kind_text t.lexeme
    exact ⟨t, rfl, hl.symm, hl ▸ hok⟩
  | word w => exact ⟨t, rfl⟩
  | rule r => cases hw

/-- Items fit one after another. -/
theorem fitsAll_cons {i : Item} {is : List Item} {ps qs : List Phrase} (hp : FitsAll ok [i] ps)
    (hq : FitsAll ok is qs) : FitsAll ok (i :: is) (ps ++ qs) := by
  obtain ⟨m, q⟩ := i
  cases q with
  | one | optional =>
    obtain ⟨p, _, rfl, hp, rfl⟩ := hp
    exact ⟨p, qs, rfl, hp, hq⟩
  | star =>
    obtain ⟨xs, _, rfl, hxs, rfl⟩ := hp
    exact ⟨xs, qs, rfl, hxs, hq⟩
  | plus =>
    obtain ⟨xs, _, rfl, hne, hxs, rfl⟩ := hp
    exact ⟨xs, qs, rfl, hne, hxs, hq⟩
  | peek =>
    obtain rfl : ps = [] := hp
    exact hq

/-- Rules by which something is said of trees and of the phrases that they mean, where the trees
are made of tokens of some kind and the children of each node fit its alternative. -/
structure Judgement (ok : Lexeme → Prop) (J : List Tree → (List Phrase → Prop) → Prop) : Prop where
  mono : ∀ {ts P Q}, J ts P → (∀ ps, P ps → Q ps) → J ts Q
  nil : J [] (· = [])
  token : ∀ t : Token, ok t.lexeme → J [.token t] (· = [.token t])
  absent : J [.absent] (· = [.absent])
  append : ∀ {us vs P Q}, J us P → J vs Q →
    J (us ++ vs) fun rs => ∃ ps qs, rs = ps ++ qs ∧ P ps ∧ Q qs
  repeated : ∀ {ts P}, J ts P → J [.repeated ts] fun ps => ∃ xs, ps = [.repeated xs] ∧ P xs
  node : ∀ {r k start stop is ts}, ((builtinRules.alternatives? r).getD [])[k]? = some is →
    J ts (FitsAll ok is) → J [.node ⟨r, k, start, stop⟩ ts] fun ps => ∃ p, ps = [p] ∧ p.Fits ok r

/-- What is said by such rules holds of everything that is derived. -/
theorem Derives.judged {J : List Tree → (List Phrase → Prop) → Prop} {close : Nat} {p : Part}
    {taken rest : List Token} {ts : List Tree} (h : Derives .builtin close p taken rest ts)
    (hJ : Judgement ok J) (hp : p.Placed) (hok : ∀ t ∈ taken, ok t.lexeme) : J ts (p.Fits ok) := by
  induction h with
  | @leaf m w t rest hw ht =>
    rw [List.forall_mem_singleton] at hok
    refine hJ.mono (hJ.token t hok) ?_
    rintro _ rfl
    exact ⟨_, rfl, Wanted.matcher_fits hw ht hok⟩
  | rule hr h ih => exact hJ.mono (ih (Part.placed_rule hr) hok) fun ps hps => hps
  | @here r n is alternatives taken rest ts h ih =>
    -- The items that were derived are those of the alternative that the node names.
    exact hJ.node hp.getElem? (ih trivial hok)
  | later h ih => exact ih hp.later hok
  | done =>
    refine hJ.mono hJ.nil ?_
    rintro _ rfl
    simp [Part.Fits]
  | round h hs ih ihs =>
    rw [List.forall_mem_append] at hok
    refine hJ.mono (hJ.append (ih trivial hok.1) (ihs trivial hok.2)) ?_
    rintro _ ⟨_, qs, rfl, ⟨p, rfl, hp⟩, hqs⟩
    exact List.forall_mem_cons.mpr ⟨hp, hqs⟩
  | one h ih =>
    refine hJ.mono (ih trivial hok) ?_
    rintro _ ⟨p, rfl, hp⟩
    exact ⟨p, [], rfl, hp, rfl⟩
  | present h ih =>
    refine hJ.mono (ih trivial hok) ?_
    rintro _ ⟨p, rfl, hp⟩
    exact ⟨p, [], rfl, .inl hp, rfl⟩
  | absent =>
    refine hJ.mono hJ.absent ?_
    rintro _ rfl
    exact ⟨.absent, [], rfl, .inr rfl, rfl⟩
  | star h ih =>
    refine hJ.mono (hJ.repeated (ih trivial hok)) ?_
    rintro _ ⟨xs, rfl, hxs⟩
    exact ⟨xs, [], rfl, hxs, rfl⟩
  | plus h hs ih ihs =>
    rw [List.forall_mem_append] at hok
    refine hJ.mono (hJ.repeated (hJ.append (ih trivial hok.1) (ihs trivial hok.2))) ?_
    rintro _ ⟨_, rfl, _, qs, rfl, ⟨p, rfl, hp⟩, hqs⟩
    exact ⟨p :: qs, [], rfl, by simp, List.forall_mem_cons.mpr ⟨hp, hqs⟩, rfl⟩
  | peek h ih =>
    refine hJ.mono hJ.nil ?_
    rintro _ rfl
    rfl
  | nil =>
    refine hJ.mono hJ.nil ?_
    rintro _ rfl
    rfl
  | cons h hs ih ihs =>
    rw [List.forall_mem_append] at hok
    refine hJ.mono (hJ.append (ih trivial hok.1) (ihs trivial hok.2)) ?_
    rintro _ ⟨ps, qs, rfl, hps, hqs⟩
    exact fitsAll_cons hps hqs

/-- The phrases that trees mean, or the error in which they end, may be said to fit. -/
theorem judgement_fits : Judgement ok fun ts P =>
    Yields (Tree.visitAll Reduction.visitor ts) P (·.Fits ok) where
  mono h hp := h.mono hp
  nil := yields_pure rfl
  token _ _ := yields_pure rfl
  absent := yields_pure rfl
  append hu hv := yields_visitAll_append hu hv
  repeated h := yields_visitAll_repeated h
  node hk h := yields_visitAll_singleton <| yields_visit_node h fun ps hps =>
    (node_fits _ _ _ _ _ ps hk hps).mono_error fun _ he => he.fits

/-- What is derived from tokens that are all of some kind means phrases that fit. -/
theorem Derives.yields_fits {close : Nat} {p : Part} {taken rest : List Token} {ts : List Tree}
    (h : Derives .builtin close p taken rest ts) (hp : p.Placed) (hok : ∀ t ∈ taken, ok t.lexeme) :
    Yields (Tree.visitAll Reduction.visitor ts) (p.Fits ok) (·.Fits ok) :=
  h.judged judgement_fits hp hok

end Derives

/-! ## Trees and texts -/

variable {ok : Lexeme → Prop}

/-- The tree of tokens that are all of some kind means declarations that fit. -/
theorem Tree.yields_fits {tokens : List Token} {t : Tree} (h : ofTokens tokens = .ok t)
    (hok : ∀ t ∈ tokens, ok t.lexeme) :
    Yields (t.visit Reduction.visitor) (·.Fits ok .grammar) (·.Fits ok) := by
  obtain ⟨ms, res, htrace, ⟨u, rest, rfl, -, hu⟩ | ⟨-, herror⟩⟩ :=
    Description.exists_trace Description.builtin_ranking tokens
  · obtain rfl : u = t := by simpa [ofTokens, hu] using h
    obtain ⟨taken, rfl, hd⟩ := htrace.derives rfl
    rw [List.forall_mem_append] at hok
    exact yields_visit_of_singleton (hd.yields_fits trivial hok.1)
  · simp [ofTokens, herror] at h

/-- The parser finds fault with tokens, not with a tree. -/
theorem Tree.ofTokens_ne_malformed {tokens : List Token} {e : ParseError}
    (h : ofTokens tokens = .error e) : Diagnostic.Fits ok (.parse e) := by
  obtain ⟨ms, res, -, ⟨u, rest, -, -, hu⟩ | ⟨-, herror⟩⟩ :=
    Description.exists_trace Description.builtin_ranking tokens
  · simp [ofTokens, hu] at h
  · obtain rfl : farthestError tokens (closeOf tokens) ms = e := by
      simpa [ofTokens, herror] using h
    unfold farthestError
    dsimp only
    split
    · trivial
    · split <;> trivial

/-- The declarations of a text are those of the tree of its tokens. -/
theorem declarationsOf_eq {text : String} {tokens : List Token} (h : tokensOf text = .ok tokens) :
    declarationsOf text =
      match Tree.ofTokens tokens with
      | .ok t => t.declarations
      | .error e => .error (.parse e) := by
  rw [declarationsOf, treeOf, h]
  show (((Tree.ofTokens tokens).mapError .parse).bind Tree.declarations) = _
  cases Tree.ofTokens tokens <;> rfl

theorem declarationsOf_eq_error {text : String} {e : LexicalError} (h : tokensOf text = .error e) :
    declarationsOf text = .error (.lexical e) := by
  rw [declarationsOf, treeOf, h]
  rfl

/-- A text has declarations where its tokens have a tree and this means them. -/
theorem declarationsOf_ok_iff {text : String} {ds : List Declaration} :
    declarationsOf text = .ok ds ↔
      ∃ tokens, tokensOf text = .ok tokens ∧
        ∃ t, Tree.ofTokens tokens = .ok t ∧ t.declarations = .ok ds := by
  cases htokens : tokensOf text with
  | error e => simp [declarationsOf_eq_error htokens]
  | ok tokens =>
    rw [declarationsOf_eq htokens]
    cases ht : Tree.ofTokens tokens <;> simp [ht]

/-- The declarations of a text fit, or the error does. -/
theorem declarationsOf_fits (text : String) :
    match declarationsOf text with
    | .ok ds => ∀ d ∈ ds, d.definition.Fits Lexeme.Written d.name
    | .error e => e.Fits Lexeme.Written := by
  cases htokens : tokensOf text with
  | error e =>
    rw [declarationsOf_eq_error htokens]
    trivial
  | ok tokens =>
    rw [declarationsOf_eq htokens]
    cases htree : Tree.ofTokens tokens with
    | error e => exact Tree.ofTokens_ne_malformed htree
    | ok t =>
      have hfits := Tree.yields_fits htree (tokensOf_written htokens) .none
      dsimp only
      rw [Tree.declarations, Tree.reduce]
      split at hfits
      · rename_i hrun
        obtain ⟨ds, rfl, hall⟩ := hfits
        rw [hrun]
        exact hall
      · rename_i hrun
        rw [hrun]
        exact hfits

/-- A quoted terminal has a spelling. -/
theorem IsTerminal.unquote?_ne_none {cs : List Char} (h : IsTerminal cs) :
    Text.unquote? cs ≠ none := by
  obtain ⟨body, rfl, hbody⟩ := h
  have hne : body ≠ [] := by
    rcases hbody with ⟨hne, -⟩ | rfl
    · exact hne
    · simp
  rw [Text.unquote?_quote hne]
  simp

/-- An error for a conditional production says so. -/
theorem Declaration.conditionalError?_ne (d : Declaration) {index : Nat} {ps : List Production}
    {q : String} {span : Span} :
    d.conditionalError? index ps ≠ some (.malformedTerminal q span) := by
  fun_induction d.conditionalError? index ps with
  | case1 => simp
  | case2 => simp
  | case3 _ _ _ _ ih => exact ih

theorem Assembly.add_ne_malformedTerminal (a : Assembly) (d : Declaration) {q : String}
    {span : Span} : a.add d ≠ .error (.malformedTerminal q span) := by
  intro h
  simp only [add] at h
  split at h
  · cases h
  · split at h
    · rename_i e he
      cases h
      exact d.conditionalError?_ne he
    · split at h
      · cases h
      · split at h <;> cases h

theorem Assembly.addAll_ne_malformedTerminal (a : Assembly) (ds : List Declaration) {q : String}
    {span : Span} : a.addAll ds ≠ .error (.malformedTerminal q span) := by
  induction ds generalizing a with
  | nil => simp [addAll]
  | cons d ds ih =>
    rw [addAll]
    cases ha : a.add d with
    | ok a' => exact ih a'
    | error e =>
      rintro ⟨⟩
      exact a.add_ne_malformedTerminal d ha

/-- Assembly finds no fault with how a terminal is written. -/
theorem assemble_ne_malformedTerminal {ds : List Declaration} {goals : Names} {q : String}
    {span : Span} : assemble ds goals ≠ .error (.malformedTerminal q span) := by
  rw [assemble]
  cases ha : Assembly.empty.addAll ds with
  | error e =>
    rintro ⟨⟩
    exact Assembly.addAll_ne_malformedTerminal _ ds ha
  | ok a =>
    simp only [bind, Except.bind]
    cases hc : a.collision? with
    | none => simp [pure, Except.pure]
    | some e =>
      obtain ⟨⟨name, used⟩, -, he⟩ := List.exists_of_findSome?_eq_some hc
      dsimp only at he
      split at he
      · cases he
        simp [throw, throwThe, MonadExceptOf.throw]
      · cases he

/-- A grammar is what the declarations of a text are assembled to. -/
theorem compile_eq (text : String) (options : Options) :
    compile text options =
      match declarationsOf text with
      | .ok ds => (assemble ds options.goals).mapError .grammar
      | .error e => .error e := by
  rw [compile]
  cases declarationsOf text <;> rfl

/-- A text compiles to a grammar where it has declarations and they make this grammar. -/
theorem compile_ok_iff {text : String} {options : Options} {g : Grammar} :
    compile text options = .ok g ↔
      ∃ ds, declarationsOf text = .ok ds ∧ assemble ds options.goals = .ok g := by
  rw [compile_eq]
  cases declarationsOf text with
  | error e => simp
  | ok ds =>
    cases hg : assemble ds options.goals with
    | error e =>
      dsimp only
      rw [hg]
      show Except.error _ = Except.ok g ↔ _
      simp [hg]
    | ok g' =>
      dsimp only
      rw [hg]
      show Except.ok g' = Except.ok g ↔ _
      simp [hg]

/-- The reduction and the notation's own grammar agree.  The tree of a list of tokens is never
malformed for the reduction, and it means declarations unless there is another error.  So no text is
refused because of a malformed tree or a malformed terminal. -/
theorem compile_ne_malformed :
    (∀ tokens t, Tree.ofTokens tokens = .ok t → ∀ gathered,
      (∀ p, (t.reduce gathered).1 = .ok p → ∃ ds, p = .declarations ds) ∧
      ∀ r expected span, (t.reduce gathered).1 ≠ .error (.parse (.malformedTree r expected span))) ∧
    ∀ text options,
      (∀ r expected span, compile text options ≠ .error (.parse (.malformedTree r expected span))) ∧
      ∀ q span, compile text options ≠ .error (.grammar (.malformedTerminal q span)) := by
  constructor
  · intro tokens t h gathered
    have hyields : Yields (t.visit Reduction.visitor) (·.Fits (fun _ => True) .grammar)
        (·.Fits fun _ => True) := Tree.yields_fits h (by simp)
    have hfits := hyields gathered
    refine ⟨fun p hp => ?_, fun r expected span he => ?_⟩
    · rw [Tree.reduce] at hp
      rw [hp] at hfits
      obtain ⟨ds, rfl, -⟩ := hfits
      exact ⟨ds, rfl⟩
    · rw [Tree.reduce] at he
      rw [he] at hfits
      exact hfits
  · intro text options
    have hfits := declarationsOf_fits text
    rw [compile_eq]
    cases hds : declarationsOf text with
    | error e =>
      rw [hds] at hfits
      refine ⟨?_, ?_⟩
      · rintro r expected span ⟨⟩
        exact hfits
      · -- A malformed terminal was read, and what is read has a spelling.
        rintro q span ⟨⟩
        exact hfits.1.unquote?_ne_none hfits.2
    | ok ds =>
      dsimp only
      cases ha : assemble ds options.goals with
      | ok g => exact ⟨by rintro r expected span ⟨⟩, by rintro q span ⟨⟩⟩
      | error e =>
        refine ⟨?_, ?_⟩
        · rintro r expected span ⟨⟩
        · rintro q span ⟨⟩
          exact assemble_ne_malformedTerminal ha

/-- The tree of a definition means declarations or an error that is not about the tree. -/
theorem compile_ne_malformed_definition :
    let tokens : List Token := [⟨.nonterminal "A", 0, 1⟩, ⟨.colons ":", 1, 2⟩, ⟨.newline, 2, 3⟩,
      ⟨.terminal "\x60x\x60", 3, 6⟩, ⟨.eof, 6, 6⟩]
    ∃ t, Tree.ofTokens tokens = .ok t ∧
      (∀ p, (t.reduce .none).1 = .ok p → ∃ ds, p = .declarations ds) ∧
      ∀ r expected span,
        (t.reduce .none).1 ≠ .error (.parse (.malformedTree r expected span)) := by
  intro tokens
  have hok : (Tree.ofTokens tokens).isOk = true := by decide +kernel
  cases ht : Tree.ofTokens tokens with
  | ok t => exact ⟨t, rfl, compile_ne_malformed.1 tokens t ht .none⟩
  | error e => simp [ht, Except.isOk, Except.toBool] at hok

end GrammarText
