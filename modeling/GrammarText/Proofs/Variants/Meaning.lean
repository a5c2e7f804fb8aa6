import GrammarText.Proofs.Reduction.Blocks
import GrammarText.Proofs.Variants.Exclusions
import GrammarText.Proofs.Variants.Lookaheads
import GrammarText.Proofs.Variants.Names

/-!
# Variants mean the same

A variant of a list of tokens that has declarations has declarations too, and they are the same but
for their places (`Tree.declarations_variant`).  The place that is written in another way stands
before the end of the text or behind it, where nothing is read.
-/

namespace GrammarText

open List (Forall₂)

variable {close : Nat} {rest taken : List Token} {ts us : List Tree} {e : Token}
  {ls ls' as bs old pre post s x xs : List Lexeme} {l : Lexeme}
  {blocks : List (Option Declaration)}

/-! ## Where a variant stands -/

theorem IsExclusion.eof_not_mem (hx : IsExclusion x) : .eof ∉ x := by
  cases hx <;> simp

theorem Separates.eof_not_mem (hs : Separates s) : .eof ∉ s := by
  cases hs <;> simp

theorem AreExclusions.eof_not_mem (hxs : AreExclusions xs) : .eof ∉ xs := by
  induction hxs with
  | one hx => exact hx.eof_not_mem
  | cons hx hs hxs ih => simp [hx.eof_not_mem, hs.eof_not_mem, ih]

theorem eof_not_mem_outsideOf {es : List (List Lexeme)} (hes : ∀ e ∈ es, IsEntry e) :
    .eof ∉ outsideOf es := by
  have hseparated : .eof ∉ separated [.reserved .comma] es := by
    cases es with
    | nil => simp [separated]
    | cons e es =>
      rw [List.forall_mem_cons] at hes
      simpa [separated] using ⟨hes.1.eof, fun f hf => (hes.2 f hf).eof⟩
  simp [outsideOf, hseparated]

/-- A variant is about one place, whatever is around it, as far as what comes next is the same. -/
theorem Variant.exists_place (h : Variant ls ls') :
    ∃ pre old new post, ls = pre ++ (old ++ post) ∧ ls' = pre ++ (new ++ post) ∧ old ≠ [] ∧
      .eof ∉ old ∧ ∀ pre' post', post' <+: post →
        Variant (pre' ++ (old ++ post')) (pre' ++ (new ++ post')) := by
  cases h with
  | label pre post s =>
    exact ⟨pre, [.label s], [], post, rfl, rfl, by simp, by simp, fun pre' post' _ =>
      .label pre' post' s⟩
  | @bars pre post name hname =>
    exact ⟨pre, [.barred ("|" ++ name ++ "|")], [.nonterminal name], post, rfl, rfl, by simp,
      by simp, fun pre' post' _ => .bars pre' post' hname⟩
  | @separator pre post xs s s' x hxs hs hs' hx =>
    refine ⟨pre, butNotOneOf ++ (xs ++ (s ++ x)), butNotOneOf ++ (xs ++ (s' ++ x)), post, by simp,
      by simp, by simp [butNotOneOf], ?_, fun pre' post' _ => ?_⟩
    · simp [butNotOneOf, hxs.eof_not_mem, hs.eof_not_mem, hx.eof_not_mem]
    · simpa using Variant.separator pre' post' hxs hs hs' hx
  | @single pre post x hx hpost =>
    refine ⟨pre, butNotOneOf ++ x, .reserved .but :: .reserved .not :: x, post, by simp, by simp,
      by simp [butNotOneOf], by simp [butNotOneOf, hx.eof_not_mem], fun pre' post' hprefix => ?_⟩
    have hpost' : EndsExclusions post' := by
      intro w hw hhead
      obtain ⟨more, rfl⟩ := hprefix
      exact hpost w hw (by simp [hhead])
    simpa using Variant.single pre' post' hx hpost'
  | @unequal pre post l hl =>
    refine ⟨pre, outsideOf [[l]], [.reserved .unequal, l], post, rfl, rfl, by simp [outsideOf], ?_,
      fun pre' post' _ => .unequal pre' post' hl⟩
    simp only [outsideOf, separated, List.flatMap_nil, List.append_nil, List.singleton_append,
      List.mem_cons, List.not_mem_nil, or_false, reduceCtorEq, false_or]
    rintro rfl
    simp [Lexeme.kind] at hl
  | @entries pre post es fs hes hne hmem =>
    exact ⟨pre, outsideOf es, outsideOf fs, post, rfl, rfl, by simp [outsideOf],
      eof_not_mem_outsideOf hes, fun pre' post' _ => .entries pre' post' hes hne hmem⟩

/-- A place of which a lexeme is no part stands before it or behind it. -/
theorem place_cases (h : as ++ l :: bs = pre ++ (old ++ post)) (hl : l ∉ old) :
    (∃ post₁, as = pre ++ (old ++ post₁) ∧ post = post₁ ++ l :: bs) ∨
      ∃ pre₁, pre = as ++ l :: pre₁ ∧ bs = pre₁ ++ (old ++ post) := by
  rcases List.append_eq_append_iff.mp h with ⟨c, rfl, hc⟩ | ⟨c, rfl, hc⟩
  · cases c with
    | nil =>
      cases old with
      | nil => exact .inl ⟨[], by simp, hc.symm⟩
      | cons k old =>
        obtain ⟨rfl, -⟩ := List.cons_eq_cons.mp hc
        exact absurd List.mem_cons_self hl
    | cons k c =>
      obtain ⟨rfl, rfl⟩ := List.cons_eq_cons.mp hc
      exact .inr ⟨c, rfl, rfl⟩
  · rcases List.append_eq_append_iff.mp hc with ⟨d, rfl, hd⟩ | ⟨d, rfl, hd⟩
    · exact .inl ⟨d, rfl, hd⟩
    · cases d with
      | nil => exact .inl ⟨[], by simp, hd.symm⟩
      | cons k d =>
        obtain ⟨rfl, -⟩ := List.cons_eq_cons.mp hd
        simp at hl

/-- A variant stands before the end of the text or behind it. -/
theorem Variant.eof_cases (h : Variant (as ++ .eof :: bs) ls') :
    (∃ as', Variant as as' ∧ ls' = as' ++ .eof :: bs) ∨
      ∃ bs', Variant bs bs' ∧ ls' = as ++ .eof :: bs' := by
  obtain ⟨pre, old, new, post, heq, rfl, -, heof, hplace⟩ := h.exists_place
  rcases place_cases heq heof with ⟨post₁, rfl, rfl⟩ | ⟨pre₁, rfl, rfl⟩
  · exact .inl ⟨_, hplace pre post₁ (List.prefix_append ..), by simp⟩
  · exact .inr ⟨_, hplace pre₁ post (List.prefix_refl _), by simp⟩

theorem Variant.ne_nil (h : Variant ls ls') : ls ≠ [] := by
  obtain ⟨pre, old, new, post, rfl, -, hne, -⟩ := h.exists_place
  simp [hne]

/-- Whether the text ends is told by the lexemes. -/
theorem atEnd_eq_of_lexemes {rest' : List Token}
    (h : rest'.map Token.lexeme = rest.map Token.lexeme) : atEnd rest' = atEnd rest := by
  cases rest with
  | nil =>
    obtain rfl := List.map_eq_nil_iff.mp h
    rfl
  | cons e rest =>
    obtain ⟨e', rest', rfl, he, -⟩ := List.map_eq_cons_iff.mp h
    rw [atEnd, atEnd, Token.isEof, Token.isEof, he]

/-- Where there are no tokens or the text ends, this is so in a variant. -/
theorem Variant.atEnd {rest' : List Token}
    (h : Variant (rest.map Token.lexeme) (rest'.map Token.lexeme)) (hend : atEnd rest = true) :
    atEnd rest' = true := by
  cases rest with
  | nil => exact absurd rfl h.ne_nil
  | cons e rest =>
    have he : e.lexeme = .eof := of_decide_eq_true hend
    rw [List.map_cons, he, ← List.nil_append (_ :: _)] at h
    rcases h.eof_cases with ⟨as', has, -⟩ | ⟨bs', -, hbs⟩
    · exact absurd rfl has.ne_nil
    · obtain ⟨e', rest'', rfl, he', -⟩ := List.map_eq_cons_iff.mp hbs
      exact decide_eq_true he'

/-! ## Relations one after another -/

theorem forall₂_trans {α : Type} {R : α → α → Prop} (hR : ∀ a b c, R a b → R b c → R a c)
    {as bs cs : List α} (h : Forall₂ R as bs) (h' : Forall₂ R bs cs) : Forall₂ R as cs := by
  induction h generalizing cs with
  | nil => exact h'
  | cons hab h ih =>
    cases h' with
    | cons hbc h' => exact .cons (hR _ _ _ hab hbc) (ih h')

theorem Declaration.Alike.trans {c d f : Declaration} (h : c.Alike Anywhere Anywhere d)
    (h' : d.Alike Anywhere Anywhere f) : c.Alike Anywhere Anywhere f where
  name := h.name.trans h'.name
  separator := h.separator.trans h'.separator
  definition := h.definition.trans h'.definition
  nameSpan := trivial
  span := trivial
  terminalSpans := forall₂_trans (fun _ _ _ hxy hyz => ⟨hxy.1.trans hyz.1, trivial⟩)
    h.terminalSpans h'.terminalSpans
  productionSpans := forall₂_trans (fun _ _ _ _ _ => trivial) h.productionSpans h'.productionSpans

/-- Tokens of the same lexemes are alike wherever they stand. -/
theorem forall₂_alike_of_lexemes {u v : List Token}
    (h : u.map Token.lexeme = v.map Token.lexeme) : Forall₂ (Token.Alike Anywhere) u v :=
  (map_eq_map_iff.mp h).imp fun _ _ hlexeme => ⟨hlexeme, trivial⟩

/-! ## Blocks -/

/-- A variant of some blocks before the end of the text is blocks that mean the same. -/
theorem Derives.rewritable
    (h : Derives .builtin close (.rounds (.rule .block)) taken (e :: rest) ts)
    (he : e.isEof = true) (hsucceed : Tree.Succeed ts)
    (hvariant : Variant (taken.map Token.lexeme) ls') : Rewritable close (e :: rest) ts ls' := by
  generalize htaken : taken.map Token.lexeme = ls at hvariant
  cases hvariant with
  | label pre post s => exact h.drop_label he hsucceed htaken
  | bars pre post hname => exact h.strip_bars he hsucceed hname htaken
  | separator pre post hxs hs hs' hx =>
    exact (h.listed he hsucceed htaken).separator hxs hs hs' (hx.head?_ne .or post)
  | single pre post hx hpost => exact (h.listed he hsucceed htaken).single hx hpost
  | unequal pre post hl => exact h.unequal he hsucceed hl htaken
  | entries pre post hes hne hmem => exact h.same_entries he hsucceed hes hne hmem htaken

/-- Where trees mean blocks, trees that refine them mean blocks that are alike. -/
theorem Tree.MeanBlocks.refine (h : MeanBlocks ts blocks) (hrefine : AllRefine ts us) :
    ∃ bs, MeanBlocks us bs ∧
      Forall₂ (Option.Rel (Declaration.Alike Anywhere Anywhere)) blocks bs := by
  obtain ⟨qs, g', hrun, hqs, hg⟩ := hrefine .none .none ⟨.nil, .nil⟩ _ _ h
  exact exists_meanBlocks_of_alike hrun hqs hg

/-- Blocks are also derived from tokens elsewhere. -/
theorem Derives.elsewhere {taken' rest' : List Token} (close' : Nat)
    (h : Derives .builtin close (.rounds (.rule .block)) taken rest ts)
    (hends : EndsWith rest rest') (htaken : taken.map Token.lexeme = taken'.map Token.lexeme) :
    ∃ us, Derives .builtin close' (.rounds (.rule .block)) taken' rest' us ∧
      Tree.AllAlike Anywhere Anywhere ts us :=
  h.transfer (fun _ _ _ _ => trivial) trivial apt_blocks (forall₂_alike_of_lexemes htaken)
    fun _ => hends

/-- Blocks from tokens elsewhere mean the same. -/
theorem Tree.MeanBlocks.exists_elsewhere {taken' rest' : List Token} (close' : Nat)
    (hmean : MeanBlocks ts blocks)
    (h : Derives .builtin close (.rounds (.rule .block)) taken rest ts)
    (hends : EndsWith rest rest') (htaken : taken.map Token.lexeme = taken'.map Token.lexeme) :
    ∃ us bs, Derives .builtin close' (.rounds (.rule .block)) taken' rest' us ∧ MeanBlocks us bs ∧
      Forall₂ (Declaration.Alike Anywhere Anywhere) (blocks.filterMap id) (bs.filterMap id) := by
  obtain ⟨us, hus, halike⟩ := h.elsewhere close' hends htaken
  obtain ⟨bs, hbs, hrel⟩ := hmean.transfer halike
  exact ⟨us, bs, hus, hbs, List.rel_filterMap (fun _ _ hblock => hblock) hrel⟩

/-- Blocks from a variant mean the same. -/
theorem Tree.MeanBlocks.exists_variant {taken' rest' : List Token} (close' : Nat)
    (hmean : MeanBlocks ts blocks)
    (h : Derives .builtin close (.rounds (.rule .block)) taken (e :: rest) ts)
    (he : e.isEof = true) (hends : EndsWith (e :: rest) rest')
    (hvariant : Variant (taken.map Token.lexeme) (taken'.map Token.lexeme)) :
    ∃ us bs, Derives .builtin close' (.rounds (.rule .block)) taken' rest' us ∧ MeanBlocks us bs ∧
      Forall₂ (Declaration.Alike Anywhere Anywhere) (blocks.filterMap id) (bs.filterMap id) := by
  obtain ⟨taken₁, us₁, htaken₁, hus₁, hrefine⟩ := h.rewritable he ⟨.none, _, .none, hmean⟩ hvariant
  obtain ⟨bs₁, hbs₁, hrel₁⟩ := hmean.refine hrefine
  -- The tokens found so far have the right lexemes, but may stand elsewhere.
  obtain ⟨us, bs, hus, hbs, hrel⟩ := hbs₁.exists_elsewhere close' hus₁ hends htaken₁
  have hfirst : Forall₂ (Declaration.Alike Anywhere Anywhere) (blocks.filterMap id)
      (bs₁.filterMap id) := List.rel_filterMap (fun _ _ hblock => hblock) hrel₁
  exact ⟨us, bs, hus, hbs, forall₂_trans (fun _ _ _ hc hd => hc.trans hd) hfirst hrel⟩

/-! ## Lists of tokens -/

/-- Notational variants mean the same.  Where a list of tokens has declarations, a list of which the
lexemes are a variant of its lexemes has the same declarations but for the places in them. -/
theorem Tree.declarations_variant {tokens tokens' : List Token} {t : Tree} {ds : List Declaration}
    (ht : ofTokens tokens = .ok t) (hds : t.declarations = .ok ds)
    (h : Variant (tokens.map Token.lexeme) (tokens'.map Token.lexeme)) :
    ∃ t' ds', ofTokens tokens' = .ok t' ∧ t'.declarations = .ok ds' ∧
      Forall₂ (Declaration.Alike Anywhere Anywhere) ds ds' := by
  obtain ⟨body, e, rest, us, blocks, rfl, he, hend, hus, hmean, rfl⟩ :=
    exists_declarations_iff_blocks.mp ⟨t, ht, hds⟩
  have heof : e.lexeme = .eof := of_decide_eq_true he
  rw [List.map_append, List.map_cons, heof] at h
  generalize hls' : tokens'.map Token.lexeme = ls' at h
  -- What is written in another way is in the blocks, or behind the end of the text.
  obtain ⟨body', e', rest', rfl, he', hend', hbody⟩ : ∃ body' e' rest',
      tokens' = body' ++ e' :: rest' ∧ e'.isEof = true ∧ atEnd rest' = true ∧
      (Variant (body.map Token.lexeme) (body'.map Token.lexeme) ∨
        body.map Token.lexeme = body'.map Token.lexeme) := by
    rcases h.eof_cases with ⟨as', has, rfl⟩ | ⟨bs', hbs, rfl⟩
    · obtain ⟨body', tail, rfl, rfl, htail⟩ := List.map_eq_append_iff.mp hls'
      obtain ⟨e', rest', rfl, he', hrest'⟩ := List.map_eq_cons_iff.mp htail
      refine ⟨body', e', rest', rfl, decide_eq_true he', ?_, .inl has⟩
      rwa [atEnd_eq_of_lexemes hrest']
    · obtain ⟨body', tail, rfl, hbody', htail⟩ := List.map_eq_append_iff.mp hls'
      obtain ⟨e', rest', rfl, he', rfl⟩ := List.map_eq_cons_iff.mp htail
      exact ⟨body', e', rest', rfl, decide_eq_true he', hbs.atEnd hend, .inr hbody'.symm⟩
  have hends : EndsWith (e :: rest) (e' :: rest') := fun _ _ _ => ⟨e', rfl, he'⟩
  obtain ⟨us', bs, hus', hbs, hrel⟩ : ∃ us' bs,
      Derives .builtin (closeOf (body' ++ e' :: rest')) (.rounds (.rule .block)) body'
        (e' :: rest') us' ∧ MeanBlocks us' bs ∧
      Forall₂ (Declaration.Alike Anywhere Anywhere) (blocks.filterMap id) (bs.filterMap id) := by
    rcases hbody with hvariant | hsame
    · exact hmean.exists_variant _ hus he hends hvariant
    · exact hmean.exists_elsewhere _ hus hends hsame
  obtain ⟨t', ht', hds'⟩ := exists_declarations_iff_blocks.mpr
    ⟨body', e', rest', us', bs, rfl, he', hend', hus', hbs, rfl⟩
  exact ⟨t', _, ht', hds', hrel⟩

/-- Between two exclusions a comma says what a word says. -/
theorem Tree.declarations_variant_two_exclusions :
    let exclusions (separator : List Token) : List Token :=
      [⟨.nonterminal "A", 0, 1⟩, ⟨.colons ":", 1, 2⟩, ⟨.newline, 2, 3⟩, ⟨.nonterminal "B", 3, 4⟩,
        ⟨.reserved .but, 5, 8⟩, ⟨.reserved .not, 9, 12⟩, ⟨.reserved .one, 13, 16⟩,
        ⟨.reserved .of, 17, 19⟩, ⟨.terminal "\x60x\x60", 20, 23⟩] ++ separator ++
      [⟨.terminal "\x60y\x60", 28, 31⟩, ⟨.newline, 31, 32⟩, ⟨.eof, 32, 32⟩]
    let tokens := exclusions [⟨.reserved .comma, 23, 24⟩]
    let tokens' := exclusions [⟨.reserved .or, 24, 26⟩]
    Variant (tokens.map Token.lexeme) (tokens'.map Token.lexeme) ∧
      ∃ t ds, ofTokens tokens = .ok t ∧ t.declarations = .ok ds ∧ ∃ t' ds',
        ofTokens tokens' = .ok t' ∧ t'.declarations = .ok ds' ∧
          Forall₂ (Declaration.Alike Anywhere Anywhere) ds ds' := by
  intro exclusions tokens tokens'
  have hvariant : Variant (tokens.map Token.lexeme) (tokens'.map Token.lexeme) :=
    .separator [.nonterminal "A", .colons ":", .newline, .nonterminal "B"] [.newline, .eof]
      (.one (.terminal "\x60x\x60")) .comma .or (.terminal "\x60y\x60")
  have hok : (ofTokens tokens).toOption.any (·.declarations.isOk) = true := by decide +kernel
  cases ht : ofTokens tokens with
  | error e => simp [ht, Except.toOption] at hok
  | ok t =>
    cases hds : t.declarations with
    | error e => simp [ht, hds, Except.toOption, Except.isOk, Except.toBool] at hok
    | ok ds => exact ⟨hvariant, t, ds, rfl, hds, declarations_variant ht hds hvariant⟩

end GrammarText
