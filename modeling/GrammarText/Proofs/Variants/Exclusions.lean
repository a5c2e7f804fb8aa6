import GrammarText.Proofs.Reduction.Listed
import GrammarText.Proofs.Variants.Basic

/-!
# Variants of lists of exclusions

What a derivation of exclusions and separators says of their lexemes, and back: an exclusion behind
a separator may stand behind another one (`Derives.exists_separator`), and a list of one exclusion
says what the exclusion says alone (`Listed.single`).
-/

namespace GrammarText

variable {close : Nat} {rest taken u v : List Token} {ts es ys : List Tree}
  {ls ms post x s s' xs : List Lexeme}

/-! ## The lexemes of exclusions -/

/-- The lexemes of an exclusion are of one of four kinds. -/
theorem Derives.isExclusion
    (h : Derives .builtin close (.matcher (.rule .exclusion)) taken rest ts) :
    IsExclusion (taken.map Token.lexeme) := by
  obtain ⟨k, is, us, his, hus, rfl⟩ := h.exists_alternative
  match k with
  | 0 =>
    cases his
    obtain ⟨t, v, us, ht, rfl, rfl, hv⟩ := (cons_token_iff rfl).mp hus
    obtain ⟨t', v, us, ht', rfl, rfl, hv'⟩ := cons_word_iff.mp hv
    obtain ⟨t'', v, us, ht'', rfl, rfl, hv''⟩ := (cons_token_iff rfl).mp hv'
    obtain ⟨rfl, rfl⟩ := nil_iff.mp hv''
    rw [List.map_cons, List.map_cons, List.map_singleton, Wanted.eq_ofKind_of_accepts ht, ht',
      Wanted.eq_ofKind_of_accepts ht'']
    exact .range t.text t''.text
  | 1 =>
    cases his
    obtain ⟨⟨t, rfl, hterminal⟩, -⟩ := (one_iff.mp (singleton_iff.mp hus)).collects_terminal
    obtain ⟨s, ht | ht⟩ := Lexeme.exists_of_isTerminal hterminal
    · simpa [ht] using IsExclusion.terminal s
    · simpa [ht] using IsExclusion.control s
  | 2 =>
    cases his
    obtain ⟨t, v, us, ht, rfl, rfl, hv⟩ := (cons_token_iff rfl).mp hus
    obtain ⟨rfl, rfl⟩ := nil_iff.mp hv
    rw [List.map_singleton, Wanted.eq_ofKind_of_accepts ht]
    exact .nonterminal t.text

/-- No exclusion starts with a reserved word. -/
theorem IsExclusion.head?_ne (hx : IsExclusion x) (w : Word) (ls : List Lexeme) :
    (x ++ ls).head? ≠ some (.reserved w) := by
  cases hx <;> simp

theorem AreExclusions.head?_ne (hxs : AreExclusions xs) (w : Word) (ls : List Lexeme) :
    (xs ++ ls).head? ≠ some (.reserved w) := by
  cases hxs with
  | one hx => exact hx.head?_ne w ls
  | cons hx hs hxs =>
    rw [List.append_assoc]
    exact hx.head?_ne w _

/-- A separator starts with a comma or with the word between alternatives. -/
theorem Separates.head?_cases (hs : Separates s) (ls : List Lexeme) :
    (s ++ ls).head? = some (.reserved .comma) ∨ (s ++ ls).head? = some (.reserved .or) := by
  cases hs
  · exact .inl rfl
  · exact .inr rfl
  · exact .inl rfl

theorem Separates.head?_ne_through (hs : Separates s) (ls : List Lexeme) :
    (s ++ ls).head? ≠ some (.reserved .through) := by
  cases hs <;> simp

/-! ## Further exclusions -/

/-- A further exclusion is an exclusion behind a separator. -/
theorem Derives.exists_exclusionTail
    (h : Derives .builtin close (.matcher (.rule .exclusionTail)) taken rest ts) :
    ∃ k sep more es, sep.length = Notation.separatorLength k ∧ Separates (sep.map Token.lexeme) ∧
      taken = sep ++ more ∧ Derives .builtin close (.matcher (.rule .exclusion)) more rest es ∧
      ts = [.node (.over close .exclusionTail k taken rest) (sep.map .token ++ es)] := by
  obtain ⟨k, is, us, his, hus, rfl⟩ := h.exists_alternative
  match k with
  | 0 =>
    cases his
    obtain ⟨t, v, us, ht, rfl, rfl, hv⟩ := cons_word_iff.mp hus
    obtain ⟨t', v, us, ht', rfl, rfl, hv'⟩ := cons_word_iff.mp hv
    refine ⟨0, [t, t'], v, us, rfl, ?_, rfl, one_iff.mp (singleton_iff.mp hv'), rfl⟩
    simpa [ht, ht'] using Separates.commaOr
  | 1 =>
    cases his
    obtain ⟨t, v, us, ht, rfl, rfl, hv⟩ := cons_word_iff.mp hus
    refine ⟨1, [t], v, us, rfl, ?_, rfl, one_iff.mp (singleton_iff.mp hv), rfl⟩
    simpa [ht] using Separates.or
  | 2 =>
    cases his
    obtain ⟨t, v, us, ht, rfl, rfl, hv⟩ := cons_word_iff.mp hus
    refine ⟨2, [t], v, us, rfl, ?_, rfl, one_iff.mp (singleton_iff.mp hv), rfl⟩
    simpa [ht] using Separates.comma

/-- An exclusion behind any separator is a further exclusion. -/
theorem Derives.exclusionTail (hs : Separates s)
    (h : Derives .builtin close (.matcher (.rule .exclusion)) taken rest es) :
    ∃ k sep, sep.length = Notation.separatorLength k ∧ sep.map Token.lexeme = s ∧
      Derives .builtin close (.matcher (.rule .exclusionTail)) (sep ++ taken) rest
        [.node (.over close .exclusionTail k (sep ++ taken) rest) (sep.map .token ++ es)] := by
  have hitem := singleton_iff.mpr (one h)
  cases hs with
  | comma => exact ⟨2, [⟨.reserved .comma, 0, 0⟩], rfl, rfl, (cons_word rfl hitem).alternative rfl⟩
  | or => exact ⟨1, [⟨.reserved .or, 0, 0⟩], rfl, rfl, (cons_word rfl hitem).alternative rfl⟩
  | commaOr =>
    exact ⟨0, [⟨.reserved .comma, 0, 0⟩, ⟨.reserved .or, 0, 0⟩], rfl, rfl,
      (cons_word rfl (cons_word rfl hitem)).alternative rfl⟩

theorem Tree.AllRefine.exclusionTail {fs : List Tree} {k k' start stop start' stop' : Nat}
    {sep sep' : List Token} (hsep : sep.length = Notation.separatorLength k)
    (hsep' : sep'.length = Notation.separatorLength k') (h : AllRefine es fs) :
    AllRefine [.node ⟨.exclusionTail, k, start, stop⟩ (sep.map .token ++ es)]
      [.node ⟨.exclusionTail, k', start', stop'⟩ (sep'.map .token ++ fs)] := by
  refine allRefine_singleton ?_
  simp only [visit_node, visitAll_tokens, bind_assoc, pure_bind]
  refine h.bind fun ps qs hpq => ?_
  rw [run_node_exclusionTail hsep, run_node_exclusionTail hsep']
  refine (ReadsAlike.run' (R := Phrase.Alike Anywhere Anywhere) ?_ hpq).refines
  refine ReadsAlike.bind (Reading.exclusion_alike ?_) fun e f hef => ?_
  · rfl
  · subst hef
    exact .pure (.same rfl)

/-! ## Another separator -/

/-- Behind the first of some exclusions comes no dash. -/
theorem Derives.head?_ne_through
    (h : Derives .builtin close (.rounds (.rule .exclusionTail)) v rest ys)
    (hpost : EndsExclusions post) :
    (v.map Token.lexeme ++ post).head? ≠ some (.reserved .through) := by
  rcases rounds_iff.mp h with ⟨rfl, rfl⟩ | ⟨u, v, us, vs, rfl, rfl, hu, hv⟩
  · exact hpost .through (by simp)
  · obtain ⟨k, sep, more, fs, -, hsep, rfl, -, -⟩ := hu.exists_exclusionTail
    rw [List.map_append, List.map_append, List.append_assoc, List.append_assoc]
    exact hsep.head?_ne_through _

/-- Where the lexemes of an exclusion and a separator come first, they are those of the first
exclusion and of the separator behind it. -/
theorem Derives.exists_tail_of_eq
    (hu : Derives .builtin close (.matcher (.rule .exclusion)) u (v ++ rest) es)
    (hv : Derives .builtin close (.rounds (.rule .exclusionTail)) v rest ys)
    (hpost : EndsExclusions post) (hx : IsExclusion x) (hs : Separates s)
    (hms : ms.head? ≠ some (.reserved .or))
    (h : u.map Token.lexeme ++ (v.map Token.lexeme ++ post) = x ++ (s ++ ms)) :
    ∃ k sep more v₁ fs zs start stop, u.map Token.lexeme = x ∧ sep.map Token.lexeme = s ∧
      more.map Token.lexeme ++ (v₁.map Token.lexeme ++ post) = ms ∧
      sep.length = Notation.separatorLength k ∧ v = (sep ++ more) ++ v₁ ∧
      Derives .builtin close (.matcher (.rule .exclusion)) more (v₁ ++ rest) fs ∧
      Derives .builtin close (.rounds (.rule .exclusionTail)) v₁ rest zs ∧
      ys = .node ⟨.exclusionTail, k, start, stop⟩ (sep.map .token ++ fs) :: zs := by
  obtain ⟨hux, hvs⟩ :=
    hu.isExclusion.eq_of_append hx h (hv.head?_ne_through hpost) (hs.head?_ne_through ms)
  rcases rounds_iff.mp hv with ⟨rfl, rfl⟩ | ⟨w, v₁, us, vs, rfl, rfl, hw, hv₁⟩
  · -- Nothing that may come behind the exclusions is a separator.
    rw [List.map_nil, List.nil_append] at hvs
    rcases hs.head?_cases ms with hhead | hhead
    · exact absurd (hvs ▸ hhead) (hpost .comma (by simp))
    · exact absurd (hvs ▸ hhead) (hpost .or (by simp))
  · obtain ⟨k, sep, more, fs, hlength, hsep, rfl, hmore, rfl⟩ := hw.exists_exclusionTail
    rw [List.map_append, List.map_append, List.append_assoc, List.append_assoc] at hvs
    obtain ⟨hsep', hmore'⟩ :=
      hsep.eq_of_append hs hvs (hmore.isExclusion.head?_ne .or _) hms
    exact ⟨k, sep, more, v₁, fs, vs, _, _, hux, hsep', hmore', hlength, rfl, hmore, hv₁, rfl⟩

/-- A separator between exclusions may be any. -/
theorem Derives.exists_separator (hxs : AreExclusions xs) (hs : Separates s) (hs' : Separates s')
    (hms : ms.head? ≠ some (.reserved .or)) (hpost : EndsExclusions post)
    (hu : Derives .builtin close (.matcher (.rule .exclusion)) u (v ++ rest) es)
    (hv : Derives .builtin close (.rounds (.rule .exclusionTail)) v rest ys)
    (h : u.map Token.lexeme ++ (v.map Token.lexeme ++ post) = xs ++ (s ++ ms)) :
    ∃ v' zs, Derives .builtin close (.rounds (.rule .exclusionTail)) v' rest zs ∧
      Tree.AllRefine ys zs ∧
      u.map Token.lexeme ++ (v'.map Token.lexeme ++ post) = xs ++ (s' ++ ms) := by
  induction hxs generalizing u v es ys with
  | one hx =>
    obtain ⟨k, sep, more, v₁, fs, zs, start, stop, rfl, -, rfl, hlength, rfl, hmore, hv₁, rfl⟩ :=
      hu.exists_tail_of_eq hv hpost hx hs hms h
    obtain ⟨k', sep', hlength', rfl, htail⟩ := hmore.exclusionTail hs'
    refine ⟨_, _, .round htail hv₁, ?_, by simp⟩
    exact (Tree.AllRefine.exclusionTail hlength hlength' (.refl fs)).append (.refl zs)
  | @cons y r xs hy hr hxs ih =>
    rw [List.append_assoc, List.append_assoc] at h
    obtain ⟨k, sep, more, v₁, fs, zs, start, stop, rfl, rfl, hmore', hlength, rfl, hmore, hv₁,
      rfl⟩ := hu.exists_tail_of_eq hv hpost hy hr (hxs.head?_ne .or _) h
    obtain ⟨v', zs', hv', hrefine, heq⟩ := ih hmore hv₁ hmore'
    -- The exclusion behind the first separator stays, before the others.
    obtain ⟨fs', hfs', halike⟩ := hmore.inside close trivial (by decide) (v' ++ rest)
    obtain ⟨k', sep', hlength', hsep', htail⟩ := hfs'.exclusionTail hr
    refine ⟨_, _, .round htail hv', ?_, ?_⟩
    · exact (Tree.AllRefine.exclusionTail hlength hlength' halike.refine).append hrefine
    · rw [List.map_append, List.map_append, hsep', List.append_assoc, List.append_assoc, heq]
      simp

/-! ## Lists of exclusions -/

theorem endsExclusions_of_follows {post₀ : List Token}
    (h : Description.builtin_predictive.Follows (.rule .symbol) (post₀ ++ rest)) :
    EndsExclusions (post₀.map Token.lexeme) := by
  intro w hw hhead
  obtain ⟨more, hmore⟩ := List.head?_eq_some_iff.mp hhead
  obtain ⟨t, post₁, rfl, ht, -⟩ := List.map_eq_cons_iff.mp hmore
  have happart : ∀ w ∈ [Word.comma, .or, .through],
      allApart (Notation.follow .symbol) [[.word w]] = true := by decide
  refine not_begins_of_allApart (happart w hw) (h .symbol rfl) ⟨[.word w], by simp, ?_, trivial⟩
  exact decide_eq_true ht

/-- Blocks with a list of exclusions in them: a symbol, the words before the list, an exclusion and
others behind separators. -/
inductive Listed (close : Nat) (rest : List Token) (ts : List Tree) (ls ms : List Lexeme) : Prop
    where
  | mk {b u v post : List Token} {t₀ t₁ t₂ t₃ : Token} {x : Tree} {es ys : List Tree} {n : Node}
    (hn : n.rule = .symbol) (hk : n.alternative = 0)
    (hms : u.map Token.lexeme ++ (v.map Token.lexeme ++ post.map Token.lexeme) = ms)
    (hwords : [t₀, t₁, t₂, t₃].map Token.lexeme = butNotOneOf)
    (hpost : EndsExclusions (post.map Token.lexeme))
    (hbase : ∀ rest', ∃ x', Derives .builtin close (.item (.rule .nonterminal)) b rest' [x'] ∧
      Tree.AllRefine [x] [x'])
    (hfirst : Derives .builtin close (.matcher (.rule .exclusion)) u (v ++ (post ++ rest)) es)
    (hothers : Derives .builtin close (.rounds (.rule .exclusionTail)) v (post ++ rest) ys)
    (hrewrite : ∀ w ws ms', Derives .builtin close (.matcher (.rule .symbol)) w (post ++ rest) ws →
      Tree.AllRefine
        [.node n (x :: ([t₀, t₁, t₂, t₃].map .token ++ (es ++ [.repeated ys])))] ws →
      w.map Token.lexeme ++ post.map Token.lexeme = b.map Token.lexeme ++ ms' →
      Rewritable close rest ts (ls ++ ms')) :
    Listed close rest ts ls ms

theorem Derives.listed {e : Token}
    (h : Derives .builtin close (.rounds (.rule .block)) taken (e :: rest) ts)
    (he : e.isEof = true) (hsucceed : Tree.Succeed ts)
    (htaken : taken.map Token.lexeme = ls ++ (butNotOneOf ++ ms)) :
    Listed close (e :: rest) ts ls ms := by
  have hv : ∀ t : Token, t.lexeme = .reserved .but → (Wanted.word .but).accepts t = true :=
    fun t ht => decide_eq_true ht
  obtain ⟨hspot, his, ht, hms, hfollows, hbefore, hbehind, -, hrewrite⟩ :=
    h.spotted he hsucceed htaken hv (by simp)
  rename_i r k j is t₀ b post₁ post₀ us vs
  have hms : post₁.map Token.lexeme ++ post₀.map Token.lexeme =
      .reserved .not :: .reserved .one :: .reserved .of :: ms := hms
  have hspots : Notation.spots (.word .but) = [(.symbol, 0, 1), (.symbol, 1, 1)] := by
    decide +kernel
  rw [hspots] at hspot
  rcases List.mem_cons.mp hspot with heq | hspot
  · obtain ⟨rfl, rfl, rfl⟩ : r = .symbol ∧ k = 0 ∧ j = 1 := by simpa using heq
    cases his
    obtain ⟨b, _, bs, _, rfl, rfl, hb, hnil⟩ := cons_iff.mp hbefore
    obtain ⟨rfl, rfl⟩ := nil_iff.mp hnil
    obtain ⟨x, rfl⟩ := hb.exists_item_tree (by decide)
    obtain ⟨t₁, _, _, ht₁, rfl, rfl, h₁⟩ := cons_word_iff.mp hbehind
    obtain ⟨t₂, _, _, ht₂, rfl, rfl, h₂⟩ := cons_word_iff.mp h₁
    obtain ⟨t₃, _, _, ht₃, rfl, rfl, h₃⟩ := cons_word_iff.mp h₂
    obtain ⟨u, _, es, _, rfl, rfl, hu, h₄⟩ := cons_iff.mp h₃
    obtain ⟨v, _, ys, _, rfl, rfl, hv, hnil⟩ := cons_iff.mp h₄
    obtain ⟨rfl, rfl⟩ := nil_iff.mp hnil
    obtain ⟨ys, rfl, hys⟩ := star_iff.mp hv
    simp only [List.append_nil] at hms hu hrewrite
    refine .mk rfl rfl ?_ ?_ (endsExclusions_of_follows hfollows) (fun rest' => ?_) (one_iff.mp hu)
      hys hrewrite
    · obtain ⟨-, -, -, htail⟩ : _ ∧ _ ∧ _ ∧ _ := by simpa using hms
      exact htail
    · simp [butNotOneOf, ht, ht₁, ht₂, ht₃]
    · obtain ⟨xs, hxs, halike⟩ := hb.inside close trivial (by decide) rest'
      obtain ⟨x', rfl⟩ := hxs.exists_item_tree (by decide)
      exact ⟨x', hxs, halike.refine⟩
  · obtain ⟨rfl, rfl, rfl⟩ : r = .symbol ∧ k = 1 ∧ j = 1 := by simpa using hspot
    cases his
    obtain ⟨t₁, _, _, ht₁, rfl, rfl, h₁⟩ := cons_word_iff.mp hbehind
    obtain ⟨u, _, es, _, rfl, rfl, hu, hnil⟩ := cons_iff.mp h₁
    obtain ⟨rfl, rfl⟩ := nil_iff.mp hnil
    -- No exclusion starts with the word that comes next.
    refine absurd ?_ ((one_iff.mp hu).isExclusion.head?_ne .one (post₀.map Token.lexeme))
    obtain ⟨-, htail⟩ : _ ∧ u.map Token.lexeme ++ post₀.map Token.lexeme = _ := by simpa using hms
    rw [htail]
    rfl

/-- The words of a list, in the order of the rule. -/
theorem Derives.symbol_list {b : List Token} {t₀ t₁ t₂ t₃ : Token} {x : Tree}
    (hwords : [t₀, t₁, t₂, t₃].map Token.lexeme = butNotOneOf)
    (hb : Derives .builtin close (.item (.rule .nonterminal)) b
      (t₀ :: t₁ :: t₂ :: t₃ :: (u ++ v) ++ rest) [x])
    (hu : Derives .builtin close (.matcher (.rule .exclusion)) u (v ++ rest) es)
    (hv : Derives .builtin close (.rounds (.rule .exclusionTail)) v rest ys) :
    ∃ n : Node, n.rule = .symbol ∧ n.alternative = 0 ∧
      Derives .builtin close (.matcher (.rule .symbol))
        (b ++ t₀ :: t₁ :: t₂ :: t₃ :: (u ++ v)) rest
        [.node n (x :: ([t₀, t₁, t₂, t₃].map .token ++ (es ++ [.repeated ys])))] := by
  obtain ⟨ht₀, ht₁, ht₂, ht₃⟩ : _ ∧ _ ∧ _ ∧ _ := by simpa [butNotOneOf] using hwords
  have hlist := cons (one hu) (singleton_iff.mpr (star hv))
  have hwords' := cons_word ht₀ (cons_word ht₁ (cons_word ht₂ (cons_word ht₃ hlist)))
  exact ⟨_, rfl, rfl, (cons hb hwords').alternative rfl⟩

/-- A separator of a list may be another one. -/
theorem Listed.separator (h : Listed close rest ts ls (xs ++ (s ++ ms))) (hxs : AreExclusions xs)
    (hs : Separates s) (hs' : Separates s') (hms : ms.head? ≠ some (.reserved .or)) :
    Rewritable close rest ts (ls ++ (butNotOneOf ++ (xs ++ (s' ++ ms)))) := by
  obtain ⟨hn, hk, heq, hwords, hpost, hbase, hfirst, hothers, hrewrite⟩ := h
  rename_i b u v post t₀ t₁ t₂ t₃ x es ys n
  obtain ⟨v', zs, hv', hrefine, heq'⟩ :=
    hfirst.exists_separator hxs hs hs' hms hpost hothers heq
  obtain ⟨es', hfirst', halike⟩ := hfirst.inside close trivial (by decide) (v' ++ (post ++ rest))
  obtain ⟨x', hbase', hx⟩ := hbase (t₀ :: t₁ :: t₂ :: t₃ :: (u ++ v') ++ (post ++ rest))
  obtain ⟨m, hm, hk', hsymbol⟩ := Derives.symbol_list hwords hbase' hfirst' hv'
  refine hrewrite _ _ _ hsymbol (.node (hn.trans hm.symm) (hk.trans hk'.symm) ?_) ?_
  · exact hx.append (((Tree.AllRefine.refl ([t₀, t₁, t₂, t₃].map .token)).append
      (halike.refine.append hrefine.repeated)))
  · rw [← hwords, ← heq']
    simp

theorem Tree.AllRefine.excluding {x x' f f' : Tree} (hx : AllRefine [x] [x'])
    (hf : AllRefine [f] [f']) (start stop start' stop' : Nat) (t₀ t₁ t₂ t₃ : Token) :
    AllRefine [.node ⟨.symbol, 0, start, stop⟩
        [x, .token t₀, .token t₁, .token t₂, .token t₃, f, .repeated []]]
      [.node ⟨.symbol, 1, start', stop'⟩ [x', .token t₀, .token t₁, f']] := by
  refine allRefine_singleton ?_
  simp only [visit_node, visitAll, visit_token, visit_repeated, bind_assoc, pure_bind]
  refine hx.single.bind fun p p' hp => hf.single.bind fun q q' hq => ?_
  rw [run_node_listed, run_node_excluding]
  refine
    (ReadsAlike.run' (R := Phrase.Alike Anywhere Anywhere) ?_ (.cons hp (.cons hq .nil))).refines
  refine ReadsAlike.bind (Reading.symbol_alike rfl) fun base base' hbase => ?_
  refine ReadsAlike.bind (Reading.exclusion_alike rfl) fun e e' he => ?_
  subst hbase he
  exact .pure (.same rfl)

/-- A list of one exclusion says what the exclusion says alone. -/
theorem Listed.single (h : Listed close rest ts ls (x ++ ms)) (hx : IsExclusion x)
    (hms : EndsExclusions ms) :
    Rewritable close rest ts (ls ++ (.reserved .but :: .reserved .not :: (x ++ ms))) := by
  obtain ⟨hn, hk, heq, hwords, hpost, hbase, hfirst, hothers, hrewrite⟩ := h
  rename_i b u v post t₀ t₁ t₂ t₃ x es ys n
  obtain ⟨rfl, hvs⟩ := hfirst.isExclusion.eq_of_append hx heq (hothers.head?_ne_through hpost)
    (hms .through (by simp))
  rcases Derives.rounds_iff.mp hothers with ⟨rfl, rfl⟩ | ⟨w, v, us, vs, rfl, rfl, hw, -⟩
  · obtain ⟨ht₀, ht₁, -, -⟩ : _ ∧ _ ∧ _ ∧ _ := by simpa [butNotOneOf] using hwords
    obtain ⟨es', hfirst', halike⟩ := hfirst.inside close trivial (by decide) (post ++ rest)
    obtain ⟨f, rfl⟩ := hfirst.exists_tree
    obtain ⟨f', rfl⟩ := hfirst'.exists_tree
    obtain ⟨x', hbase', hx'⟩ := hbase (t₀ :: t₁ :: u ++ (post ++ rest))
    have hwords' := Derives.cons_word ht₀
      (Derives.cons_word ht₁ (Derives.singleton_iff.mpr (.one hfirst')))
    have hsymbol := (Derives.cons hbase' hwords').alternative (r := .symbol) (k := 1) rfl
    obtain ⟨r, k, start, stop⟩ := n
    obtain rfl : r = .symbol := hn
    obtain rfl : k = 0 := hk
    refine hrewrite _ _ _ hsymbol ?_ ?_
    · exact hx'.excluding halike.refine _ _ _ _ _ _ _ _
    · simp [ht₀, ht₁, ← hvs]
  · -- A separator does not come behind the exclusion.
    obtain ⟨k, sep, more, fs, -, hsep, rfl, -, -⟩ := hw.exists_exclusionTail
    rw [List.map_append, List.map_append, List.append_assoc, List.append_assoc] at hvs
    rcases hsep.head?_cases _ with hhead | hhead
    · exact absurd (hvs ▸ hhead) (hms .comma (by simp))
    · exact absurd (hvs ▸ hhead) (hms .or (by simp))

end GrammarText
