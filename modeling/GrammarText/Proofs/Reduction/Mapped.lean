import GrammarText.Proofs.Reduction.Listed

/-!
# Source maps: where the parts of a definition were read

A definition is read line by line.  `Declaration.Shape` says of the tokens of a declaration where
its lines begin and end, what stands on each of them and which places were noted for it: one for
each production, and one for each terminal that belongs to the grammar.  Under `one of` the
terminals on the lines are all there is (`Derives.shaped`).
-/

namespace GrammarText

open List (Forall₂)

variable {close : Nat} {g : Gathered} {run u rest ending : List Token} {ts us : List Tree}

/-! ## Lines -/

/-- A line of a definition, with the places that were noted on it. -/
structure SourceLine where
  production : Production
  span : Span
  terminals : List (String × Span)

/-- The tokens of a line go up to its line break, or to the end of the text. -/
def IsLine (run rest : List Token) : Prop :=
  ∃ body ending, run = body ++ ending ∧ body ≠ [] ∧ (∀ t ∈ body, t.lexeme ≠ .newline) ∧
    LineEnds ending rest

/-- A line is read from tokens of which all are on it, and its terminals stand among them. -/
structure SourceLine.ReadFrom (l : SourceLine) (run rest : List Token) : Prop where
  line : IsLine run rest
  span : l.span = Span.over run
  terminals : l.terminals.map Prod.fst = l.production.terminals
  located : Located run l.terminals

def ListsTerminals (run : List Token) (xs : List (String × Span)) : Prop :=
  Forall₂ (fun t x => t.Spells x.1 ∧ x.2 = t.span) (run.filter (·.lexeme.isTerminal)) xs

/-- What the tokens of a declaration say of its productions and of the places in it: they are lines
of productions, or lines of terminals under `one of`. -/
inductive Declaration.Shape (d : Declaration) (run rest : List Token) : Prop where
  | lines {head body ending : List Token} {colons newline : Token} {ls : List SourceLine}
      (hrun : run = head ++ colons :: newline :: (body ++ ending))
      (hhead : ∀ t ∈ head, t.kind ≠ .colons)
      (hcolons : colons.kind = .colons) (hnewline : newline.lexeme = .newline)
      (hlines : InTurn SourceLine.ReadFrom ls body (ending ++ rest))
      (hend : LineEnds ending rest)
      (hproductions : d.definition.productions = ls.map SourceLine.production)
      (hspans : d.productionSpans = ls.map SourceLine.span)
      (hterminals : d.terminalSpans = ls.flatMap SourceLine.terminals)
  | oneOf {head body ending : List Token} {colons one of newline : Token}
      (hrun : run = head ++ colons :: one :: of :: newline :: (body ++ ending))
      (hhead : ∀ t ∈ head, t.kind ≠ .colons)
      (hcolons : colons.kind = .colons) (hone : one.lexeme = .reserved .one)
      (hof : of.lexeme = .reserved .of) (hnewline : newline.lexeme = .newline)
      (hlisted : ListsTerminals body d.terminalSpans) (hend : LineEnds ending rest)
      (hproductions :
        d.definition.productions = d.terminalSpans.map fun x => .symbols [.terminal x.1])
      (hspans : d.productionSpans = [])

/-! ### What stands on a line -/

theorem Token.ne_newline_of_isInline {t : Token} (h : t.isInline = true) : t.lexeme ≠ .newline := by
  intro ht
  simp [isInline, kind, ht, Lexeme.kind] at h

theorem Token.ne_newline_of_accepts {t : Token} {k : Kind} (h : (Wanted.kind k).accepts t = true)
    (hk : k ≠ .newline) : t.lexeme ≠ .newline := by
  intro ht
  have hkind : t.kind = k := by simpa [Wanted.accepts] using h
  exact hk (by rw [← hkind, Token.kind, ht]; rfl)

/-- What stands on a line in front of its end. -/
theorem isLine_append {body : List Token} (hne : body ≠ [])
    (hbody : ∀ t ∈ body, t.lexeme ≠ .newline)
    (h : Derives .builtin close (.matcher (.rule .lineEnd)) ending rest ts) :
    IsLine (body ++ ending) rest :=
  ⟨body, ending, rfl, hne, hbody, (h.lineEnds rfl).1⟩

/-- A production is a line. -/
theorem Derives.isLine (h : Derives .builtin close (.matcher (.rule .production)) run rest ts) :
    IsLine run rest := by
  obtain ⟨k, is, us, his, hus, rfl⟩ := h.exists_alternative
  match k with
  | 0 | 1 =>
    cases his
    obtain ⟨t, v, vs, ht, rfl, rfl, hv⟩ := (cons_token_iff rfl).mp hus
    show IsLine ([t] ++ v) rest
    refine isLine_append (List.cons_ne_nil t []) ?_ (one_iff.mp (singleton_iff.mp hv))
    rw [List.forall_mem_singleton]
    exact Token.ne_newline_of_accepts ht (by decide)
  | 2 =>
    cases his
    obtain ⟨a, _, _, _, rfl, -, ha, hus⟩ := cons_iff.mp hus
    obtain ⟨b, _, _, _, rfl, -, hb, hus⟩ := cons_iff.mp hus
    obtain ⟨c, _, _, _, rfl, -, hc, hus⟩ := cons_iff.mp hus
    have hend := one_iff.mp (singleton_iff.mp hus)
    have hguard : ∀ t ∈ a, t.isInline = true := ha.inline rfl
    have hbody : ∀ t ∈ b, t.isInline = true := hb.inline rfl
    have hlabel : ∀ t ∈ c, t.isInline = true := hc.inline rfl
    have hne : b ≠ [] := by
      rintro rfl
      have hidle := hb.idle Description.builtin_layering rfl
      cases hidle
    rw [← List.append_assoc, ← List.append_assoc]
    refine isLine_append (by simp [hne]) ?_ hend
    simp only [List.forall_mem_append]
    exact ⟨⟨fun t ht => Token.ne_newline_of_isInline (hguard t ht),
      fun t ht => Token.ne_newline_of_isInline (hbody t ht)⟩,
      fun t ht => Token.ne_newline_of_isInline (hlabel t ht)⟩

/-- Lines of productions are read one after another, and the places on them are noted. -/
theorem Derives.sourceLines
    (h : Derives .builtin close (.rounds (.rule .production)) run rest ts) :
    Ends g (Tree.visitAll Reduction.visitor ts)
      (fun ps g' => ∃ ls : List SourceLine, ps = (ls.map SourceLine.production).map .production ∧
        InTurn SourceLine.ReadFrom ls run rest ∧
        g' = g.add (ls.flatMap SourceLine.terminals) (ls.map SourceLine.span)) fun _ => True := by
  induction h using rounds_induction generalizing g with
  | done => exact ends_pure ⟨[], rfl, .nil, g.add_nil.symm⟩
  | @round u v rest ts us h hs ih =>
    refine ends_visitAll_append ((h.read trivial).mono (fun _ _ hp => hp) fun _ _ => trivial) ?_
    rintro _ g₁ ⟨_, rfl, ⟨q, xs, rfl, hxs, hlocated, -, rfl⟩, -⟩
    refine ih.mono ?_ fun _ _ => trivial
    rintro _ _ ⟨ls, rfl, hls, rfl⟩
    refine ⟨⟨q, Span.over u, xs⟩ :: ls, rfl, .cons ⟨h.isLine, rfl, hxs, hlocated⟩ hls, ?_⟩
    rw [Gathered.add_add, List.flatMap_cons, List.map_cons, List.singleton_append]

/-! ## Terminals -/

theorem Token.spells_of_spelling {t : Token} {s : String} (ht : t.lexeme.isTerminal = true)
    (h : t.spelling = .ok s) : t.Spells s := by
  obtain ⟨q, hq | hq⟩ := Lexeme.exists_of_isTerminal ht
  · rw [spelling, hq] at h
    cases hunquote : Text.unquote? q.toList with
    | none => simp [hunquote] at h
    | some cs =>
      obtain rfl : String.ofList cs = s := by simpa [hunquote] using h
      exact .inl ⟨q, hq, by rw [hunquote, String.toList_ofList]⟩
  · rw [spelling, hq] at h
    obtain rfl : q = s := Except.ok.inj h
    exact .inr hq

theorem forall₂_of_mapM_ok {α β : Type} {f : α → Except Diagnostic β} {xs : List α} {ys : List β}
    (h : xs.mapM f = .ok ys) : Forall₂ (fun x y => f x = .ok y) xs ys := by
  induction xs generalizing ys with
  | nil =>
    obtain rfl : [] = ys := Except.ok.inj h
    exact .nil
  | cons x xs ih =>
    rw [List.mapM_cons] at h
    cases hx : f x with
    | error e =>
      rw [hx] at h
      cases h
    | ok y =>
      cases hxs : xs.mapM f with
      | error e =>
        rw [hx, hxs] at h
        cases h
      | ok zs =>
        rw [hx, hxs] at h
        obtain rfl : y :: zs = ys := Except.ok.inj h
        exact .cons hx (ih hxs)

/-- The spellings of the terminals among some tokens are those of all of them. -/
theorem listsTerminals_of_spellings {xs : List (String × Span)} (h : spellings run = .ok xs) :
    ListsTerminals run xs := by
  have hterminal : ∀ t ∈ run.filter (·.lexeme.isTerminal), t.lexeme.isTerminal = true :=
    fun t ht => (List.mem_filter.mp ht).2
  refine ((List.forall₂_and_left _ _).mpr ⟨hterminal, forall₂_of_mapM_ok h⟩).imp ?_
  rintro t x ⟨ht, hx⟩
  cases hs : t.spelling with
  | error e =>
    rw [hs] at hx
    cases hx
  | ok s =>
    rw [hs] at hx
    obtain rfl : (s, t.span) = x := Except.ok.inj hx
    exact ⟨Token.spells_of_spelling ht hs, rfl⟩

/-! ## Definitions -/

/-- Trees whose meaning is known may come before a repetition and behind it. -/
theorem ends_visitAll_between {fs : List Tree} {ps qs : List Phrase}
    {P : List Phrase → Gathered → Prop} {E : Diagnostic → Prop}
    (hf : Tree.visitAll Reduction.visitor fs = pure ps)
    (ht : Ends g (Tree.visitAll Reduction.visitor ts) P E)
    (hu : Tree.visitAll Reduction.visitor us = pure qs) :
    Ends g (Tree.visitAll Reduction.visitor (fs ++ ([.repeated ts] ++ us)))
      (fun rs g' => ∃ as, P as g' ∧ rs = ps ++ (.repeated as :: qs)) E := by
  rw [Tree.visitAll_append, hf, pure_bind]
  refine Ends.bind (P := fun rs g' => ∃ as, P as g' ∧ rs = .repeated as :: qs)
    (ends_visitAll_append (P := fun rs g' => ∃ as, P as g' ∧ rs = [.repeated as])
      (ends_visitAll_repeated (ht.mono (fun as _ has => ⟨as, has, rfl⟩) fun _ he => he)) ?_) ?_
  · rintro _ _ ⟨as, has, rfl⟩
    rw [hu]
    exact ends_pure ⟨as, has, rfl⟩
  · rintro _ _ ⟨as, has, rfl⟩
    exact ends_pure ⟨as, has, rfl⟩

/-- A definition is read behind its head, which notes no places. -/
theorem Derives.ends_definition {n : Node} {P : List Phrase → Gathered → Prop}
    {Q : Declaration → Prop} (h : Derives .builtin close (.matcher (.rule .head)) run rest ts)
    (hus : Ends .none (Tree.visitAll Reduction.visitor us) P fun _ => True)
    (hn : ∀ k ps g', P ps g' → Ends g' ((Reduction.node n).run' (.head k :: ps))
      (fun p _ => ∃ d, p = .declaration d ∧ Q d) fun _ => True) :
    Ends .none (Tree.visitAll Reduction.visitor [.node n (ts ++ us)])
      (fun ps _ => ∃ d, ps = [.declaration d] ∧ Q d) fun _ => True := by
  refine ends_visitAll_node (P := fun ps g' => ∃ k qs, ps = .head k :: qs ∧ P qs g') ?_ ?_
  · refine ends_visitAll_append ((h.read trivial).mono (fun _ _ hp => hp) fun _ _ => trivial) ?_
    rintro _ _ ⟨_, rfl, ⟨k, _, _, rfl, -, -, -, rfl⟩, -⟩
    exact hus.mono (fun qs _ hqs => ⟨k, qs, rfl, hqs⟩) fun _ _ => trivial
  · rintro _ g' ⟨k, qs, rfl, hqs⟩
    refine (hn k qs g' hqs).mono ?_ fun _ _ => trivial
    rintro _ _ ⟨d, rfl, hd⟩
    exact ⟨d, rfl, hd⟩

section Definitions

variable {start stop : Nat} {head body : List Token} {c o f b : Token} {hs ls es : List Tree}

/-- A definition that lists terminals is read as its tokens have it. -/
theorem Derives.shaped_oneOf {ahead : List Token}
    (hhead : Derives .builtin close (.matcher (.rule .head)) head ahead hs)
    (hc : c.kind = .colons) (ho : o.lexeme = .reserved .one) (hf : f.lexeme = .reserved .of)
    (hb : b.lexeme = .newline)
    (hls : Derives .builtin close (.rounds (.rule .terminalLine)) body (ending ++ rest) ls)
    (hes : Derives .builtin close (.matcher (.rule .blockEnd)) ending rest es) :
    Ends .none (Tree.visitAll Reduction.visitor [.node ⟨.definition, 0, start, stop⟩
        (hs ++ ([.token c, .token o, .token f, .token b] ++ ([.repeated ls] ++ es)))])
      (fun ps _ => ∃ d : Declaration, ps = [.declaration d] ∧
        d.Shape (head ++ c :: o :: f :: b :: (body ++ ending)) rest) fun _ => True := by
  obtain ⟨hend, q, hq⟩ := hes.lineEnds rfl
  have hfirst : Tree.visitAll Reduction.visitor [.token c, .token o, .token f, .token b] =
      pure [.token c, .token o, .token f, .token b] := rfl
  have hlines := hls.collects_terminalLines.repeated.between hfirst hq
  refine hhead.ends_definition ((hlines .none).mono (fun _ _ h => h) fun _ _ => trivial) ?_
  rintro k _ _ ⟨xs, hxs, _, ⟨_, ⟨⟨lines, hflat, rfl⟩, rfl⟩, rfl⟩, rfl⟩
  show Ends _ ((Reduction.node ⟨.definition, 0, _, _⟩).run' [.head k, .token c, .token o, .token f,
    .token b, .repeated (lines.map .terminals), q]) _ _
  rw [run_node_definition_terminals, hflat, List.map_map]
  refine ((ends_declare _ k c.text _ [q]).mono ?_ fun _ he => he).run'
  rintro ⟨p, qs⟩ _ ⟨rfl, rfl⟩
  exact ⟨_, rfl, .oneOf rfl (hhead.kind_ne_colons rfl) hc ho hf hb
    (listsTerminals_of_spellings hxs) hend (Head.productions_define k _) rfl⟩

/-- A definition of productions is read as its tokens have it. -/
theorem Derives.shaped_lines {ahead : List Token}
    (hhead : Derives .builtin close (.matcher (.rule .head)) head ahead hs)
    (hc : c.kind = .colons) (hb : b.lexeme = .newline)
    (hls : Derives .builtin close (.rounds (.rule .production)) body (ending ++ rest) ls)
    (hes : Derives .builtin close (.matcher (.rule .blockEnd)) ending rest es) :
    Ends .none (Tree.visitAll Reduction.visitor [.node ⟨.definition, 1, start, stop⟩
        (hs ++ ([.token c, .token b] ++ ([.repeated ls] ++ es)))])
      (fun ps _ => ∃ d : Declaration, ps = [.declaration d] ∧
        d.Shape (head ++ c :: b :: (body ++ ending)) rest) fun _ => True := by
  obtain ⟨hend, q, hq⟩ := hes.lineEnds rfl
  have hfirst : Tree.visitAll Reduction.visitor [.token c, .token b] = pure [.token c, .token b] :=
    rfl
  refine hhead.ends_definition (ends_visitAll_between hfirst hls.sourceLines hq) ?_
  rintro k _ _ ⟨_, ⟨lines, rfl, hlines, rfl⟩, rfl⟩
  show Ends _ ((Reduction.node ⟨.definition, 1, _, _⟩).run' [.head k, .token c, .token b,
    .repeated ((lines.map SourceLine.production).map .production), q]) _ _
  rw [run_node_definition]
  refine ((ends_declare _ k c.text _ [q]).mono ?_ fun _ he => he).run'
  rintro ⟨p, qs⟩ _ ⟨rfl, rfl⟩
  exact ⟨_, rfl, .lines rfl (hhead.kind_ne_colons rfl) hc hb hlines hend
    (Head.productions_define k _) rfl rfl⟩

end Definitions

/-- A definition is read as its tokens have it, where nothing was gathered before. -/
theorem Derives.shaped (h : Derives .builtin close (.matcher (.rule .definition)) run rest ts) :
    Ends .none (Tree.visitAll Reduction.visitor ts)
      (fun ps _ => ∃ d : Declaration, ps = [.declaration d] ∧ d.Shape run rest) fun _ => True := by
  obtain ⟨k, is, us, his, hus, rfl⟩ := h.exists_alternative
  match k with
  | 0 =>
    cases his
    obtain ⟨head, v, _, us₁, rfl, rfl, hhead, hus₁⟩ := cons_iff.mp hus
    obtain ⟨c, _, _, hc, rfl, rfl, hus₂⟩ := (cons_token_iff rfl).mp hus₁
    obtain ⟨o, _, _, ho, rfl, rfl, hus₃⟩ := cons_word_iff.mp hus₂
    obtain ⟨f, _, _, hf, rfl, rfl, hus₄⟩ := cons_word_iff.mp hus₃
    obtain ⟨b, _, _, hb, rfl, rfl, hus₅⟩ := (cons_token_iff rfl).mp hus₄
    obtain ⟨body, ending, _, es, rfl, rfl, hbody, hus₆⟩ := cons_iff.mp hus₅
    obtain ⟨u, v, us, vs, rfl, rfl, hu, hv⟩ := plus_iff.mp hbody
    exact (one_iff.mp hhead).shaped_oneOf (of_decide_eq_true hc) ho hf
      (Wanted.eq_ofKind_of_accepts hb) (.round hu hv) (one_iff.mp (singleton_iff.mp hus₆))
  | 1 =>
    cases his
    obtain ⟨head, v, _, us₁, rfl, rfl, hhead, hus₁⟩ := cons_iff.mp hus
    obtain ⟨c, _, _, hc, rfl, rfl, hus₂⟩ := (cons_token_iff rfl).mp hus₁
    obtain ⟨b, _, _, hb, rfl, rfl, hus₃⟩ := (cons_token_iff rfl).mp hus₂
    obtain ⟨body, ending, _, es, rfl, rfl, hbody, hus₄⟩ := cons_iff.mp hus₃
    obtain ⟨u, v, us, vs, rfl, rfl, hu, hv⟩ := plus_iff.mp hbody
    exact (one_iff.mp hhead).shaped_lines (of_decide_eq_true hc)
      (Wanted.eq_ofKind_of_accepts hb) (.round hu hv) (one_iff.mp (singleton_iff.mp hus₄))

/-! ## Blocks -/

/-- A block is read as its tokens have it, where nothing was gathered before. -/
theorem Derives.shaped_block (h : Derives .builtin close (.matcher (.rule .block)) run rest ts) :
    Ends .none (Tree.visitAll Reduction.visitor ts)
      (fun ps _ => ∃ block : Option Declaration, ps = [.block block] ∧
        ∀ d, block = some d → d.Shape run rest) fun _ => True := by
  obtain ⟨k, is, us, his, hus, rfl⟩ := h.exists_alternative
  match k with
  | 0 =>
    cases his
    obtain ⟨t, _, _, _, rfl, rfl, hv⟩ := (cons_token_iff rfl).mp hus
    obtain ⟨rfl, rfl⟩ := nil_iff.mp hv
    exact ⟨none, rfl, fun d hd => nomatch hd⟩
  | 1 =>
    cases his
    refine ends_visitAll_node (one_iff.mp (singleton_iff.mp hus)).shaped ?_
    rintro _ _ ⟨d, rfl, hd⟩
    exact ends_pure ⟨some d, rfl, fun c hc => Option.some.inj hc ▸ hd⟩

namespace Tree

variable {blocks : List (Option Declaration)}

/-- The first of some blocks means the first of what they mean. -/
theorem MeanBlocks.exists_of_round (h : MeanBlocks (ts ++ us) blocks)
    (hd : Derives .builtin close (.matcher (.rule .block)) run rest ts) :
    ∃ block bs, blocks = block :: bs ∧ MeanBlocks ts [block] ∧ MeanBlocks us bs := by
  have hread := hd.read trivial (g := .none)
  rw [MeanBlocks, visitAll_append, ExceptT.run_bind, StateT.run_bind] at h
  cases hrun : (visitAll Reduction.visitor ts).run.run .none with
  | mk answer g₁ =>
    rw [Ends, hrun] at hread
    rw [hrun] at h
    cases answer with
    | error e => cases h
    | ok ps =>
      obtain ⟨_, rfl, ⟨block, rfl, hnone, hsome, -⟩, -⟩ := hread
      -- Whatever the block is, it leaves nothing gathered.
      obtain rfl : g₁ = .none := by
        cases block with
        | none => exact hnone rfl
        | some d => exact hsome (Option.some_ne_none d)
      replace h : (visitAll Reduction.visitor us >>= fun qs => pure ([.block block] ++ qs)).run.run
        .none = (.ok (blocks.map .block), .none) := h
      rw [ExceptT.run_bind, StateT.run_bind] at h
      cases hrest : (visitAll Reduction.visitor us).run.run .none with
      | mk answer g₂ =>
        rw [hrest] at h
        cases answer with
        | error e => cases h
        | ok qs =>
          replace h : ((Except.ok (.block block :: qs) : Except Diagnostic _), g₂) =
            (.ok (blocks.map .block), .none) := h
          obtain ⟨hmap, rfl⟩ := Prod.mk.inj h
          obtain ⟨b, bs, rfl, hb, rfl⟩ := List.map_eq_cons_iff.mp (Except.ok.inj hmap).symm
          obtain rfl := Phrase.block.inj hb
          exact ⟨b, bs, rfl, hrun, hrest⟩

def ReadShaped (block : Option Declaration) (run rest : List Token) : Prop :=
  ReadBlock block run rest ∧ ∀ d, block = some d → d.Shape run rest

theorem MeanBlocks.readShaped {block : Option Declaration} (h : MeanBlocks ts [block])
    (hd : Derives .builtin close (.matcher (.rule .block)) run rest ts) :
    ReadShaped block run rest := by
  have hread := hd.read trivial (g := .none)
  have hshaped := hd.shaped_block
  rw [Ends, h] at hread hshaped
  obtain ⟨_, hp, ⟨b, rfl, -, -, hb⟩, -⟩ := hread
  obtain ⟨c, hc, hshape⟩ := hshaped
  obtain rfl : block = b := by simpa using hp
  obtain rfl : block = c := by simpa using hc
  exact ⟨hb rfl, hshape⟩

/-- What blocks mean is read from their tokens block by block. -/
theorem MeanBlocks.inTurn_shaped (h : MeanBlocks ts blocks)
    (hd : Derives .builtin close (.rounds (.rule .block)) run rest ts) :
    InTurn ReadShaped blocks run rest := by
  induction hd using Derives.rounds_induction generalizing blocks with
  | done =>
    obtain ⟨hmap, -⟩ := Prod.mk.inj h
    obtain rfl := List.map_eq_nil_iff.mp (Except.ok.inj hmap).symm
    exact .nil
  | round hu hs ih =>
    obtain ⟨block, bs, rfl, hblock, hbs⟩ := h.exists_of_round hu
    exact .cons (hblock.readShaped hu) (ih hbs)

end Tree
end GrammarText
