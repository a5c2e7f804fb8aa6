import GrammarText.Proofs.Reduction.Agreement
import GrammarText.Proofs.Reduction.Provenance

/-!
# What texts are read as

What a derivation means has been read from the tokens that it derives (`Derives.read`), by one
induction over the derivation in which each node is taken care of by `node_read`.  So the
declarations of a list of tokens were read from it block by block, and an error of the reduction
points at some of the tokens (`Tree.read`).
-/

namespace GrammarText

/-! ## Tokens inside a line -/

/-- Whether a matcher stands for tokens inside a line only. -/
def Matcher.inline : Matcher → Bool
  | .token k => k ∉ [.eof, .newline, .prose, .wrappedProse]
  | .word _ => true
  | .rule r => Notation.inline r

def Part.inline : Part → Bool
  | .matcher m | .rounds m => m.inline
  | .item i => i.matcher.inline
  | .items is => is.all (·.matcher.inline)
  | .choice _ _ alternatives => alternatives.all (·.all (·.matcher.inline))

/-- The rules inside a line ask for nothing else. -/
theorem Notation.inline_alternatives {r : Rule} {alternatives : List (List Item)}
    (hr : builtinRules.alternatives? r = some alternatives) (h : Notation.inline r = true) :
    alternatives.all (·.all (·.matcher.inline)) = true := by
  revert h
  cases r <;> cases hr <;> decide +kernel

theorem Wanted.isInline_of_accepts {m : Matcher} {w : Wanted} {t : Token}
    (hw : m.wanted? = some w) (ht : w.accepts t = true) (h : m.inline = true) :
    t.isInline = true := by
  cases m with
  | token k =>
    cases hw
    obtain rfl : t.kind = k := by simpa [accepts] using ht
    simpa [Matcher.inline, Token.isInline] using h
  | word w =>
    cases hw
    have ht : t.lexeme = .reserved w := by simpa [accepts] using ht
    rw [Token.isInline, Token.kind, ht]
    rfl
  | rule r => cases hw

variable {close : Nat} {p : Part} {run rest : List Token} {ts : List Tree}

theorem Part.all_of_inline (hp : p.inline = true) : p.All (·.inline = true) := by
  cases p with
  | matcher | rounds | item => exact hp
  | items | choice => simpa [inline, All] using hp

/-- A part for tokens inside a line derives no others. -/
theorem Derives.inline (h : Derives .builtin close p run rest ts) (hp : p.inline = true) :
    ∀ t ∈ run, t.isInline = true :=
  h.forall_taken (fun _ _ _ => Wanted.isInline_of_accepts)
    (fun _ _ hr hinline => Part.all_of_inline (Notation.inline_alternatives hr hinline))
    (Part.all_of_inline hp)

/-! ## Colons -/

/-- Whether a matcher asks for no colons, neither itself nor by a rule. -/
def Matcher.colonless : Matcher → Bool
  | .token k => k ≠ .colons
  | .word _ => true
  | .rule r => r ∉ [.grammar, .block, .definition]

/-- Colons stand in definitions only. -/
theorem Derives.kind_ne_colons (h : Derives .builtin close p run rest ts)
    (hp : p.All (·.colonless = true)) : ∀ t ∈ run, t.kind ≠ .colons := by
  refine h.forall_taken ?_ ?_ hp
  · intro m w t hw ht hm hk
    cases m with
    | token k =>
      cases hw
      obtain rfl : t.kind = k := of_decide_eq_true ht
      exact of_decide_eq_true hm hk
    | word w =>
      cases hw
      rw [Token.kind, Wanted.eq_reserved_of_accepts ht] at hk
      cases hk
    | rule r => cases hw
  · intro r alternatives hr hrule
    show ∀ is ∈ alternatives, ∀ i ∈ is, i.matcher.colonless = true
    revert hrule
    cases r <;> cases hr <;> decide +kernel

/-! ## Derivations -/

variable {g g' : Gathered} {ps qs : List Phrase}

def Part.Read (ps : List Phrase) (run rest : List Token) (g g' : Gathered) : Part → Prop
  | .matcher m => ∃ p, ps = [p] ∧ m.Read p run rest g g'
  | .rounds m => m.ReadRounds ps run rest g g'
  | .item i => ReadAll [i] ps run rest g g'
  | .items is => ReadAll is ps run rest g g'
  | .choice r _ _ => ∃ p, ps = [p] ∧ p.ReadFrom r run rest g g'

/-- What an error points at is there among more tokens. -/
theorem Diagnostic.Blames.mono {e : Diagnostic} {u : List Token} (h : e.Blames u)
    (hu : u <:+: run) : e.Blames run := by
  match e, h with
  | .parse (.unexpectedToken ..), ⟨t, ht, heof⟩ => exact ⟨t, hu.subset ht, heof⟩
  | .grammar (.duplicateArgument ..), ⟨v, ⟨t, o, pre, s, ht, ho, hpre, hv, hall⟩, hspan⟩ =>
    exact ⟨v, ⟨t, o, pre, s, ht, ho, hpre, hv, hall.trans hu⟩, hspan⟩
  | .grammar (.unsupportedLookahead ..), ⟨v, ⟨e, a, b, he, hs, hd, ha, hb, hall⟩, hspan⟩ =>
    exact ⟨v, ⟨e, a, b, he, hs, hd, ha, hb, hall.trans hu⟩, hspan⟩
  | .grammar (.malformedTerminal ..), _ => trivial

/-- A token that a matcher accepts is read as what the matcher asks for. -/
theorem Wanted.matcher_read {m : Matcher} {w : Wanted} {t : Token} (hw : m.wanted? = some w)
    (ht : w.accepts t = true) : m.Read (.token t) [t] rest g g := by
  cases m with
  | token k =>
    cases hw
    exact ⟨t, rfl, rfl, eq_ofKind_of_accepts ht, rfl⟩
  | word w =>
    cases hw
    exact ⟨t, rfl, rfl, eq_reserved_of_accepts ht, rfl⟩
  | rule r => cases hw

/-- Items are read one after another. -/
theorem readAll_cons {i : Item} {is : List Item} {u v : List Token} {g₁ : Gathered}
    (hp : ReadAll [i] ps u (v ++ rest) g g₁) (hq : ReadAll is qs v rest g₁ g') :
    ReadAll (i :: is) (ps ++ qs) (u ++ v) rest g g' := by
  obtain ⟨m, q⟩ := i
  cases q with
  | one =>
    obtain ⟨p, _, u, _, g₂, rfl, rfl, hp, rfl, rfl, rfl⟩ := hp
    rw [List.append_nil]
    exact ⟨p, qs, u, v, g₁, rfl, rfl, hp, hq⟩
  | optional =>
    obtain ⟨p, _, u, _, g₂, rfl, rfl, hp, rfl, rfl, rfl⟩ := hp
    rw [List.append_nil]
    exact ⟨p, qs, u, v, g₁, rfl, rfl, hp, hq⟩
  | star =>
    obtain ⟨xs, _, u, _, g₂, rfl, rfl, hxs, rfl, rfl, rfl⟩ := hp
    rw [List.append_nil]
    exact ⟨xs, qs, u, v, g₁, rfl, rfl, hxs, hq⟩
  | plus =>
    obtain ⟨xs, _, u, _, g₂, rfl, rfl, hne, hxs, rfl, rfl, rfl⟩ := hp
    rw [List.append_nil]
    exact ⟨xs, qs, u, v, g₁, rfl, rfl, hne, hxs, hq⟩
  | peek =>
    obtain ⟨hpeek, rfl, rfl, rfl⟩ := hp
    exact ⟨hpeek, hq⟩

/-- What a derivation means was read from the tokens that it derives, or its error points at some
of them. -/
theorem Derives.read (h : Derives .builtin close p run rest ts) (hp : p.Placed) :
    Ends g (Tree.visitAll Reduction.visitor ts) (fun ps g' => p.Read ps run rest g g')
      (·.Blames run) := by
  induction h generalizing g with
  | leaf hw ht => exact ends_visitAll_singleton (ends_pure ⟨_, rfl, Wanted.matcher_read hw ht⟩)
  | @rule r alternatives run rest ts hr h ih =>
    refine (ih (Part.placed_rule hr)).mono ?_ fun _ he => he
    rintro _ _ ⟨p, rfl, hread⟩
    have hrule := Derives.rule hr h
    refine ⟨p, rfl, hread, ?_, fun hinline => hrule.inline hinline⟩
    rintro hidle rfl
    rw [show Notation.idle r = true from hrule.idle Description.builtin_layering rfl] at hidle
    cases hidle
  | @here r n is alternatives run rest ts h ih =>
    refine ends_visitAll_node (ih trivial) fun ps g' hps => ?_
    -- The items that were derived are those of the alternative that the node names.
    refine (node_read r n _ _ is ps run rest g g' hp.getElem? hps (Node.span_over r n)).mono ?_
      fun _ he => he
    exact fun p g'' hread => ⟨p, rfl, hread⟩
  | later h ih => exact ih hp.later
  | done => exact ends_pure ⟨rfl, rfl⟩
  | @round m u v rest ts us h hs ih ihs =>
    refine ends_visitAll_append
      ((ih trivial).mono (fun _ _ hp => hp) fun e he => he.mono (List.prefix_append u v).isInfix) ?_
    rintro _ g₁ ⟨p, rfl, hread⟩
    refine (ihs trivial).mono ?_ fun e he => he.mono (List.suffix_append u v).isInfix
    exact fun qs g' hqs => ⟨u, v, g₁, rfl, hread, hqs⟩
  | one h ih =>
    refine (ih trivial).mono ?_ fun _ he => he
    rintro _ g' ⟨p, rfl, hread⟩
    exact ⟨p, [], _, [], g', rfl, (List.append_nil _).symm, hread, rfl, rfl, rfl⟩
  | present h ih =>
    refine (ih trivial).mono ?_ fun _ he => he
    rintro _ g' ⟨p, rfl, hread⟩
    exact ⟨p, [], _, [], g', rfl, (List.append_nil _).symm, .inl hread, rfl, rfl, rfl⟩
  | absent =>
    refine ends_visitAll_singleton (ends_pure ?_)
    exact ⟨.absent, [], [], [], g, rfl, rfl, .inr ⟨rfl, rfl, rfl⟩, rfl, rfl, rfl⟩
  | star h ih =>
    refine ends_visitAll_repeated ((ih trivial).mono ?_ fun _ he => he)
    exact fun xs g' hxs => ⟨xs, [], _, [], g', rfl, (List.append_nil _).symm, hxs, rfl, rfl, rfl⟩
  | @plus m u v rest ts us h hs ih ihs =>
    refine ends_visitAll_repeated (ends_visitAll_append
      ((ih trivial).mono (fun _ _ hp => hp) fun e he => he.mono (List.prefix_append u v).isInfix) ?_)
    rintro _ g₁ ⟨p, rfl, hread⟩
    refine (ihs trivial).mono ?_ fun e he => he.mono (List.suffix_append u v).isInfix
    exact fun qs g' hqs => ⟨p :: qs, [], u ++ v, [], g', rfl, (List.append_nil _).symm, by simp,
      ⟨u, v, g₁, rfl, hread, hqs⟩, rfl, rfl, rfl⟩
  | @peek m u v ts h ih =>
    refine ends_pure ⟨fun w hw => ?_, rfl, rfl, rfl⟩
    obtain ⟨t, ht, rfl, -⟩ := (Derives.token_iff hw).mp h
    exact ⟨t, v, rfl, ht⟩
  | nil => exact ends_pure ⟨rfl, rfl, rfl⟩
  | @cons i is u v rest ts us h hs ih ihs =>
    refine ends_visitAll_append
      ((ih trivial).mono (fun _ _ hp => hp) fun e he => he.mono (List.prefix_append u v).isInfix) ?_
    intro ps g₁ hps
    refine (ihs trivial).mono ?_ fun e he => he.mono (List.suffix_append u v).isInfix
    exact fun qs g' hqs => readAll_cons hps hqs

/-! ## Lists of tokens -/

/-- The declarations of a list of tokens were read from it block by block, or the error points at
some of the tokens. -/
theorem Tree.declarations_read {tokens : List Token} {t : Tree} (hend : Ended tokens)
    (h : ofTokens tokens = .ok t) :
    match t.declarations with
    | .ok ds => ∃ blocks body e, tokens = body ++ [e] ∧ e.isEof = true ∧
        InTurn ReadBlock blocks body [e] ∧ ds = blocks.filterMap id
    | .error e => e.Blames tokens := by
  have hd : Derives .builtin (closeOf tokens) (.matcher (.rule .grammar)) tokens [] [t] :=
    derivationOf_of_ofTokens hend h
  have hread : Ends .none (t.visit Reduction.visitor)
      (fun p g' => (Part.matcher (.rule .grammar)).Read [p] tokens [] .none g') (·.Blames tokens) :=
    ends_visit_of_singleton
      (P := fun ps g' => (Part.matcher (.rule .grammar)).Read ps tokens [] .none g')
      ((hd.read trivial).mono (fun ps g' hps p hp => hp ▸ hps) fun _ he => he)
  rw [declarations, reduce]
  unfold Ends at hread
  split at hread
  · rename_i p g' hrun
    obtain ⟨_, hp, ⟨ds, rfl, hds⟩, -⟩ := hread
    obtain rfl := List.singleton_inj.mp hp
    obtain ⟨-, blocks, body, e, htokens, he, hturn, rfl⟩ := hds rfl
    rw [hrun]
    exact ⟨blocks, body, e, htokens, he, hturn, rfl⟩
  · rename_i hrun
    rw [hrun]
    exact hread

/-- A declaration of some blocks was read from tokens behind those of the declarations before it. -/
theorem InTurn.exists_declaration {blocks : List (Option Declaration)}
    {front back : List Declaration} {d : Declaration} (h : InTurn ReadBlock blocks run rest)
    (hds : blocks.filterMap id = front ++ d :: back) :
    ∃ pre u post, run = pre ++ u ++ post ∧ d.ReadFrom u (post ++ rest) ∧
      ∀ c ∈ front, ∃ v rest', v <:+: pre ∧ c.ReadFrom v rest' := by
  induction h generalizing front with
  | nil => simp at hds
  | @cons block blocks u v rest hblock hs ih =>
    cases block with
    | none =>
      obtain ⟨pre, w, post, rfl, hd, hfront⟩ := ih hds
      refine ⟨u ++ pre, w, post, by simp, hd, fun c hc => ?_⟩
      obtain ⟨x, rest', hx, hread⟩ := hfront c hc
      exact ⟨x, rest', hx.trans (List.suffix_append u pre).isInfix, hread⟩
    | some c =>
      cases front with
      | nil =>
        obtain ⟨rfl, -⟩ := List.cons_eq_cons.mp hds
        exact ⟨[], u, v, rfl, hblock, by simp⟩
      | cons b front =>
        obtain ⟨rfl, hback⟩ := List.cons_eq_cons.mp hds
        obtain ⟨pre, w, post, rfl, hd, hfront⟩ := ih hback
        refine ⟨u ++ pre, w, post, by simp, hd, List.forall_mem_cons.mpr ⟨?_, fun b hb => ?_⟩⟩
        · exact ⟨u, _, (List.prefix_append u pre).isInfix, hblock⟩
        · obtain ⟨x, rest', hx, hread⟩ := hfront b hb
          exact ⟨x, rest', hx.trans (List.suffix_append u pre).isInfix, hread⟩

end GrammarText
