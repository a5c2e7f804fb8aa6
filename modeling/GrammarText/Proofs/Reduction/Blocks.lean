import GrammarText.Proofs.Reduction.Parametric
import GrammarText.Proofs.Reduction.Readings

/-!
# Texts block by block

A text is blocks one after another: declarations and blank lines.  `Tree.MeanBlocks` says what the
trees of some blocks mean when nothing was gathered before them.  Such blocks leave nothing
gathered, so what two groups of blocks mean is what the groups mean (`MeanBlocks.append`), and the
declarations of a text are those of its blocks (`Tree.exists_declarations_iff`).
-/

namespace GrammarText

open List (Forall₂)

variable {close : Nat} {run rest : List Token} {ts us vs : List Tree}
  {blocks bs cs : List (Option Declaration)}

/-! ## What blocks mean -/

/-- Trees mean blocks, where nothing was gathered before them, and leave nothing gathered. -/
def Tree.MeanBlocks (us : List Tree) (blocks : List (Option Declaration)) : Prop :=
  (visitAll Reduction.visitor us).run.run .none = (.ok (blocks.map .block), .none)

namespace Tree

theorem MeanBlocks.append (hu : MeanBlocks us bs) (hv : MeanBlocks vs cs) :
    MeanBlocks (us ++ vs) (bs ++ cs) := by
  unfold MeanBlocks at hu hv ⊢
  -- The second group starts with nothing gathered, as the first one leaves nothing.
  rw [visitAll_append, ExceptT.run_bind, StateT.run_bind, hu]
  show ((visitAll Reduction.visitor vs >>= _).run.run .none) = _
  rw [ExceptT.run_bind, StateT.run_bind, hv, List.map_append]
  rfl

/-- Blocks that are derived from tokens mean what was read from these tokens, or there is an error.
-/
theorem exists_meanBlocks (h : Derives .builtin close (.rounds (.rule .block)) run rest us)
    {ps : List Phrase} {g' : Gathered}
    (hrun : (visitAll Reduction.visitor us).run.run .none = (.ok ps, g')) :
    ∃ blocks, ps = blocks.map .block ∧ MeanBlocks us blocks ∧ InTurn ReadBlock blocks run rest := by
  have hread := h.read trivial (g := .none)
  rw [Ends, hrun] at hread
  obtain ⟨blocks, rfl, hblocks⟩ := exists_of_blockRounds hread
  obtain ⟨rfl, hturn⟩ := hblocks rfl
  exact ⟨blocks, rfl, hrun, hturn⟩

theorem MeanBlocks.inTurn (h : MeanBlocks us blocks)
    (hd : Derives .builtin close (.rounds (.rule .block)) run rest us) :
    InTurn ReadBlock blocks run rest := by
  obtain ⟨bs, hbs, -, hturn⟩ := exists_meanBlocks hd h
  have hinj : Function.Injective Phrase.block := fun _ _ heq => Phrase.block.inj heq
  obtain rfl := List.map_injective_iff.mpr hinj hbs
  exact hturn

/-- Line breaks are blank blocks, whatever comes after them. -/
theorem exists_blanks (close : Nat) (rest : List Token) {breaks : List Token}
    (hall : ∀ t ∈ breaks, t.lexeme = .newline) :
    ∃ us, Derives .builtin close (.rounds (.rule .block)) breaks rest us ∧
      MeanBlocks us (breaks.map fun _ => none) := by
  induction breaks with
  | nil => exact ⟨[], .done, rfl⟩
  | cons t breaks ih =>
    rw [List.forall_mem_cons] at hall
    obtain ⟨us, hus, hmean⟩ := ih hall.2
    have hleaf : Derives .builtin close (.item (.token .newline)) [t] ([] ++ (breaks ++ rest))
        [.token t] := .one (.leaf rfl (Wanted.accepts_newline hall.1))
    have hblock : Derives .builtin close (.matcher (.rule .block)) [t] (breaks ++ rest)
        [.node (.over close .block 0 [t] (breaks ++ rest)) [.token t]] :=
      .rule rfl (.here (.cons hleaf .nil))
    have hblank : MeanBlocks [.node (.over close .block 0 [t] (breaks ++ rest)) [.token t]]
        [none] := rfl
    exact ⟨_, .round hblock hus, hblank.append hmean⟩

variable {T N : Span → Span → Prop}

/-- What is alike to blocks is blocks. -/
theorem exists_of_alike_blocks {qs : List Phrase}
    (h : Forall₂ (Phrase.Alike T N) (blocks.map .block) qs) :
    ∃ bs, qs = bs.map .block ∧ Forall₂ (Option.Rel (Declaration.Alike T N)) blocks bs := by
  induction blocks generalizing qs with
  | nil =>
    obtain rfl := List.forall₂_nil_left_iff.mp h
    exact ⟨[], rfl, .nil⟩
  | cons block blocks ih =>
    obtain ⟨q, qs, hq, hqs, rfl⟩ := List.forall₂_cons_left_iff.mp h
    obtain ⟨bs, rfl, hbs⟩ := ih hqs
    cases hq with
    | @block _ b hb => exact ⟨b :: bs, rfl, .cons hb hbs⟩
    | same hp => cases hp

/-- Phrases that are alike to blocks, with nothing gathered, are the meaning of blocks. -/
theorem exists_meanBlocks_of_alike {qs : List Phrase} {g' : Gathered}
    (hrun : (visitAll Reduction.visitor vs).run.run .none = (.ok qs, g'))
    (hqs : Forall₂ (Phrase.Alike T N) (blocks.map .block) qs) (hg : Gathered.none.Alike T N g') :
    ∃ bs, MeanBlocks vs bs ∧ Forall₂ (Option.Rel (Declaration.Alike T N)) blocks bs := by
  obtain ⟨bs, rfl, hbs⟩ := exists_of_alike_blocks hqs
  refine ⟨bs, ?_, hbs⟩
  obtain ⟨xs, ss⟩ := g'
  obtain rfl : xs = [] := List.forall₂_nil_left_iff.mp hg.1
  obtain rfl : ss = [] := List.forall₂_nil_left_iff.mp hg.2
  exact hrun

/-- Where trees mean blocks, trees that are alike mean blocks that are alike. -/
theorem MeanBlocks.transfer (h : MeanBlocks us blocks) (halike : AllAlike T N us vs) :
    ∃ bs, MeanBlocks vs bs ∧ Forall₂ (Option.Rel (Declaration.Alike T N)) blocks bs := by
  have hruns := visitAll_alike halike .none .none ⟨.nil, .nil⟩
  rw [h] at hruns
  cases hrun : (visitAll Reduction.visitor vs).run.run .none with
  | mk answer g' =>
    rw [hrun] at hruns
    cases answer with
    | error e => exact hruns.elim
    | ok qs => exact exists_meanBlocks_of_alike hrun hruns.1 hruns.2

/-! ## Declarations of texts -/

/-- A text means the declarations among its blocks. -/
theorem visit_grammar {n : Node} (hn : n.rule = .grammar) (us : List Tree) (e : Token) :
    (Tree.node n [.repeated us, .token e]).visit Reduction.visitor =
      (do
        let ps ← visitAll Reduction.visitor us
        return .declarations (ps.filterMap fun
          | .block d => d
          | _ => none)) := by
  obtain ⟨r, k, start, stop⟩ := n
  obtain rfl : r = .grammar := hn
  simp only [Tree.visit, visitAll, bind_assoc, pure_bind]
  rfl

/-- What is parsed is blocks and the end of the text. -/
theorem exists_blocks_of_ofTokens {tokens : List Token} {t : Tree} (h : ofTokens tokens = .ok t) :
    ∃ body e rest n us, tokens = body ++ e :: rest ∧ e.isEof = true ∧ atEnd rest = true ∧
      n.rule = .grammar ∧ t = .node n [.repeated us, .token e] ∧
      Derives .builtin (closeOf tokens) (.rounds (.rule .block)) body (e :: rest) us := by
  obtain ⟨taken, rest, htokens, hend, hd⟩ := ofTokens_ok_iff.mp h
  obtain ⟨body, e, ts, rfl, he, hnode, hbody⟩ := Description.builtin_orderly.start_iff.mp hd
  obtain ⟨us, rfl, hus⟩ := Derives.star_iff.mp hbody
  obtain rfl := List.singleton_inj.mp hnode
  exact ⟨body, e, rest, _, us, by simpa using htokens, he, hend, rfl, rfl, hus⟩

/-- Blocks and the end of a text mean the declarations among the blocks, and leave nothing gathered.
-/
theorem MeanBlocks.reduce (h : MeanBlocks us blocks) {n : Node} (hn : n.rule = .grammar)
    (e : Token) : (Tree.node n [.repeated us, .token e]).reduce .none =
      (.ok (.declarations (blocks.filterMap id)), .none) := by
  rw [Tree.reduce, visit_grammar hn, ExceptT.run_bind, StateT.run_bind, h]
  show (Except.ok (Phrase.declarations ((blocks.map Phrase.block).filterMap _)), _) = _
  rw [List.filterMap_map]
  rfl

/-- What is parsed has declarations, where it means anything, and they are those of its blocks. -/
theorem exists_meanBlocks_of_reduce {tokens : List Token} {t : Tree} (h : ofTokens tokens = .ok t)
    {p : Phrase} (hp : (t.reduce .none).1 = .ok p) :
    ∃ body e rest us blocks, tokens = body ++ e :: rest ∧ e.isEof = true ∧ atEnd rest = true ∧
      Derives .builtin (closeOf tokens) (.rounds (.rule .block)) body (e :: rest) us ∧
      MeanBlocks us blocks ∧ t.reduce .none = (.ok (.declarations (blocks.filterMap id)), .none) := by
  obtain ⟨body, e, rest, n, us, htokens, he, hend, hn, rfl, hus⟩ := exists_blocks_of_ofTokens h
  rw [reduce, visit_grammar hn, ExceptT.run_bind, StateT.run_bind] at hp
  cases hrun : (visitAll Reduction.visitor us).run.run .none with
  | mk answer g' =>
    rw [hrun] at hp
    cases answer with
    | error e => cases hp
    | ok ps =>
      obtain ⟨blocks, rfl, hmean, -⟩ := exists_meanBlocks hus hrun
      exact ⟨body, e, rest, us, blocks, htokens, he, hend, hus, hmean, hmean.reduce hn e⟩

/-- A list of tokens has declarations just if blocks are derived from what comes before the end of
the text, and then they are those of the blocks. -/
theorem exists_declarations_iff_blocks {tokens : List Token} {ds : List Declaration} :
    (∃ t, ofTokens tokens = .ok t ∧ t.declarations = .ok ds) ↔
      ∃ body e rest us blocks, tokens = body ++ e :: rest ∧ e.isEof = true ∧ atEnd rest = true ∧
        Derives .builtin (closeOf tokens) (.rounds (.rule .block)) body (e :: rest) us ∧
        MeanBlocks us blocks ∧ ds = blocks.filterMap id := by
  constructor
  · rintro ⟨t, ht, hds⟩
    have hp : ∃ p, (t.reduce .none).1 = .ok p := by
      cases hr : (t.reduce .none).1 with
      | ok p => exact ⟨p, rfl⟩
      | error e => simp [declarations, hr] at hds
    obtain ⟨p, hp⟩ := hp
    obtain ⟨body, e, rest, us, blocks, htokens, he, hend, hus, hmean, hreduce⟩ :=
      exists_meanBlocks_of_reduce ht hp
    rw [declarations, hreduce] at hds
    exact ⟨body, e, rest, us, blocks, htokens, he, hend, hus, hmean, (Except.ok.inj hds).symm⟩
  · rintro ⟨body, e, rest, us, blocks, htokens, he, hend, hus, hmean, rfl⟩
    have hderives := Description.builtin_orderly.start_iff.mpr
      ⟨body, e, [.repeated us], rfl, he, rfl, .star hus⟩
    refine ⟨_, ofTokens_ok_iff.mpr ⟨body ++ [e], rest, by simpa using htokens, hend, hderives⟩, ?_⟩
    rw [declarations, List.singleton_append, hmean.reduce rfl]

/-- The declarations of a list of tokens are those of the blocks that are derived from it. -/
theorem exists_declarations_iff {tokens : List Token} (hend : Ended tokens)
    {ds : List Declaration} :
    (∃ t, ofTokens tokens = .ok t ∧ t.declarations = .ok ds) ↔
      ∃ body e us blocks, tokens = body ++ [e] ∧ e.isEof = true ∧
        Derives .builtin (closeOf tokens) (.rounds (.rule .block)) body [e] us ∧
        MeanBlocks us blocks ∧ ds = blocks.filterMap id := by
  rw [exists_declarations_iff_blocks]
  constructor
  · rintro ⟨body, e, rest, us, blocks, htokens, he, -, hus, hmean, hds⟩
    obtain rfl := hend.eq_nil_of_isEof he htokens
    exact ⟨body, e, us, blocks, htokens, he, hus, hmean, hds⟩
  · rintro ⟨body, e, us, blocks, htokens, he, hus, hmean, hds⟩
    exact ⟨body, e, [], us, blocks, htokens, he, rfl, hus, hmean, hds⟩

end Tree
end GrammarText
