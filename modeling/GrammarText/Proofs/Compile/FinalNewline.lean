import GrammarText.Proofs.Assembly.Placeless
import GrammarText.Proofs.Compile.Concatenation
import GrammarText.Proofs.Parsing.Shed

/-!
# The final newline

Line breaks at the end of a text never matter (`compile_newlines`).  One more line break is one more
token before the end (`scans_newline_iff`).  As the last token of some blocks, it is a blank line or
ends what the end of the text ends as well, so the blocks mean the same declarations without it
(`MeanDeclarations.shed`) and, as line breaks may come in the place of the end of a text, with it
(`MeanDeclarations.extend`).  Only places change, and assembly does not look at these.
-/

namespace GrammarText

open List (Forall₂)
open Text (byteLength)

variable {cs rest : List Char} {o close close' : Nat} {e e' t : Token} {run body : List Token}
  {us vs : List Tree} {ds : List Declaration}

/-! ## Tokens -/

/-- Prose in brackets that is left open stays open at a line break that ends the text. -/
theorem reachWrappedProse_newline (cs : List Char) :
    Kind.reachWrappedProse (cs ++ ['\n']) = Kind.reachWrappedProse cs := by
  by_cases hclosed : 0 < Kind.reachWrappedProse cs
  · exact reachWrappedProse_break hclosed []
  · rw [Nat.eq_zero_of_not_pos hclosed]
    refine Nat.eq_zero_of_not_pos fun hpos => hclosed ?_
    obtain ⟨prose, hprose, hno⟩ := isWrappedProse_take hpos
    -- The bracket that closes the prose is not the line break, so it stands before that.
    have hprefix : '[' :: '>' :: (prose ++ [']']) <+: cs ++ ['\n'] := hprose ▸ List.take_prefix _ _
    rcases List.prefix_concat_iff.mp hprefix with heq | ⟨more, rfl⟩
    · have hlast := congrArg List.getLast? heq
      simp [List.getLast?_cons] at hlast
    · have hreach := reachWrappedProse_closed hno more
      simp only [List.cons_append, List.append_assoc, List.nil_append]
      omega

/-- A line break at the end of a text changes no lexeme before it. -/
theorem matchAt_newline (hne : cs ≠ []) : matchAt (cs ++ ['\n']) = matchAt cs := by
  refine farthest_congr (fun k => ?_) Kind.all
  by_cases hk : k = .wrappedProse
  · subst hk
    exact reachWrappedProse_newline cs
  · exact reach_break hne hk []

theorem Lexeme.Stands.newline_iff {l : Lexeme} (hne : l.text.toList ≠ []) :
    l.Stands (rest ++ ['\n']) ↔ l.Stands rest := by
  rw [Stands, Stands, ← List.append_assoc, matchAt_newline]
  exact List.append_ne_nil_of_left_ne_nil hne rest

/-- What is read at the start of a text with a line break behind it is read in the text. -/
theorem Lexeme.Stands.exists_of_newline {l : Lexeme} (hl : l.Stands rest) (hne : cs ≠ [])
    (h : l.text.toList ++ rest = cs ++ ['\n']) :
    ∃ rest', rest = rest' ++ ['\n'] ∧ cs = l.text.toList ++ rest' := by
  have hmatch := hl
  rw [Stands, h, matchAt_newline hne] at hmatch
  have hreach : l.text.toList.length ≤ cs.length := by
    rw [← reach_of_farthest hmatch]
    exact reach_le_length _ cs
  obtain ⟨rest', rfl⟩ : l.text.toList <+: cs :=
    List.prefix_of_prefix_length_le ⟨rest, h⟩ (List.prefix_append cs ['\n']) hreach
  rw [List.append_assoc] at h
  exact ⟨rest', List.append_cancel_left h, rfl⟩

def Token.endAt (n : Nat) : Token := ⟨.eof, n, n⟩

def Token.newlineAt (n : Nat) : Token := ⟨.newline, n, n + 1⟩

theorem Token.isEof_endAt (n : Nat) : (endAt n).isEof = true := rfl

theorem Token.lexeme_newlineAt (n : Nat) : (newlineAt n).lexeme = .newline := rfl

theorem Scans.newline {ts : List Token} (h : Scans o cs ts) :
    ∃ body, ts = body ++ [.endAt (o + byteLength cs)] ∧ Scans o (cs ++ ['\n'])
      (body ++ [.newlineAt (o + byteLength cs), .endAt (o + byteLength cs + 1)]) := by
  induction h with
  | @done o => exact ⟨[], rfl, .token (stands_newline []) .done⟩
  | separator hc h ih =>
    obtain ⟨body, rfl, hscan⟩ := ih
    rw [Text.byteLength_cons, ← Nat.add_assoc]
    exact ⟨body, rfl, .separator hc hscan⟩
  | @token o l rest ts hl h ih =>
    obtain ⟨body, rfl, hscan⟩ := ih
    rw [Text.byteLength_append, ← Nat.add_assoc, List.append_assoc]
    exact ⟨_ :: body, rfl, .token ((Lexeme.Stands.newline_iff hl.text_ne_nil).mpr hl) hscan⟩

theorem Scans.exists_of_newline {ts : List Token} (h : Scans o (cs ++ ['\n']) ts) :
    ∃ body, Scans o cs (body ++ [.endAt (o + byteLength cs)]) ∧
      ts = body ++ [.newlineAt (o + byteLength cs), .endAt (o + byteLength cs + 1)] := by
  generalize hds : cs ++ ['\n'] = ds at h
  induction h generalizing cs with
  | done => simp at hds
  | @separator o c ds ts hc h ih =>
    cases cs with
    | nil =>
      obtain ⟨rfl, -⟩ := List.cons_eq_cons.mp hds
      cases hc
    | cons c' cs =>
      obtain ⟨rfl, rfl⟩ := List.cons_eq_cons.mp hds
      obtain ⟨body, hscan, rfl⟩ := ih rfl
      rw [Text.byteLength_cons, ← Nat.add_assoc]
      exact ⟨body, .separator hc hscan, rfl⟩
  | @token o l rest ts hl h ih =>
    cases cs with
    | nil =>
      have hscan : Scans o ['\n'] _ := hds ▸ Scans.token hl h
      obtain ⟨us, hus, hend⟩ := (scans_token_iff (stands_newline [])).mp hscan
      rw [hus, scans_nil_iff.mp hend]
      exact ⟨[], .done, rfl⟩
    | cons c cs =>
      obtain ⟨rest', rfl, hcs⟩ := hl.exists_of_newline (List.cons_ne_nil c cs) hds.symm
      obtain ⟨body, hscan, rfl⟩ := ih rfl
      rw [hcs, Text.byteLength_append, ← Nat.add_assoc]
      exact ⟨_ :: body, .token ((Lexeme.Stands.newline_iff hl.text_ne_nil).mp hl) hscan, rfl⟩

/-- A line break at the end of a text is one more token, right before the end. -/
theorem scans_newline_iff {ts : List Token} : Scans o (cs ++ ['\n']) ts ↔
    ∃ body, Scans o cs (body ++ [.endAt (o + byteLength cs)]) ∧
      ts = body ++ [.newlineAt (o + byteLength cs), .endAt (o + byteLength cs + 1)] := by
  refine ⟨Scans.exists_of_newline, ?_⟩
  rintro ⟨body, h, rfl⟩
  obtain ⟨body', hbody, hscan⟩ := h.newline
  rwa [List.append_cancel_right hbody]

/-! ## Blocks -/

def Tree.IsBlank (b : Tree) : Prop :=
  ∃ n t, b = .node n [.token t] ∧ n.rule = .block ∧ n.alternative = 0

/-- A line break at the end of a block is all of it, and this is a blank line, or it ends a
definition. -/
theorem Derives.shed_block
    (h : Derives .builtin close (.matcher (.rule .block)) (run ++ [t]) [e] us) (close' : Nat)
    (ht : t.lexeme = .newline) (he' : e'.isEof = true) :
    (run = [] ∧ ∃ b, us = [b] ∧ b.IsBlank) ∨
      ∃ vs, Derives .builtin close' (.matcher (.rule .block)) run [e'] vs ∧
        Tree.AllAlike Anywhere Anywhere us vs := by
  obtain ⟨alternatives, halternatives, hchoice⟩ := Derives.rule_iff.mp h
  cases halternatives
  obtain ⟨k, is, us, hk, hitems, rfl⟩ := Derives.choice_iff.mp hchoice
  rcases k with _ | _ | k
  · cases hk
    obtain ⟨u, v, us, vs, huv, rfl, hu, hv⟩ := Derives.cons_iff.mp hitems
    obtain ⟨t', -, rfl, rfl⟩ := (Derives.token_iff rfl).mp (Derives.one_iff.mp hu)
    obtain ⟨rfl, rfl⟩ := Derives.nil_iff.mp hv
    obtain ⟨rfl, -⟩ := eq_of_concat_eq_singleton huv
    exact .inl ⟨rfl, _, rfl, _, t', rfl, rfl, rfl⟩
  · cases hk
    have hapt : Description.builtin_orderly.Apt true (.items [Item.rule .definition]) := by
      show Description.apt _ _ true [Item.rule .definition] = true
      decide
    have hsheds : (Part.items [Item.rule .definition]).Sheds :=
      (by decide : Notation.sheds [Item.rule .definition] = true)
    obtain ⟨vs, hvs, halike⟩ :=
      hitems.shed ⟨e, rfl⟩ trivial hapt hsheds run t e' close' rfl ht he'
    exact .inr ⟨_, .rule rfl (.later (.here hvs)), .node rfl rfl trivial halike .nil⟩
  · cases hk

/-- Blocks with a line break at the end are the same blocks without it, or the line break is a blank
line behind them. -/
theorem Derives.shed_blocks
    (h : Derives .builtin close (.rounds (.rule .block)) (run ++ [t]) [e] us)
    (ht : t.lexeme = .newline) (he' : e'.isEof = true) :
    ∃ vs, Derives .builtin close' (.rounds (.rule .block)) run [e'] vs ∧
      (Tree.AllAlike Anywhere Anywhere us vs ∨
        ∃ us' b, us = us' ++ [b] ∧ b.IsBlank ∧ Tree.AllAlike Anywhere Anywhere us' vs) := by
  generalize hp : Part.rounds (.rule .block) = p at h
  generalize htaken : run ++ [t] = taken at h
  generalize hr : [e] = rest at h
  induction h generalizing run with
  | done => simp at htaken
  | @round m u v rest ts us h hs ih ihs =>
    obtain rfl := Part.rounds.inj hp
    subst hr
    rcases List.eq_nil_or_concat' v with rfl | ⟨v', t', rfl⟩
    · -- The line break is in this block, which is the last one.
      obtain rfl := hs.eq_nil_of_rounds (by decide)
      rw [List.append_nil] at htaken
      subst htaken
      rcases h.shed_block close' ht he' with ⟨rfl, b, rfl, hb⟩ | ⟨vs, hvs, halike⟩
      · exact ⟨[], .done, .inr ⟨[], b, rfl, hb, .nil⟩⟩
      · have hround := Derives.round (v := []) hvs .done
        rw [List.append_nil, List.append_nil] at hround
        rw [List.append_nil]
        exact ⟨vs, hround, .inl halike⟩
    · rw [← List.append_assoc] at htaken
      obtain ⟨rfl, hlast⟩ := List.append_inj' htaken rfl
      obtain rfl := List.singleton_inj.mp hlast
      obtain ⟨vs, hvs, halikes⟩ := ihs rfl rfl rfl
      obtain ⟨ts', hts', halike⟩ := h.before close' trivial apt_blocks (endsWith_newline ht)
      refine ⟨ts' ++ vs, .round hts' hvs, ?_⟩
      rcases halikes with halikes | ⟨us', b, rfl, hb, halikes⟩
      · exact .inl (halike.append halikes)
      · exact .inr ⟨ts ++ us', b, (List.append_assoc ..).symm, hb, halike.append halikes⟩
  | _ => cases hp

/-- A blank line means no declaration and leaves what was gathered. -/
theorem Tree.MeanBlocks.exists_of_blank {b : Tree} {blocks : List (Option Declaration)}
    (hb : b.IsBlank) (h : MeanBlocks (us ++ [b]) blocks) :
    ∃ bs, blocks = bs ++ [none] ∧ MeanBlocks us bs := by
  obtain ⟨⟨r, k, start, stop⟩, t, rfl, rfl, rfl⟩ := hb
  rw [MeanBlocks, visitAll_append, ExceptT.run_bind, StateT.run_bind] at h
  cases hrun : (visitAll Reduction.visitor us).run.run .none with
  | mk answer g' =>
    rw [hrun] at h
    cases answer with
    | error e => cases h
    | ok ps =>
      have hblocks : ((Except.ok (ps ++ [.block none]) : Except Diagnostic _), g') =
        (.ok (blocks.map .block), .none) := h
      obtain ⟨hmap, rfl⟩ := Prod.mk.inj hblocks
      obtain ⟨bs, blank, rfl, rfl, hblank⟩ := List.map_eq_append_iff.mp (Except.ok.inj hmap).symm
      obtain rfl : blank = [none] := by simpa using hblank
      exact ⟨bs, rfl, hrun⟩

/-! ## Declarations -/

theorem keys_of_alike {T N : Span → Span → Prop} {blocks bs : List (Option Declaration)}
    (h : Forall₂ (Option.Rel (Declaration.Alike T N)) blocks bs) :
    (bs.filterMap id).map Declaration.key = (blocks.filterMap id).map Declaration.key := by
  have hdeclarations : Forall₂ (Declaration.Alike T N) (blocks.filterMap id) (bs.filterMap id) :=
    List.rel_filterMap (fun _ _ hblock => hblock) h
  exact (Declaration.map_key_eq hdeclarations).symm

/-- Tokens before the end of a text are blocks, and these mean declarations. -/
def MeanDeclarations (close : Nat) (run : List Token) (e : Token) (ds : List Declaration) : Prop :=
  ∃ us blocks, Derives .builtin close (.rounds (.rule .block)) run [e] us ∧
    Tree.MeanBlocks us blocks ∧ ds = blocks.filterMap id

/-- Without a line break at the end the tokens mean the same declarations. -/
theorem MeanDeclarations.shed (h : MeanDeclarations close (run ++ [t]) e ds)
    (ht : t.lexeme = .newline) (he' : e'.isEof = true) (close' : Nat) :
    ∃ es, MeanDeclarations close' run e' es ∧
      es.map Declaration.key = ds.map Declaration.key := by
  obtain ⟨us, blocks, hus, hmean, rfl⟩ := h
  obtain ⟨vs, hvs, halike | ⟨us', b, rfl, hb, halike⟩⟩ := hus.shed_blocks ht he'
  · obtain ⟨bs, hbs, hrel⟩ := hmean.transfer halike
    exact ⟨_, ⟨vs, bs, hvs, hbs, rfl⟩, keys_of_alike hrel⟩
  · obtain ⟨blocks, rfl, hmean'⟩ := hmean.exists_of_blank hb
    obtain ⟨bs, hbs, hrel⟩ := hmean'.transfer halike
    refine ⟨_, ⟨vs, bs, hvs, hbs, rfl⟩, ?_⟩
    rw [keys_of_alike hrel, List.filterMap_append]
    simp

/-- With a line break at the end the tokens mean the same declarations. -/
theorem MeanDeclarations.extend (h : MeanDeclarations close run e ds) (he : e.isEof = true)
    (ht : t.lexeme = .newline) (he' : e'.isEof = true) (close' : Nat) :
    ∃ es, MeanDeclarations close' (run ++ [t]) e' es ∧
      es.map Declaration.key = ds.map Declaration.key := by
  obtain ⟨us, blocks, hus, hmean, rfl⟩ := h
  have hlast : ∀ s, run.getLast? = some s → s.stop = (run.getLast?.map Token.stop).getD 0 := by
    intro s hs
    rw [hs]
    rfl
  -- Two line breaks may come behind the tokens, and then the second one may go.
  have hbreaks : ∀ s ∈ [t, t], s.lexeme = .newline := by simpa using ht
  have hdone : Derives .builtin close' (.rounds (.rule .block)) [] [e'] [] := .done
  have hnone : Tree.MeanBlocks [] [] := rfl
  obtain ⟨zs, bs, blanks, hzs, hbs, hblanks, hrel⟩ :=
    exists_blocks_append he hus hmean hlast rfl hbreaks hdone hnone
  have hmore : MeanDeclarations close' (run ++ [t] ++ [t]) e' (bs.filterMap id) := by
    refine ⟨zs, _, by simpa using hzs, hbs, ?_⟩
    rw [List.filterMap_append, List.append_nil, hblanks, List.append_nil]
  obtain ⟨es, hes, hkeys⟩ := hmore.shed ht he' close'
  exact ⟨es, hes, hkeys.trans (keys_of_alike hrel)⟩

/-- A text has declarations where its tokens before the end mean them. -/
theorem declarationsOf_iff {text : String} : declarationsOf text = .ok ds ↔
    ∃ run e, Scans 0 text.toList (run ++ [e]) ∧ e.isEof = true ∧
      MeanDeclarations (closeOf (run ++ [e])) run e ds := by
  rw [declarationsOf_ok_iff]
  constructor
  · rintro ⟨tokens, htokens, hmean⟩
    have hscan := tokensOf_ok_iff.mp htokens
    obtain ⟨run, e, us, blocks, rfl, he, hus, hblocks, rfl⟩ :=
      (Tree.exists_declarations_iff hscan.ended).mp hmean
    exact ⟨run, e, hscan, he, us, blocks, hus, hblocks, rfl⟩
  · rintro ⟨run, e, hscan, he, us, blocks, hus, hblocks, rfl⟩
    refine ⟨_, tokensOf_ok_iff.mpr hscan, (Tree.exists_declarations_iff hscan.ended).mpr ?_⟩
    exact ⟨run, e, us, blocks, rfl, he, hus, hblocks, rfl⟩

/-- With a line break at the end a text has the same declarations, but for their places. -/
theorem declarationsOf_newline (text : String) (keys : List (String × String × Definition)) :
    (∃ ds, declarationsOf (text ++ "\n") = .ok ds ∧ ds.map Declaration.key = keys) ↔
      ∃ ds, declarationsOf text = .ok ds ∧ ds.map Declaration.key = keys := by
  have hnewline : (text ++ "\n").toList = text.toList ++ ['\n'] := String.toList_append
  simp only [declarationsOf_iff, hnewline]
  constructor
  · rintro ⟨ds, ⟨run, e, hscan, he, hmean⟩, rfl⟩
    obtain ⟨body, hbody, hrun⟩ := scans_newline_iff.mp hscan
    obtain ⟨rfl, -⟩ := List.append_inj' (hrun.trans (List.append_cons ..)) rfl
    obtain ⟨es, hes, hkeys⟩ := hmean.shed (Token.lexeme_newlineAt _) (Token.isEof_endAt _) _
    exact ⟨es, ⟨body, _, hbody, rfl, hes⟩, hkeys⟩
  · rintro ⟨ds, ⟨run, e, hscan, he, hmean⟩, rfl⟩
    obtain ⟨body, hrun, hscan'⟩ := hscan.newline
    obtain ⟨rfl, -⟩ := List.append_inj' hrun rfl
    rw [List.append_cons run] at hscan'
    obtain ⟨es, hes, hkeys⟩ :=
      hmean.extend he (Token.lexeme_newlineAt _) (Token.isEof_endAt _) _
    exact ⟨es, ⟨_, _, hscan', rfl, hes⟩, hkeys⟩

/-! ## Grammars -/

/-- A grammar depends on the names, separators and definitions of its declarations only. -/
theorem compile_ok_iff_keys {text : String} {options : Options} {g : Grammar} :
    compile text options = .ok g ↔ ∃ keys, (∃ ds, declarationsOf text = .ok ds ∧
      ds.map Declaration.key = keys) ∧ ∃ es, es.map Declaration.key = keys ∧
        assemble es options.goals = .ok g := by
  rw [compile_ok_iff]
  constructor
  · rintro ⟨ds, hds, hg⟩
    exact ⟨_, ⟨ds, hds, rfl⟩, ds, rfl, hg⟩
  · rintro ⟨_, ⟨ds, hds, rfl⟩, es, hkeys, hg⟩
    have halike := assemble_alike options.goals hkeys
    rw [hg] at halike
    refine ⟨ds, hds, ?_⟩
    cases hassemble : assemble ds options.goals with
    | ok g' =>
      rw [hassemble] at halike
      exact congrArg Except.ok (Eq.symm halike)
    | error f =>
      rw [hassemble] at halike
      exact halike.elim

theorem compile_newline (text : String) (options : Options) (g : Grammar) :
    compile (text ++ "\n") options = .ok g ↔ compile text options = .ok g := by
  simp only [compile_ok_iff_keys, declarationsOf_newline]

/-- The final newline never matters.  A text compiles to a grammar with a line break at its end
where it does so without it, and so it does with any number of line breaks at its end. -/
theorem compile_newlines (text : String) (options : Options) (g : Grammar) :
    (compile (text ++ "\n") options = .ok g ↔ compile text options = .ok g) ∧
      ∀ count, compile (text ++ String.ofList (List.replicate count '\n')) options = .ok g ↔
        compile text options = .ok g := by
  refine ⟨compile_newline text options g, fun count => ?_⟩
  induction count with
  | zero => simp
  | succ count ih =>
    rw [List.replicate_succ', String.ofList_append, ← String.append_assoc]
    exact (compile_newline _ options g).trans ih

end GrammarText
