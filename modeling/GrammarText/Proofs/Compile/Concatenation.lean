import GrammarText.Proofs.Parsing.Seams
import GrammarText.Proofs.Reduction.Blocks
import GrammarText.Proofs.Reduction.Moved

/-!
# Texts one after another

Two texts that have declarations have them also as one text with an empty line between them
(`declarationsOf_append`).  The stages are taken one by one: the tokens of the whole are those of
the parts (`tokensOf_append`), as no bracketed prose is left open in the first part; the two line
breaks come in the place of the end of the first part or are blank lines (`exists_blocks_append`);
and what the blocks of a part mean does not depend on where they stand (`exists_blocks_shift`).
-/

namespace GrammarText

open List (Forall₂)
open Text (byteLength)

variable {a b : String} {ts us run rest breaks : List Token} {k last close close' : Nat}

/-! ## Tokens -/

/-- Before the end of the text each token stops behind those before it. -/
theorem Scans.pairwise_stop {o : Nat} {cs : List Char} {e : Token} (h : Scans o cs (run ++ [e])) :
    run.Pairwise fun t u => t.stop < u.stop := by
  have hends := h.ended.isEof_of_append rfl (List.cons_ne_nil e [])
  refine (List.pairwise_append.mp h.pairwise).1.imp_of_mem fun {t u} _ hu hle => ?_
  have hlt := (h.bounds u (List.mem_append_left _ hu)).2.2 (hends u hu)
  exact Nat.lt_of_le_of_lt hle hlt

/-- Two texts with an empty line between them have the tokens of both and two line breaks, if the
first one can be parsed. -/
theorem tokensOf_append {t : Tree} (ha : tokensOf a = .ok ts) (ht : Tree.ofTokens ts = .ok t)
    (hb : tokensOf b = .ok us) :
    ∃ breaks : List Token, breaks.length = 2 ∧ (∀ t ∈ breaks, t.lexeme = .newline) ∧
      tokensOf (a ++ "\n\n" ++ b) =
        .ok (ts.dropLast ++ (breaks ++ us.map (·.shift (byteLength a.toList + 2)))) := by
  have hts := tokensOf_ok_iff.mp ha
  have hus := tokensOf_ok_iff.mp hb
  have hsecond : Scans (0 + byteLength a.toList + 1 + 1) b.toList
      (us.map (·.shift (byteLength a.toList + 2))) := by
    have hshift := hus.shift (byteLength a.toList + 2)
    rw [Nat.add_assoc (0 + byteLength a.toList), Nat.add_assoc 0]
    exact hshift
  have hbreaks : Scans (0 + byteLength a.toList) ('\n' :: '\n' :: b.toList) _ :=
    .token (stands_newline _) (.token (stands_newline _) hsecond)
  -- A bracket right before prose would be read as bracketed prose that is left open.
  have hno : ∀ pre t u post, ts = pre ++ t :: u :: post →
      t.lexeme = .reserved .openBracket → u.kind ≠ .prose := by
    rintro pre t u post rfl
    exact (List.isChain_append_cons_cons.mp (Tree.untorn_of_ofTokens hts.ended ht)).2.1
  have hscan := hts.append_break hno hbreaks
  refine ⟨[_, _], rfl, ?_, tokensOf_ok_iff.mpr (by simpa using hscan)⟩
  simp

/-! ## Blocks -/

/-- Blocks before the end of a text and blocks after two line breaks are blocks of one text. -/
theorem exists_blocks_append {e : Token} {v : List Token} {xs ys : List Tree}
    {bs cs : List (Option Declaration)} (he : e.isEof = true)
    (hxs : Derives .builtin close (.rounds (.rule .block)) run [e] xs)
    (hbs : Tree.MeanBlocks xs bs) (hlast : ∀ t, run.getLast? = some t → t.stop = last)
    (hlength : breaks.length = 2) (hall : ∀ t ∈ breaks, t.lexeme = .newline)
    (hys : Derives .builtin close' (.rounds (.rule .block)) v rest ys)
    (hcs : Tree.MeanBlocks ys cs) :
    ∃ zs bs' blanks,
      Derives .builtin close' (.rounds (.rule .block)) (run ++ (breaks ++ v)) rest zs ∧
      Tree.MeanBlocks zs (bs' ++ (blanks ++ cs)) ∧ blanks.filterMap id = [] ∧
      Forall₂ (Option.Rel (Declaration.Alike Eq (Stretched last))) bs bs' := by
  obtain ⟨n, hn, htrade⟩ := hxs.trade ⟨e, rfl, he⟩ trivial apt_blocks rfl hlast
  have hn : n ≤ 2 := hn
  -- The first breaks end the last block, and the others are blank lines.
  obtain ⟨xs', hxs', halike⟩ := htrade (breaks.take n) (breaks.drop n ++ (v ++ rest)) close'
    (by rw [List.length_take, hlength, Nat.min_eq_left hn])
    fun t ht => hall t (List.mem_of_mem_take ht)
  obtain ⟨ws, hws, hblanks⟩ := Tree.exists_blanks close' (v ++ rest)
    fun t ht => hall t (List.mem_of_mem_drop (i := n) ht)
  obtain ⟨bs', hbs', hrel⟩ := hbs.transfer halike
  have hmore := hws.rounds_append hys
  rw [← List.append_assoc] at hxs'
  have hzs := hxs'.rounds_append hmore
  refine ⟨_, bs', _, ?_, hbs'.append (hblanks.append hcs), ?_, hrel⟩
  · have hrun : run ++ breaks.take n ++ (breaks.drop n ++ v) = run ++ (breaks ++ v) := by
      rw [List.append_assoc, ← List.append_assoc (breaks.take n), List.take_append_drop]
    rwa [hrun] at hzs
  · simp

/-- Blocks that stand farther on mean the same declarations, farther on. -/
theorem exists_blocks_shift {e : Token} {ys : List Tree} {cs : List (Option Declaration)}
    (k close' : Nat) (hys : Derives .builtin close (.rounds (.rule .block)) run [e] ys)
    (hcs : Tree.MeanBlocks ys cs) :
    ∃ ys' cs',
      Derives .builtin close' (.rounds (.rule .block)) (run.map (·.shift k)) [e.shift k] ys' ∧
      Tree.MeanBlocks ys' cs' ∧ cs'.filterMap id = (cs.filterMap id).map (·.shift k) := by
  have hends : EndsWith [e] [e.shift k] := by
    intro f hf heof
    obtain rfl : e = f := by simpa using hf
    exact ⟨_, rfl, heof⟩
  obtain ⟨ys', hys', halike⟩ := hys.transfer (fun _ _ hne hu => shifted_over hne hu) trivial
    apt_blocks (forall₂_alike_shift k run) fun _ => hends
  obtain ⟨cs', hcs', hrel⟩ := hcs.transfer halike
  have hdeclarations : Forall₂ (Declaration.Alike (Shifted k) (Shifted k)) (cs.filterMap id)
      (cs'.filterMap id) := List.rel_filterMap (fun _ _ hblock => hblock) hrel
  exact ⟨ys', cs', hys', hcs', eq_map_of_forall₂ (f := (Declaration.shift · k))
    (fun _ _ hd => (Declaration.eq_shift_of_alike hd).symm) hdeclarations⟩

/-! ## Declarations -/

/-- Sources compose.  Two texts that have declarations, with an empty line between them, have those
of the first and then those of the second, which stand farther on by the bytes before them.  Only
the last declaration of the first text, and its last line, may end elsewhere. -/
theorem declarationsOf_append {da db : List Declaration} (ha : declarationsOf a = .ok da)
    (hb : declarationsOf b = .ok db) :
    ∃ da', declarationsOf (a ++ "\n\n" ++ b) =
        .ok (da' ++ db.map (·.shift (byteLength a.toList + 2))) ∧
      AgreeButLast Declaration.AgreesButEnd da da' := by
  obtain ⟨ts, hts, t, ht, hda⟩ := declarationsOf_ok_iff.mp ha
  obtain ⟨us, hus, u, hu, hdb⟩ := declarationsOf_ok_iff.mp hb
  have hscan := tokensOf_ok_iff.mp hts
  -- The tokens of the whole text, and the blocks of both parts.
  obtain ⟨breaks, hlength, hall, htokens⟩ := tokensOf_append hts ht hus
  obtain ⟨run, e, xs, bs, rfl, he, hxs, hbs, rfl⟩ :=
    (Tree.exists_declarations_iff hscan.ended).mp ⟨t, ht, hda⟩
  obtain ⟨v, f, ys, cs, rfl, hf, hys, hcs, rfl⟩ :=
    (Tree.exists_declarations_iff (tokensOf_ok_iff.mp hus).ended).mp ⟨u, hu, hdb⟩
  have hlast : ∀ t, run.getLast? = some t → t.stop = (run.getLast?.map Token.stop).getD 0 := by
    intro t ht
    rw [ht]
    rfl
  rw [List.dropLast_concat, List.map_append, List.map_singleton, ← List.append_assoc breaks,
    ← List.append_assoc run] at htokens
  -- The blocks of the second part move on, and those of the first part come before them.
  obtain ⟨ys', cs', hys', hcs', hdeclarations⟩ :=
    exists_blocks_shift (byteLength a.toList + 2)
      (closeOf (run ++ (breaks ++ v.map _) ++ [f.shift _])) hys hcs
  obtain ⟨zs, bs', blanks, hzs, hmean, hblanks, hrel⟩ :=
    exists_blocks_append he hxs hbs hlast hlength hall hys' hcs'
  refine ⟨bs'.filterMap id, declarationsOf_ok_iff.mpr ⟨_, htokens, ?_⟩, ?_⟩
  · refine (Tree.exists_declarations_iff (tokensOf_ok_iff.mp htokens).ended).mpr
      ⟨_, f.shift _, zs, _, rfl, hf, hzs, hmean, ?_⟩
    rw [List.filterMap_append, List.filterMap_append, hblanks, hdeclarations, List.nil_append]
  · exact agreeButLast_of_alike (hbs.inTurn hxs) hscan.pairwise_stop hlast hrel

/-- Two texts without a line break at the end compose.  The first one has a character of two bytes
and the second one has prose over two lines. -/
theorem declarationsOf_append_unended :
    let a := "A:\n\t\x60\u00e9\x60"
    let b := "B:\n\t[> y\nz]"
    let da : List Declaration :=
      [⟨"A", ":", .alternatives [.symbols [.terminal "\u00e9"]], ⟨0, 1⟩, ⟨0, 8⟩, [("\u00e9", ⟨4, 8⟩)],
        [⟨4, 8⟩]⟩]
    let db : List Declaration :=
      [⟨"B", ":", .alternatives [.prose "y\nz"], ⟨0, 1⟩, ⟨0, 11⟩, [], [⟨4, 11⟩]⟩]
    declarationsOf a = .ok da ∧ declarationsOf b = .ok db ∧
      ∃ da', declarationsOf (a ++ "\n\n" ++ b) =
          .ok (da' ++ db.map (·.shift (byteLength a.toList + 2))) ∧
        AgreeButLast Declaration.AgreesButEnd da da' := by
  intro a b da db
  have hok : ∀ text ds, (declarationsOf text).toOption = some ds → declarationsOf text = .ok ds := by
    intro text ds h
    cases hds : declarationsOf text with
    | ok ds' =>
      rw [hds] at h
      exact congrArg Except.ok (Option.some.inj h)
    | error e =>
      rw [hds] at h
      cases h
  have ha : declarationsOf a = .ok da := hok a da (by decide +kernel)
  have hb : declarationsOf b = .ok db := hok b db (by decide +kernel)
  exact ⟨ha, hb, declarationsOf_append ha hb⟩

end GrammarText
