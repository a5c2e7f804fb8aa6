import GrammarText.Proofs.Display.Meanings
import GrammarText.Proofs.Reduction.Readings
import GrammarText.Proofs.Variants.Basic

/-!
# Variants of lookaheads

A set of a lookahead that means something was read from terminals between commas, one token each
(`Derives.exists_tokenSet`), so it may be written in any way that is read as the set of the same
spellings (`Derives.exists_set`): as an inequality if there is one spelling, or with the entries in
another order and any number of times.
-/

namespace GrammarText

variable {close : Nat} {rest taken run u v : List Token} {ts us : List Tree} {g g' : Gathered}
  {ls ms post x s s' xs : List Lexeme}

/-! ## What a set is read from -/

/-- A token spells one thing, which its lexeme tells. -/
theorem Token.Spells.eq_of_lexeme {t u : Token} {s s' : String} (ht : t.Spells s)
    (hu : u.Spells s') (h : t.lexeme = u.lexeme) : s = s' := by
  rw [Token.Spells, h] at ht
  rcases ht with ⟨q, htq, hs⟩ | hts <;> rcases hu with ⟨q', huq, hs'⟩ | hus
  · obtain rfl := Lexeme.terminal.inj (htq.symm.trans huq)
    exact String.toList_injective (Option.some.inj (hs.symm.trans hs'))
  · cases htq.symm.trans hus
  · cases hts.symm.trans huq
  · exact Lexeme.control.inj (hts.symm.trans hus)

/-- An entry that is a single terminal is one token. -/
theorem LookaheadEntry.ReadFrom.exists_of_single {e : LookaheadEntry} {s : String}
    (h : e.ReadFrom run) (hs : e.single? = some s) : ∃ t, run = [t] ∧ t.Spells s := by
  obtain ⟨elements, span⟩ := e
  obtain ⟨hturn, -, -⟩ := h
  obtain rfl : elements = [.terminal s] := by
    match elements, hs with
    | [.terminal _], rfl => rfl
  cases hturn with
  | cons hx hs =>
    cases hs
    obtain ⟨t, rfl, ht⟩ := hx
    exact ⟨t, rfl, ht⟩

/-- Where a set is made of some entries, these are single terminals. -/
theorem exists_singles {es : List LookaheadEntry} {ps : List Phrase} {r : List String × List Phrase}
    (h : (StateT.run (Reduction.singleTokens es) ps).run.run g = (.ok r, g')) :
    ∃ ss : List String, es.map LookaheadEntry.single? = ss.map some := by
  induction es generalizing g g' r with
  | nil => exact ⟨[], rfl⟩
  | cons e es ih =>
    rw [Reduction.singleTokens] at h
    cases hs : e.single? with
    | none =>
      rw [hs] at h
      cases h
    | some s =>
      rw [hs, StateT.run_bind] at h
      obtain ⟨r₁, g₁, hes, -⟩ := exists_of_run_bind h
      obtain ⟨ss, hss⟩ := ih hes
      exact ⟨s :: ss, by rw [List.map_cons, hs, hss, List.map_cons]⟩

/-- Entries behind commas that are single terminals are tokens behind commas. -/
theorem exists_tokens_of_entries {es : List LookaheadEntry} {ss : List String}
    (h : InTurn (fun e u _ => ∃ t more, u = t :: more ∧ t.lexeme = .reserved .comma ∧
      LookaheadEntry.ReadFrom e more) es run rest)
    (hss : es.map LookaheadEntry.single? = ss.map some) :
    ∃ xs : List (Token × String), xs.map Prod.snd = ss ∧ (∀ x ∈ xs, x.1.Spells x.2) ∧
      run.map Token.lexeme = xs.flatMap fun x => [.reserved .comma, x.1.lexeme] := by
  induction h generalizing ss with
  | nil =>
    obtain rfl := List.map_eq_nil_iff.mp hss.symm
    exact ⟨[], rfl, by simp, rfl⟩
  | cons he hes ih =>
    cases ss with
    | nil => cases hss
    | cons s ss =>
      obtain ⟨hs, hss⟩ := List.cons_eq_cons.mp hss
      obtain ⟨xs, rfl, hxs, hrun⟩ := ih hss
      obtain ⟨c, more, rfl, hc, he⟩ := he
      obtain ⟨t, rfl, ht⟩ := he.exists_of_single hs
      exact ⟨(t, s) :: xs, rfl, List.forall_mem_cons.mpr ⟨ht, hxs⟩, by simp [hc, hrun]⟩

/-- A set that means something is a set of terminals, by their spellings. -/
theorem Derives.exists_tokenSet {is : List Item} {start stop : Nat} {p : Phrase}
    (his : (Notation.alternatives .lookahead)[2]? = some is)
    (h : Derives .builtin close (.items is) run rest us)
    (hrun : ((Tree.node ⟨.lookahead, 2, start, stop⟩ us).visit Reduction.visitor).run.run g =
      (.ok p, g')) :
    g' = g ∧ ∃ xs : List (Token × String), xs ≠ [] ∧ (∀ x ∈ xs, x.1.Spells x.2) ∧
      run.map Token.lexeme = outsideOf (xs.map fun x => [x.1.lexeme]) ∧
      p = .lookahead (.tokenSet (.ofList (xs.map Prod.snd)) false) := by
  rw [Tree.visit_node] at hrun
  obtain ⟨ps, g₁, hps, hnode⟩ := exists_of_run_bind hrun
  have hread := h.read trivial (g := g)
  rw [Ends, hps] at hread
  cases his
  obtain ⟨t, _, _, rfl, rfl, ht, hf₁⟩ := readAll_word.mp hread
  obtain ⟨u, _, _, rfl, rfl, hu, hf₂⟩ := readAll_word.mp hf₁
  obtain ⟨_, _, v, _, _, rfl, rfl, ⟨⟨e, rfl, he, rfl⟩, -⟩, hf₃⟩ := readAll_rule.mp hf₂
  obtain ⟨xs, _, w, _, _, rfl, rfl, hxs, hf₄⟩ := readAll_star.mp hf₃
  obtain ⟨x, _, _, rfl, rfl, hx, hf₅⟩ := readAll_word.mp hf₄
  obtain ⟨rfl, rfl, rfl⟩ := readAll_nil.mp hf₅
  obtain ⟨es, rfl, hes, rfl⟩ := exists_of_quietRounds (c := Phrase.entry)
    (R := fun e u _ => ∃ t more, u = t :: more ∧ t.lexeme = .reserved .comma ∧ e.ReadFrom more)
    (fun _ _ _ _ _ hp => by
      obtain ⟨⟨e, t, more, rfl, rfl, ht, he, rfl⟩, -⟩ := hp
      exact ⟨e, rfl, ⟨t, more, rfl, ht, he⟩, rfl⟩) hxs
  rw [run_node_tokenSet] at hnode
  obtain ⟨r, g₂, htokens, -⟩ := exists_of_run_bind hnode
  obtain ⟨ss, hss⟩ := exists_singles htokens
  rw [run_singleTokens hss, pure_bind] at hnode
  cases hnode
  obtain ⟨s, ss, rfl⟩ : ∃ s ss', ss = s :: ss' := by
    cases ss with
    | nil => cases hss
    | cons s ss => exact ⟨s, ss, rfl⟩
  obtain ⟨hs, hss⟩ := List.cons_eq_cons.mp hss
  obtain ⟨t', rfl, ht'⟩ := he.exists_of_single hs
  obtain ⟨xs, rfl, hxs, hw⟩ := exists_tokens_of_entries hes hss
  refine ⟨rfl, (t', s) :: xs, by simp, List.forall_mem_cons.mpr ⟨ht', hxs⟩, ?_, rfl⟩
  simp [outsideOf, separated_cons, ht, hu, hx, hw, List.flatMap_map]

/-! ## Other ways to write a set -/

theorem Token.Spells.isEntry {t : Token} {s : String} (h : t.Spells s) : IsEntry [t.lexeme] := by
  rcases h with ⟨q, ht, -⟩ | ht <;> rw [ht] <;> exact ⟨by simp, by simp, by simp, by simp⟩

/-- Tokens of the same lexemes have the same spellings. -/
theorem map_snd_eq_of_lexemes {xs ys : List (Token × String)} (hxs : ∀ x ∈ xs, x.1.Spells x.2)
    (hys : ∀ y ∈ ys, y.1.Spells y.2)
    (h : xs.map (fun x => [x.1.lexeme]) = ys.map fun y => [y.1.lexeme]) :
    xs.map Prod.snd = ys.map Prod.snd := by
  induction xs generalizing ys with
  | nil =>
    obtain rfl := List.map_eq_nil_iff.mp h.symm
    rfl
  | cons x xs ih =>
    obtain ⟨y, ys, rfl, hy, htail⟩ := List.map_eq_cons_iff.mp h.symm
    rw [List.forall_mem_cons] at hxs hys
    obtain hxy : y.1.lexeme = x.1.lexeme := by simpa using hy
    rw [List.map_cons, List.map_cons, hxs.1.eq_of_lexeme hys.1 hxy.symm,
      ih hxs.2 hys.2 htail.symm]

/-- Entries of a set are told apart by its lexemes. -/
theorem map_eq_of_outsideOf {xs : List (Token × String)} {es : List (List Lexeme)}
    {as bs : List Lexeme} (hxs : ∀ x ∈ xs, x.1.Spells x.2) (hne : xs ≠ [])
    (hes : ∀ e ∈ es, IsEntry e) (hne' : es ≠ [])
    (h : outsideOf (xs.map fun x => [x.1.lexeme]) ++ as = outsideOf es ++ bs) :
    (xs.map fun x => [x.1.lexeme]) = es ∧ as = bs := by
  refine separated_inj (List.forall_mem_map.mpr fun x hx => (hxs x hx).isEntry) hes (by simpa)
    hne' ?_
  simpa [outsideOf] using h

/-- What is read as a lookahead alone is derived, by trees that mean it and gather nothing. -/
theorem Means.exists_lookahead {l : Lookahead} (h : Means .lookahead ls (· = .lookahead l))
    (close : Nat) (htaken : taken.map Token.lexeme = ls) (rest : List Token) :
    ∃ us, Derives .builtin close (.matcher (.rule .lookahead)) taken rest us ∧
      ∀ g, (Tree.visitAll Reduction.visitor us).run.run g = (.ok [.lookahead l], g) := by
  obtain ⟨us, hus, hyields⟩ := h close taken rest htaken
  refine ⟨us, hus, fun g => ?_⟩
  have hvalue := hyields g
  have hread := hus.read trivial (g := g)
  rw [Ends] at hread
  cases hrun : (Tree.visitAll Reduction.visitor us).run.run g with
  | mk answer g' =>
    rw [hrun] at hvalue hread
    cases answer with
    | error e => exact hvalue.elim
    | ok ps =>
      obtain ⟨p, rfl, rfl⟩ := hvalue
      obtain ⟨_, -, ⟨-, rfl⟩, -⟩ := hread
      rfl

/-- Blocks with a set in them: it is a set of terminals, and whatever else means the set may come in
its place. -/
theorem Derives.exists_set {e : Token} {es : List (List Lexeme)}
    (h : Derives .builtin close (.rounds (.rule .block)) taken (e :: rest) ts)
    (he : e.isEof = true) (hsucceed : Tree.Succeed ts)
    (htaken : taken.map Token.lexeme = ls ++ (outsideOf es ++ ms)) (hes : ∀ e ∈ es, IsEntry e)
    (hne : es ≠ []) :
    ∃ xs : List (Token × String), (xs.map fun x => [x.1.lexeme]) = es ∧
      (∀ x ∈ xs, x.1.Spells x.2) ∧ ∀ ls',
        Means .lookahead ls' (· = .lookahead (.tokenSet (.ofList (xs.map Prod.snd)) false)) →
        Rewritable close (e :: rest) ts (ls ++ (ls' ++ ms)) := by
  have hv : ∀ t : Token, t.lexeme = .reserved .outside → (Wanted.word .outside).accepts t = true :=
    fun t ht => decide_eq_true ht
  obtain ⟨hspot, his, ht, hms, hfollows, hbefore, hbehind, hmeans, hrewrite⟩ :=
    h.spotted he hsucceed htaken hv (by simp)
  rename_i r k j is t pre₁ post₁ post₀ us vs
  have hms : post₁.map Token.lexeme ++ post₀.map Token.lexeme = .reserved .openBrace ::
      (separated [.reserved .comma] es ++ [.reserved .closeBrace] ++ ms) := hms
  have hspots : Notation.spots (.word .outside) = [(.lookahead, 2, 0), (.lookahead, 3, 0)] := by
    decide +kernel
  rw [hspots] at hspot
  rcases List.mem_cons.mp hspot with heq | hspot
  · obtain ⟨rfl, rfl, rfl⟩ : r = .lookahead ∧ k = 2 ∧ j = 0 := by simpa using heq
    cases his
    obtain ⟨rfl, rfl⟩ := nil_iff.mp hbefore
    have hitems := cons_word ht hbehind
    obtain ⟨g, ps, g', hrun⟩ := hmeans
    rw [Tree.visitAll] at hrun
    obtain ⟨p, g₁, hnode, -⟩ := exists_of_run_bind hrun
    obtain ⟨-, xs, hxsne, hxs, hlexemes, -⟩ := Derives.exists_tokenSet rfl hitems hnode
    have hall : outsideOf (xs.map fun x => [x.1.lexeme]) ++ post₀.map Token.lexeme =
        outsideOf es ++ ms := by
      rw [← hlexemes, List.map_cons, ht, List.cons_append, hms]
      simp [outsideOf]
    obtain ⟨hxses, hpost⟩ := map_eq_of_outsideOf hxs hxsne hes hne hall
    refine ⟨xs, hxses, hxs, fun ls' hmeans' => ?_⟩
    have htaken' : (ls'.map fun l => (⟨l, 0, 0⟩ : Token)).map Token.lexeme = ls' := by
      simp [Function.comp_def]
    obtain ⟨ws, hws, hvalue⟩ := hmeans'.exists_lookahead close htaken' (post₀ ++ e :: rest)
    refine hrewrite _ ws _ hws ?_ (by simp [hpost, Function.comp_def])
    -- Wherever the set means something, its tokens are those found before.
    intro g k hg qs g' hrun
    rw [Tree.visitAll] at hrun
    obtain ⟨p, g₁, hnode, hnil⟩ := exists_of_run_bind hrun
    cases hnil
    obtain ⟨rfl, ys, hysne, hys, hlexemes', rfl⟩ := Derives.exists_tokenSet rfl hitems hnode
    have hall' : outsideOf (ys.map fun y => [y.1.lexeme]) ++ [] = outsideOf es ++ [] := by
      rw [← hlexemes', hlexemes, hxses]
    obtain ⟨hyses, -⟩ := map_eq_of_outsideOf hys hysne hes hne hall'
    rw [map_snd_eq_of_lexemes hys hxs (hyses.trans hxses.symm)]
    exact ⟨_, k, hvalue k, .cons (.same rfl) .nil, hg⟩
  · obtain ⟨rfl, rfl, rfl⟩ : r = .lookahead ∧ k = 3 ∧ j = 0 := by simpa using hspot
    cases his
    -- A brace comes next, and no name.
    obtain ⟨u, v, ys, hu, rfl, rfl, hnil⟩ := (cons_token_iff rfl).mp hbehind
    have hname := Wanted.eq_ofKind_of_accepts hu
    have hbrace : u.lexeme = .reserved .openBrace := (List.cons_eq_cons.mp hms).1
    rw [hname] at hbrace
    cases hbrace

theorem exists_map_of_forall_mem {α β : Type} {f : α → β} {as : List α} {bs : List β}
    (h : ∀ b ∈ bs, ∃ a ∈ as, f a = b) : ∃ cs : List α, (∀ c ∈ cs, c ∈ as) ∧ cs.map f = bs := by
  induction bs with
  | nil => exact ⟨[], by simp, rfl⟩
  | cons b bs ih =>
    rw [List.forall_mem_cons] at h
    obtain ⟨⟨a, ha, rfl⟩, htail⟩ := h
    obtain ⟨cs, hcs, rfl⟩ := ih htail
    exact ⟨a :: cs, List.forall_mem_cons.mpr ⟨ha, hcs⟩, rfl⟩

/-- What comes next is not a terminal, if it is none of a set of this terminal. -/
theorem Derives.unequal {e : Token} {l : Lexeme}
    (h : Derives .builtin close (.rounds (.rule .block)) taken (e :: rest) ts)
    (he : e.isEof = true) (hsucceed : Tree.Succeed ts)
    (hl : l.kind = .terminal ∨ l.kind = .control)
    (htaken : taken.map Token.lexeme = ls ++ (outsideOf [[l]] ++ ms)) :
    Rewritable close (e :: rest) ts (ls ++ (.reserved .unequal :: l :: ms)) := by
  have hentry : IsEntry [l] := by
    constructor <;> simp <;> rintro rfl <;> simp [Lexeme.kind] at hl
  obtain ⟨xs, hxs, hspells, hrewrite⟩ :=
    h.exists_set he hsucceed htaken (List.forall_mem_singleton.mpr hentry) (by simp)
  obtain ⟨x, rfl, hx⟩ := List.map_eq_singleton_iff.mp hxs
  obtain rfl : x.1.lexeme = l := by simpa using hx
  have hspell := hspells x List.mem_cons_self
  refine hrewrite [.reserved .unequal, x.1.lexeme] ?_
  refine ((reads_word .unequal).cons (hspell.means.reads.cons reads_nil)).node (k := 1) rfl rfl ?_
  rintro start stop _ ⟨_, _, rfl, ⟨t, rfl⟩, _, _, rfl, ⟨_, rfl, span, rfl⟩, rfl⟩
  exact yields_pure rfl

/-- A set does not depend on the order of its entries or on how often each of them is there. -/
theorem Derives.same_entries {e : Token} {es fs : List (List Lexeme)}
    (h : Derives .builtin close (.rounds (.rule .block)) taken (e :: rest) ts)
    (he : e.isEof = true) (hsucceed : Tree.Succeed ts) (hes : ∀ e ∈ es, IsEntry e)
    (hne : fs ≠ []) (hmem : ∀ e, e ∈ fs ↔ e ∈ es)
    (htaken : taken.map Token.lexeme = ls ++ (outsideOf es ++ ms)) :
    Rewritable close (e :: rest) ts (ls ++ (outsideOf fs ++ ms)) := by
  have hne' : es ≠ [] := by
    obtain ⟨f, fs, rfl⟩ := List.exists_cons_of_ne_nil hne
    exact List.ne_nil_of_mem ((hmem f).mp List.mem_cons_self)
  obtain ⟨xs, rfl, hspells, hrewrite⟩ := h.exists_set he hsucceed htaken hes hne'
  -- Each entry of the other set is one of the tokens of this one.
  obtain ⟨ys, hys, rfl⟩ : ∃ ys : List (Token × String), (∀ y ∈ ys, y ∈ xs) ∧
      ys.map (fun y => [y.1.lexeme]) = fs :=
    exists_map_of_forall_mem fun f hf => List.mem_map.mp ((hmem f).mp hf)
  have hset : (.ofList (ys.map Prod.snd) : Names) = .ofList (xs.map Prod.snd) := by
    apply Std.ExtTreeSet.ext_mem
    intro s
    simp only [Std.ExtTreeSet.mem_ofList, List.contains_iff_mem, List.mem_map]
    constructor
    · rintro ⟨y, hy, rfl⟩
      exact ⟨y, hys y hy, rfl⟩
    · rintro ⟨x, hx, rfl⟩
      obtain ⟨y, hy, hyx⟩ := List.mem_map.mp ((hmem _).mpr (List.mem_map_of_mem hx))
      refine ⟨y, hy, ?_⟩
      exact (hspells y (hys y hy)).eq_of_lexeme (hspells x hx) (List.singleton_inj.mp hyx)
  refine hrewrite _ ?_
  rw [← hset]
  exact means_tokenSet (by simpa using hne) fun y hy => hspells y (hys y hy)

end GrammarText
