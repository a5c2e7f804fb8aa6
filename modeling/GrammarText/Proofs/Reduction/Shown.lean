import GrammarText.Proofs.Reduction.Agreement
import Mathlib.Data.List.Forall2

/-!
# What a tree shows of its meaning

The arguments of a call and the entries of a lookahead set are nodes below it, and how they read can
be seen there (`Tree.arguments`, `isSingle`, `shownEntry`).  `Tree.Reflects` relates a tree to the
phrase that it means in so far, and a node whose children are so related to their phrases is so
related to its own (`node_shows`).
-/

namespace GrammarText

open List (Forall₂)

/-! ## What can be seen in a tree -/

namespace Tree

mutual

/-- The nodes of a tree with their children, each after those below it. -/
def nodes : Tree → List (Node × List Tree)
  | token _ => []
  | absent => []
  | repeated items => nodesOfAll items
  | node n children => nodesOfAll children ++ [(n, children)]

def nodesOfAll : List Tree → List (Node × List Tree)
  | [] => []
  | t :: ts => t.nodes ++ nodesOfAll ts

end

def nodesOf (r : Rule) (ts : List Tree) : List (Node × List Tree) :=
  (nodesOfAll ts).filter fun n => n.1.rule = r

def arguments (ts : List Tree) : List (String × Span) :=
  (nodesOf .arg ts).filterMap fun
    | (n, [_, token t]) => some (t.text, n.span)
    | _ => none

end Tree

open GrammarText.Tree (nodesOfAll nodesOf tokensOfAll)

def Token.shown (t : Token) : String :=
  match t.lexeme with
  | .control s => Text.quoted s
  | l => l.text

def Node.shownPiece (n : Node) (children : List Tree) : String :=
  if n.alternative = 0 then " ".intercalate ((tokensOfAll children).map Token.shown)
  else "[no LineTerminator here]"

def shownEntry (children : List Tree) : String :=
  " ".intercalate ((nodesOf .lookaheadElement children).map fun n => n.1.shownPiece n.2)

def isSingle (children : List Tree) : Bool :=
  match nodesOf .lookaheadElement children with
  | [(n, _)] => n.alternative = 0
  | _ => false

/-! ## Nodes below others -/

section Nodes

variable {r : Rule} {t : Tree} {ts us : List Tree}

theorem nodesOfAll_append : nodesOfAll (ts ++ us) = nodesOfAll ts ++ nodesOfAll us := by
  induction ts with
  | nil => rfl
  | cons t ts ih => simp [nodesOfAll, ih]

theorem nodesOf_cons : nodesOf r (t :: ts) = nodesOf r [t] ++ nodesOf r ts := by
  simp [nodesOf, nodesOfAll]

@[simp] theorem nodesOf_repeated : nodesOf r [.repeated ts] = nodesOf r ts := by
  simp [nodesOf, nodesOfAll, Tree.nodes]

theorem nodesOf_node_self {k start stop : Nat} :
    nodesOf r [.node ⟨r, k, start, stop⟩ ts] = nodesOf r ts ++ [(⟨r, k, start, stop⟩, ts)] := by
  simp [nodesOf, nodesOfAll, Tree.nodes]

/-- A node is the only one of its rule if there is none below it. -/
theorem nodesOf_node_of_nil {k start stop : Nat} (h : nodesOf r ts = []) :
    nodesOf r [.node ⟨r, k, start, stop⟩ ts] = [(⟨r, k, start, stop⟩, ts)] := by
  rw [nodesOf_node_self, h, List.nil_append]

theorem nodesOf_node_of_ne {q : Rule} {k start stop : Nat} (h : q ≠ r) :
    nodesOf r [.node ⟨q, k, start, stop⟩ ts] = nodesOf r ts := by
  simp [nodesOf, nodesOfAll, Tree.nodes, h]

/-- The tokens around a list and between its items are no nodes. -/
theorem nodesOf_listed {u v w : Token} :
    nodesOf r [.token u, .token v, t, .repeated ts, .token w] = nodesOf r (t :: ts) := by
  simp [nodesOf, nodesOfAll, Tree.nodes]

theorem arguments_cons : Tree.arguments (t :: ts) = Tree.arguments [t] ++ Tree.arguments ts := by
  rw [Tree.arguments, nodesOf_cons, List.filterMap_append]
  rfl

end Nodes

/-! ## What trees show of their meanings -/

/-- The rules of the nodes that are looked for in trees. -/
def soughtRules : List Rule := [.arg, .lookaheadEntry, .lookaheadElement]

def Tree.Plain (t : Tree) : Prop := ∀ r ∈ soughtRules, nodesOf r [t] = []

def LookaheadElement.ShownBy (n : Node × List Tree) : LookaheadElement → Prop
  | terminal s => n.1.alternative = 0 ∧ n.1.shownPiece n.2 = Text.quoted s
  | noLineTerminatorHere =>
    n.1.alternative ≠ 0 ∧ n.1.shownPiece n.2 = "[no LineTerminator here]"

/-- A node has the pieces of an entry below it, and its place. -/
def LookaheadEntry.ShownBy (n : Node × List Tree) (e : LookaheadEntry) : Prop :=
  n.1.span = e.span ∧ Forall₂ (fun m x => x.ShownBy m) (nodesOf .lookaheadElement n.2) e.elements

/-- What a node shows of the phrase that it means. -/
def Phrase.SeenIn (t : Tree) : Phrase → Prop
  | token _ | absent | repeated _ => False
  | arg a => Tree.arguments [t] = [(a.name, a.span)]
  | sigil _ => t.Plain
  | symbol s => s = .noLineTerminatorHere → t.Plain
  | terminal s _ => t.Plain ∧ t.tokens.map Token.shown = [Text.quoted s]
  | element x => nodesOf .lookaheadEntry [t] = [] ∧
    ∃ n, nodesOf .lookaheadElement [t] = [n] ∧ x.ShownBy n
  | entry e => ∃ n, nodesOf .lookaheadEntry [t] = [n] ∧ e.ShownBy n
  | _ => True

/-- A tree shows what it means, as far as faults are concerned. -/
inductive Tree.Reflects : Tree → Phrase → Prop where
  | token {t} : Reflects (.token t) (.token t)
  | absent : Reflects .absent .absent
  | repeated {ts ps} (h : Forall₂ Reflects ts ps) : Reflects (.repeated ts) (.repeated ps)
  | node {n ts p} (h : p.SeenIn (.node n ts)) : Reflects (.node n ts) p

section Reflects

variable {t : Tree} {ts : List Tree}

theorem Tree.Reflects.eq_token {u : Token} (h : t.Reflects (.token u)) : t = .token u := by
  cases h with
  | token => rfl
  | node h => exact h.elim

theorem Tree.Reflects.exists_repeated {ps : List Phrase} (h : t.Reflects (.repeated ps)) :
    ∃ ts, t = .repeated ts ∧ Forall₂ Reflects ts ps := by
  cases h with
  | repeated h => exact ⟨_, rfl, h⟩
  | node h => exact h.elim

/-- A node is seen in its tree. -/
theorem Tree.Reflects.seen {p : Phrase} (h : t.Reflects p) (hp : ∀ t, p ≠ .token t)
    (ha : p ≠ .absent) (hr : ∀ ps, p ≠ .repeated ps) : p.SeenIn t := by
  cases h with
  | token => exact absurd rfl (hp _)
  | absent => exact absurd rfl ha
  | repeated h => exact absurd rfl (hr _)
  | node h => exact h

theorem arguments_of_reflects {as : List PassedArgument}
    (h : Forall₂ Tree.Reflects ts (as.map .arg)) :
    Tree.arguments ts = as.map fun a => (a.name, a.span) := by
  induction as generalizing ts with
  | nil =>
    obtain rfl := List.forall₂_nil_right_iff.mp h
    rfl
  | cons a as ih =>
    obtain ⟨t, ts, ht, hts, rfl⟩ := List.forall₂_cons_right_iff.mp h
    have hseen : Tree.arguments [t] = [(a.name, a.span)] := ht.seen (by simp) (by simp) (by simp)
    rw [arguments_cons, hseen, ih hts]
    rfl

theorem entries_of_reflects {es : List LookaheadEntry}
    (h : Forall₂ Tree.Reflects ts (es.map .entry)) :
    Forall₂ (fun n e => e.ShownBy n) (nodesOf .lookaheadEntry ts) es := by
  induction es generalizing ts with
  | nil =>
    obtain rfl := List.forall₂_nil_right_iff.mp h
    exact .nil
  | cons e es ih =>
    obtain ⟨t, ts, ht, hts, rfl⟩ := List.forall₂_cons_right_iff.mp h
    obtain ⟨n, hn, hshown⟩ : (Phrase.entry e).SeenIn t := ht.seen (by simp) (by simp) (by simp)
    rw [nodesOf_cons, hn]
    exact .cons hshown (ih hts)

theorem elements_of_reflects {xs : List LookaheadElement}
    (h : Forall₂ Tree.Reflects ts (xs.map .element)) :
    nodesOf .lookaheadEntry ts = [] ∧
      Forall₂ (fun n x => x.ShownBy n) (nodesOf .lookaheadElement ts) xs := by
  induction xs generalizing ts with
  | nil =>
    obtain rfl := List.forall₂_nil_right_iff.mp h
    exact ⟨rfl, .nil⟩
  | cons x xs ih =>
    obtain ⟨t, ts, ht, hts, rfl⟩ := List.forall₂_cons_right_iff.mp h
    obtain ⟨hnone, n, hn, hshown⟩ : (Phrase.element x).SeenIn t :=
      ht.seen (by simp) (by simp) (by simp)
    obtain ⟨hnone', hall⟩ := ih hts
    refine ⟨?_, ?_⟩
    · rw [nodesOf_cons, hnone, hnone']
      rfl
    · rw [nodesOf_cons, hn]
      exact .cons hshown hall

/-- An entry is a single terminal where it shows only one. -/
theorem LookaheadEntry.ShownBy.isSingle {n : Node × List Tree} {e : LookaheadEntry}
    (h : e.ShownBy n) : isSingle n.2 = e.single?.isSome := by
  obtain ⟨-, h⟩ := h
  obtain ⟨elements, span⟩ := e
  rw [GrammarText.isSingle, single?]
  generalize nodesOf .lookaheadElement n.2 = pieces at h ⊢
  cases h with
  | nil => rfl
  | @cons m x ms xs hx hxs =>
    cases hxs with
    | nil => cases x <;> simp [hx.1]
    | cons hy hys => simp

/-- An entry is shown as it is written. -/
theorem LookaheadEntry.ShownBy.display {n : Node × List Tree} {e : LookaheadEntry}
    (h : e.ShownBy n) : shownEntry n.2 = e.display := by
  obtain ⟨-, h⟩ := h
  obtain ⟨elements, span⟩ := e
  rw [shownEntry, LookaheadEntry.display]
  congr 1
  dsimp only at h ⊢
  generalize nodesOf .lookaheadElement n.2 = pieces at h ⊢
  induction h with
  | nil => rfl
  | @cons m x ms xs hx h ih =>
    rw [List.map_cons, List.map_cons, ih]
    cases x <;> simp [hx.2]

end Reflects

/-! ## What nodes show -/

section Shows

variable {cs : List Tree} {r : Rule} {k start stop : Nat}

/-- A node whose children fit an alternative of its rule shows what it means. -/
def NodeShows (r : Rule) : Prop :=
  ∀ k start stop is ps cs, ((builtinRules.alternatives? r).getD [])[k]? = some is →
    FitsAll Lexeme.Written is ps → Forall₂ Tree.Reflects cs ps →
      Yields ((Reduction.node ⟨r, k, start, stop⟩).run' ps)
        (·.SeenIn (.node ⟨r, k, start, stop⟩ cs)) fun _ => True

/-- A node of another rule is plain if nothing is found below it. -/
theorem Tree.Plain.node (h : ∀ r ∈ soughtRules, nodesOf r cs = []) (hr : r ∉ soughtRules) :
    (Tree.node ⟨r, k, start, stop⟩ cs).Plain := by
  intro r' hr'
  have hne : r ≠ r' := fun heq => hr (heq ▸ hr')
  rw [nodesOf_node_of_ne hne, h r' hr']

theorem plain_token {u : Token} : ∀ r ∈ soughtRules, nodesOf r [.token u] = [] := fun _ _ => rfl

theorem terminal_shows : NodeShows .terminal := by
  intro k start stop is ps cs hk hf h
  rcases k with _ | _ | k
  · cases hk
    obtain ⟨_, _, rfl, ⟨t, rfl, hl, hwritten⟩, rfl⟩ := hf
    obtain _ | ⟨ht, ⟨⟩⟩ := h
    obtain rfl := ht.eq_token
    refine yields_terminal hl (fun _ => trivial) fun s hs => ⟨.node plain_token (by decide), ?_⟩
    -- The terminal stands between backticks already.
    obtain ⟨body, hbody, hshape⟩ : IsTerminal t.text.toList := hwritten
    have hne : body ≠ [] := by
      rcases hshape with ⟨hne, -⟩ | rfl
      · exact hne
      · simp
    rw [hbody, Text.unquote?_quote hne] at hs
    obtain rfl := Option.some.inj hs
    have hshown : t.shown = t.text := by rw [Token.shown, hl]; rfl
    show [t.shown] = _
    rw [hshown, Text.quoted, String.toList_ofList, ← hbody, String.ofList_toList]
  · cases hk
    obtain ⟨_, _, rfl, ⟨t, rfl, hl, -⟩, rfl⟩ := hf
    obtain _ | ⟨ht, ⟨⟩⟩ := h
    obtain rfl := ht.eq_token
    refine Yields.run' ?_
    simp only [Reduction.node, Reduction.terminal, StateT.run_bind, Reading.run_token, pure_bind,
      hl, Lexeme.ofKind]
    refine yields_pure ⟨.node plain_token (by decide), ?_⟩
    show [t.shown] = _
    rw [Token.shown, hl]
    rfl
  · cases hk

theorem noLineTerminatorHere_shows : NodeShows .noLineTerminatorHere := by
  intro k start stop is ps cs hk hf h
  rcases k with _ | k
  · cases hk
    obtain ⟨_, _, rfl, ⟨t, rfl⟩, _, _, rfl, ⟨u, rfl⟩, _, _, rfl, ⟨v, rfl, -⟩, _, _, rfl, ⟨w, rfl⟩,
      _, _, rfl, ⟨x, rfl⟩, rfl⟩ := hf
    obtain _ | ⟨ht, _ | ⟨hu, _ | ⟨hv, _ | ⟨hw, _ | ⟨hx, ⟨⟩⟩⟩⟩⟩⟩ := h
    obtain rfl := ht.eq_token
    obtain rfl := hu.eq_token
    obtain rfl := hv.eq_token
    obtain rfl := hw.eq_token
    obtain rfl := hx.eq_token
    exact yields_noLineTerminatorHere (fun _ => .node (fun _ _ => rfl) (by decide)) fun _ => trivial
  · cases hk

theorem symbol_shows : NodeShows .symbol := by
  intro k start stop is ps cs hk hf h
  rcases k with _ | _ | _ | _ | _ | _ | _ | _ | k
  · cases hk
    obtain ⟨_, _, rfl, ⟨base, rfl, -⟩, _, _, rfl, ⟨_, rfl⟩, _, _, rfl, ⟨_, rfl⟩, _, _, rfl,
      ⟨_, rfl⟩, _, _, rfl, ⟨_, rfl⟩, _, _, rfl, ⟨e, rfl, -⟩, xs, _, rfl, hxs, rfl⟩ := hf
    obtain ⟨es, rfl, -⟩ := exists_map hxs
    exact yields_exclusions fun heq => nomatch heq
  · cases hk
    obtain ⟨_, _, rfl, ⟨base, rfl, -⟩, _, _, rfl, ⟨_, rfl⟩, _, _, rfl, ⟨_, rfl⟩, _, _, rfl,
      ⟨e, rfl, -⟩, rfl⟩ := hf
    exact yields_pure fun heq => nomatch heq
  · cases hk
    obtain ⟨_, _, rfl, ⟨base, rfl, -⟩, _, _, rfl, ⟨_, rfl⟩, rfl⟩ := hf
    exact yields_pure fun heq => nomatch heq
  · cases hk
    obtain ⟨_, _, rfl, ⟨base, rfl, hbase⟩, rfl⟩ := hf
    refine yields_pure ?_
    rintro rfl
    exact hbase.elim
  · cases hk
    obtain ⟨_, _, rfl, ⟨x, rfl, -⟩, _, _, rfl, ⟨_, rfl⟩, rfl⟩ := hf
    exact fun _ heq => nomatch heq
  · cases hk
    obtain ⟨_, _, rfl, ⟨x, rfl, -⟩, rfl⟩ := hf
    exact fun _ heq => nomatch heq
  · cases hk
    obtain ⟨_, _, rfl, ⟨_, rfl⟩, _, _, rfl, ⟨_, rfl⟩, _, _, rfl, ⟨l, rfl, -⟩, _, _, rfl, ⟨_, rfl⟩,
      rfl⟩ := hf
    exact yields_pure fun heq => nomatch heq
  · cases hk
    obtain ⟨_, _, rfl, rfl, rfl⟩ := hf
    obtain _ | ⟨hc, ⟨⟩⟩ := h
    have hplain := hc.seen (by simp) (by simp) (by simp) rfl
    exact yields_pure fun _ => .node hplain (by decide)
  · cases hk

theorem sigil_shows : NodeShows .sigil := by
  intro k start stop is ps cs hk hf h
  rcases k with _ | _ | k
  · cases hk
    obtain ⟨_, _, rfl, ⟨value, rfl⟩, rfl⟩ := hf
    obtain _ | ⟨hc, ⟨⟩⟩ := h
    have hplain := hc.seen (by simp) (by simp) (by simp)
    exact yields_pure (.node hplain (by decide))
  · cases hk
    obtain ⟨_, _, rfl, ⟨t, rfl⟩, rfl⟩ := hf
    obtain _ | ⟨hc, ⟨⟩⟩ := h
    obtain rfl := hc.eq_token
    exact yields_pure (.node plain_token (by decide))
  · cases hk

theorem fixedSigil_shows : NodeShows .fixedSigil := by
  intro k start stop is ps cs hk hf h
  rcases k with _ | _ | k
  · cases hk
    obtain ⟨_, _, rfl, ⟨t, rfl⟩, rfl⟩ := hf
    obtain _ | ⟨hc, ⟨⟩⟩ := h
    obtain rfl := hc.eq_token
    exact yields_pure (.node plain_token (by decide))
  · cases hk
    obtain ⟨_, _, rfl, ⟨t, rfl⟩, rfl⟩ := hf
    obtain _ | ⟨hc, ⟨⟩⟩ := h
    obtain rfl := hc.eq_token
    exact yields_pure (.node plain_token (by decide))
  · cases hk

theorem arg_shows : NodeShows .arg := by
  intro k start stop is ps cs hk hf h
  rcases k with _ | k
  · cases hk
    obtain ⟨_, _, rfl, ⟨sigil, rfl⟩, _, _, rfl, ⟨t, rfl, -⟩, rfl⟩ := hf
    obtain ⟨c, cs, hc, hcs, rfl⟩ := List.forall₂_cons_right_iff.mp h
    obtain _ | ⟨ht, ⟨⟩⟩ := hcs
    obtain rfl := ht.eq_token
    have hplain : c.Plain := hc.seen (by simp) (by simp) (by simp)
    have hbelow : nodesOf .arg [c, .token t] = [] := by
      rw [nodesOf_cons, hplain .arg (by decide)]
      rfl
    have hargs : Tree.arguments [.node ⟨.arg, 0, start, stop⟩ [c, .token t]] =
        [(t.text, ⟨start, stop⟩)] := by
      rw [Tree.arguments, nodesOf_node_of_nil hbelow]
      rfl
    cases sigil with
    | fixed value => exact yields_pure hargs
    | pass => exact yields_pure hargs
  · cases hk

theorem argTail_shows : NodeShows .argTail := by
  intro k start stop is ps cs hk hf h
  rcases k with _ | k
  · cases hk
    obtain ⟨_, _, rfl, ⟨t, rfl⟩, _, _, rfl, ⟨a, rfl, -⟩, rfl⟩ := hf
    obtain _ | ⟨ht, _ | ⟨hc, ⟨⟩⟩⟩ := h
    obtain rfl := ht.eq_token
    have hargs : Tree.arguments [_] = [(a.name, a.span)] := hc.seen (by simp) (by simp) (by simp)
    refine yields_pure (show Tree.arguments _ = _ from ?_)
    rw [← hargs, Tree.arguments, nodesOf_node_of_ne (by decide), nodesOf_cons]
    rfl
  · cases hk

theorem lookaheadElement_shows : NodeShows .lookaheadElement := by
  intro k start stop is ps cs hk hf h
  rcases k with _ | _ | k
  · cases hk
    obtain ⟨_, _, rfl, ⟨x, rfl, -⟩, rfl⟩ := hf
    obtain _ | ⟨hc, ⟨⟩⟩ := h
    obtain ⟨hplain, hshown⟩ := hc.seen (by simp) (by simp) (by simp)
    refine yields_pure ⟨?_, _, nodesOf_node_of_nil (hplain _ (by decide)), rfl, ?_⟩
    · rw [nodesOf_node_of_ne (by decide), hplain _ (by decide)]
    · simpa [Node.shownPiece, tokensOfAll] using congrArg (" ".intercalate ·) hshown
  · cases hk
    obtain ⟨_, _, rfl, rfl, rfl⟩ := hf
    obtain _ | ⟨hc, ⟨⟩⟩ := h
    have hplain := hc.seen (by simp) (by simp) (by simp) rfl
    refine yields_pure
      ⟨?_, _, nodesOf_node_of_nil (hplain _ (by decide)), Nat.one_ne_zero, rfl⟩
    rw [nodesOf_node_of_ne (by decide), hplain _ (by decide)]
  · cases hk

theorem lookaheadEntry_shows : NodeShows .lookaheadEntry := by
  intro k start stop is ps cs hk hf h
  rcases k with _ | k
  · cases hk
    obtain ⟨xs, _, rfl, -, hxs, rfl⟩ := hf
    obtain ⟨es, rfl, -⟩ := exists_map hxs
    obtain _ | ⟨hc, ⟨⟩⟩ := h
    obtain ⟨ts, rfl, hts⟩ := hc.exists_repeated
    obtain ⟨hnone, hshown⟩ := elements_of_reflects hts
    refine yields_entry
      ⟨_, nodesOf_node_of_nil (nodesOf_repeated.trans hnone), rfl, ?_⟩
    rw [nodesOf_repeated]
    exact hshown
  · cases hk

theorem lookaheadEntryTail_shows : NodeShows .lookaheadEntryTail := by
  intro k start stop is ps cs hk hf h
  rcases k with _ | k
  · cases hk
    obtain ⟨_, _, rfl, ⟨t, rfl⟩, _, _, rfl, ⟨e, rfl, -⟩, rfl⟩ := hf
    obtain _ | ⟨ht, _ | ⟨hc, ⟨⟩⟩⟩ := h
    obtain rfl := ht.eq_token
    obtain ⟨m, hm, hshown⟩ := hc.seen (by simp) (by simp) (by simp)
    refine yields_pure ⟨m, ?_, hshown⟩
    rw [nodesOf_node_of_ne (by decide), nodesOf_cons, hm]
    rfl
  · cases hk

/-- Of most phrases nothing needs to be seen. -/
theorem NodeShows.of_fits (h : ∀ p t, Phrase.Fits Lexeme.Written p r → p.SeenIn t) :
    NodeShows r := by
  intro k start stop is ps cs hk hf _
  exact Yields.mono_error ((node_fits r k start stop is ps hk hf).mono fun p => h p _)
    fun _ _ => trivial

theorem node_shows (r : Rule) : NodeShows r := by
  cases r with
  | terminal => exact terminal_shows
  | symbol => exact symbol_shows
  | noLineTerminatorHere => exact noLineTerminatorHere_shows
  | argTail => exact argTail_shows
  | arg => exact arg_shows
  | sigil => exact sigil_shows
  | fixedSigil => exact fixedSigil_shows
  | lookaheadEntryTail => exact lookaheadEntryTail_shows
  | lookaheadEntry => exact lookaheadEntry_shows
  | lookaheadElement => exact lookaheadElement_shows
  | nonterminal =>
    refine .of_fits ?_
    rintro _ t ⟨s, rfl, hs⟩ rfl
    exact hs.elim
  | blockEnd | lineEnd =>
    refine .of_fits ?_
    rintro _ t rfl
    trivial
  | guard =>
    refine .of_fits ?_
    rintro _ t ⟨_, _, rfl, -⟩
    trivial
  | _ =>
    refine .of_fits ?_
    rintro _ t ⟨_, rfl, -⟩
    trivial

end Shows

end GrammarText
