import GrammarText.Proofs.Reduction.Shown
import GrammarText.Proofs.Scanning.Slices

/-!
# What a text is refused for in its reduction

Three things may be wrong with a node, and each can be seen in the tree: a call passes a parameter
twice, an entry of a lookahead set is not a single terminal, or something else than line breaks is
ruled out (`Node.AtFault`).  The reduction of a tree fails just where something is wrong with a
node, and its error is that of the first such node, where each node comes after those below it
(`Tree.reduce_error_iff_fault`).
-/

namespace GrammarText

open List (Forall₂)
open GrammarText.Tree (nodesOfAll nodesOf tokensOfAll)

/-! ## Faults -/

/-- The first name in a list that is also the name of something before it. -/
def firstRepeated? (names : List (String × Span)) : Option (String × Span) :=
  ((names.inits.zip names).find? fun (before, x) => (before.map Prod.fst).contains x.1).map Prod.snd

def calleeOf (children : List Tree) : String :=
  match tokensOfAll children with
  | t :: _ => t.text
  | [] => ""

/-- Something is wrong with a node: it is a call that passes a parameter twice, a lookahead set with
an entry that is not a single terminal, or it rules out something else than line breaks. -/
def Node.AtFault (n : Node) (children : List Tree) : Prop :=
  match n.rule, n.alternative with
  | .nonterminal, 0 => ¬ ((Tree.arguments children).map Prod.fst).Nodup
  | .lookahead, 2 => ∃ entry ∈ nodesOf .lookaheadEntry children, isSingle entry.2 = false
  | .noLineTerminatorHere, _ =>
    ∃ name, (tokensOfAll children)[2]? = some name ∧ name.text ≠ "LineTerminator"
  | _, _ => False

/-- The error for what is wrong with a node: for a call it names the first argument that comes again
and the callee, and for a set it shows the first entry that is not a single terminal. -/
def Node.fault? (n : Node) (children : List Tree) : Option Diagnostic :=
  match n.rule, n.alternative with
  | .nonterminal, 0 => do
    let (name, span) ← firstRepeated? (Tree.arguments children)
    return .grammar (.duplicateArgument name (calleeOf children) span)
  | .lookahead, 2 => do
    let entry ← (nodesOf .lookaheadEntry children).find? fun entry => !isSingle entry.2
    return .grammar (.unsupportedLookahead (shownEntry entry.2) entry.1.span)
  | .noLineTerminatorHere, _ => do
    let name ← (tokensOfAll children)[2]?
    if name.text = "LineTerminator" then none
    else some (.parse (.unexpectedToken "\x60LineTerminator\x60" name.span))
  | _, _ => none

def firstFault? (nodes : List (Node × List Tree)) : Option Diagnostic :=
  nodes.findSome? fun n => n.1.fault? n.2

def Tree.fault? (t : Tree) : Option Diagnostic := firstFault? t.nodes

/-! ## What is repeated -/

/-- An argument is found where its name is among those before it. -/
theorem repeatedArgument?_eq_find? {seen : List String} {before : List (String × Span)}
    (as : List PassedArgument) (hseen : ∀ s, s ∈ seen ↔ s ∈ before.map Prod.fst) :
    (Reduction.repeatedArgument? seen as).map (fun a => (a.name, a.span)) =
      (((as.map fun a => (a.name, a.span)).inits.zip (as.map fun a => (a.name, a.span))).find?
        fun x => ((before ++ x.1).map Prod.fst).contains x.2.1).map Prod.snd := by
  induction as generalizing seen before with
  | nil => rfl
  | cons a as ih =>
    rw [Reduction.repeatedArgument?, List.map_cons, List.inits, List.zip_cons_cons]
    by_cases ha : a.name ∈ seen
    · rw [if_pos ha, List.find?_cons_of_pos (by simpa using (hseen _).mp ha)]
      rfl
    · have hseen' (s) : s ∈ a.name :: seen ↔ s ∈ (before ++ [(a.name, a.span)]).map Prod.fst := by
        simp [hseen, or_comm]
      have hstep := ih hseen'
      rw [if_neg ha, List.find?_cons_of_neg (by simpa using mt (hseen _).mpr ha), hstep,
        List.zip_map_left, List.find?_map]
      simp only [Function.comp_def, Prod.map, id, List.append_assoc, List.singleton_append,
        Option.map_map]

/-- A call is refused for the first argument whose name comes again. -/
theorem repeatedArgument?_eq_firstRepeated? (as : List PassedArgument) :
    (Reduction.repeatedArgument? [] as).map (fun a => (a.name, a.span)) =
      firstRepeated? (as.map fun a => (a.name, a.span)) := by
  rw [firstRepeated?]
  have hnone (s : String) : s ∈ [] ↔ s ∈ ([] : List (String × Span)).map Prod.fst := by simp
  simpa using repeatedArgument?_eq_find? as hnone

theorem firstRepeated?_eq_none {names : List (String × Span)} :
    firstRepeated? names = none ↔ (names.map Prod.fst).Nodup := by
  have hnames : (names.map fun x => PassedArgument.mk x.1 (.fixed true) x.2).map
      (fun a => (a.name, a.span)) = names := by simp [Function.comp_def]
  rw [← hnames, ← repeatedArgument?_eq_firstRepeated?, Option.map_eq_none_iff,
    repeatedArgument?_eq_none]
  simp [Function.comp_def]

/-- There is an error just where something is wrong with a node. -/
theorem Node.fault?_ne_none_iff {n : Node} {children : List Tree} :
    n.fault? children ≠ none ↔ n.AtFault children := by
  unfold fault? AtFault
  split
  · rw [← firstRepeated?_eq_none]
    cases firstRepeated? (Tree.arguments children) <;> simp
  · have hfind : (nodesOf .lookaheadEntry children).find? (fun entry => !isSingle entry.2) ≠ none ↔
        ∃ entry ∈ nodesOf .lookaheadEntry children, isSingle entry.2 = false := by
      rw [← Option.isSome_iff_ne_none, List.find?_isSome]
      simp
    rw [← hfind]
    cases (nodesOf .lookaheadEntry children).find? _ <;> simp
  · cases (tokensOfAll children)[2]? <;> simp
  · simp

/-! ## What is wrong with a node, and what it is refused for -/

section Refuses

variable {ok : Lexeme → Prop} {n : Node} {cs : List Tree} {ps : List Phrase} {e : Diagnostic}

/-- The first entry that is not a single terminal is seen where it stands. -/
theorem find?_of_entries {ns : List (Node × List Tree)} {es : List LookaheadEntry}
    (h : Forall₂ (fun n e => e.ShownBy n) ns es) :
    (ns.find? fun n => !isSingle n.2).map (fun n => (shownEntry n.2, n.1.span)) =
      (es.find? (·.single?.isNone)).map fun e => (e.display, e.span) := by
  induction h with
  | nil => rfl
  | @cons n e ns es he h ih =>
    have hsingle : (!isSingle n.2) = e.single?.isNone := by
      rw [he.isSingle, Option.not_isSome]
    rw [List.find?_cons, List.find?_cons, hsingle]
    cases e.single?.isNone with
    | true => simp [he.display, he.1]
    | false => exact ih

/-- The first entry that is not a single terminal is an error. -/
theorem run_singleTokens_of_find? {es : List LookaheadEntry} {b : LookaheadEntry}
    (h : es.find? (·.single?.isNone) = some b) (ps : List Phrase) :
    StateT.run (Reduction.singleTokens es) ps =
      throw (.grammar (.unsupportedLookahead b.display b.span)) := by
  induction es with
  | nil => cases h
  | cons e es ih =>
    rw [Reduction.singleTokens]
    cases hs : e.single? with
    | none =>
      obtain rfl : e = b := by simpa [hs] using h
      rfl
    | some s =>
      have hrun := ih (by simpa [hs] using h)
      dsimp only
      rw [StateT.run_bind, hrun]
      rfl

/-- A node that is refused ends in the error. -/
theorem Node.Refuses.run' (h : n.Refuses ok ps e) : (Reduction.node n).run' ps = throw e := by
  cases h with
  | terminal hl hok hq => rw [run_node_terminal hl, hq]
  | noLineTerminatorHere hv => rw [run_node_noLineTerminatorHere, if_neg hv]
  | apply hb => rw [run_node_apply, hb]
  | tokenSet hb =>
    rw [run_node_tokenSet, run_singleTokens_of_find? hb]
    rfl

theorem fault?_apply {start stop : Nat} {t u v : Token} {a : PassedArgument}
    {as : List PassedArgument}
    (h : Forall₂ Tree.Reflects cs [.token t, .token u, .arg a, .repeated (as.map .arg), .token v]) :
    Node.fault? ⟨.nonterminal, 0, start, stop⟩ cs =
      (Reduction.repeatedArgument? [] (a :: as)).map fun b =>
        .grammar (.duplicateArgument b.name t.text b.span) := by
  obtain _ | ⟨ht, _ | ⟨hu, _ | ⟨ha, _ | ⟨has, _ | ⟨hv, ⟨⟩⟩⟩⟩⟩⟩ := h
  obtain rfl := ht.eq_token
  obtain rfl := hu.eq_token
  obtain ⟨ts, rfl, hts⟩ := has.exists_repeated
  obtain rfl := hv.eq_token
  have hall : Forall₂ Tree.Reflects (_ :: ts) ((a :: as).map .arg) := .cons ha hts
  have hargs := arguments_of_reflects hall
  simp only [Node.fault?]
  rw [Tree.arguments, nodesOf_listed, ← Tree.arguments, hargs,
    ← repeatedArgument?_eq_firstRepeated?]
  cases Reduction.repeatedArgument? [] (a :: as) <;> rfl

theorem fault?_tokenSet {start stop : Nat} {t u v : Token} {x : LookaheadEntry}
    {es : List LookaheadEntry}
    (h : Forall₂ Tree.Reflects cs
      [.token t, .token u, .entry x, .repeated (es.map .entry), .token v]) :
    Node.fault? ⟨.lookahead, 2, start, stop⟩ cs =
      ((x :: es).find? (·.single?.isNone)).map fun b =>
        .grammar (.unsupportedLookahead b.display b.span) := by
  obtain _ | ⟨ht, _ | ⟨hu, _ | ⟨hx, _ | ⟨hes, _ | ⟨hv, ⟨⟩⟩⟩⟩⟩⟩ := h
  obtain rfl := ht.eq_token
  obtain rfl := hu.eq_token
  obtain ⟨ts, rfl, hts⟩ := hes.exists_repeated
  obtain rfl := hv.eq_token
  have hall : Forall₂ Tree.Reflects (_ :: ts) ((x :: es).map .entry) := .cons hx hts
  have hfind := find?_of_entries (entries_of_reflects hall)
  simp only [Node.fault?]
  rw [nodesOf_listed]
  revert hfind
  generalize (nodesOf .lookaheadEntry _).find? _ = found
  generalize (x :: es).find? _ = found'
  intro hfind
  cases found <;> cases found' <;> simp_all

theorem fault?_noLineTerminatorHere {start stop : Nat} {t u v w x : Token}
    (h : Forall₂ Tree.Reflects cs [.token t, .token u, .token v, .token w, .token x]) :
    Node.fault? ⟨.noLineTerminatorHere, 0, start, stop⟩ cs =
      if v.text = "LineTerminator" then none
      else some (.parse (.unexpectedToken "\x60LineTerminator\x60" v.span)) := by
  obtain _ | ⟨ht, _ | ⟨hu, _ | ⟨hv, _ | ⟨hw, _ | ⟨hx, ⟨⟩⟩⟩⟩⟩⟩ := h
  obtain rfl := ht.eq_token
  obtain rfl := hu.eq_token
  obtain rfl := hv.eq_token
  obtain rfl := hw.eq_token
  obtain rfl := hx.eq_token
  rfl

/-- Something is wrong with nodes of three kinds only. -/
theorem Node.rule_of_fault? (h : n.fault? cs = some e) :
    (n.rule = .nonterminal ∧ n.alternative = 0) ∨ (n.rule = .lookahead ∧ n.alternative = 2) ∨
      n.rule = .noLineTerminatorHere := by
  unfold fault? at h
  split at h
  · exact .inl ⟨‹_›, ‹_›⟩
  · exact .inr (.inl ⟨‹_›, ‹_›⟩)
  · exact .inr (.inr ‹_›)
  · cases h

/-- A node is refused for what is wrong with it. -/
theorem fault?_eq_some_iff {r : Rule} {k start stop : Nat} {is : List Item}
    (hk : ((builtinRules.alternatives? r).getD [])[k]? = some is)
    (hf : FitsAll Lexeme.Written is ps) (h : Forall₂ Tree.Reflects cs ps) :
    Node.fault? ⟨r, k, start, stop⟩ cs = some e ↔
      Node.Refuses Lexeme.Written ⟨r, k, start, stop⟩ ps e := by
  constructor
  · intro hfault
    rcases Node.rule_of_fault? hfault with ⟨rfl, rfl⟩ | ⟨rfl, rfl⟩ | rfl
    · cases hk
      obtain ⟨_, _, rfl, ⟨t, rfl, -⟩, _, _, rfl, ⟨u, rfl⟩, _, _, rfl, ⟨a, rfl, -⟩, xs, _, rfl,
        hxs, _, _, rfl, ⟨v, rfl⟩, rfl⟩ := hf
      obtain ⟨as, rfl, -⟩ := exists_map hxs
      rw [fault?_apply h] at hfault
      obtain ⟨b, hb, rfl⟩ := Option.map_eq_some_iff.mp hfault
      exact .apply hb
    · cases hk
      obtain ⟨_, _, rfl, ⟨t, rfl⟩, _, _, rfl, ⟨u, rfl⟩, _, _, rfl, ⟨x, rfl, -⟩, xs, _, rfl, hxs,
        _, _, rfl, ⟨v, rfl⟩, rfl⟩ := hf
      obtain ⟨es, rfl, -⟩ := exists_map hxs
      rw [fault?_tokenSet h] at hfault
      obtain ⟨b, hb, rfl⟩ := Option.map_eq_some_iff.mp hfault
      exact .tokenSet hb
    · rcases k with _ | k
      · cases hk
        obtain ⟨_, _, rfl, ⟨t, rfl⟩, _, _, rfl, ⟨u, rfl⟩, _, _, rfl, ⟨v, rfl, -⟩, _, _, rfl,
          ⟨w, rfl⟩, _, _, rfl, ⟨x, rfl⟩, rfl⟩ := hf
        rw [fault?_noLineTerminatorHere h] at hfault
        split at hfault
        · cases hfault
        · obtain rfl := Option.some.inj hfault
          exact .noLineTerminatorHere ‹_›
      · cases hk
  · intro hrefuses
    cases hrefuses with
    | terminal hl hok hq => exact absurd hq (IsTerminal.unquote?_ne_none hok)
    | noLineTerminatorHere hv => rw [fault?_noLineTerminatorHere h, if_neg hv]
    | apply hb =>
      rw [fault?_apply h, hb]
      rfl
    | tokenSet hb =>
      rw [fault?_tokenSet h, hb]
      rfl

/-- Either nothing is wrong with a node, or it gives the error. -/
theorem node_judged {r : Rule} {k start stop : Nat} {is : List Item}
    (hk : ((builtinRules.alternatives? r).getD [])[k]? = some is)
    (hf : FitsAll Lexeme.Written is ps) (h : Forall₂ Tree.Reflects cs ps) :
    Yields ((Reduction.node ⟨r, k, start, stop⟩).run' ps)
      (fun p => p.Fits Lexeme.Written r ∧ Node.fault? ⟨r, k, start, stop⟩ cs = none)
      (Node.fault? ⟨r, k, start, stop⟩ cs = some ·) := by
  have hiff (e) : Node.fault? ⟨r, k, start, stop⟩ cs = some e ↔
      Node.Refuses Lexeme.Written ⟨r, k, start, stop⟩ ps e := fault?_eq_some_iff hk hf h
  cases hfault : Node.fault? ⟨r, k, start, stop⟩ cs with
  | some e =>
    rw [((hiff e).mp hfault).run']
    exact yields_throw rfl
  | none =>
    refine Yields.mono_error ((node_fits r k start stop is ps hk hf).mono fun p hp => ⟨hp, rfl⟩) ?_
    intro e he
    exact hfault.symm.trans ((hiff e).mpr he)

end Refuses

/-! ## The first thing that is wrong -/

section Judged

variable {P Q : List Phrase → Prop} {ts us vs : List Tree}
  {nodes others : List (Node × List Tree)}

theorem firstFault?_append :
    firstFault? (nodes ++ others) = (firstFault? nodes).or (firstFault? others) := by
  rw [firstFault?, List.findSome?_append]
  rfl

/-- Trees mean phrases of which `P` holds, and nothing is wrong with their nodes; or they end in the
error of the first node that something is wrong with. -/
def Judged (ts : List Tree) (P : List Phrase → Prop) : Prop :=
  Yields (Tree.visitAll Reduction.visitor ts)
    (fun ps => P ps ∧ Forall₂ Tree.Reflects ts ps ∧ firstFault? (nodesOfAll ts) = none)
    (firstFault? (nodesOfAll ts) = some ·)

theorem Judged.append (hu : Judged us P) (hv : Judged vs Q) :
    Judged (us ++ vs) fun rs => ∃ ps qs, rs = ps ++ qs ∧ P ps ∧ Q qs := by
  have hfault : firstFault? (nodesOfAll (us ++ vs)) =
      (firstFault? (nodesOfAll us)).or (firstFault? (nodesOfAll vs)) := by
    rw [nodesOfAll_append, firstFault?_append]
  rw [Judged, Tree.visitAll_append, hfault]
  refine (Yields.mono_error hu fun e he => ?_).bind ?_
  · rw [he]
    rfl
  · rintro ps ⟨hps, hreflects, hnone⟩
    rw [hnone, Option.none_or]
    refine Yields.bind hv ?_
    rintro qs ⟨hqs, hreflects', hnone'⟩
    exact yields_pure ⟨⟨ps, qs, rfl, hps, hqs⟩, List.rel_append hreflects hreflects', hnone'⟩

theorem Judged.repeated (h : Judged ts P) :
    Judged [.repeated ts] fun ps => ∃ xs, ps = [.repeated xs] ∧ P xs := by
  have hnodes : nodesOfAll [.repeated ts] = nodesOfAll ts := by
    rw [nodesOfAll, Tree.nodes, nodesOfAll, List.append_nil]
  rw [Judged, hnodes]
  refine (yields_visitAll_repeated h).mono ?_
  rintro _ ⟨xs, rfl, hp, hreflects, hnone⟩
  exact ⟨⟨xs, rfl, hp⟩, .cons (.repeated hreflects) .nil, hnone⟩

/-- What is wrong with a node counts after what is wrong below it. -/
theorem Judged.node {r : Rule} {k start stop : Nat} {is : List Item}
    (hk : ((builtinRules.alternatives? r).getD [])[k]? = some is)
    (h : Judged ts (FitsAll Lexeme.Written is)) :
    Judged [.node ⟨r, k, start, stop⟩ ts] fun ps => ∃ p, ps = [p] ∧ p.Fits Lexeme.Written r := by
  have hfault : firstFault? (nodesOfAll [.node ⟨r, k, start, stop⟩ ts]) =
      (firstFault? (nodesOfAll ts)).or (Node.fault? ⟨r, k, start, stop⟩ ts) := by
    rw [nodesOfAll, Tree.nodes, nodesOfAll, List.append_nil, firstFault?_append]
    simp [firstFault?]
  have hnode : Yields ((Tree.node ⟨r, k, start, stop⟩ ts).visit Reduction.visitor)
      (fun p => (p.Fits Lexeme.Written r ∧ p.SeenIn (.node ⟨r, k, start, stop⟩ ts)) ∧
        firstFault? (nodesOfAll [.node ⟨r, k, start, stop⟩ ts]) = none)
      (firstFault? (nodesOfAll [.node ⟨r, k, start, stop⟩ ts]) = some ·) := by
    rw [hfault]
    refine yields_visit_node (Yields.mono_error h fun e he => ?_) ?_
    · rw [he]
      rfl
    · rintro ps ⟨hfits, hreflects, hnone⟩
      rw [hnone, Option.none_or]
      refine ((node_judged hk hfits hreflects).and
        (node_shows r k start stop is ps ts hk hfits hreflects)).mono ?_
      rintro p ⟨⟨hp, hnone'⟩, hseen⟩
      exact ⟨⟨hp, hseen⟩, hnone'⟩
  refine (yields_visitAll_singleton hnode).mono ?_
  rintro _ ⟨p, rfl, ⟨hp, hseen⟩, hnone⟩
  exact ⟨⟨p, rfl, hp⟩, .cons (.node hseen) .nil, hnone⟩

end Judged

/-- What is derived from tokens as they are written is judged by what is wrong with it. -/
theorem judgement_judged : Judgement Lexeme.Written Judged where
  mono h hp := Yields.mono h fun ps ⟨hps, hrest⟩ => ⟨hp ps hps, hrest⟩
  nil := yields_pure ⟨rfl, .nil, rfl⟩
  token _ _ := yields_pure ⟨rfl, .cons .token .nil, rfl⟩
  absent := yields_pure ⟨rfl, .cons .absent .nil, rfl⟩
  append := Judged.append
  repeated := Judged.repeated
  node := Judged.node

/-- The reduction of the tree of a text fails just where something is wrong with a node.  The error
is that of the first such node, where each node comes after those below it. -/
theorem Tree.reduce_error_iff_fault {text : String} {tokens : List Token} {t : Tree}
    (htokens : tokensOf text = .ok tokens) (ht : ofTokens tokens = .ok t) :
    ((∃ e, (t.reduce .none).1 = .error e) ↔ ∃ n ∈ t.nodes, n.1.AtFault n.2) ∧
      (∀ e, (t.reduce .none).1 = .error e ↔ t.fault? = some e) ∧
      ((∃ ds, (t.reduce .none).1 = .ok (.declarations ds)) ↔ t.fault? = none) := by
  have hderived := derivationOf_of_ofTokens (tokensOf_ok_iff.mp htokens).ended ht
  have hjudged := hderived.judged judgement_judged trivial (tokensOf_written htokens)
  have hnodes : firstFault? (nodesOfAll [t]) = t.fault? := by
    rw [nodesOfAll, nodesOfAll, List.append_nil, Tree.fault?]
  have hvisit : Yields (t.visit Reduction.visitor)
      (fun p => p.Fits Lexeme.Written .grammar ∧ t.fault? = none) (t.fault? = some ·) := by
    rw [Judged, hnodes] at hjudged
    refine yields_visit_of_singleton (hjudged.mono ?_)
    rintro _ ⟨⟨p, rfl, hp⟩, -, hnone⟩
    exact ⟨p, rfl, hp, hnone⟩
  have hfault : (∃ e, t.fault? = some e) ↔ ∃ n ∈ t.nodes, n.1.AtFault n.2 := by
    rw [← Option.isSome_iff_exists, Tree.fault?, firstFault?, List.findSome?_isSome_iff]
    simp only [Option.isSome_iff_ne_none, Node.fault?_ne_none_iff]
  rw [← hfault, Tree.reduce]
  have houtcome := hvisit .none
  cases hrun : ((t.visit Reduction.visitor).run.run .none).1 with
  | error e =>
    rw [hrun] at houtcome
    simp [show t.fault? = some e from houtcome]
  | ok p =>
    rw [hrun] at houtcome
    obtain ⟨⟨ds, rfl, -⟩, hnone⟩ := houtcome
    simp [hnone]

/-- A wrong name below an entry comes first.  The entry itself, which is not a single terminal, and
a call after it that passes a parameter twice are not come to any more. -/
theorem Tree.reduce_error_iff_fault_lookahead :
    let text := "A:\n\t[lookahead <! \x7b\x60a\x60 [no X here]\x7d] B[+P, ?P]"
    let e := Diagnostic.parse (.unexpectedToken "\x60LineTerminator\x60" ⟨27, 28⟩)
    ∃ tokens t, tokensOf text = .ok tokens ∧ ofTokens tokens = .ok t ∧
      (∃ n ∈ t.nodes, n.1.AtFault n.2) ∧ t.fault? = some e ∧ (t.reduce .none).1 = .error e := by
  intro text e
  have hfault : (tokensOf text).toOption.any (fun tokens =>
      (ofTokens tokens).toOption.any fun t => t.fault? = some e) = true := by decide +kernel
  cases htokens : tokensOf text with
  | error _ => simp [htokens, Except.toOption] at hfault
  | ok tokens =>
    cases ht : ofTokens tokens with
    | error _ => simp [htokens, ht, Except.toOption] at hfault
    | ok t =>
      have hsome : t.fault? = some e := by simpa [htokens, ht, Except.toOption] using hfault
      obtain ⟨hiff, herror, -⟩ := reduce_error_iff_fault htokens ht
      have hrun := (herror e).mpr hsome
      exact ⟨tokens, t, rfl, ht, hiff.mp ⟨e, hrun⟩, hsome, hrun⟩

end GrammarText
