import GrammarText.Proofs.Reduction.Children
import GrammarText.Proofs.Variants.Basic

/-!
# Labels, and names between bars

A label adds nothing to the production that it stands behind, and bars add nothing to the name
between them.  Each of the two has one place in the table.
-/

namespace GrammarText

variable {close : Nat} {rest taken : List Token} {ts : List Tree} {ls ms : List Lexeme} {e : Token}

/-! ## Labels -/

/-- A production with a label means what it means without one. -/
theorem Tree.AllRefine.unlabelled {g g' b b' : Tree} (hg : AllRefine [g] [g'])
    (hb : AllRefine [b] [b']) (t : Token) (vs : List Tree) (start stop start' stop' : Nat) :
    AllRefine [.node ⟨.production, 2, start, stop⟩ (g :: b :: .token t :: vs)]
      [.node ⟨.production, 2, start', stop'⟩ (g' :: b' :: .absent :: vs)] := by
  refine allRefine_singleton ?_
  simp only [visit_node, visitAll, visit_token, visit_absent, bind_assoc, pure_bind]
  refine hg.single.bind fun p p' hp => hb.single.bind fun q q' hq => (refl vs).bind fun _ _ _ => ?_
  rw [run_node_production, run_node_production p']
  exact Reduction.node_refines rfl rfl (.cons hp (.cons hq .nil))

theorem Derives.drop_label {s : String}
    (h : Derives .builtin close (.rounds (.rule .block)) taken (e :: rest) ts)
    (he : e.isEof = true) (hsucceed : Tree.Succeed ts)
    (htaken : taken.map Token.lexeme = ls ++ .label s :: ms) :
    Rewritable close (e :: rest) ts (ls ++ ms) := by
  have hv : ∀ t : Token, t.lexeme = .label s → (Wanted.kind .label).accepts t = true := by
    intro t ht
    simp [Wanted.accepts, Token.kind, ht, Lexeme.kind]
  obtain ⟨hspot, his, ht, rfl, hfollows, hbefore, hbehind, -, hrewrite⟩ :=
    h.spotted he hsucceed htaken hv (by simp)
  rename_i r k j is t pre₁ post₁ post₀ us vs
  have hspots : Notation.spots (.kind .label) = [(.production, 2, 2)] := by decide +kernel
  rw [hspots] at hspot
  obtain ⟨rfl, rfl, rfl⟩ : r = .production ∧ k = 2 ∧ j = 2 := by simpa using hspot
  cases his
  obtain ⟨u, v, gs, bs, rfl, rfl, hguard, hitem⟩ := cons_iff.mp hbefore
  have hbody := singleton_iff.mp hitem
  -- Neither the guard nor the symbols look at what comes behind them.
  obtain ⟨gs', hguard', hgs⟩ := hguard.inside close trivial (by decide)
    ((v ++ ([] ++ post₁)) ++ (post₀ ++ e :: rest))
  obtain ⟨bs', hbody', hbs⟩ := hbody.inside close trivial (by decide)
    (([] ++ post₁) ++ (post₀ ++ e :: rest))
  obtain ⟨g, rfl⟩ := hguard.exists_item_tree (by decide)
  obtain ⟨b, rfl⟩ := hbody.exists_item_tree (by decide)
  obtain ⟨g', rfl⟩ := hguard'.exists_item_tree (by decide)
  obtain ⟨b', rfl⟩ := hbody'.exists_item_tree (by decide)
  have hrule := Derives.alternative (r := .production) (k := 2) rfl
    (.cons hguard' (.cons hbody' (.cons .absent hbehind)))
  exact hrewrite _ _ _ hrule (hgs.refine.unlabelled hbs.refine t vs _ _ _ _) (by simp)

/-! ## Bars -/

theorem Derives.strip_bars {name : String}
    (h : Derives .builtin close (.rounds (.rule .block)) taken (e :: rest) ts)
    (he : e.isEof = true) (hsucceed : Tree.Succeed ts) (hname : '|' ∉ name.toList)
    (htaken : taken.map Token.lexeme = ls ++ .barred ("|" ++ name ++ "|") :: ms) :
    Rewritable close (e :: rest) ts (ls ++ .nonterminal name :: ms) := by
  have hv : ∀ t : Token, t.lexeme = .barred ("|" ++ name ++ "|") →
      (Wanted.kind .barred).accepts t = true := by
    intro t ht
    simp [Wanted.accepts, Token.kind, ht, Lexeme.kind]
  obtain ⟨hspot, his, ht, rfl, hfollows, hbefore, hbehind, -, hrewrite⟩ :=
    h.spotted he hsucceed htaken hv (by simp)
  rename_i r k j is t pre₁ post₁ post₀ us vs
  have hspots : Notation.spots (.kind .barred) = [(.nonterminal, 2, 0)] := by decide +kernel
  rw [hspots] at hspot
  obtain ⟨rfl, rfl, rfl⟩ : r = .nonterminal ∧ k = 2 ∧ j = 0 := by simpa using hspot
  cases his
  obtain ⟨rfl, rfl⟩ := nil_iff.mp hbefore
  obtain ⟨rfl, rfl⟩ := nil_iff.mp hbehind
  have hbare : Derives .builtin close (.items [.token .nonterminal])
      [⟨.nonterminal name, t.start, t.stop⟩] (post₀ ++ e :: rest) _ :=
    Derives.cons (.one (.leaf rfl rfl)) .nil
  have hrule := hbare.alternative (r := .nonterminal) (k := 1) rfl
  refine hrewrite _ _ _ hrule (Tree.allRefine_singleton ?_) (by simp)
  simp only [Tree.visit_node, Tree.visitAll, Tree.visit_token, List.cons_append, List.nil_append,
    pure_bind]
  have htext : t.text = "|" ++ name ++ "|" := congrArg Lexeme.text ht
  have hbars : (Reduction.node (.over close .nonterminal 2 [t] (post₀ ++ e :: rest))).run'
      [.token t] = pure (.symbol (.nonterminal (Reduction.stripBars t.text))) := rfl
  have hquoted : ("|" ++ name ++ "|").toList = '|' :: (name.toList ++ ['|']) := by simp
  rw [hbars, htext, stripBars_eq hquoted hname, String.ofList_toList]
  exact refines_pure (.same rfl)

end GrammarText
