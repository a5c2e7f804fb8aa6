import GrammarText.Proofs.Diagnostic.Results
import GrammarText.Proofs.Reduction.Listed

/-!
# Declarations that are the same

Declarations are the same if they agree in their names, separators, definitions and terminals
(`Declaration.Same`); they need not have productions on as many lines.  Two runs of the reduction
that end alike (`EndAlike`) have declarations that are the same, or errors that are alike: so
definitions of terminals of the same spellings (`Declares.same`), blocks that are alike, and texts
of such blocks (`Tree.declarations_same`).
-/

namespace GrammarText

open List (Forall₂)

variable {u v : List Token} {t : Token} {ts us : List Tree}

/-! ## Spellings that are alike -/

/-- The spelling of a terminal is told by its lexeme. -/
theorem Token.spelling_alike {u : Token} (h : t.lexeme = u.lexeme) :
    ResultsAlike Eq t.spelling u.spelling := by
  rw [spelling, spelling, ← h]
  cases t.lexeme with
  | terminal q =>
    dsimp only
    cases Text.unquote? q.toList <;> exact rfl
  | _ => exact rfl

/-- Spellings are told by the lexemes of the terminals. -/
theorem spellings_alike (h : (u.map Token.lexeme).filter Lexeme.isTerminal =
      (v.map Token.lexeme).filter Lexeme.isTerminal) :
    ResultsAlike (fun xs ys => xs.map Prod.fst = ys.map Prod.fst) (spellings u) (spellings v) := by
  rw [List.filter_map, List.filter_map] at h
  rw [spellings, spellings]
  change (u.filter (·.lexeme.isTerminal)).map _ = (v.filter (·.lexeme.isTerminal)).map _ at h
  generalize u.filter (·.lexeme.isTerminal) = u at h ⊢
  generalize v.filter (·.lexeme.isTerminal) = v at h ⊢
  induction u generalizing v with
  | nil =>
    obtain rfl := List.map_eq_nil_iff.mp h.symm
    exact rfl
  | cons t u ih =>
    obtain ⟨t', v, rfl, ht, hv⟩ := List.map_eq_cons_iff.mp h.symm
    rw [List.mapM_cons, List.mapM_cons]
    have hfirst : ResultsAlike (fun x y : String × Span => x.1 = y.1)
        (do return (← t.spelling, t.span)) (do return (← t'.spelling, t'.span)) :=
      (Token.spelling_alike ht.symm).bind fun s s' hs => (hs : s = s')
    refine hfirst.bind fun x y hxy => ?_
    refine (ih v hv.symm).bind fun xs ys hxs => ?_
    show (x :: xs).map Prod.fst = (y :: ys).map Prod.fst
    rw [List.map_cons, List.map_cons, hxy, hxs]

theorem map_fst_eq_of_alike {T : Span → Span → Prop} {xs ys : List (String × Span)}
    (h : Forall₂ (SpellingAlike T) xs ys) : xs.map Prod.fst = ys.map Prod.fst :=
  map_eq_map_iff.mpr (h.imp fun _ _ hxy => hxy.1)

/-! ## Work that ends alike -/

section EndAlike

variable {α β γ δ : Type} {T N : Span → Span → Prop} {R : α → β → Prop} {S : γ → δ → Prop}
  {x : Reducing α} {y : Reducing β}

/-- Runs from places that are alike end in values that are related with places that are alike, or in
errors that are alike.  What was gathered before an error does not count. -/
def EndAlike (T N : Span → Span → Prop) (R : α → β → Prop) (x : Reducing α) (y : Reducing β) :
    Prop :=
  ∀ g h, g.Alike T N h → ResultsAlike (fun r s => R r.1 s.1 ∧ r.2.Alike T N s.2)
    (x.outcome g) (y.outcome h)

theorem RunsAlike.endAlike (h : RunsAlike T N R x y) : EndAlike T N R x y := by
  intro g g' hg
  have hrun := h g g' hg
  rw [Reducing.outcome, Reducing.outcome]
  revert hrun
  rcases x.run.run g with ⟨_ | _, _⟩ <;> rcases y.run.run g' with ⟨_ | _, _⟩ <;> intro hrun
  · exact hrun.1
  · exact hrun
  · exact hrun
  · exact hrun

theorem EndAlike.bind {f : α → Reducing γ} {k : β → Reducing δ} (h : EndAlike T N R x y)
    (hf : ∀ a b, R a b → EndAlike T N S (f a) (k b)) : EndAlike T N S (x >>= f) (y >>= k) := by
  intro g g' hg
  rw [Reducing.outcome_bind, Reducing.outcome_bind]
  exact (h g g' hg).bind fun r s hrs => hf r.1 s.1 hrs.1 r.2 s.2 hrs.2

theorem EndAlike.mono {R' : α → β → Prop} (h : EndAlike T N R x y) (hR : ∀ a b, R a b → R' a b) :
    EndAlike T N R' x y := fun g g' hg =>
  (h g g' hg).mono fun r s hrs => ⟨hR r.1 s.1 hrs.1, hrs.2⟩

/-- Work over terminals of the same lexemes ends as their spellings do, so it ends alike. -/
theorem Collects.endAlike {P : Gathered → List (String × Span) → α → Gathered → Prop}
    {Q : Gathered → List (String × Span) → β → Gathered → Prop} (hx : Collects x u P)
    (hy : Collects y v Q) (hlexemes : (u.map Token.lexeme).filter Lexeme.isTerminal =
      (v.map Token.lexeme).filter Lexeme.isTerminal)
    (h : ∀ g g' xs ys a b g₁ g₁', P g xs a g₁ → Q g' ys b g₁' → g.Alike T N g' →
      xs.map Prod.fst = ys.map Prod.fst → R a b ∧ g₁.Alike T N g₁') : EndAlike T N R x y := by
  intro g g' hg
  have hspellings := spellings_alike hlexemes
  rcases (hx g).outcome with ⟨a, g₁, hrun, xs, hxs, ha⟩ | ⟨e, hrun, he⟩ <;>
    rcases (hy g').outcome with ⟨b, g₁', hrun', ys, hys, hb⟩ | ⟨f, hrun', hf⟩ <;>
    rw [hrun, hrun']
  · rw [hxs, hys] at hspellings
    exact h g g' xs ys a b g₁ g₁' ha hb hg hspellings
  · rw [hxs, hf] at hspellings
    exact hspellings
  · rw [he, hys] at hspellings
    exact hspellings
  · rw [he, hf] at hspellings
    exact hspellings

/-- What is known of the first value holds as well. -/
theorem EndAlike.and_ends {P : α → Prop} {E : Diagnostic → Prop} (h : EndAlike T N R x y)
    (hx : ∀ g, Ends g x (fun a _ => P a) E) : EndAlike T N (fun a b => P a ∧ R a b) x y := by
  intro g g' hg
  have halike := h g g' hg
  rcases (hx g).outcome with ⟨a, g₁, hrun, ha⟩ | ⟨e, hrun, -⟩
  · rw [hrun] at halike ⊢
    obtain ⟨b, hb, hab⟩ := halike.exists_of_ok
    rw [hb]
    exact ⟨⟨ha, hab.1⟩, hab.2⟩
  · rw [hrun] at halike ⊢
    obtain ⟨f, hf, hef⟩ := halike.exists_of_error
    rw [hf]
    exact hef

end EndAlike

/-! ## Declarations that are the same -/

/-- Declarations of the same definition, of the same terminals in the same order. -/
structure Declaration.Same (d e : Declaration) : Prop where
  name : d.name = e.name
  separator : d.separator = e.separator
  definition : d.definition = e.definition
  terminals : d.terminalSpans.map Prod.fst = e.terminalSpans.map Prod.fst

variable {h k : Head} {separator : String} {n m : Node} {xs ys : List Tree}
  {T N : Span → Span → Prop}

theorem Declaration.Alike.same {d e : Declaration} (h : d.Alike T N e) : d.Same e where
  name := h.name
  separator := h.separator
  definition := h.definition
  terminals := map_fst_eq_of_alike h.terminalSpans

theorem IsDeclared.same {g g' g₁ g₁' : Gathered} {xs ys : List (String × Span)} {p q : Phrase}
    (hp : IsDeclared h separator g xs p g₁) (hq : IsDeclared k separator g' ys q g₁')
    (hhead : h.Alike T k) (hg : g.Alike T N g') (hxs : xs.map Prod.fst = ys.map Prod.fst) :
    ∃ d e, p = .declaration d ∧ q = .declaration e ∧ d.Same e := by
  obtain ⟨-, d, rfl, hname, hseparator, hdefinition, hterminals⟩ := hp
  obtain ⟨-, e, rfl, hname', hseparator', hdefinition', hterminals'⟩ := hq
  refine ⟨d, e, rfl, rfl, ?_, ?_, ?_, ?_⟩
  · rw [hname, hname', hhead.1]
  · rw [hseparator, hseparator']
  · have hproductions : ∀ zs : List (String × Span),
        zs.map (fun z => Production.symbols [.terminal z.1]) =
          (zs.map Prod.fst).map fun s => .symbols [.terminal s] := fun zs => by
      rw [List.map_map]
      rfl
    rw [hdefinition, hdefinition', hproductions, hproductions, hxs, Head.define, Head.define,
      hhead.2.1]
  · rw [hterminals, hterminals', List.map_append, List.map_append, map_fst_eq_of_alike hg.1, hxs]

/-- Heads that are alike end alike. -/
theorem Derives.head_alike {close : Nat} {taken rest : List Token}
    (h : Derives .builtin close (.matcher (.rule .head)) taken rest ts)
    (halike : Tree.AllAlike T N ts us) :
    EndAlike T N (fun ps qs => ∃ h k, ps = [.head h] ∧ qs = [.head k] ∧ h.Alike T k)
      (Tree.visitAll Reduction.visitor ts) (Tree.visitAll Reduction.visitor us) := by
  have hhead : ∀ g, Ends g (Tree.visitAll Reduction.visitor ts)
      (fun ps _ => ∃ h, ps = [.head h]) (·.Blames taken) := by
    intro g
    refine (h.read trivial).mono ?_ fun _ he => he
    rintro _ g' ⟨_, rfl, ⟨h, t, more, rfl, -⟩, -⟩
    exact ⟨h, rfl⟩
  refine ((visitAll_alike halike).endAlike.and_ends hhead).mono ?_
  rintro _ qs ⟨⟨h, rfl⟩, hqs⟩
  obtain ⟨q, _, hq, hnil, rfl⟩ := List.forall₂_cons_left_iff.mp hqs
  obtain rfl := List.forall₂_nil_left_iff.mp hnil
  cases hq with
  | @head _ k hk => exact ⟨h, k, rfl, rfl, hk⟩
  | same hp => cases hp

/-- Definitions with heads that are alike, of the same terminals, declare the same. -/
theorem Declares.same {separator' : String} (hn : Declares n ts separator u)
    (hm : Declares m us separator' v) (hseparator : separator = separator')
    (hheads : EndAlike T N (fun ps qs => ∃ h k, ps = [.head h] ∧ qs = [.head k] ∧ h.Alike T k)
      (Tree.visitAll Reduction.visitor xs) (Tree.visitAll Reduction.visitor ys))
    (hlexemes : (u.map Token.lexeme).filter Lexeme.isTerminal =
      (v.map Token.lexeme).filter Lexeme.isTerminal) :
    EndAlike T N (fun p q => ∃ d e, p = .declaration d ∧ q = .declaration e ∧ d.Same e)
      ((Tree.node n (xs ++ ts)).visit Reduction.visitor)
      ((Tree.node m (ys ++ us)).visit Reduction.visitor) := by
  subst hseparator
  rw [Tree.visit, Tree.visit, Tree.visitAll_append, Tree.visitAll_append, bind_assoc, bind_assoc]
  refine hheads.bind ?_
  rintro _ _ ⟨h, k, rfl, rfl, hhead⟩
  simp only [bind_assoc, pure_bind, List.singleton_append]
  refine (hn h).endAlike (hm k) hlexemes ?_
  intro g g' xs ys p q g₁ g₁' hp hq hg hxs
  refine ⟨hp.same hq hhead hg hxs, ?_⟩
  rw [hp.1, hq.1]
  exact ⟨.nil, .nil⟩

/-! ## Blocks and texts -/

def Phrase.declared? : Phrase → Option Declaration
  | block d => d
  | _ => none

def Phrase.Same (p q : Phrase) : Prop := Option.Rel Declaration.Same p.declared? q.declared?

theorem Phrase.Alike.sameBlock {p q : Phrase} (h : p.Alike T N q) : p.Same q := by
  cases h with
  | block h =>
    cases h with
    | some h => exact .some h.same
    | none => exact .none
  | same hp => cases p <;> first | exact .none | cases hp
  | _ => exact .none

theorem EndAlike.append {vs ws : List Tree} {R : Phrase → Phrase → Prop}
    (hu : EndAlike T N (Forall₂ R) (Tree.visitAll Reduction.visitor ts)
      (Tree.visitAll Reduction.visitor us))
    (hv : EndAlike T N (Forall₂ R) (Tree.visitAll Reduction.visitor vs)
      (Tree.visitAll Reduction.visitor ws)) :
    EndAlike T N (Forall₂ R) (Tree.visitAll Reduction.visitor (ts ++ vs))
      (Tree.visitAll Reduction.visitor (us ++ ws)) := by
  rw [Tree.visitAll_append, Tree.visitAll_append]
  refine hu.bind fun ps qs hps => hv.bind fun rs ss hrs => RunsAlike.endAlike (.pure ?_)
  exact List.rel_append hps hrs

/-- Blocks that are alike are the same. -/
theorem Tree.AllAlike.sameBlocks (h : AllAlike T N ts us) :
    EndAlike T N (Forall₂ Phrase.Same) (visitAll Reduction.visitor ts)
      (visitAll Reduction.visitor us) :=
  (visitAll_alike h).endAlike.mono fun _ _ hps => hps.imp fun _ _ hpq => hpq.sameBlock

/-- A definition is a block. -/
theorem EndAlike.block {t t' : Tree} {start stop start' stop' : Nat}
    (h : EndAlike T N (fun p q => ∃ d e, p = .declaration d ∧ q = .declaration e ∧ d.Same e)
      (t.visit Reduction.visitor) (t'.visit Reduction.visitor)) :
    EndAlike T N (Forall₂ Phrase.Same)
      (Tree.visitAll Reduction.visitor [.node ⟨.block, 1, start, stop⟩ [t]])
      (Tree.visitAll Reduction.visitor [.node ⟨.block, 1, start', stop'⟩ [t']]) := by
  simp only [Tree.visitAll, Tree.visit, bind_assoc, pure_bind]
  refine h.bind ?_
  rintro _ _ ⟨d, e, rfl, rfl, hsame⟩
  exact RunsAlike.endAlike (.pure (.cons (.some hsame) .nil))

theorem Tree.declarations_eq {e : Token} (hn : n.rule = .grammar) :
    (Tree.node n [.repeated ts, .token e]).declarations =
      (visitAll Reduction.visitor ts).outcome .none >>= fun r =>
        .ok (r.1.filterMap Phrase.declared?) := by
  rw [declarations, reduce, visit_grammar hn, ExceptT.run_bind, StateT.run_bind, Reducing.outcome]
  rcases (visitAll Reduction.visitor ts).run.run .none with ⟨_ | _, _⟩ <;> rfl

/-- Texts of blocks that are the same have declarations that are the same. -/
theorem Tree.declarations_same {e f : Token} (hn : n.rule = .grammar) (hm : m.rule = .grammar)
    (h : EndAlike T N (Forall₂ Phrase.Same) (visitAll Reduction.visitor ts)
      (visitAll Reduction.visitor us)) :
    ResultsAlike (Forall₂ Declaration.Same) (Tree.node n [.repeated ts, .token e]).declarations
      (Tree.node m [.repeated us, .token f]).declarations := by
  rw [declarations_eq hn, declarations_eq hm]
  refine (h .none .none ⟨.nil, .nil⟩).bind fun r s hrs => ?_
  exact List.rel_filterMap (fun _ _ hpq => hpq) hrs.1

end GrammarText
