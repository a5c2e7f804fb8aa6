import GrammarText.Proofs.Parsing.Indifference
import GrammarText.Proofs.Reduction.Frames

/-!
# Reduction looks at prose without the blanks around it

Two lines of prose are the same production if they differ in the blanks around them only
(`Lexeme.Agrees`).  The notation asks for prose nowhere but at the start of a production
(`Derives.proseLed`), where it is trimmed.  So trees over lexemes that agree mean the same but for
places, or are refused alike (`visitAll_agree`, `Tree.declarations_agree`).
-/

namespace GrammarText

open List (Forall₂)

/-! ## Lexemes that agree -/

/-- Lexemes are equal, or they are prose that reads the same once it is trimmed. -/
inductive Lexeme.Agrees : Lexeme → Lexeme → Prop where
  | refl (l : Lexeme) : Agrees l l
  | prose {s s' : String} (h : Reduction.proseText s = Reduction.proseText s') :
      Agrees (.prose s) (.prose s')

def Token.Agrees (t u : Token) : Prop := t.lexeme.Agrees u.lexeme

/-- What accepts a token accepts one that agrees with it. -/
theorem Wanted.accepts_of_agrees (t u : Token) (h : t.Agrees u) (w : Wanted) :
    w.accepts u = w.accepts t := by
  obtain ⟨l, start, stop⟩ := t
  obtain ⟨l', start', stop'⟩ := u
  obtain ⟨-⟩ | ⟨-⟩ : l.Agrees l' := h
  · cases w <;> rfl
  · cases w <;> rfl

/-! ## Where prose stands -/

/-- Lines of prose stand nowhere but at the start of a production that is all prose. -/
inductive Tree.ProseLed : List Tree → Prop where
  | nil : ProseLed []
  | token {t ts} (ht : t.kind ≠ .prose) (h : ProseLed ts) : ProseLed (.token t :: ts)
  | absent {ts} (h : ProseLed ts) : ProseLed (.absent :: ts)
  | repeated {xs ts} (hx : ProseLed xs) (h : ProseLed ts) : ProseLed (.repeated xs :: ts)
  | node {n xs ts} (hx : ProseLed xs) (h : ProseLed ts) : ProseLed (.node n xs :: ts)
  | production {n t xs ts} (hr : n.rule = .production) (hk : n.alternative = 0)
      (hx : ProseLed xs) (h : ProseLed ts) : ProseLed (.node n (.token t :: xs) :: ts)

variable {ts us : List Tree}

theorem Tree.ProseLed.append {xs : List Tree} (h : ProseLed ts) (hx : ProseLed xs) :
    ProseLed (ts ++ xs) := by
  induction h with
  | nil => exact hx
  | token ht h ih => exact .token ht ih
  | absent h ih => exact .absent ih
  | repeated hxs h ihx ih => exact .repeated hxs ih
  | node hxs h ihx ih => exact .node hxs ih
  | production hr hk hxs h ihx ih => exact .production hr hk hxs ih

def Matcher.proseless (m : Matcher) : Bool := m ≠ .token .prose

/-- A part asks for no line of prose but by a rule. -/
def Part.Proseless : Part → Prop
  | .matcher m | .rounds m => m.proseless = true
  | .item i => i.matcher.proseless = true
  | .items is => ∀ i ∈ is, i.matcher.proseless = true
  | .choice .. => True

/-- Only the first alternative of a production asks for prose. -/
theorem Notation.proseless_or {r : Rule} {n : Nat} {is : List Item}
    (h : (alternatives r)[n]? = some is) :
    (∀ i ∈ is, i.matcher.proseless = true) ∨
      r = .production ∧ n = 0 ∧ is = [.token .prose, .rule .lineEnd] := by
  have hmem : (is, n) ∈ (alternatives r).zipIdx := by rwa [List.mem_zipIdx_iff_getElem?]
  have hall : ∀ r : Rule, ∀ x ∈ (alternatives r).zipIdx,
      (∀ i ∈ x.1, i.matcher.proseless = true) ∨
        r = .production ∧ x.2 = 0 ∧ x.1 = [.token .prose, .rule .lineEnd] := by
    intro r
    cases r <;> decide +kernel
  exact hall r _ hmem

namespace Derives

variable {close : Nat} {p : Part} {taken rest : List Token}

/-- There is no prose in the end of a line. -/
theorem proseLed_lineEnd (h : Derives .builtin close (.matcher (.rule .lineEnd)) taken rest ts) :
    Tree.ProseLed ts := by
  obtain ⟨k, is, us, his, hus, rfl⟩ := h.exists_alternative
  refine .node ?_ .nil
  rcases k with _ | _ | k
  · obtain rfl : [Item.token .newline] = is := Option.some.inj his
    obtain ⟨t, ht, rfl, rfl⟩ := (token_iff rfl).mp (one_iff.mp (singleton_iff.mp hus))
    have hkind : t.kind = .newline := by simpa [Wanted.accepts] using ht
    exact .token (by simp [hkind]) .nil
  · obtain rfl : [(Item.token .eof).times .peek] = is := Option.some.inj his
    obtain ⟨rfl, rfl, -⟩ := peek_iff.mp (singleton_iff.mp hus)
    exact .nil
  · cases his

/-- Prose stands in a derivation only where a production is all prose. -/
theorem proseLed (h : Derives .builtin close p taken rest ts) (hp : p.Placed)
    (hprose : p.Proseless) : Tree.ProseLed ts := by
  induction h with
  | @leaf m w t rest hw ht =>
    refine .token (fun hkind => ?_) .nil
    -- What accepts a line of prose asks for one.
    cases m with
    | token k =>
      cases hw
      have hk : t.kind = k := by simpa [Wanted.accepts] using ht
      simp [Part.Proseless, Matcher.proseless, ← hk, hkind] at hprose
    | word w =>
      cases hw
      rw [Token.kind, Wanted.eq_reserved_of_accepts ht] at hkind
      cases hkind
    | rule r => cases hw
  | rule hr h ih => exact ih (Part.placed_rule hr) trivial
  | @here r n is alternatives taken rest ts h ih =>
    rcases Notation.proseless_or hp.getElem? with hall | ⟨rfl, rfl, rfl⟩
    · exact .node (ih trivial hall) .nil
    · obtain ⟨t, v, vs, -, rfl, rfl, hvs⟩ := (cons_token_iff rfl).mp h
      exact .production rfl rfl (one_iff.mp (singleton_iff.mp hvs)).proseLed_lineEnd .nil
  | later h ih => exact ih hp.later trivial
  | done | nil | peek => exact .nil
  | round h hs ih ihs => exact (ih trivial hprose).append (ihs trivial hprose)
  | one h ih | present h ih => exact ih trivial hprose
  | absent => exact .absent .nil
  | star h ih => exact .repeated (ih trivial hprose) .nil
  | plus h hs ih ihs => exact .repeated ((ih trivial hprose).append (ihs trivial hprose)) .nil
  | cons h hs ih ihs =>
    obtain ⟨hi, his⟩ := List.forall_mem_cons.mp hprose
    exact (ih trivial hi).append (ihs trivial his)

end Derives

/-- There is prose in the tree of a list of tokens only where a production is all prose. -/
theorem Tree.proseLed_of_ofTokens {tokens : List Token} {t : Tree} (h : ofTokens tokens = .ok t) :
    ProseLed [t] := by
  obtain ⟨taken, rest, -, -, hd⟩ := ofTokens_ok_iff.mp h
  exact hd.proseLed trivial rfl

/-! ## Trees over lexemes that agree -/

/-- A production that is all prose is the same for prose that reads the same. -/
theorem Reduction.prose_agree {n m : Node} {t u : Token} {ps qs : List Phrase}
    (hn : n.rule = .production) (hm : n.rule = m.rule) (hk : n.alternative = 0)
    (hk' : n.alternative = m.alternative) (ht : t.Agrees u)
    (hps : Forall₂ (Phrase.Alike Anywhere Anywhere) ps qs) :
    RunsAlike Anywhere Anywhere (Phrase.Alike Anywhere Anywhere)
      ((node n).run' (.token t :: ps)) ((node m).run' (.token u :: qs)) := by
  obtain ⟨l, start, stop⟩ := t
  obtain ⟨l', start', stop'⟩ := u
  obtain ⟨-⟩ | @⟨s, s', hs⟩ : l.Agrees l' := ht
  · exact (node_alike hm hk' trivial).run' (.cons (.token ⟨rfl, trivial⟩) hps)
  · -- Both productions note their places after they have read the same prose.
    have hread : ReadsAlike Anywhere Anywhere (Phrase.Alike Anywhere Anywhere)
        (do Reading.gatherProduction n.span; return .production (.prose (proseText s)))
        (do Reading.gatherProduction m.span; return .production (.prose (proseText s'))) := by
      rw [hs]
      exact (Reading.gatherProduction_alike trivial).bind fun _ _ _ => .pure (.same rfl)
    rw [node, node, ← hm, hn]
    dsimp only
    rw [production, production, ← hk', hk]
    exact hread.run' hps

/-- Trees over tokens that agree mean phrases that are alike. -/
theorem visitAll_agree (h : Tree.AllMatch Token.Agrees ts us) (hprose : Tree.ProseLed ts) :
    RunsAlike Anywhere Anywhere (Forall₂ (Phrase.Alike Anywhere Anywhere))
      (Tree.visitAll Reduction.visitor ts) (Tree.visitAll Reduction.visitor us) := by
  induction hprose generalizing us with
  | nil =>
    cases h
    exact .pure .nil
  | @token t ts hkind hprose ih =>
    cases h with
    | @token _ u _ us htu h =>
      refine .visitAll_cons (.pure (.token ?_)) (ih h)
      obtain ⟨l, start, stop⟩ := t
      obtain ⟨l', start', stop'⟩ := u
      obtain ⟨-⟩ | ⟨-⟩ : l.Agrees l' := htu
      · exact ⟨rfl, trivial⟩
      · exact absurd rfl hkind
  | absent hprose ih =>
    cases h with
    | absent h => exact .visitAll_cons (.pure (.same rfl)) (ih h)
  | repeated hxs hprose ihx ih =>
    cases h with
    | repeated hx h =>
      refine .visitAll_cons ?_ (ih h)
      rw [Tree.visit_repeated, Tree.visit_repeated]
      exact (ihx hx).bind fun _ _ hps => .pure (.repeated hps)
  | node hxs hprose ihx ih =>
    cases h with
    | node hr hk hx h =>
      refine .visitAll_cons ?_ (ih h)
      rw [Tree.visit_node, Tree.visit_node]
      exact (ihx hx).bind fun _ _ hps => (Reduction.node_alike hr hk trivial).run' hps
  | production hn hzero hxs hprose ihx ih =>
    cases h with
    | node hr hk hx h =>
      cases hx with
      | token htu hx =>
        rename_i n t xs ts m us u ys
        -- The prose comes first among the children, and it is read as it stands.
        have hchildren : RunsAlike Anywhere Anywhere
            (fun ps qs => ∃ ps' qs', ps = .token t :: ps' ∧ qs = .token u :: qs' ∧
              Forall₂ (Phrase.Alike Anywhere Anywhere) ps' qs')
            (Tree.visitAll Reduction.visitor (.token t :: xs))
            (Tree.visitAll Reduction.visitor (.token u :: ys)) :=
          RunsAlike.bind (R := fun p q => p = .token t ∧ q = .token u) (.pure ⟨rfl, rfl⟩) <| by
            rintro _ _ ⟨rfl, rfl⟩
            exact (ihx hx).bind fun ps qs hps => .pure ⟨ps, qs, rfl, rfl, hps⟩
        refine .visitAll_cons ?_ (ih h)
        rw [Tree.visit_node, Tree.visit_node]
        refine hchildren.bind ?_
        rintro _ _ ⟨ps, qs, rfl, rfl, hps⟩
        exact Reduction.prose_agree hn hr hzero hk htu hps

/-- What is alike of single trees is alike of what they mean. -/
theorem RunsAlike.of_singletons {T N : Span → Span → Prop} {R : Phrase → Phrase → Prop} {t u : Tree}
    (h : RunsAlike T N (Forall₂ R) (Tree.visitAll Reduction.visitor [t])
      (Tree.visitAll Reduction.visitor [u])) :
    RunsAlike T N R (t.visit Reduction.visitor) (u.visit Reduction.visitor) := by
  intro g k hg
  have hrun := h g k hg
  rw [Tree.visitAll, Tree.visitAll, Tree.visitAll, ExceptT.run_bind, StateT.run_bind,
    ExceptT.run_bind, StateT.run_bind] at hrun
  cases hx : (t.visit Reduction.visitor).run.run g with
  | mk a g' =>
    cases hy : (u.visit Reduction.visitor).run.run k with
    | mk b k' =>
      rw [hx, hy] at hrun
      cases a with
      | ok a =>
        cases b with
        | ok b => exact ⟨(List.forall₂_cons.mp hrun.1).1, hrun.2⟩
        | error f => exact hrun.elim
      | error e =>
        cases b with
        | ok b => exact hrun.elim
        | error f => exact hrun

/-- Trees over tokens that agree have declarations that are alike. -/
theorem Tree.declarations_agree {tokens : List Token} {t u : Tree} (ht : ofTokens tokens = .ok t)
    (h : t.Match Token.Agrees u) :
    ResultsAlike (Forall₂ (Declaration.Alike Anywhere Anywhere)) t.declarations
      u.declarations :=
  declarations_alike (visitAll_agree h (proseLed_of_ofTokens ht)).of_singletons

end GrammarText
