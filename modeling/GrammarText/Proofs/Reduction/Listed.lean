import GrammarText.Proofs.Reduction.Blocks
import GrammarText.Proofs.Reduction.Children
import GrammarText.Proofs.Reduction.Frames

/-!
# What lists of terminals mean

The terminals of a definition may be listed on lines, or be productions on lines of their own.  In
both cases what they mean, and the first error among them, is told by the spellings of the
terminals alone (`spellings`): work that is done over some tokens ends as their spellings do
(`Collects`).  So a declaration is the same in both cases but for the places of its productions
(`Derives.declares_lines`, `Derives.declares_productions`).
-/

namespace GrammarText

/-! ## Spellings -/

def Lexeme.isTerminal (l : Lexeme) : Bool := l.kind = .terminal || l.kind = .control

theorem Lexeme.exists_of_isTerminal {l : Lexeme} (h : l.isTerminal = true) :
    ∃ s, l = .terminal s ∨ l = .control s := by
  cases l with
  | terminal s => exact ⟨s, .inl rfl⟩
  | control s => exact ⟨s, .inr rfl⟩
  | _ => cases h

/-- The spelling that a terminal has, or why it has none. -/
def Token.spelling (t : Token) : Except Diagnostic String :=
  match t.lexeme with
  | .terminal q =>
    match Text.unquote? q.toList with
    | some s => .ok (String.ofList s)
    | none => .error (.grammar (.malformedTerminal q t.span))
  | l => .ok l.text

/-- The spellings of the terminals among some tokens with their places, up to the first terminal
that has none. -/
def spellings (run : List Token) : Except Diagnostic (List (String × Span)) :=
  (run.filter (·.lexeme.isTerminal)).mapM fun t => return (← t.spelling, t.span)

variable {run u v taken rest ending : List Token} {t : Token} {ts us : List Tree} {close : Nat}

theorem spellings_append (u v : List Token) :
    spellings (u ++ v) = do return (← spellings u) ++ (← spellings v) := by
  rw [spellings, List.filter_append, List.mapM_append]
  rfl

/-! ## Work over terminals -/

/-- Work over some tokens ends in what `R` makes of the places gathered before and of the spellings,
or in the error of these. -/
def Collects {α : Type} (x : Reducing α) (run : List Token)
    (R : Gathered → List (String × Span) → α → Gathered → Prop) : Prop :=
  ∀ g, Ends g x (fun a g' => ∃ xs, spellings run = .ok xs ∧ R g xs a g')
    (fun e => spellings run = .error e)

namespace Collects

variable {α β : Type} {R : Gathered → List (String × Span) → α → Gathered → Prop}
  {S : Gathered → List (String × Span) → β → Gathered → Prop} {x : Reducing α}

/-- Work goes on without errors. -/
theorem bind {f : α → Reducing β} (hx : Collects x run R)
    (hf : ∀ g xs a g', R g xs a g' → Ends g' (f a) (S g xs) fun _ => False) :
    Collects (x >>= f) run S := by
  intro g
  refine (hx g).bind ?_
  rintro a g' ⟨xs, hxs, ha⟩
  exact (hf g xs a g' ha).mono (fun b g'' hb => ⟨xs, hxs, hb⟩) fun _ => False.elim

variable {P Q PQ : Gathered → List (String × Span) → List Phrase → Gathered → Prop}

/-- Trees in two groups, over the terminals of each. -/
theorem append (hu : Collects (Tree.visitAll Reduction.visitor ts) u P)
    (hv : Collects (Tree.visitAll Reduction.visitor us) v Q)
    (h : ∀ g g₁ g₂ xs ys ps qs, P g xs ps g₁ → Q g₁ ys qs g₂ → PQ g (xs ++ ys) (ps ++ qs) g₂) :
    Collects (Tree.visitAll Reduction.visitor (ts ++ us)) (u ++ v) PQ := by
  intro g
  rw [Tree.visitAll_append, spellings_append]
  -- An error of the first group is the first error of all.
  refine Ends.bind ((hu g).mono (fun _ _ hp => hp) fun e he => by rw [he]; rfl) ?_
  rintro ps g₁ ⟨xs, hxs, hps⟩
  refine Ends.bind ((hv g₁).mono (fun _ _ hq => hq) fun e he => by rw [hxs, he]; rfl) ?_
  rintro qs g₂ ⟨ys, hys, hqs⟩
  exact ends_pure ⟨xs ++ ys, by rw [hxs, hys]; rfl, h g g₁ g₂ xs ys ps qs hps hqs⟩

/-- Trees whose meaning is known may come before and behind. -/
theorem between {fs : List Tree} {ps qs : List Phrase}
    (hf : Tree.visitAll Reduction.visitor fs = pure ps)
    (ht : Collects (Tree.visitAll Reduction.visitor ts) run P)
    (hu : Tree.visitAll Reduction.visitor us = pure qs) :
    Collects (Tree.visitAll Reduction.visitor (fs ++ (ts ++ us))) run
      (fun g xs rs g' => ∃ as, P g xs as g' ∧ rs = ps ++ (as ++ qs)) := by
  rw [Tree.visitAll_append, Tree.visitAll_append, hf, hu, pure_bind, bind_assoc]
  exact ht.bind fun g xs as g' has => ends_pure ⟨as, has, rfl⟩

theorem repeated (ht : Collects (Tree.visitAll Reduction.visitor ts) run P) :
    Collects (Tree.visitAll Reduction.visitor [.repeated ts]) run
      (fun g xs rs g' => ∃ as, P g xs as g' ∧ rs = [.repeated as]) := fun g =>
  ends_visitAll_repeated
    ((ht g).mono (fun as _ ⟨xs, hxs, has⟩ => ⟨xs, hxs, as, has, rfl⟩) fun _ he => he)

theorem node {n : Node} (hu : Collects (Tree.visitAll Reduction.visitor ts) run P)
    (h : ∀ g xs ps g', P g xs ps g' →
      Ends g' ((Reduction.node n).run' ps) (fun p g'' => Q g xs [p] g'') fun _ => False) :
    Collects (Tree.visitAll Reduction.visitor [.node n ts]) run Q := by
  intro g
  refine ends_visitAll_node (hu g) ?_
  rintro ps g' ⟨xs, hxs, hps⟩
  exact (h g xs ps g' hps).mono (fun p g'' hp => ⟨xs, hxs, hp⟩) fun _ => False.elim

end Collects

/-! ## Ends of lines -/

theorem LineEnds.spellings_append (h : LineEnds ending rest) :
    spellings (run ++ ending) = spellings run := by
  rcases h with ⟨t, rfl, ht⟩ | ⟨rfl, -⟩
  · simp [spellings, List.filter_append, ht, Lexeme.isTerminal, Lexeme.kind]
  · rw [List.append_nil]

theorem LineEnds.collects {α : Type} {x : Reducing α}
    {R : Gathered → List (String × Span) → α → Gathered → Prop} (h : LineEnds ending rest)
    (hx : Collects x run R) : Collects x (run ++ ending) R := by
  rwa [Collects, h.spellings_append]

/-- The end of a line or a block is a line break or the end of the text, and has no more to say. -/
theorem Derives.lineEnds {r : Rule} (hr : r.isEnding = true)
    (h : Derives .builtin close (.matcher (.rule r)) taken rest ts) :
    LineEnds taken rest ∧ ∃ p, Tree.visitAll Reduction.visitor ts = pure [p] := by
  obtain ⟨alternatives, halternatives, h⟩ := rule_iff.mp h
  obtain ⟨k, is, us, his, hus, rfl⟩ := choice_iff.mp h
  have hvisit : ∀ xs : List Token, us = xs.map .token → ∃ p,
      Tree.visitAll Reduction.visitor [.node (.over close r (0 + k) taken rest) us] = pure [p] := by
    rintro xs rfl
    rw [Tree.visitAll, visit_ending hr, pure_bind]
    exact ⟨_, rfl⟩
  rw [Notation.alternatives_of_isEnding halternatives hr] at his
  rcases k with _ | _ | k
  · cases his
    obtain ⟨t, v, us, ht, rfl, rfl, hv⟩ := (cons_token_iff rfl).mp hus
    obtain ⟨rfl, rfl⟩ := nil_iff.mp hv
    exact ⟨.inl ⟨t, rfl, Wanted.eq_ofKind_of_accepts ht⟩, hvisit [t] rfl⟩
  · cases his
    obtain ⟨rfl, rfl, u, v, us, rfl, hu⟩ := peek_iff.mp (singleton_iff.mp hus)
    obtain ⟨e, he, rfl, -⟩ := (token_iff rfl).mp hu
    rw [Wanted.accepts_eof] at he
    exact ⟨.inr ⟨rfl, e, v, rfl, he⟩, hvisit [] rfl⟩
  · cases his

theorem LineEnds.derives {r : Rule} (hr : r.isEnding = true) (h : LineEnds taken rest)
    (close : Nat) : ∃ ts, Derives .builtin close (.matcher (.rule r)) taken rest ts := by
  have halternatives : Notation.alternatives r =
      [[.token .newline], [(Item.token .eof).times .peek]] := by
    cases r <;> first | rfl | cases hr
  rcases h with ⟨t, rfl, ht⟩ | ⟨rfl, e, more, rfl, he⟩
  · exact ⟨_, Derives.alternative (k := 0) (by rw [halternatives]; rfl)
      (Derives.singleton_iff.mpr (.one (.leaf rfl (Wanted.accepts_newline ht))))⟩
  · rw [← Wanted.accepts_eof] at he
    have hleaf : Derives .builtin close (.matcher (.token .eof)) [e] more [.token e] := .leaf rfl he
    exact ⟨_, Derives.alternative (k := 1) (by rw [halternatives]; rfl)
      (Derives.singleton_iff.mpr (.peek hleaf))⟩

/-! ## Terminals -/

theorem spellings_singleton (ht : t.lexeme.isTerminal = true) :
    spellings [t] = do return [(← t.spelling, t.span)] := by
  simp [spellings, ht]

/-- A terminal is one token, and its spelling is what it means. -/
theorem Derives.collects_terminal
    (h : Derives .builtin close (.matcher (.rule .terminal)) taken rest ts) :
    (∃ t, taken = [t] ∧ t.lexeme.isTerminal = true) ∧
      Collects (Tree.visitAll Reduction.visitor ts) taken
        (fun g xs ps g' => ∃ x, xs = [x] ∧ ps = [.terminal x.1 x.2] ∧ g' = g) := by
  obtain ⟨k, is, us, his, hus, rfl⟩ := h.exists_alternative
  match k with
  | 0 =>
    cases his
    obtain ⟨t, v, us, ht, rfl, rfl, hv⟩ := (cons_token_iff rfl).mp hus
    obtain ⟨rfl, rfl⟩ := nil_iff.mp hv
    have ht : t.lexeme = .terminal t.text := Wanted.eq_ofKind_of_accepts ht
    have hterminal : t.lexeme.isTerminal = true := by rw [ht]; rfl
    refine ⟨⟨t, rfl, hterminal⟩, fun g => ?_⟩
    rw [spellings_singleton hterminal, Token.spelling, ht]
    refine ends_visitAll_node (P := fun ps g' => ps = [.token t] ∧ g' = g) ⟨rfl, rfl⟩ ?_
    rintro _ _ ⟨rfl, rfl⟩
    show Ends _ ((Reduction.node ⟨.terminal, 0, _, _⟩).run' _) _ _
    rw [run_node_terminal ht]
    dsimp only
    cases Text.unquote? t.text.toList with
    | none => exact ends_throw rfl
    | some s => exact ends_pure ⟨_, rfl, _, rfl, rfl, rfl⟩
  | 1 =>
    cases his
    obtain ⟨t, v, us, ht, rfl, rfl, hv⟩ := (cons_token_iff rfl).mp hus
    obtain ⟨rfl, rfl⟩ := nil_iff.mp hv
    have ht : t.lexeme = .control t.text := Wanted.eq_ofKind_of_accepts ht
    have hterminal : t.lexeme.isTerminal = true := by rw [ht]; rfl
    refine ⟨⟨t, rfl, hterminal⟩, fun g => ?_⟩
    rw [spellings_singleton hterminal, Token.spelling, ht]
    refine ends_visitAll_node (P := fun ps g' => ps = [.token t] ∧ g' = g) ⟨rfl, rfl⟩ ?_
    rintro _ _ ⟨rfl, rfl⟩
    refine Ends.run' ?_
    simp only [Reduction.node, Reduction.terminal, Node.over, StateT.run_bind, Reading.run_token,
      pure_bind, ht]
    exact ends_pure ⟨_, rfl, _, rfl, rfl, rfl⟩

theorem exists_derives_terminal (ht : t.lexeme.isTerminal = true) (close : Nat)
    (rest : List Token) :
    ∃ ts, Derives .builtin close (.matcher (.rule .terminal)) [t] rest ts := by
  rcases Bool.or_eq_true_iff.mp ht with h | h
  · exact ⟨_, Derives.alternative (k := 0) rfl (Derives.singleton_iff.mpr (.one (.leaf rfl h)))⟩
  · exact ⟨_, Derives.alternative (k := 1) rfl (Derives.singleton_iff.mpr (.one (.leaf rfl h)))⟩

/-- Terminals one after another mean their spellings. -/
theorem Derives.collects_terminals
    (h : Derives .builtin close (.rounds (.rule .terminal)) taken rest ts) :
    (∀ t ∈ taken, t.lexeme.isTerminal = true) ∧
      Collects (Tree.visitAll Reduction.visitor ts) taken
        (fun g xs ps g' => ps = xs.map (fun x => .terminal x.1 x.2) ∧ g' = g) := by
  induction h using rounds_induction with
  | done => exact ⟨by simp, fun g => ends_pure ⟨[], rfl, rfl, rfl⟩⟩
  | round h hs ih =>
    obtain ⟨⟨t, rfl, ht⟩, hfirst⟩ := h.collects_terminal
    obtain ⟨hall, hmore⟩ := ih
    refine ⟨List.forall_mem_append.mpr ⟨by simpa using ht, hall⟩, hfirst.append hmore ?_⟩
    rintro g g₁ g₂ _ ys _ _ ⟨x, rfl, rfl, rfl⟩ ⟨rfl, rfl⟩
    exact ⟨rfl, rfl⟩

/-! ## Lines of terminals -/

/-- A line of terminals notes the terminals on it. -/
theorem Derives.collects_terminalLine
    (h : Derives .builtin close (.matcher (.rule .terminalLine)) taken rest ts) :
    (∃ line ending, taken = line ++ ending ∧ line ≠ [] ∧
      (∀ t ∈ line, t.lexeme.isTerminal = true) ∧ LineEnds ending rest) ∧
      Collects (Tree.visitAll Reduction.visitor ts) taken
        (fun g xs ps g' => ps = [.terminals (xs.map Prod.fst)] ∧ g' = g.add xs []) := by
  obtain ⟨k, is, us, his, hus, rfl⟩ := h.exists_alternative
  match k with
  | 0 =>
    cases his
    obtain ⟨line, v, ls, vs, rfl, rfl, hline, hv⟩ := cons_iff.mp hus
    obtain ⟨u, w, us, ws, rfl, rfl, hu, hw⟩ := plus_iff.mp hline
    obtain ⟨hend, q, hq⟩ := (one_iff.mp (singleton_iff.mp hv)).lineEnds rfl
    obtain ⟨hall, hcollects⟩ := (Derives.round hu hw).collects_terminals
    obtain ⟨⟨t, rfl, -⟩, -⟩ := hu.collects_terminal
    refine ⟨⟨t :: w, v, rfl, List.cons_ne_nil t w, hall, hend⟩, ?_⟩
    have hnone : Tree.visitAll Reduction.visitor [] = pure [] := rfl
    refine (hend.collects (hcollects.repeated.between hnone hq)).node ?_
    rintro g xs _ _ ⟨_, ⟨_, ⟨rfl, rfl⟩, rfl⟩, rfl⟩
    refine (ends_terminalLine xs q).mono ?_ fun _ => id
    rintro _ _ ⟨rfl, rfl⟩
    exact ⟨rfl, rfl⟩

/-- Lines of terminals note the terminals on all of them. -/
theorem Derives.collects_terminalLines
    (h : Derives .builtin close (.rounds (.rule .terminalLine)) taken rest ts) :
    Collects (Tree.visitAll Reduction.visitor ts) taken
      (fun g xs ps g' => (∃ lines : List (List String), lines.flatten = xs.map Prod.fst ∧
        ps = lines.map .terminals) ∧ g' = g.add xs []) := by
  induction h using rounds_induction with
  | done => exact fun g => ends_pure ⟨[], rfl, ⟨[], rfl, rfl⟩, g.add_nil.symm⟩
  | round h hs ih =>
    refine h.collects_terminalLine.2.append ih ?_
    rintro g g₁ g₂ xs ys _ _ ⟨rfl, rfl⟩ ⟨⟨lines, hlines, rfl⟩, rfl⟩
    refine ⟨⟨xs.map Prod.fst :: lines, ?_, rfl⟩, g.add_add xs ys [] []⟩
    rw [List.flatten_cons, hlines, List.map_append]

/-! ## Productions of one terminal -/

/-- A terminal alone is the symbols of a production, and is noted. -/
theorem exists_body (ht : t.lexeme.isTerminal = true) (close : Nat) (rest : List Token) :
    ∃ ts, Derives .builtin close (.matcher (.rule .body)) [t] rest ts ∧
      Collects (Tree.visitAll Reduction.visitor ts) [t]
        (fun g xs ps g' =>
          ∃ x, xs = [x] ∧ ps = [.symbols [.terminal x.1]] ∧ g' = g.add [x] []) := by
  obtain ⟨ts, hts⟩ := exists_derives_terminal ht close rest
  have hsymbol : Derives .builtin close (.matcher (.rule .symbol)) [t] ([] ++ rest)
      [.node (.over close .symbol 5 [t] rest) ts] :=
    .alternative (k := 5) rfl (Derives.singleton_iff.mpr (.one hts))
  refine ⟨_, .alternative (k := 1) rfl (Derives.singleton_iff.mpr (.plus hsymbol .done)), ?_⟩
  rw [List.append_nil]
  refine (hts.collects_terminal.2.node (Q := fun g xs ps g' => ∃ x, xs = [x] ∧
    ps = [.symbol (.terminal x.1)] ∧ g' = g.add [x] []) ?_).repeated.node ?_
  · rintro g _ _ _ ⟨x, rfl, rfl, rfl⟩
    exact ⟨x, rfl, rfl, by simp [Gathered.add]⟩
  · rintro g _ _ _ ⟨_, ⟨x, rfl, rfl, rfl⟩, rfl⟩
    exact ⟨x, rfl, rfl, rfl⟩

theorem ends_production {start stop : Nat} {E : Diagnostic → Prop} (g : Gathered)
    (xs : List (String × Span)) (ss : List Symbol) (ps : List Phrase) :
    Ends (g.add xs []) ((Reduction.node ⟨.production, 2, start, stop⟩).run'
      (.absent :: .symbols ss :: ps))
      (fun p g' => p = .production (.symbols ss) ∧ g' = g.add xs [⟨start, stop⟩]) E :=
  ⟨rfl, by simp [Gathered.add, Node.span]⟩

def AreProductions (g : Gathered) (xs : List (String × Span)) (ps : List Phrase) (g' : Gathered) :
    Prop :=
  ps = (xs.map fun x => Production.symbols [.terminal x.1]).map .production ∧
    ∃ ss, g' = g.add xs ss

/-- A terminal alone on a line is a production. -/
theorem exists_production (ht : t.lexeme.isTerminal = true) (hend : LineEnds ending rest)
    (close : Nat) :
    ∃ ts, Derives .builtin close (.matcher (.rule .production)) (t :: ending) rest ts ∧
      Collects (Tree.visitAll Reduction.visitor ts) (t :: ending) AreProductions := by
  obtain ⟨bs, hbs, hcollects⟩ := exists_body ht close (ending ++ rest)
  obtain ⟨es, hes⟩ := hend.derives (r := .lineEnd) rfl close
  obtain ⟨-, q, hq⟩ := hes.lineEnds rfl
  have hitems : Derives .builtin close (.items [(Item.rule .guard).times .optional, .rule .body,
      (Item.token .label).times .optional, .rule .lineEnd]) (t :: ending) rest
      ([.absent] ++ (bs ++ ([.absent] ++ es))) :=
    .cons (u := []) (v := t :: ending) .absent (.cons (u := [t]) (.one hbs)
      (.cons (u := []) .absent (Derives.singleton_iff.mpr (.one hes))))
  refine ⟨_, hitems.alternative (r := .production) (k := 2) rfl, ?_⟩
  have hfirst : Tree.visitAll Reduction.visitor [.absent] = pure [.absent] := rfl
  have hlast : Tree.visitAll Reduction.visitor ([.absent] ++ es) = pure [.absent, q] := by
    rw [List.singleton_append, Tree.visitAll, hq]
    rfl
  refine (hend.collects (hcollects.between hfirst hlast)).node ?_
  rintro g _ _ _ ⟨_, ⟨x, rfl, rfl, rfl⟩, rfl⟩
  refine (ends_production g [x] [.terminal x.1] [.absent, q]).mono ?_ fun _ => id
  rintro _ _ ⟨rfl, rfl⟩
  exact ⟨rfl, _, rfl⟩

theorem AreProductions.append {g g₁ g₂ : Gathered} {xs ys : List (String × Span)}
    {ps qs : List Phrase} (hp : AreProductions g xs ps g₁) (hq : AreProductions g₁ ys qs g₂) :
    AreProductions g (xs ++ ys) (ps ++ qs) g₂ := by
  obtain ⟨rfl, ss, rfl⟩ := hp
  obtain ⟨rfl, rs, rfl⟩ := hq
  refine ⟨?_, ss ++ rs, g.add_add xs ys ss rs⟩
  rw [List.map_append, List.map_append]

/-! ## Definitions -/

variable {h k : Head} {separator : String} {n m : Node} {xs ys : List Tree}

/-- A declaration of terminals, which takes all places that were gathered. -/
def IsDeclared (h : Head) (separator : String) (g : Gathered) (xs : List (String × Span))
    (p : Phrase) (g' : Gathered) : Prop :=
  g' = .none ∧ ∃ d : Declaration, p = .declaration d ∧ d.name = h.name ∧ d.separator = separator ∧
    d.definition = h.define (xs.map fun x => .symbols [.terminal x.1]) ∧
    d.terminalSpans = g.terminals ++ xs

/-- The trees of a definition mean a declaration of the terminals among some tokens, whatever head
stands before them. -/
def Declares (n : Node) (ts : List Tree) (separator : String) (run : List Token) : Prop :=
  ∀ h, Collects (Tree.visitAll Reduction.visitor ts >>= fun ps =>
    (Reduction.node n).run' (.head h :: ps)) run (IsDeclared h separator)

theorem ends_isDeclared {E : Diagnostic → Prop} (n : Node) (h : Head) (separator : String)
    (g : Gathered) (xs : List (String × Span)) (ss : List Span) (ps : List Phrase) :
    Ends (g.add xs ss) ((Reduction.declare n h separator
      (xs.map fun x => .symbols [.terminal x.1])).run' ps) (IsDeclared h separator g xs) E := by
  refine ((ends_declare n h separator _ ps).mono ?_ fun _ he => he).run'
  rintro ⟨p, qs⟩ _ ⟨rfl, rfl⟩
  exact ⟨rfl, _, rfl, rfl, rfl, rfl, rfl⟩

/-- Lines of terminals declare the terminals on them. -/
theorem Derives.declares_lines {start stop : Nat} {c o f b : Token}
    (hlines : Derives .builtin close (.rounds (.rule .terminalLine)) u (v ++ rest) ts)
    (hend : Derives .builtin close (.matcher (.rule .blockEnd)) v rest us) :
    Declares ⟨.definition, 0, start, stop⟩
      ([.token c, .token o, .token f, .token b] ++ ([.repeated ts] ++ us)) c.text (u ++ v) := by
  obtain ⟨hv, q, hq⟩ := hend.lineEnds rfl
  intro h
  have hfirst : Tree.visitAll Reduction.visitor [.token c, .token o, .token f, .token b] =
      pure [.token c, .token o, .token f, .token b] := rfl
  refine hv.collects ((hlines.collects_terminalLines.repeated.between hfirst hq).bind ?_)
  rintro g xs _ _ ⟨_, ⟨_, ⟨⟨lines, hlines, rfl⟩, rfl⟩, rfl⟩, rfl⟩
  show Ends _ ((Reduction.node _).run' [.head h, .token c, .token o, .token f, .token b,
    .repeated (lines.map .terminals), q]) _ _
  rw [run_node_definition_terminals, hlines, List.map_map]
  exact ends_isDeclared _ h c.text g xs [] _

/-- Productions of one terminal each declare these. -/
theorem Derives.declares_productions {start stop : Nat} {c b : Token}
    (hps : Collects (Tree.visitAll Reduction.visitor ts) u AreProductions)
    (hend : Derives .builtin close (.matcher (.rule .blockEnd)) v rest us) :
    Declares ⟨.definition, 1, start, stop⟩ ([.token c, .token b] ++ ([.repeated ts] ++ us)) c.text
      (u ++ v) := by
  obtain ⟨hv, q, hq⟩ := hend.lineEnds rfl
  intro h
  have hfirst : Tree.visitAll Reduction.visitor [.token c, .token b] =
      pure [.token c, .token b] := rfl
  refine hv.collects ((hps.repeated.between hfirst hq).bind ?_)
  rintro g xs _ _ ⟨_, ⟨_, ⟨rfl, ss, rfl⟩, rfl⟩, rfl⟩
  show Ends _ ((Reduction.node _).run' [.head h, .token c, .token b,
    .repeated ((xs.map fun x => Production.symbols [.terminal x.1]).map .production), q]) _ _
  rw [run_node_definition]
  exact ends_isDeclared _ h c.text g xs ss _

end GrammarText
