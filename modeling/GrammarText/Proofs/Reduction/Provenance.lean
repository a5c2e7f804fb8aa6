import GrammarText.Proofs.Reduction.Ends
import GrammarText.Proofs.Reduction.Children
import GrammarText.Proofs.Reduction.Sources

/-!
# The provenance of phrases

For each rule: where the children of a node were read from tokens as an alternative of the rule has
it, the node means a phrase that was read from these tokens, or its error points at some of them
(`node_read`).  So what a derivation means has been read from the tokens that it derives
(`Derives.read`).
-/

namespace GrammarText

open Reading

variable {g g' : Gathered} {ps : List Phrase} {run rest : List Token} {is : List Item} {k : Kind}
  {w : Word} {r : Rule}

/-! ## Reading back, item by item -/

section Items

theorem readAll_nil : ReadAll [] ps run rest g g' ↔ ps = [] ∧ run = [] ∧ g' = g := Iff.rfl

theorem readAll_token : ReadAll (.token k :: is) ps run rest g g' ↔
    ∃ t qs v, ps = .token t :: qs ∧ run = t :: v ∧ t.lexeme = .ofKind k t.text ∧
      ReadAll is qs v rest g g' := by
  constructor
  · rintro ⟨_, qs, _, v, _, rfl, rfl, ⟨t, rfl, rfl, ht, rfl⟩, his⟩
    exact ⟨t, qs, v, rfl, rfl, ht, his⟩
  · rintro ⟨t, qs, v, rfl, rfl, ht, his⟩
    exact ⟨_, qs, [t], v, g, rfl, rfl, ⟨t, rfl, rfl, ht, rfl⟩, his⟩

theorem readAll_word : ReadAll (.word w :: is) ps run rest g g' ↔
    ∃ t qs v, ps = .token t :: qs ∧ run = t :: v ∧ t.lexeme = .reserved w ∧
      ReadAll is qs v rest g g' := by
  constructor
  · rintro ⟨_, qs, _, v, _, rfl, rfl, ⟨t, rfl, rfl, ht, rfl⟩, his⟩
    exact ⟨t, qs, v, rfl, rfl, ht, his⟩
  · rintro ⟨t, qs, v, rfl, rfl, ht, his⟩
    exact ⟨_, qs, [t], v, g, rfl, rfl, ⟨t, rfl, rfl, ht, rfl⟩, his⟩

theorem readAll_rule : ReadAll (.rule r :: is) ps run rest g g' ↔
    ∃ p qs u v g₁, ps = p :: qs ∧ run = u ++ v ∧ (Matcher.rule r).Read p u (v ++ rest) g g₁ ∧
      ReadAll is qs v rest g₁ g' := Iff.rfl

theorem readAll_optional {i : Item} : ReadAll (i.times .optional :: is) ps run rest g g' ↔
    ∃ p qs u v g₁, ps = p :: qs ∧ run = u ++ v ∧
      (i.matcher.Read p u (v ++ rest) g g₁ ∨ p = .absent ∧ u = [] ∧ g₁ = g) ∧
      ReadAll is qs v rest g₁ g' := Iff.rfl

theorem readAll_star {i : Item} : ReadAll (i.times .star :: is) ps run rest g g' ↔
    ∃ xs qs u v g₁, ps = .repeated xs :: qs ∧ run = u ++ v ∧
      i.matcher.ReadRounds xs u (v ++ rest) g g₁ ∧ ReadAll is qs v rest g₁ g' := Iff.rfl

theorem readAll_plus {i : Item} : ReadAll (i.times .plus :: is) ps run rest g g' ↔
    ∃ xs qs u v g₁, ps = .repeated xs :: qs ∧ run = u ++ v ∧ xs ≠ [] ∧
      i.matcher.ReadRounds xs u (v ++ rest) g g₁ ∧ ReadAll is qs v rest g₁ g' := Iff.rfl

theorem readAll_peek : ReadAll ((Item.token k).times .peek :: is) ps run rest g g' ↔
    (∃ t more, run ++ rest = t :: more ∧ (Wanted.kind k).accepts t = true) ∧
      ReadAll is ps run rest g g' := by
  show (∀ w, some (Wanted.kind k) = some w → _) ∧ _ ↔ _
  simp

end Items

/-! ## Places of terminals -/

theorem located_nil (run : List Token) : Located run [] := by
  induction run with
  | nil => exact .nil
  | cons t run ih => exact .skip ih

theorem Located.append {u v : List Token} {xs ys : List (String × Span)} (hu : Located u xs)
    (hv : Located v ys) : Located (u ++ v) (xs ++ ys) := by
  induction hu with
  | nil => exact hv
  | skip h ih => exact .skip ih
  | found ht h ih => exact .found ht ih

theorem Located.append_left {u v : List Token} {xs : List (String × Span)} (h : Located u xs) :
    Located (u ++ v) xs := by
  simpa using h.append (located_nil v)

theorem Located.append_right {u v : List Token} {xs : List (String × Span)} (h : Located v xs) :
    Located (u ++ v) xs := (located_nil u).append h

@[simp] theorem Gathered.add_nil (g : Gathered) : g.add [] [] = g := by
  simp [add]

theorem Gathered.add_add (g : Gathered) (xs ys : List (String × Span)) (ss ts : List Span) :
    (g.add xs ss).add ys ts = g.add (xs ++ ys) (ss ++ ts) := by
  simp [add]

/-! ## Rounds -/

/-- Rounds that each mean a thing of one kind and gather what belongs to it mean these things and
gather what belongs to all of them. -/
theorem exists_of_readRounds {α : Type} {c : α → Phrase} {R : α → List Token → List Token → Prop}
    {T : α → List (String × Span)} {L : α → List Span} {m : Matcher}
    (h : ∀ p u rest g g', m.Read p u rest g g' → ∃ a, p = c a ∧ R a u rest ∧
      Located u (T a) ∧ g' = g.add (T a) (L a))
    {xs : List Phrase} (hxs : m.ReadRounds xs run rest g g') :
    ∃ as, xs = as.map c ∧ InTurn R as run rest ∧ Located run (as.flatMap T) ∧
      g' = g.add (as.flatMap T) (as.flatMap L) := by
  induction xs generalizing run g with
  | nil =>
    obtain ⟨rfl, rfl⟩ := hxs
    exact ⟨[], rfl, .nil, .nil, by simp⟩
  | cons x xs ih =>
    obtain ⟨u, v, g₁, rfl, hx, hxs⟩ := hxs
    obtain ⟨a, rfl, ha, hlocated, rfl⟩ := h x u _ _ _ hx
    obtain ⟨as, rfl, has, hrest, rfl⟩ := ih hxs
    exact ⟨a :: as, rfl, .cons ha has, hlocated.append hrest, by
      simp only [List.flatMap_cons, Gathered.add_add]⟩

/-- Rounds that gather nothing mean things that are read in turn. -/
theorem exists_of_quietRounds {α : Type} {c : α → Phrase} {R : α → List Token → List Token → Prop}
    {m : Matcher}
    (h : ∀ p u rest g g', m.Read p u rest g g' → ∃ a, p = c a ∧ R a u rest ∧ g' = g)
    {xs : List Phrase} (hxs : m.ReadRounds xs run rest g g') :
    ∃ as, xs = as.map c ∧ InTurn R as run rest ∧ g' = g := by
  obtain ⟨as, hmap, has, -, hg⟩ := exists_of_readRounds (R := R) (T := fun _ => [])
    (L := fun _ => []) (fun p u rest g g' hp => by
      obtain ⟨a, hc, ha, rfl⟩ := h p u rest g g' hp
      exact ⟨a, hc, ha, located_nil u, by simp⟩) hxs
  have hnil : ∀ {β : Type}, as.flatMap (fun _ => ([] : List β)) = [] := by simp
  rw [hnil, hnil, Gathered.add_nil] at hg
  exact ⟨as, hmap, has, hg⟩

/-! ## Nodes -/

/-- A node whose children were read from some tokens as an alternative of its rule has it means a
phrase of the rule that was read from these tokens. -/
def NodeRead (r : Rule) : Prop :=
  ∀ k start stop is ps run rest g g₁, ((builtinRules.alternatives? r).getD [])[k]? = some is →
    ReadAll is ps run rest g g₁ → (run ≠ [] → (⟨start, stop⟩ : Span) = Span.over run) →
    Ends g₁ ((Reduction.node ⟨r, k, start, stop⟩).run' ps)
      (fun p g' => p.ReadFrom r run rest g g') (·.Blames run)

/-! ### Names and lines -/

theorem head_read : NodeRead .head := by
  intro k start stop is ps run rest g g₁ hk hf hspan
  rcases k with _ | _ | k
  · cases hk
    obtain ⟨t, _, _, rfl, rfl, ht, hf₁⟩ := readAll_token.mp hf
    obtain ⟨u, _, _, rfl, rfl, -, hf₂⟩ := readAll_word.mp hf₁
    obtain ⟨_, _, _, _, _, rfl, rfl, ⟨⟨⟨s, rfl⟩, rfl⟩, -⟩, hf₃⟩ := readAll_rule.mp hf₂
    obtain ⟨xs, _, _, _, _, rfl, rfl, hxs, hf₄⟩ := readAll_star.mp hf₃
    obtain ⟨v, _, _, rfl, rfl, -, hf₅⟩ := readAll_word.mp hf₄
    obtain ⟨rfl, rfl, rfl⟩ := readAll_nil.mp hf₅
    obtain ⟨ss, rfl, -, rfl⟩ := exists_of_quietRounds (c := Phrase.name) (R := fun _ _ _ => True)
      (fun _ _ _ _ _ hp => by
        obtain ⟨⟨⟨s, rfl⟩, rfl⟩, -⟩ := hp
        exact ⟨s, rfl, trivial, rfl⟩) hxs
    rw [run_node_head]
    exact ends_pure ⟨_, t, _, rfl, rfl, rfl, rfl, rfl⟩
  · cases hk
    simp only [readAll_token, readAll_nil] at hf
    obtain ⟨t, _, _, rfl, rfl, -, rfl, rfl, rfl⟩ := hf
    exact ends_pure ⟨_, t, _, rfl, rfl, rfl, rfl, rfl⟩
  · cases hk

theorem param_read : NodeRead .param := by
  intro k start stop is ps run rest g g₁ hk hf hspan
  rcases k with _ | k
  · cases hk
    simp only [readAll_token, readAll_nil] at hf
    obtain ⟨t, _, _, rfl, rfl, -, rfl, rfl, rfl⟩ := hf
    exact ends_pure ⟨⟨_, rfl⟩, rfl⟩
  · cases hk

theorem paramTail_read : NodeRead .paramTail := by
  intro k start stop is ps run rest g g₁ hk hf hspan
  rcases k with _ | k
  · cases hk
    simp only [readAll_word, readAll_rule, readAll_nil] at hf
    obtain ⟨t, _, _, rfl, rfl, -, _, _, _, _, _, rfl, rfl, ⟨⟨⟨s, rfl⟩, rfl⟩, -⟩, rfl, rfl, rfl⟩ := hf
    exact ends_pure ⟨⟨s, rfl⟩, rfl⟩
  · cases hk

/-- The end of a line is a line break, or it stands before the end of the text. -/
theorem lineEnds_of_read {n : Nat} {is : List Item}
    (hk : [[Item.token .newline], [(Item.token .eof).times .peek]][n]? = some is)
    (hf : ReadAll is ps run rest g g') : LineEnds run rest ∧ g' = g := by
  rcases n with _ | _ | n
  · cases hk
    simp only [readAll_token, readAll_nil] at hf
    obtain ⟨t, _, _, -, rfl, ht, -, rfl, rfl⟩ := hf
    exact ⟨.inl ⟨t, rfl, ht⟩, rfl⟩
  · cases hk
    simp only [readAll_peek, readAll_nil] at hf
    obtain ⟨⟨t, more, hrest, ht⟩, -, rfl, rfl⟩ := hf
    rw [Wanted.accepts_eof] at ht
    exact ⟨.inr ⟨rfl, t, more, hrest, ht⟩, rfl⟩
  · cases hk

theorem blockEnd_read : NodeRead .blockEnd := by
  intro k start stop is ps run rest g g₁ hk hf hspan
  obtain ⟨hend, rfl⟩ := lineEnds_of_read hk hf
  exact ends_pure ⟨rfl, hend, rfl⟩

theorem lineEnd_read : NodeRead .lineEnd := by
  intro k start stop is ps run rest g g₁ hk hf hspan
  obtain ⟨hend, rfl⟩ := lineEnds_of_read hk hf
  exact ends_pure ⟨rfl, hend, rfl⟩

theorem terminal_read : NodeRead .terminal := by
  intro k start stop is ps run rest g g₁ hk hf hspan
  rcases k with _ | _ | k
  · cases hk
    simp only [readAll_token, readAll_nil] at hf
    obtain ⟨t, _, _, rfl, rfl, ht, rfl, rfl, rfl⟩ := hf
    rw [run_node_terminal ht]
    cases hu : Text.unquote? t.text.toList with
    | none => exact ends_throw trivial
    | some s =>
      refine ends_pure ⟨t, _, rfl, .inl ⟨_, ht, ?_⟩, rfl, rfl⟩
      rw [hu, String.toList_ofList]
  · cases hk
    simp only [readAll_token, readAll_nil] at hf
    obtain ⟨t, _, _, rfl, rfl, ht, rfl, rfl, rfl⟩ := hf
    have hnode : (Reduction.node ⟨.terminal, 1, start, stop⟩).run' [.token t] =
        pure (.terminal t.text t.span) := by
      simp only [Reduction.node, Reduction.terminal, StateT.run'_eq, StateT.run_bind, run_token,
        pure_bind, ht]
      rfl
    rw [hnode]
    exact ends_pure ⟨t, _, rfl, .inr ht, rfl, rfl⟩
  · cases hk

/-- The places of terminals on a line are noted. -/
theorem ends_gatherTerminals {E : Diagnostic → Prop} (n : Node) (xs : List (String × Span))
    (ps : List Phrase) :
    Ends g (StateT.run (Reduction.gatherTerminals n (xs.map fun x => .terminal x.1 x.2)) ps)
      (fun r g' => r = (xs.map Prod.fst, ps) ∧ g' = g.add xs []) E := by
  induction xs generalizing g with
  | nil => exact ends_pure ⟨rfl, by simp⟩
  | cons x xs ih =>
    have hgather : Ends g (StateT.run (gatherTerminal x.1 x.2) ps)
        (fun r g' => r = ((), ps) ∧ g' = g.add [x] []) E := ⟨rfl, by simp [Gathered.add]⟩
    rw [List.map_cons, Reduction.gatherTerminals, StateT.run_bind]
    refine hgather.bind ?_
    rintro _ _ ⟨rfl, rfl⟩
    rw [StateT.run_bind]
    refine ih.bind ?_
    rintro _ _ ⟨rfl, rfl⟩
    exact ends_pure ⟨rfl, by simp [Gathered.add_add]⟩

theorem ends_terminalLine {start stop : Nat} {E : Diagnostic → Prop} (xs : List (String × Span))
    (p : Phrase) :
    Ends g ((Reduction.node ⟨.terminalLine, 0, start, stop⟩).run'
      [.repeated (xs.map fun x => .terminal x.1 x.2), p])
      (fun q g' => q = .terminals (xs.map Prod.fst) ∧ g' = g.add xs []) E := by
  refine Ends.run' ?_
  simp only [Reduction.node, Reduction.terminalLine, StateT.run_bind, run_repeated, pure_bind]
  refine (ends_gatherTerminals _ xs _).bind ?_
  rintro _ _ ⟨rfl, rfl⟩
  exact ends_pure ⟨rfl, rfl⟩

theorem located_of_inTurn {xs : List (String × Span)}
    (h : InTurn (fun x u _ => ∃ t : Token, u = [t] ∧ t.Spells x.1 ∧ x.2 = t.span) xs run rest) :
    Located run xs := by
  induction h with
  | nil => exact .nil
  | @cons x xs u v rest hx hs ih =>
    obtain ⟨t, rfl, ht, hspan⟩ := hx
    obtain ⟨s, span⟩ := x
    obtain rfl : span = t.span := hspan
    exact .found ht ih

theorem terminalLine_read : NodeRead .terminalLine := by
  intro k start stop is ps run rest g g₁ hk hf hspan
  rcases k with _ | k
  · cases hk
    simp only [readAll_rule, readAll_plus, readAll_nil] at hf
    obtain ⟨xs, _, u, _, _, rfl, rfl, -, hxs, _, _, v, _, _, rfl, rfl, ⟨⟨rfl, -, rfl⟩, -⟩, rfl, rfl,
      rfl⟩ := hf
    obtain ⟨xs, rfl, hturn, rfl⟩ := exists_of_quietRounds
      (c := fun x : String × Span => Phrase.terminal x.1 x.2)
      (R := fun x u _ => ∃ t : Token, u = [t] ∧ t.Spells x.1 ∧ x.2 = t.span)
      (fun _ _ _ _ _ hp => by
        obtain ⟨⟨t, s, rfl, ht, rfl, rfl⟩, -⟩ := hp
        exact ⟨(s, t.span), rfl, ⟨t, rfl, ht, rfl⟩, rfl⟩) hxs
    refine (ends_terminalLine xs _).mono ?_ fun _ he => he
    rintro _ _ ⟨rfl, rfl⟩
    exact ⟨xs, rfl, (located_of_inTurn hturn).append_left, rfl⟩
  · cases hk

/-! ### Symbols -/

theorem sigil_read : NodeRead .sigil := by
  intro k start stop is ps run rest g g₁ hk hf hspan
  rcases k with _ | _ | k
  · cases hk
    simp only [readAll_rule, readAll_nil] at hf
    obtain ⟨_, _, _, _, _, rfl, rfl, ⟨⟨value, rfl, hrun, rfl⟩, -⟩, rfl, rfl, rfl⟩ := hf
    exact ends_pure ⟨_, rfl, by simpa using hrun, rfl⟩
  · cases hk
    simp only [readAll_word, readAll_nil] at hf
    obtain ⟨t, _, _, rfl, rfl, ht, rfl, rfl, rfl⟩ := hf
    exact ends_pure ⟨.pass, rfl, congrArg (fun l => [l]) ht, rfl⟩
  · cases hk

theorem fixedSigil_read : NodeRead .fixedSigil := by
  intro k start stop is ps run rest g g₁ hk hf hspan
  rcases k with _ | _ | k
  · cases hk
    simp only [readAll_word, readAll_nil] at hf
    obtain ⟨t, _, _, rfl, rfl, ht, rfl, rfl, rfl⟩ := hf
    exact ends_pure ⟨false, rfl, congrArg (fun l => [l]) ht, rfl⟩
  · cases hk
    simp only [readAll_word, readAll_nil] at hf
    obtain ⟨t, _, _, rfl, rfl, ht, rfl, rfl, rfl⟩ := hf
    exact ends_pure ⟨true, rfl, congrArg (fun l => [l]) ht, rfl⟩
  · cases hk

theorem arg_read : NodeRead .arg := by
  intro k start stop is ps run rest g g₁ hk hf hspan
  rcases k with _ | k
  · cases hk
    simp only [readAll_rule, readAll_token, readAll_nil] at hf
    obtain ⟨_, _, _, _, _, rfl, rfl, ⟨⟨s, rfl, hrun, rfl⟩, -⟩, t, _, _, rfl, rfl, ht, rfl, rfl,
      rfl⟩ := hf
    have hlexemes : ∀ (u : List Token), u.map Token.lexeme = [.reserved s.word] →
        (u ++ [t]).map Token.lexeme = [.reserved s.word, .nonterminal t.text] := by
      intro u hu
      rw [List.map_append, hu]
      exact congrArg (fun l => [.reserved s.word, l]) ht
    cases s with
    | fixed value => exact ends_pure ⟨_, rfl, ⟨_, hlexemes _ hrun, hspan (by simp)⟩, rfl⟩
    | pass => exact ends_pure ⟨_, rfl, ⟨_, hlexemes _ hrun, hspan (by simp)⟩, rfl⟩
  · cases hk

theorem argTail_read : NodeRead .argTail := by
  intro k start stop is ps run rest g g₁ hk hf hspan
  rcases k with _ | k
  · cases hk
    simp only [readAll_word, readAll_rule, readAll_nil] at hf
    obtain ⟨t, _, _, rfl, rfl, ht, _, _, u, _, _, rfl, rfl, ⟨⟨a, rfl, ha, rfl⟩, -⟩, rfl, rfl,
      rfl⟩ := hf
    exact ends_pure ⟨a, t, _, rfl, rfl, ht, by simpa using ha, rfl⟩
  · cases hk

/-- An argument that is repeated is one of the arguments. -/
theorem mem_of_repeatedArgument? {seen : List String} {as : List PassedArgument}
    {a : PassedArgument} (h : Reduction.repeatedArgument? seen as = some a) : a ∈ as := by
  induction as generalizing seen with
  | nil => cases h
  | cons b as ih =>
    rw [Reduction.repeatedArgument?] at h
    split at h
    · cases h
      exact List.mem_cons_self
    · exact List.mem_cons_of_mem _ (ih h)

/-- A thing that is read in turn stands between those before it and those after it. -/
theorem InTurn.exists_of_append {α : Type} {R : α → List Token → List Token → Prop}
    {as bs : List α} {a : α} (h : InTurn R (as ++ a :: bs) run rest) :
    ∃ pre u post, run = pre ++ u ++ post ∧ InTurn R as pre (u ++ post ++ rest) ∧
      R a u (post ++ rest) ∧ InTurn R bs post rest := by
  induction as generalizing run with
  | nil =>
    cases h with
    | @cons _ _ u v _ hu hv => exact ⟨[], u, v, rfl, .nil, hu, hv⟩
  | cons b as ih =>
    cases h with
    | @cons _ _ u v _ hu hv =>
      obtain ⟨pre, w, post, rfl, hpre, hw, hpost⟩ := ih hv
      exact ⟨u ++ pre, w, post, by simp, .cons (by simpa using hu) hpre, hw, hpost⟩

theorem InTurn.exists_of_mem {α : Type} {R : α → List Token → List Token → Prop} {as : List α}
    (h : InTurn R as run rest) {a : α} (ha : a ∈ as) :
    ∃ before pre u after post, run = pre ++ u ++ post ∧ InTurn R before pre (u ++ post ++ rest) ∧
      R a u (post ++ rest) ∧ InTurn R after post rest := by
  obtain ⟨before, after, rfl⟩ := List.append_of_mem ha
  obtain ⟨pre, u, post, hrun, hbefore, hu, hafter⟩ := h.exists_of_append
  exact ⟨before, pre, u, after, post, hrun, hbefore, hu, hafter⟩

/-- What holds of the tokens of each thing holds of all tokens. -/
theorem InTurn.forall_mem {α : Type} {R : α → List Token → List Token → Prop} {as : List α}
    {T : Token → Prop} (h : InTurn R as run rest) (hR : ∀ a u rest, R a u rest → ∀ t ∈ u, T t) :
    ∀ t ∈ run, T t := by
  induction h with
  | nil => simp
  | cons h hs ih => exact List.forall_mem_append.mpr ⟨hR _ _ _ h, ih⟩

/-- No bracket closes in an argument. -/
theorem PassedArgument.ReadFrom.ne_closeBracket {a : PassedArgument} (h : a.ReadFrom run) :
    ∀ t ∈ run, t.lexeme ≠ .reserved .closeBracket := by
  obtain ⟨sigil, hrun, -⟩ := h
  intro t ht hclose
  have hmem := List.mem_map_of_mem (f := Token.lexeme) ht
  rw [hclose, hrun] at hmem
  rcases sigil with ⟨_ | _⟩ | _ <;> simp [Sigil.word] at hmem

theorem nonterminal_read : NodeRead .nonterminal := by
  intro k start stop is ps run rest g g₁ hk hf hspan
  rcases k with _ | _ | _ | k
  · cases hk
    obtain ⟨t, _, _, rfl, rfl, ht, hf₁⟩ := readAll_token.mp hf
    obtain ⟨u, _, _, rfl, rfl, hu, hf₂⟩ := readAll_word.mp hf₁
    obtain ⟨_, _, v, _, _, rfl, rfl, ⟨⟨a, rfl, ha, rfl⟩, -⟩, hf₃⟩ := readAll_rule.mp hf₂
    obtain ⟨xs, _, w, _, _, rfl, rfl, hxs, hf₄⟩ := readAll_star.mp hf₃
    obtain ⟨x, _, _, rfl, rfl, -, hf₅⟩ := readAll_word.mp hf₄
    obtain ⟨rfl, rfl, rfl⟩ := readAll_nil.mp hf₅
    obtain ⟨as, rfl, has, rfl⟩ := exists_of_quietRounds (c := Phrase.arg)
      (R := fun a u _ => ∃ t more, u = t :: more ∧ t.lexeme = .reserved .comma ∧ a.ReadFrom more)
      (fun _ _ _ _ _ hp => by
        obtain ⟨⟨a, t, more, rfl, rfl, ht, ha, rfl⟩, -⟩ := hp
        exact ⟨a, rfl, ⟨t, more, rfl, ht, ha⟩, rfl⟩) hxs
    rw [run_node_apply]
    cases hr : Reduction.repeatedArgument? [] (a :: as) with
    | none => exact ends_pure ⟨_, rfl, rfl, rfl⟩
    | some b =>
      -- The argument at fault is the first one or one of the others.
      refine ends_throw ?_
      rcases List.mem_cons.mp (mem_of_repeatedArgument? hr) with rfl | hb
      · obtain ⟨sigil, hlexemes, hplace⟩ := ha
        exact ⟨v, ⟨t, u, [], sigil, ht, hu, by simp, hlexemes, ⟨[], w ++ [x], by simp⟩⟩, hplace⟩
      · obtain ⟨_, pre, _, _, post, rfl, hbefore, ⟨c, more, rfl, hc, hmore⟩, -⟩ :=
          has.exists_of_mem hb
        have hopen : ∀ y ∈ v ++ (pre ++ [c]), y.lexeme ≠ .reserved .closeBracket := by
          simp only [List.forall_mem_append, List.forall_mem_singleton]
          refine ⟨ha.ne_closeBracket, ?_, by simp [hc]⟩
          refine hbefore.forall_mem fun _ _ _ hR => ?_
          obtain ⟨d, more, rfl, hd, hmore⟩ := hR
          exact List.forall_mem_cons.mpr ⟨by simp [hd], hmore.ne_closeBracket⟩
        obtain ⟨sigil, hlexemes, hplace⟩ := hmore
        exact ⟨more, ⟨t, u, v ++ (pre ++ [c]), sigil, ht, hu, hopen, hlexemes,
          ⟨[], post ++ [x], by simp⟩⟩, hplace⟩
  · cases hk
    simp only [readAll_token, readAll_nil] at hf
    obtain ⟨t, _, _, rfl, rfl, -, rfl, rfl, rfl⟩ := hf
    exact ends_pure ⟨_, rfl, rfl, rfl⟩
  · cases hk
    simp only [readAll_token, readAll_nil] at hf
    obtain ⟨t, _, _, rfl, rfl, -, rfl, rfl, rfl⟩ := hf
    exact ends_pure ⟨_, rfl, rfl, rfl⟩
  · cases hk

theorem noLineTerminatorHere_read : NodeRead .noLineTerminatorHere := by
  intro k start stop is ps run rest g g₁ hk hf hspan
  rcases k with _ | k
  · cases hk
    obtain ⟨t, _, _, rfl, rfl, ht, hf₁⟩ := readAll_word.mp hf
    obtain ⟨u, _, _, rfl, rfl, hu, hf₂⟩ := readAll_word.mp hf₁
    obtain ⟨v, _, _, rfl, rfl, hv, hf₃⟩ := readAll_token.mp hf₂
    obtain ⟨w, _, _, rfl, rfl, hw, hf₄⟩ := readAll_word.mp hf₃
    obtain ⟨x, _, _, rfl, rfl, hx, hf₅⟩ := readAll_word.mp hf₄
    obtain ⟨rfl, rfl, rfl⟩ := readAll_nil.mp hf₅
    rw [run_node_noLineTerminatorHere]
    by_cases hname : v.text = "LineTerminator"
    · rw [if_pos hname]
      have hv : v.lexeme = .nonterminal "LineTerminator" := by
        rw [hv, hname]
        rfl
      exact ends_pure ⟨rfl, by simp [noLineTerminatorLexemes, ht, hu, hv, hw, hx], rfl⟩
    · rw [if_neg hname]
      have heof : v.isEof = false := by
        rw [Token.isEof, hv]
        rfl
      exact ends_throw ⟨v, by simp, heof, rfl⟩
  · cases hk

theorem exclusion_read : NodeRead .exclusion := by
  intro k start stop is ps run rest g g₁ hk hf hspan
  rcases k with _ | _ | _ | k
  · cases hk
    simp only [readAll_token, readAll_word, readAll_nil] at hf
    obtain ⟨t, _, _, rfl, rfl, -, u, _, _, rfl, rfl, -, v, _, _, rfl, rfl, -, rfl, rfl, rfl⟩ := hf
    exact ends_pure ⟨⟨_, rfl⟩, rfl⟩
  · cases hk
    simp only [readAll_rule, readAll_nil] at hf
    obtain ⟨_, _, _, _, _, rfl, rfl, ⟨⟨t, s, rfl, -, rfl, rfl⟩, -⟩, rfl, rfl, rfl⟩ := hf
    exact ends_pure ⟨⟨_, rfl⟩, rfl⟩
  · cases hk
    simp only [readAll_token, readAll_nil] at hf
    obtain ⟨t, _, _, rfl, rfl, -, rfl, rfl, rfl⟩ := hf
    exact ends_pure ⟨⟨_, rfl⟩, rfl⟩
  · cases hk

theorem exclusionTail_read : NodeRead .exclusionTail := by
  intro k start stop is ps run rest g g₁ hk hf hspan
  rcases k with _ | _ | _ | k
  · cases hk
    simp only [readAll_word, readAll_rule, readAll_nil] at hf
    obtain ⟨t, _, _, rfl, rfl, -, u, _, _, rfl, rfl, -, _, _, _, _, _, rfl, rfl,
      ⟨⟨⟨e, rfl⟩, rfl⟩, -⟩, rfl, rfl, rfl⟩ := hf
    exact ends_pure ⟨⟨e, rfl⟩, rfl⟩
  · cases hk
    simp only [readAll_word, readAll_rule, readAll_nil] at hf
    obtain ⟨t, _, _, rfl, rfl, -, _, _, _, _, _, rfl, rfl, ⟨⟨⟨e, rfl⟩, rfl⟩, -⟩, rfl, rfl, rfl⟩ := hf
    exact ends_pure ⟨⟨e, rfl⟩, rfl⟩
  · cases hk
    simp only [readAll_word, readAll_rule, readAll_nil] at hf
    obtain ⟨t, _, _, rfl, rfl, -, _, _, _, _, _, rfl, rfl, ⟨⟨⟨e, rfl⟩, rfl⟩, -⟩, rfl, rfl, rfl⟩ := hf
    exact ends_pure ⟨⟨e, rfl⟩, rfl⟩
  · cases hk

/-- What is read in turn, seen in another way. -/
theorem InTurn.map {α β : Type} {R : α → List Token → List Token → Prop}
    {S : β → List Token → List Token → Prop} {f : α → β} {as : List α} (h : InTurn R as run rest)
    (hRS : ∀ a u rest, R a u rest → S (f a) u rest) : InTurn S (as.map f) run rest := by
  induction h with
  | nil => exact .nil
  | cons h hs ih => exact .cons (hRS _ _ _ h) ih

/-- Where the tokens that come after do not matter, they may be others. -/
theorem InTurn.before {α : Type} {R : α → List Token → Prop} {as : List α}
    (h : InTurn (fun a u _ => R a u) as run rest) (rest' : List Token) :
    InTurn (fun a u _ => R a u) as run rest' := by
  generalize hS : (fun a u _ => R a u : α → List Token → List Token → Prop) = S at h
  induction h with
  | nil => exact .nil
  | cons h hs ih =>
    subst hS
    exact .cons h ih

/-- Where each thing takes a token, some things take some. -/
theorem InTurn.ne_nil {α : Type} {R : α → List Token → List Token → Prop} {as : List α}
    (h : InTurn R as run rest) (hne : as ≠ []) (hR : ∀ a u rest, R a u rest → u ≠ []) :
    run ≠ [] := by
  cases h with
  | nil => exact absurd rfl hne
  | cons h hs => exact List.append_ne_nil_of_left_ne_nil (hR _ _ _ h) _

/-! ### Lookaheads -/

theorem lookaheadElement_read : NodeRead .lookaheadElement := by
  intro k start stop is ps run rest g g₁ hk hf hspan
  rcases k with _ | _ | k
  · cases hk
    simp only [readAll_rule, readAll_nil] at hf
    obtain ⟨_, _, _, _, _, rfl, rfl, ⟨⟨t, s, rfl, ht, rfl, rfl⟩, -⟩, rfl, rfl, rfl⟩ := hf
    exact ends_pure ⟨.terminal s, rfl, ⟨t, rfl, ht⟩, rfl⟩
  · cases hk
    simp only [readAll_rule, readAll_nil] at hf
    obtain ⟨_, _, _, _, _, rfl, rfl, ⟨⟨rfl, hrun, rfl⟩, -⟩, rfl, rfl, rfl⟩ := hf
    refine ends_pure ⟨.noLineTerminatorHere, rfl, ?_, rfl⟩
    rw [List.append_nil]
    exact hrun
  · cases hk

theorem lookaheadEntry_read : NodeRead .lookaheadEntry := by
  intro k start stop is ps run rest g g₁ hk hf hspan
  rcases k with _ | k
  · cases hk
    simp only [readAll_plus, readAll_nil] at hf
    obtain ⟨xs, _, u, _, _, rfl, rfl, hne, hxs, rfl, rfl, rfl⟩ := hf
    obtain ⟨es, rfl, hes, rfl⟩ := exists_of_quietRounds (c := Phrase.element)
      (R := fun x u _ => u ≠ [] ∧ LookaheadElement.ReadFrom x u)
      (fun _ _ _ _ _ hp => by
        obtain ⟨⟨x, rfl, hx, rfl⟩, htaken, -⟩ := hp
        exact ⟨x, rfl, ⟨htaken rfl, hx⟩, rfl⟩) hxs
    rw [List.append_nil] at hspan ⊢
    have hu : u ≠ [] := hes.ne_nil (by simpa using hne) fun _ _ _ hx => hx.1
    have hall := hes.map (f := id) (S := fun x u _ => LookaheadElement.ReadFrom x u)
      fun _ _ _ hx => hx.2
    rw [List.map_id] at hall
    rw [run_node_entry]
    exact ends_pure ⟨_, rfl, ⟨hall.before [], hu, hspan hu⟩, rfl⟩
  · cases hk

theorem lookaheadEntryTail_read : NodeRead .lookaheadEntryTail := by
  intro k start stop is ps run rest g g₁ hk hf hspan
  rcases k with _ | k
  · cases hk
    simp only [readAll_word, readAll_rule, readAll_nil] at hf
    obtain ⟨t, _, _, rfl, rfl, ht, _, _, u, _, _, rfl, rfl, ⟨⟨e, rfl, he, rfl⟩, -⟩, rfl, rfl,
      rfl⟩ := hf
    exact ends_pure ⟨e, t, _, rfl, rfl, ht, by simpa using he, rfl⟩
  · cases hk

/-- The entries of a set are single terminals, or the first other one is at fault. -/
theorem ends_singleTokens {E : Diagnostic → Prop} {es : List LookaheadEntry} (ps : List Phrase)
    (h : ∀ e ∈ es, e.single? = none → E (.grammar (.unsupportedLookahead e.display e.span))) :
    Ends g (StateT.run (Reduction.singleTokens es) ps) (fun _ g' => g' = g) E := by
  induction es with
  | nil => exact ends_pure rfl
  | cons e es ih =>
    rw [List.forall_mem_cons] at h
    rw [Reduction.singleTokens]
    cases hs : e.single? with
    | none => exact ends_throw (h.1 hs)
    | some s =>
      rw [StateT.run_bind]
      refine (ih h.2).bind ?_
      rintro r _ rfl
      exact ends_pure rfl

/-- After an entry comes a comma with another entry, or the brace that closes the set. -/
theorem exists_after_entry {es : List LookaheadEntry} {x : Token}
    (h : InTurn (fun e u _ => ∃ t more, u = t :: more ∧ t.lexeme = .reserved .comma ∧
      LookaheadEntry.ReadFrom e more) es run rest) (hx : x.lexeme = .reserved .closeBrace) :
    ∃ y tail, run ++ [x] = y :: tail ∧
      (y.lexeme = .reserved .comma ∨ y.lexeme = .reserved .closeBrace) := by
  cases h with
  | nil => exact ⟨x, [], rfl, .inr hx⟩
  | cons h hs =>
    obtain ⟨t, more, rfl, ht, -⟩ := h
    exact ⟨t, _, rfl, .inl ht⟩

theorem lookahead_read : NodeRead .lookahead := by
  intro k start stop is ps run rest g g₁ hk hf hspan
  rcases k with _ | _ | _ | _ | k
  · cases hk
    simp only [readAll_word, readAll_rule, readAll_nil] at hf
    obtain ⟨t, _, _, rfl, rfl, -, _, _, _, _, _, rfl, rfl, ⟨⟨u, s, rfl, -, rfl, rfl⟩, -⟩, rfl, rfl,
      rfl⟩ := hf
    exact ends_pure ⟨⟨_, rfl⟩, rfl⟩
  · cases hk
    simp only [readAll_word, readAll_rule, readAll_nil] at hf
    obtain ⟨t, _, _, rfl, rfl, -, _, _, _, _, _, rfl, rfl, ⟨⟨u, s, rfl, -, rfl, rfl⟩, -⟩, rfl, rfl,
      rfl⟩ := hf
    exact ends_pure ⟨⟨_, rfl⟩, rfl⟩
  · cases hk
    obtain ⟨t, _, _, rfl, rfl, -, hf₁⟩ := readAll_word.mp hf
    obtain ⟨u, _, _, rfl, rfl, hu, hf₂⟩ := readAll_word.mp hf₁
    obtain ⟨_, _, v, _, _, rfl, rfl, ⟨⟨e, rfl, he, rfl⟩, -⟩, hf₃⟩ := readAll_rule.mp hf₂
    obtain ⟨xs, _, w, _, _, rfl, rfl, hxs, hf₄⟩ := readAll_star.mp hf₃
    obtain ⟨x, _, _, rfl, rfl, hx, hf₅⟩ := readAll_word.mp hf₄
    obtain ⟨rfl, rfl, rfl⟩ := readAll_nil.mp hf₅
    obtain ⟨es, rfl, hes, rfl⟩ := exists_of_quietRounds (c := Phrase.entry)
      (R := fun e u _ => ∃ t more, u = t :: more ∧ t.lexeme = .reserved .comma ∧ e.ReadFrom more)
      (fun _ _ _ _ _ hp => by
        obtain ⟨⟨e, t, more, rfl, rfl, ht, he, rfl⟩, -⟩ := hp
        exact ⟨e, rfl, ⟨t, more, rfl, ht, he⟩, rfl⟩) hxs
    rw [run_node_tokenSet]
    refine (ends_singleTokens _ ?_).bind fun r g' hg => ends_pure ⟨⟨_, rfl⟩, hg⟩
    -- The entry at fault is the first one or one of the others.
    intro b hb hsingle
    rcases List.mem_cons.mp hb with rfl | hb
    · obtain ⟨y, tail, hy, hafter⟩ := exists_after_entry hes hx
      have hplace := he.2.2
      refine ⟨v, ⟨b, u, y, he, hsingle, rfl, .inl hu, hafter, ⟨[t], tail, ?_⟩⟩, hplace⟩
      simp [hy]
    · obtain ⟨_, pre, _, _, post, rfl, -, ⟨c, more, rfl, hc, hmore⟩, hpost⟩ := hes.exists_of_mem hb
      obtain ⟨y, tail, hy, hafter⟩ := exists_after_entry hpost hx
      have hplace := hmore.2.2
      refine ⟨more, ⟨b, c, y, hmore, hsingle, rfl, .inr hc, hafter,
        ⟨t :: u :: (v ++ pre), tail, ?_⟩⟩, hplace⟩
      simp [hy]
  · cases hk
    simp only [readAll_word, readAll_token, readAll_nil] at hf
    obtain ⟨t, _, _, rfl, rfl, -, u, _, _, rfl, rfl, -, rfl, rfl, rfl⟩ := hf
    exact ends_pure ⟨⟨_, rfl⟩, rfl⟩
  · cases hk

/-! ### Productions -/

/-- The spellings of several things are those of each of them, one after another. -/
theorem map_fst_flatMap {α : Type} {as : List α} {terminals : α → List (String × Span)}
    {spellings : α → List String} (h : ∀ a ∈ as, (terminals a).map Prod.fst = spellings a) :
    (as.flatMap terminals).map Prod.fst = as.flatMap spellings := by
  induction as with
  | nil => rfl
  | cons a as ih =>
    rw [List.forall_mem_cons] at h
    rw [List.flatMap_cons, List.flatMap_cons, List.map_append, h.1, ih h.2]

theorem symbol_read : NodeRead .symbol := by
  intro k start stop is ps run rest g g₁ hk hf hspan
  rcases k with _ | _ | _ | _ | _ | _ | _ | _ | k
  · cases hk
    obtain ⟨_, _, _, _, _, rfl, rfl, ⟨⟨base, rfl, hbase, rfl⟩, -⟩, hf₁⟩ := readAll_rule.mp hf
    obtain ⟨t, _, _, rfl, rfl, -, hf₂⟩ := readAll_word.mp hf₁
    obtain ⟨u, _, _, rfl, rfl, -, hf₃⟩ := readAll_word.mp hf₂
    obtain ⟨v, _, _, rfl, rfl, -, hf₄⟩ := readAll_word.mp hf₃
    obtain ⟨w, _, _, rfl, rfl, -, hf₅⟩ := readAll_word.mp hf₄
    obtain ⟨_, _, _, _, _, rfl, rfl, ⟨⟨⟨e, rfl⟩, rfl⟩, -⟩, hf₆⟩ := readAll_rule.mp hf₅
    obtain ⟨xs, _, _, _, _, rfl, rfl, hxs, hf₇⟩ := readAll_star.mp hf₆
    obtain ⟨rfl, rfl, rfl⟩ := readAll_nil.mp hf₇
    obtain ⟨es, rfl, -, rfl⟩ := exists_of_quietRounds (c := Phrase.exclusion)
      (R := fun _ _ _ => True) (fun _ _ _ _ _ hp => by
        obtain ⟨⟨⟨e, rfl⟩, rfl⟩, -⟩ := hp
        exact ⟨e, rfl, trivial, rfl⟩) hxs
    rw [run_node_exclusions]
    exact ends_pure ⟨_, [], rfl, by simpa [Symbol.terminals] using hbase, located_nil _, by simp⟩
  · cases hk
    simp only [readAll_word, readAll_rule, readAll_nil] at hf
    obtain ⟨_, _, _, _, _, rfl, rfl, ⟨⟨base, rfl, hbase, rfl⟩, -⟩, t, _, _, rfl, rfl, -, u, _, _,
      rfl, rfl, -, _, _, _, _, _, rfl, rfl, ⟨⟨⟨e, rfl⟩, rfl⟩, -⟩, rfl, rfl, rfl⟩ := hf
    exact ends_pure ⟨_, [], rfl, by simpa [Symbol.terminals] using hbase, located_nil _, by simp⟩
  · cases hk
    simp only [readAll_word, readAll_rule, readAll_nil] at hf
    obtain ⟨_, _, _, _, _, rfl, rfl, ⟨⟨base, rfl, hbase, rfl⟩, -⟩, t, _, _, rfl, rfl, -, rfl, rfl,
      rfl⟩ := hf
    exact ends_pure ⟨_, [], rfl, by simpa [Symbol.terminals] using hbase, located_nil _, by simp⟩
  · cases hk
    simp only [readAll_rule, readAll_nil] at hf
    obtain ⟨_, _, _, _, _, rfl, rfl, ⟨⟨base, rfl, hbase, rfl⟩, -⟩, rfl, rfl, rfl⟩ := hf
    exact ends_pure ⟨_, [], rfl, by simpa using hbase, located_nil _, by simp⟩
  · cases hk
    simp only [readAll_word, readAll_rule, readAll_nil] at hf
    obtain ⟨_, _, _, _, _, rfl, rfl, ⟨⟨t, s, rfl, ht, rfl, rfl⟩, -⟩, u, _, _, rfl, rfl, -, rfl, rfl,
      rfl⟩ := hf
    exact ⟨.optional (.terminal s), [(s, t.span)], rfl, rfl, .found ht (located_nil _),
      by simp [Gathered.add]⟩
  · cases hk
    simp only [readAll_rule, readAll_nil] at hf
    obtain ⟨_, _, _, _, _, rfl, rfl, ⟨⟨t, s, rfl, ht, rfl, rfl⟩, -⟩, rfl, rfl, rfl⟩ := hf
    exact ⟨.terminal s, [(s, t.span)], rfl, rfl, .found ht (located_nil _),
      by simp [Gathered.add]⟩
  · cases hk
    simp only [readAll_word, readAll_rule, readAll_nil] at hf
    obtain ⟨t, _, _, rfl, rfl, -, u, _, _, rfl, rfl, -, _, _, _, _, _, rfl, rfl,
      ⟨⟨⟨l, rfl⟩, rfl⟩, -⟩, v, _, _, rfl, rfl, -, rfl, rfl, rfl⟩ := hf
    exact ends_pure ⟨_, [], rfl, rfl, located_nil _, by simp⟩
  · cases hk
    simp only [readAll_rule, readAll_nil] at hf
    obtain ⟨_, _, _, _, _, rfl, rfl, ⟨⟨rfl, -, rfl⟩, -⟩, rfl, rfl, rfl⟩ := hf
    exact ends_pure ⟨_, [], rfl, rfl, located_nil _, by simp⟩
  · cases hk

theorem body_read : NodeRead .body := by
  intro k start stop is ps run rest g g₁ hk hf hspan
  rcases k with _ | _ | k
  · cases hk
    simp only [readAll_word, readAll_nil] at hf
    obtain ⟨t, _, _, rfl, rfl, -, u, _, _, rfl, rfl, -, v, _, _, rfl, rfl, -, rfl, rfl, rfl⟩ := hf
    exact ends_pure ⟨[], [], rfl, rfl, located_nil _, by simp⟩
  · cases hk
    simp only [readAll_plus, readAll_nil] at hf
    obtain ⟨xs, _, u, _, _, rfl, rfl, -, hxs, rfl, rfl, rfl⟩ := hf
    obtain ⟨as, rfl, has, hlocated, rfl⟩ := exists_of_readRounds
      (c := fun a : Symbol × List (String × Span) => Phrase.symbol a.1)
      (R := fun a _ _ => a.2.map Prod.fst = a.1.terminals) (T := Prod.snd)
      (L := fun _ => [])
      (fun _ _ _ _ _ hp => by
        obtain ⟨⟨s, xs, rfl, hs, hlocated, rfl⟩, -⟩ := hp
        exact ⟨(s, xs), rfl, hs, hlocated, rfl⟩) hxs
    have hsymbols : as.map (fun a : Symbol × List (String × Span) => Phrase.symbol a.1) =
        (as.map Prod.fst).map Phrase.symbol := by
      rw [List.map_map]
      rfl
    have hspellings : (as.flatMap Prod.snd).map Prod.fst =
        (Production.symbols (as.map Prod.fst)).terminals := by
      rw [Production.terminals, List.flatMap_map]
      refine map_fst_flatMap fun a ha => ?_
      obtain ⟨_, _, _, _, _, -, -, hspelled, -⟩ := has.exists_of_mem ha
      exact hspelled
    have hlines : as.flatMap (fun _ => ([] : List Span)) = [] := by simp
    rw [hsymbols, run_node_body, hlines]
    exact ends_pure ⟨_, _, rfl, hspellings, hlocated.append_left, rfl⟩
  · cases hk

theorem guard_read : NodeRead .guard := by
  intro k start stop is ps run rest g g₁ hk hf hspan
  rcases k with _ | k
  · cases hk
    obtain ⟨t, _, _, rfl, rfl, ht, hf₁⟩ := readAll_word.mp hf
    obtain ⟨_, _, u, _, _, rfl, rfl, ⟨⟨value, rfl, hu, rfl⟩, -⟩, hf₂⟩ := readAll_rule.mp hf₁
    obtain ⟨v, _, _, rfl, rfl, hv, hf₃⟩ := readAll_token.mp hf₂
    obtain ⟨w, _, _, rfl, rfl, hw, hf₄⟩ := readAll_word.mp hf₃
    obtain ⟨rfl, rfl, rfl⟩ := readAll_nil.mp hf₄
    have hv : v.lexeme = .nonterminal v.text := hv
    exact ends_pure ⟨v.text, value, rfl, by simp [guardLexemes, ht, hu, hv, hw], rfl⟩
  · cases hk

/-- A production is read from a whole line, whose place is noted. -/
theorem production_readFrom {q : Production} {xs : List (String × Span)}
    {body ending rest : List Token} {span : Span} (hne : body ≠ []) (hend : LineEnds ending rest)
    (hspan : span = Span.over (body ++ ending)) (hxs : xs.map Prod.fst = q.terminals)
    (hlocated : Located (body ++ ending) xs)
    (hq : q.Guarded body) :
    (Phrase.production q).ReadFrom .production (body ++ ending) rest g
      { g.add xs [] with productions := (g.add xs []).productions ++ [span] } := by
  refine ⟨q, xs, rfl, hxs, hlocated, ⟨body, ending, rfl, hne, hend, rfl, hq⟩, ?_⟩
  simp [Gathered.add, hspan]

/-- A line of prose has no terminals. -/
theorem prose_readFrom {t : Token} {ending rest : List Token} {span : Span} (text : String)
    (hend : LineEnds ending rest) (hspan : span = Span.over (t :: ending)) :
    (Phrase.production (.prose text)).ReadFrom .production (t :: ending) rest g
      { g with productions := g.productions ++ [span] } := by
  have hread := production_readFrom (g := g) (q := .prose text) (List.cons_ne_nil t []) hend hspan
    rfl (located_nil _) trivial
  rw [Gathered.add_nil] at hread
  exact hread

theorem production_read : NodeRead .production := by
  intro k start stop is ps run rest g g₁ hk hf hspan
  rcases k with _ | _ | _ | k
  · cases hk
    simp only [readAll_token, readAll_rule, readAll_nil] at hf
    obtain ⟨t, _, _, rfl, rfl, -, _, _, u, _, _, rfl, rfl, ⟨⟨rfl, hend, rfl⟩, -⟩, rfl, rfl,
      rfl⟩ := hf
    rw [List.append_nil] at hspan ⊢
    exact prose_readFrom _ hend (hspan (by simp))
  · cases hk
    simp only [readAll_token, readAll_rule, readAll_nil] at hf
    obtain ⟨t, _, _, rfl, rfl, -, _, _, u, _, _, rfl, rfl, ⟨⟨rfl, hend, rfl⟩, -⟩, rfl, rfl,
      rfl⟩ := hf
    rw [List.append_nil] at hspan ⊢
    exact prose_readFrom _ hend (hspan (by simp))
  · cases hk
    obtain ⟨p, _, u, _, g₂, rfl, rfl, hguard, hf₁⟩ := readAll_optional.mp hf
    obtain ⟨_, _, v, _, _, rfl, rfl, ⟨⟨ss, xs, rfl, hxs, hlocated, rfl⟩, hne, hinline⟩, hf₂⟩ :=
      readAll_rule.mp hf₁
    obtain ⟨label, _, w, _, _, rfl, rfl, hlabel, hf₃⟩ := readAll_optional.mp hf₂
    obtain ⟨_, _, ending, _, _, rfl, rfl, ⟨⟨rfl, hend, rfl⟩, -⟩, hf₄⟩ := readAll_rule.mp hf₃
    obtain ⟨rfl, rfl, rfl⟩ := readAll_nil.mp hf₄
    have hlabel : (∀ t ∈ w, t.isInline = true) ∧ g₁ = g₂.add xs [] := by
      rcases hlabel with ⟨t, rfl, -, ht, hg⟩ | ⟨-, rfl, hg⟩
      · refine ⟨?_, hg⟩
        rw [List.forall_mem_singleton, Token.isInline, Token.kind, ht]
        rfl
      · exact ⟨by simp, hg⟩
    obtain ⟨hw, rfl⟩ := hlabel
    have hbody : u ++ (v ++ w) ≠ [] := by simp [hne rfl]
    have hrun : u ++ (v ++ (w ++ (ending ++ []))) = (u ++ (v ++ w)) ++ ending := by simp
    rw [hrun] at hspan ⊢
    have hplace : Located (u ++ (v ++ w) ++ ending) xs :=
      (hlocated.append_left.append_right).append_left
    rcases hguard with ⟨⟨param, value, rfl, hu, rfl⟩, -, hguardline⟩ | ⟨rfl, rfl, rfl⟩
    · have hguarded : (Production.conditional param value (.symbols ss)).Guarded
          (u ++ (v ++ w)) := by
        constructor
        · rw [List.map_append, hu]
          exact List.prefix_append _ _
        · simp only [List.forall_mem_append]
          exact ⟨hguardline rfl, hinline rfl, hw⟩
      exact production_readFrom hbody hend (hspan (by simp [hne rfl])) hxs hplace hguarded
    · exact production_readFrom (q := .symbols ss) hbody hend (hspan (by simp [hne rfl])) hxs hplace
        trivial
  · cases hk

/-! ### Declarations -/

/-- A declaration takes all places that were gathered. -/
theorem ends_declare {E : Diagnostic → Prop} (n : Node) (h : Head) (separator : String)
    (productions : List Production) (ps : List Phrase) :
    Ends g (StateT.run (Reduction.declare n h separator productions) ps)
      (fun r g' => r.1 = .declaration ⟨h.name, separator, h.define productions, h.span, n.span,
        g.terminals, g.productions⟩ ∧ g' = .none) E := ⟨rfl, rfl⟩

@[simp] theorem Head.productions_define (h : Head) (productions : List Production) :
    (h.define productions).productions = productions := by
  unfold define
  cases h.params <;> rfl

/-- Each terminal of a list is a production with this terminal. -/
theorem flatMap_terminals_of_listed (ss : List String) :
    (ss.map fun s => Production.symbols [.terminal s]).flatMap Production.terminals = ss := by
  rw [List.flatMap_map]
  exact List.flatMap_singleton' ss

/-- A declaration is read where its head, its terminals and its lines are. -/
theorem declare_read {E : Diagnostic → Prop} {n : Node} {h : Head} {separator : String}
    {productions : List Production} {xs : List (String × Span)} {ss : List Span} (ps : List Phrase)
    (hname : ∃ t more, run = t :: more ∧ t.text = h.name ∧ h.span = t.span)
    (hspan : n.span = Span.over run)
    (hxs : xs.map Prod.fst = productions.flatMap Production.terminals) (hlocated : Located run xs)
    (hlines : (ss = [] ∧ ∀ p ∈ productions, ∃ s, p = .symbols [.terminal s]) ∨
      ∃ (front : List Token) (t : Token) (body ending : List Token)
        (lines : List (Production × Span)),
        run = front ++ t :: (body ++ ending) ∧ t.lexeme = .newline ∧
        InTurn Production.Line lines body (ending ++ rest) ∧
        productions = lines.map Prod.fst ∧ ss = lines.map Prod.snd) :
    Ends (g.add xs ss) ((Reduction.declare n h separator productions).run' ps)
      (fun p g' => p.ReadFrom .definition run rest g g') E := by
  refine ((ends_declare n h separator productions ps).mono ?_ fun _ he => he).run'
  rintro ⟨p, qs⟩ _ ⟨hd, rfl⟩
  refine ⟨_, hd, rfl, ?_⟩
  -- Nothing but the places of this declaration was gathered before it.
  rintro rfl
  rw [← Head.productions_define h productions] at hxs hlines
  exact ⟨hname, hspan, hxs, hlocated, hlines⟩

theorem definition_read : NodeRead .definition := by
  intro k start stop is ps run rest g g₁ hk hf hspan
  rcases k with _ | _ | k
  · cases hk
    obtain ⟨_, _, u, _, _, rfl, rfl, ⟨⟨h, t, more, rfl, rfl, hname, hplace, rfl⟩, -⟩, hf₁⟩ :=
      readAll_rule.mp hf
    obtain ⟨a, _, _, rfl, rfl, -, hf₂⟩ := readAll_token.mp hf₁
    obtain ⟨b, _, _, rfl, rfl, -, hf₃⟩ := readAll_word.mp hf₂
    obtain ⟨c, _, _, rfl, rfl, -, hf₄⟩ := readAll_word.mp hf₃
    obtain ⟨d, _, _, rfl, rfl, -, hf₅⟩ := readAll_token.mp hf₄
    obtain ⟨xs, _, v, _, _, rfl, rfl, -, hxs, hf₆⟩ := readAll_plus.mp hf₅
    obtain ⟨_, _, ending, _, _, rfl, rfl, ⟨⟨rfl, hend, rfl⟩, -⟩, hf₇⟩ := readAll_rule.mp hf₆
    obtain ⟨rfl, rfl, rfl⟩ := readAll_nil.mp hf₇
    obtain ⟨as, rfl, -, hlocated, rfl⟩ := exists_of_readRounds
      (c := fun x : List (String × Span) => Phrase.terminals (x.map Prod.fst))
      (R := fun _ _ _ => True) (T := id) (L := fun _ => [])
      (fun _ _ _ _ _ hp => by
        obtain ⟨⟨x, rfl, hlocated, rfl⟩, -⟩ := hp
        exact ⟨x, rfl, trivial, hlocated, rfl⟩) hxs
    have hlines : as.map (fun x => Phrase.terminals (x.map Prod.fst)) =
        (as.map (List.map Prod.fst)).map Phrase.terminals := by
      rw [List.map_map]
      rfl
    have hnone : as.flatMap (fun _ => ([] : List Span)) = [] := by simp
    have hplaces := (hlocated.append_left (v := ending ++ [])).append_right
      (u := t :: more ++ [a, b, c, d])
    rw [hlines, run_node_definition_terminals, hnone, List.flatMap_id]
    refine declare_read _ ⟨t, _, rfl, hname, hplace⟩ (hspan (by simp)) ?_
      (by simpa using hplaces) ?_
    · rw [flatMap_terminals_of_listed, ← List.map_flatten]
    · refine .inl ⟨rfl, fun p hp => ?_⟩
      obtain ⟨s, -, rfl⟩ := List.mem_map.mp hp
      exact ⟨s, rfl⟩
  · cases hk
    obtain ⟨_, _, u, _, _, rfl, rfl, ⟨⟨h, t, more, rfl, rfl, hname, hplace, rfl⟩, -⟩, hf₁⟩ :=
      readAll_rule.mp hf
    obtain ⟨a, _, _, rfl, rfl, -, hf₂⟩ := readAll_token.mp hf₁
    obtain ⟨b, _, _, rfl, rfl, hb, hf₃⟩ := readAll_token.mp hf₂
    obtain ⟨xs, _, v, _, _, rfl, rfl, -, hxs, hf₄⟩ := readAll_plus.mp hf₃
    obtain ⟨_, _, ending, _, _, rfl, rfl, ⟨⟨rfl, hend, rfl⟩, -⟩, hf₅⟩ := readAll_rule.mp hf₄
    obtain ⟨rfl, rfl, rfl⟩ := readAll_nil.mp hf₅
    obtain ⟨as, rfl, has, hlocated, rfl⟩ := exists_of_readRounds
      (c := fun x : (Production × Span) × List (String × Span) => Phrase.production x.1.1)
      (R := fun x u rest => x.2.map Prod.fst = x.1.1.terminals ∧ Production.Line x.1 u rest)
      (T := Prod.snd) (L := fun x => [x.1.2])
      (fun _ u _ _ _ hp => by
        obtain ⟨⟨q, xs, rfl, hxs, hlocated, hline, rfl⟩, -⟩ := hp
        exact ⟨((q, Span.over u), xs), rfl, ⟨hxs, hline⟩, hlocated, rfl⟩) hxs
    have hlines : as.map (fun x => Phrase.production x.1.1) =
        (as.map fun x => x.1.1).map Phrase.production := by
      rw [List.map_map]
      rfl
    have hplaces := (hlocated.append_left (v := ending ++ [])).append_right
      (u := t :: more ++ [a, b])
    rw [hlines, run_node_definition]
    refine declare_read _ ⟨t, _, rfl, hname, hplace⟩ (hspan (by simp)) ?_
      (by simpa using hplaces) ?_
    · rw [List.flatMap_map]
      refine map_fst_flatMap fun x hx => ?_
      obtain ⟨_, _, _, _, _, -, -, ⟨hspelled, -⟩, -⟩ := has.exists_of_mem hx
      exact hspelled
    · refine .inr ⟨t :: more ++ [a], b, v, ending, as.map Prod.fst, by simp, hb, ?_, ?_, ?_⟩
      · rw [List.append_nil] at has
        exact has.map fun _ _ _ hx => hx.2
      · rw [List.map_map]
        rfl
      · rw [List.map_map]
        exact (List.map_eq_flatMap).symm
  · cases hk

theorem block_read : NodeRead .block := by
  intro k start stop is ps run rest g g₁ hk hf hspan
  rcases k with _ | _ | k
  · cases hk
    simp only [readAll_token, readAll_nil] at hf
    obtain ⟨t, _, _, rfl, rfl, ht, rfl, rfl, rfl⟩ := hf
    exact ends_pure ⟨none, rfl, fun _ => rfl, fun h => absurd rfl h, fun _ => ⟨t, rfl, ht⟩⟩
  · cases hk
    simp only [readAll_rule, readAll_nil] at hf
    obtain ⟨_, _, u, _, _, rfl, rfl, ⟨⟨d, rfl, rfl, hd⟩, -⟩, rfl, rfl, rfl⟩ := hf
    rw [List.append_nil]
    exact ends_pure ⟨some d, rfl, fun h => (nomatch h), fun _ => rfl, hd⟩
  · cases hk

/-- Blocks one after another are read in turn, and each leaves nothing gathered to the next. -/
theorem exists_of_blockRounds {xs : List Phrase}
    (hxs : (Matcher.rule .block).ReadRounds xs run rest g g') :
    ∃ blocks : List (Option Declaration), xs = blocks.map Phrase.block ∧
      (g = .none → g' = .none ∧ InTurn ReadBlock blocks run rest) := by
  induction xs generalizing run g with
  | nil =>
    obtain ⟨rfl, rfl⟩ := hxs
    exact ⟨[], rfl, fun hg => ⟨hg, .nil⟩⟩
  | cons x xs ih =>
    obtain ⟨u, v, g₁, rfl, ⟨⟨block, rfl, hblank, hfull, hblock⟩, -⟩, hxs⟩ := hxs
    obtain ⟨blocks, rfl, hblocks⟩ := ih hxs
    refine ⟨block :: blocks, rfl, ?_⟩
    rintro rfl
    have hg : g₁ = .none := by
      cases block with
      | none => exact hblank rfl
      | some d => exact hfull (by simp)
    obtain ⟨hg', hturn⟩ := hblocks hg
    exact ⟨hg', .cons (hblock rfl) hturn⟩

theorem grammar_read : NodeRead .grammar := by
  intro k start stop is ps run rest g g₁ hk hf hspan
  rcases k with _ | k
  · cases hk
    simp only [readAll_star, readAll_token, readAll_nil] at hf
    obtain ⟨xs, _, u, _, g₂, rfl, rfl, hxs, e, _, _, rfl, rfl, he, rfl, rfl, rfl⟩ := hf
    have he : e.isEof = true := by
      rw [Token.isEof, he]
      rfl
    obtain ⟨blocks, rfl, hblocks⟩ := exists_of_blockRounds hxs
    refine ends_pure ⟨_, rfl, fun hg => ?_⟩
    obtain ⟨rfl, hturn⟩ := hblocks hg
    refine ⟨rfl, blocks, u, e, rfl, he, hturn, ?_⟩
    rw [List.filterMap_map]
    rfl
  · cases hk

/-! ### All rules -/

theorem node_read (r : Rule) : NodeRead r := by
  cases r with
  | grammar => exact grammar_read
  | block => exact block_read
  | definition => exact definition_read
  | blockEnd => exact blockEnd_read
  | head => exact head_read
  | paramTail => exact paramTail_read
  | param => exact param_read
  | lineEnd => exact lineEnd_read
  | terminalLine => exact terminalLine_read
  | terminal => exact terminal_read
  | production => exact production_read
  | guard => exact guard_read
  | body => exact body_read
  | symbol => exact symbol_read
  | noLineTerminatorHere => exact noLineTerminatorHere_read
  | nonterminal => exact nonterminal_read
  | argTail => exact argTail_read
  | arg => exact arg_read
  | sigil => exact sigil_read
  | fixedSigil => exact fixedSigil_read
  | exclusion => exact exclusion_read
  | exclusionTail => exact exclusionTail_read
  | lookahead => exact lookahead_read
  | lookaheadEntryTail => exact lookaheadEntryTail_read
  | lookaheadEntry => exact lookaheadEntry_read
  | lookaheadElement => exact lookaheadElement_read

end GrammarText
