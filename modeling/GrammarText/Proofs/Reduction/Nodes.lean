import GrammarText.Proofs.Reduction.Children
import GrammarText.Proofs.Reduction.Fits

/-!
# The reduction of a node

For each rule: where the children of a node fit an alternative of the rule, the node means a phrase
that fits the rule, or it is refused for what its children mean (`Node.Refuses`).  So the positions
at which a reduction reads its children are those at which the rule puts them.
-/

namespace GrammarText

open Reading

variable {ok : Lexeme → Prop}

/-- What a node is refused for, given what its children mean. -/
inductive Node.Refuses (ok : Lexeme → Prop) : Node → List Phrase → Diagnostic → Prop where
  /-- A terminal with nothing between its quotes. -/
  | terminal {start stop t q} (hl : t.lexeme = .terminal q) (hok : ok (.terminal q))
      (hq : Text.unquote? q.toList = none) :
      Refuses ok ⟨.terminal, 0, start, stop⟩ [.token t] (.grammar (.malformedTerminal q t.span))
  /-- Something else than line breaks is ruled out. -/
  | noLineTerminatorHere {start stop t u v w x} (hv : v.text ≠ "LineTerminator") :
      Refuses ok ⟨.noLineTerminatorHere, 0, start, stop⟩
        [.token t, .token u, .token v, .token w, .token x]
        (.parse (.unexpectedToken "\x60LineTerminator\x60" v.span))
  /-- A parameter is passed again. -/
  | apply {start stop t u v a as b} (hb : Reduction.repeatedArgument? [] (a :: as) = some b) :
      Refuses ok ⟨.nonterminal, 0, start, stop⟩
        [.token t, .token u, .arg a, .repeated (as.map .arg), .token v]
        (.grammar (.duplicateArgument b.name t.text b.span))
  /-- An entry of a set is not a single terminal. -/
  | tokenSet {start stop t u v e es b} (hb : (e :: es).find? (·.single?.isNone) = some b) :
      Refuses ok ⟨.lookahead, 2, start, stop⟩
        [.token t, .token u, .entry e, .repeated (es.map .entry), .token v]
        (.grammar (.unsupportedLookahead b.display b.span))

/-- A node whose children fit an alternative of its rule means a phrase that fits the rule, or it is
refused. -/
def NodeFits (ok : Lexeme → Prop) (r : Rule) : Prop :=
  ∀ k start stop is ps, ((builtinRules.alternatives? r).getD [])[k]? = some is → FitsAll ok is ps →
    Yields ((Reduction.node ⟨r, k, start, stop⟩).run' ps) (·.Fits ok r)
      (Node.Refuses ok ⟨r, k, start, stop⟩ ps)

/-- An error that a node is refused for fits. -/
theorem Node.Refuses.fits {n : Node} {ps : List Phrase} {e : Diagnostic} (h : n.Refuses ok ps e) :
    e.Fits ok := by
  cases h with
  | terminal hl hok hq => exact ⟨hok, hq⟩
  | noLineTerminatorHere hv => trivial
  | apply hb => trivial
  | tokenSet hb => trivial

/-- Phrases that are each of one kind are read as a list of that kind. -/
theorem exists_map {α : Type} {c : α → Phrase} {Q : α → Prop} {xs : List Phrase}
    (h : ∀ x ∈ xs, ∃ a, x = c a ∧ Q a) : ∃ as : List α, xs = as.map c ∧ ∀ a ∈ as, Q a := by
  induction xs with
  | nil => exact ⟨[], rfl, by simp⟩
  | cons x xs ih =>
    rw [List.forall_mem_cons] at h
    obtain ⟨a, rfl, ha⟩ := h.1
    obtain ⟨as, rfl, has⟩ := ih h.2
    exact ⟨a :: as, rfl, List.forall_mem_cons.mpr ⟨ha, has⟩⟩

/-! ## Lines and definitions -/

theorem grammar_fits : NodeFits ok .grammar := by
  intro k start stop is ps hk hf
  rcases k with _ | k
  · cases hk
    obtain ⟨xs, _, rfl, hxs, _, _, rfl, ⟨t, rfl, -⟩, rfl⟩ := hf
    refine yields_pure ⟨_, rfl, fun d hd => ?_⟩
    obtain ⟨x, hx, heq⟩ := List.mem_filterMap.mp hd
    obtain ⟨b, rfl, hb⟩ := hxs x hx
    exact hb d heq
  · cases hk

theorem block_fits : NodeFits ok .block := by
  intro k start stop is ps hk hf
  rcases k with _ | _ | k
  · cases hk
    obtain ⟨_, _, rfl, ⟨t, rfl, -⟩, rfl⟩ := hf
    exact yields_pure ⟨none, rfl, by simp⟩
  · cases hk
    obtain ⟨_, _, rfl, ⟨d, rfl, hd⟩, rfl⟩ := hf
    exact yields_pure ⟨some d, rfl, by simpa using hd⟩
  · cases hk

theorem head_fits : NodeFits ok .head := by
  intro k start stop is ps hk hf
  rcases k with _ | _ | k
  · cases hk
    obtain ⟨_, _, rfl, ⟨t, rfl, -, ht⟩, _, _, rfl, ⟨u, rfl⟩, _, _, rfl, ⟨s, rfl, hs⟩, xs, _, rfl,
      hxs, _, _, rfl, ⟨v, rfl⟩, rfl⟩ := hf
    obtain ⟨ss, rfl, hss⟩ := exists_map hxs
    exact yields_head ⟨_, rfl, ht, by simp, List.forall_mem_cons.mpr ⟨hs, hss⟩⟩
  · cases hk
    obtain ⟨_, _, rfl, ⟨t, rfl, -, ht⟩, rfl⟩ := hf
    exact yields_pure ⟨_, rfl, ht⟩
  · cases hk

theorem param_fits : NodeFits ok .param := by
  intro k start stop is ps hk hf
  rcases k with _ | k
  · cases hk
    obtain ⟨_, _, rfl, ⟨t, rfl, -, ht⟩, rfl⟩ := hf
    exact yields_pure ⟨_, rfl, ht⟩
  · cases hk

theorem paramTail_fits : NodeFits ok .paramTail := by
  intro k start stop is ps hk hf
  rcases k with _ | k
  · cases hk
    obtain ⟨_, _, rfl, ⟨t, rfl⟩, _, _, rfl, ⟨s, rfl, hs⟩, rfl⟩ := hf
    exact yields_pure ⟨s, rfl, hs⟩
  · cases hk

theorem blockEnd_fits : NodeFits ok .blockEnd := fun _ _ _ _ _ _ _ => yields_pure rfl

theorem lineEnd_fits : NodeFits ok .lineEnd := fun _ _ _ _ _ _ _ => yields_pure rfl

theorem terminalLine_fits : NodeFits ok .terminalLine := by
  intro k start stop is ps hk hf
  rcases k with _ | k
  · cases hk
    obtain ⟨xs, _, rfl, hne, hxs, _, _, rfl, rfl, rfl⟩ := hf
    obtain ⟨xs, rfl, hspelled⟩ := exists_map hxs
    refine yields_terminalLine ⟨_, rfl, by simpa using hne, ?_⟩
    intro s hs
    obtain ⟨x, hx, rfl⟩ := List.mem_map.mp hs
    exact hspelled x hx
  · cases hk

theorem terminal_fits : NodeFits ok .terminal := by
  intro k start stop is ps hk hf
  rcases k with _ | _ | k
  · cases hk
    obtain ⟨_, _, rfl, ⟨t, rfl, hl, ht⟩, rfl⟩ := hf
    refine yields_terminal hl (fun hu => .terminal hl ht hu) fun s hu => ?_
    refine ⟨(String.ofList s, t.span), rfl, .inl ⟨_, ht, ?_⟩⟩
    rw [hu, String.toList_ofList]
  · cases hk
    obtain ⟨_, _, rfl, ⟨t, rfl, hl, ht⟩, rfl⟩ := hf
    refine Yields.run' ?_
    simp only [Reduction.node, Reduction.terminal, StateT.run_bind, run_token, pure_bind, hl,
      Lexeme.ofKind]
    exact yields_pure ⟨(_, _), rfl, .inr ht⟩
  · cases hk

/-- A head and productions that fit make a definition that fits. -/
theorem definition_fits_of_head {h : Head} {productions : List Production} {d : Declaration}
    (hh : FitsHead ok h.name h.params) (hne : productions ≠ [])
    (hps : ∀ p ∈ productions, p.Fits ok) (hname : d.name = h.name)
    (hd : d.definition = h.define productions) : d.definition.Fits ok d.name := by
  rw [hd, hname]
  obtain ⟨name, params, span⟩ := h
  cases params with
  | none => exact ⟨hne, hps, hh⟩
  | some params => exact ⟨hne, hps, hh⟩

theorem definition_fits : NodeFits ok .definition := by
  intro k start stop is ps hk hf
  rcases k with _ | _ | k
  · cases hk
    obtain ⟨_, _, rfl, ⟨h, rfl, hh⟩, _, _, rfl, ⟨t, rfl, -⟩, _, _, rfl, ⟨_, rfl⟩, _, _, rfl,
      ⟨_, rfl⟩, _, _, rfl, ⟨_, rfl, -⟩, xs, _, rfl, hne, hxs, _, _, rfl, rfl, rfl⟩ := hf
    obtain ⟨lines, rfl, hlines⟩ := exists_map hxs
    refine yields_definition_terminals.mono ?_
    rintro p ⟨d, hr, hname, -, hd⟩
    refine ⟨d, hr, definition_fits_of_head hh ?_ ?_ hname hd⟩
    · -- There is a line, and a terminal on it.
      cases lines with
      | nil => simp at hne
      | cons line lines =>
        have := (hlines line (by simp)).1
        simp [this]
    · intro p hp
      obtain ⟨s, hs, rfl⟩ := List.mem_map.mp hp
      obtain ⟨line, hline, hs⟩ := List.mem_flatten.mp hs
      intro x hx
      obtain rfl := List.mem_singleton.mp hx
      exact .inr ((hlines line hline).2 s hs)
  · cases hk
    obtain ⟨_, _, rfl, ⟨h, rfl, hh⟩, _, _, rfl, ⟨t, rfl, -⟩, _, _, rfl, ⟨_, rfl, -⟩, xs, _, rfl,
      hne, hxs, _, _, rfl, rfl, rfl⟩ := hf
    obtain ⟨productions, rfl, hps⟩ := exists_map hxs
    refine yields_definition.mono ?_
    rintro p ⟨d, hr, hname, -, hd⟩
    exact ⟨d, hr, definition_fits_of_head hh (by simpa using hne) hps hname hd⟩
  · cases hk

theorem guard_fits : NodeFits ok .guard := by
  intro k start stop is ps hk hf
  rcases k with _ | k
  · cases hk
    obtain ⟨_, _, rfl, ⟨_, rfl⟩, _, _, rfl, ⟨value, rfl⟩, _, _, rfl, ⟨t, rfl, -, ht⟩, _, _, rfl,
      ⟨_, rfl⟩, rfl⟩ := hf
    exact yields_pure ⟨_, _, rfl, ht⟩
  · cases hk

theorem body_fits : NodeFits ok .body := by
  intro k start stop is ps hk hf
  rcases k with _ | _ | k
  · cases hk
    exact yields_pure ⟨[], rfl, by simp⟩
  · cases hk
    obtain ⟨xs, _, rfl, hne, hxs, rfl⟩ := hf
    obtain ⟨ss, rfl, hss⟩ := exists_map hxs
    exact yields_body ⟨ss, rfl, hss⟩
  · cases hk

theorem production_fits : NodeFits ok .production := by
  intro k start stop is ps hk hf
  rcases k with _ | _ | _ | k
  · cases hk
    obtain ⟨_, _, rfl, ⟨t, rfl, -, ht⟩, _, _, rfl, rfl, rfl⟩ := hf
    exact fun _ => ⟨_, rfl, _, .inl ⟨ht, rfl⟩⟩
  · cases hk
    obtain ⟨_, _, rfl, ⟨t, rfl, -, ht⟩, _, _, rfl, rfl, rfl⟩ := hf
    exact fun _ => ⟨_, rfl, _, .inr ⟨ht, rfl⟩⟩
  · cases hk
    obtain ⟨p, _, rfl, hp, _, _, rfl, ⟨ss, rfl, hss⟩, label, _, rfl, -, _, _, rfl, rfl, rfl⟩ := hf
    rcases hp with ⟨param, value, rfl, hparam⟩ | rfl
    · exact fun _ => ⟨_, rfl, hparam, ss, rfl, hss⟩
    · exact fun _ => ⟨_, rfl, hss⟩
  · cases hk

/-! ## Symbols -/

theorem symbol_fits : NodeFits ok .symbol := by
  intro k start stop is ps hk hf
  rcases k with _ | _ | _ | _ | _ | _ | _ | _ | k
  · cases hk
    obtain ⟨_, _, rfl, ⟨base, rfl, hbase⟩, _, _, rfl, ⟨_, rfl⟩, _, _, rfl, ⟨_, rfl⟩, _, _, rfl,
      ⟨_, rfl⟩, _, _, rfl, ⟨_, rfl⟩, _, _, rfl, ⟨e, rfl, he⟩, xs, _, rfl, hxs, rfl⟩ := hf
    obtain ⟨es, rfl, hes⟩ := exists_map hxs
    exact yields_exclusions
      ⟨_, rfl, .inr ⟨hbase, by simp, List.forall_mem_cons.mpr ⟨he, hes⟩⟩⟩
  · cases hk
    obtain ⟨_, _, rfl, ⟨base, rfl, hbase⟩, _, _, rfl, ⟨_, rfl⟩, _, _, rfl, ⟨_, rfl⟩, _, _, rfl,
      ⟨e, rfl, he⟩, rfl⟩ := hf
    exact yields_pure ⟨_, rfl, .inr ⟨hbase, by simp, by simpa using he⟩⟩
  · cases hk
    obtain ⟨_, _, rfl, ⟨base, rfl, hbase⟩, _, _, rfl, ⟨_, rfl⟩, rfl⟩ := hf
    exact yields_pure ⟨_, rfl, .inr (.inl hbase)⟩
  · cases hk
    obtain ⟨_, _, rfl, ⟨base, rfl, hbase⟩, rfl⟩ := hf
    exact yields_pure ⟨_, rfl, .inl hbase⟩
  · cases hk
    obtain ⟨_, _, rfl, ⟨x, rfl, hx⟩, _, _, rfl, ⟨_, rfl⟩, rfl⟩ := hf
    exact fun _ => ⟨_, rfl, .inr (.inr ⟨_, rfl, hx⟩)⟩
  · cases hk
    obtain ⟨_, _, rfl, ⟨x, rfl, hx⟩, rfl⟩ := hf
    exact fun _ => ⟨_, rfl, .inr hx⟩
  · cases hk
    obtain ⟨_, _, rfl, ⟨_, rfl⟩, _, _, rfl, ⟨_, rfl⟩, _, _, rfl, ⟨l, rfl, hl⟩, _, _, rfl, ⟨_, rfl⟩,
      rfl⟩ := hf
    exact yields_pure ⟨_, rfl, .inr hl⟩
  · cases hk
    obtain ⟨_, _, rfl, rfl, rfl⟩ := hf
    exact yields_pure ⟨_, rfl, .inr trivial⟩
  · cases hk

theorem noLineTerminatorHere_fits : NodeFits ok .noLineTerminatorHere := by
  intro k start stop is ps hk hf
  rcases k with _ | k
  · cases hk
    obtain ⟨_, _, rfl, ⟨_, rfl⟩, _, _, rfl, ⟨_, rfl⟩, _, _, rfl, ⟨t, rfl, -, -⟩, _, _, rfl,
      ⟨_, rfl⟩, _, _, rfl, ⟨_, rfl⟩, rfl⟩ := hf
    exact yields_noLineTerminatorHere rfl .noLineTerminatorHere
  · cases hk

/-- No argument is repeated just where the names of all differ. -/
theorem repeatedArgument?_eq_none {seen : List String} {as : List PassedArgument} :
    Reduction.repeatedArgument? seen as = none ↔
      (as.map PassedArgument.name).Nodup ∧ ∀ a ∈ as, a.name ∉ seen := by
  induction as generalizing seen with
  | nil => simp [Reduction.repeatedArgument?]
  | cons a as ih =>
    by_cases ha : a.name ∈ seen
    · simp [Reduction.repeatedArgument?, ha]
    · simp only [Reduction.repeatedArgument?, if_neg ha, ih, List.map_cons, List.nodup_cons,
        List.mem_cons, List.mem_map]
      grind

theorem nonterminal_fits : NodeFits ok .nonterminal := by
  intro k start stop is ps hk hf
  rcases k with _ | _ | _ | k
  · cases hk
    obtain ⟨_, _, rfl, ⟨t, rfl, -, ht⟩, _, _, rfl, ⟨_, rfl⟩, _, _, rfl, ⟨a, rfl, ha⟩, xs, _, rfl,
      hxs, _, _, rfl, ⟨_, rfl⟩, rfl⟩ := hf
    obtain ⟨as, rfl, has⟩ := exists_map hxs
    refine yields_apply (fun _ => .apply) fun hr => ?_
    refine ⟨_, rfl, ht, by simp, ?_, ?_⟩
    · simpa [PassedArgument.key, Function.comp_def] using (repeatedArgument?_eq_none.mp hr).1
    · intro x hx
      obtain ⟨b, hb, rfl⟩ := List.mem_map.mp hx
      exact (List.forall_mem_cons (p := fun a : PassedArgument => a.value.Fits ok a.name)).mpr
        ⟨ha, has⟩ b hb
  · cases hk
    obtain ⟨_, _, rfl, ⟨t, rfl, -, ht⟩, rfl⟩ := hf
    exact yields_pure ⟨_, rfl, .inl ht⟩
  · cases hk
    obtain ⟨_, _, rfl, ⟨t, rfl, -, ht⟩, rfl⟩ := hf
    exact yields_pure ⟨_, rfl, .inr ⟨_, ht, rfl⟩⟩
  · cases hk

theorem arg_fits : NodeFits ok .arg := by
  intro k start stop is ps hk hf
  rcases k with _ | k
  · cases hk
    obtain ⟨_, _, rfl, ⟨sigil, rfl⟩, _, _, rfl, ⟨t, rfl, -, ht⟩, rfl⟩ := hf
    cases sigil with
    | fixed value => exact yields_pure ⟨_, rfl, ht, .inl ⟨value, rfl⟩⟩
    | pass => exact yields_pure ⟨_, rfl, ht, .inr rfl⟩
  · cases hk

theorem argTail_fits : NodeFits ok .argTail := by
  intro k start stop is ps hk hf
  rcases k with _ | k
  · cases hk
    obtain ⟨_, _, rfl, ⟨_, rfl⟩, _, _, rfl, ⟨a, rfl, ha⟩, rfl⟩ := hf
    exact yields_pure ⟨a, rfl, ha⟩
  · cases hk

theorem sigil_fits : NodeFits ok .sigil := by
  intro k start stop is ps hk hf
  rcases k with _ | _ | k
  · cases hk
    obtain ⟨_, _, rfl, ⟨value, rfl⟩, rfl⟩ := hf
    exact yields_pure ⟨_, rfl⟩
  · cases hk
    exact yields_pure ⟨_, rfl⟩
  · cases hk

theorem fixedSigil_fits : NodeFits ok .fixedSigil := fun _ _ _ _ _ _ _ => yields_pure ⟨_, rfl⟩

theorem exclusion_fits : NodeFits ok .exclusion := by
  intro k start stop is ps hk hf
  rcases k with _ | _ | _ | k
  · cases hk
    obtain ⟨_, _, rfl, ⟨low, rfl, -, hlow⟩, _, _, rfl, ⟨_, rfl⟩, _, _, rfl, ⟨high, rfl, -, hhigh⟩,
      rfl⟩ := hf
    exact yields_pure ⟨_, rfl, hlow, hhigh⟩
  · cases hk
    obtain ⟨_, _, rfl, ⟨x, rfl, hx⟩, rfl⟩ := hf
    exact yields_pure ⟨_, rfl, hx⟩
  · cases hk
    obtain ⟨_, _, rfl, ⟨t, rfl, -, ht⟩, rfl⟩ := hf
    exact yields_pure ⟨_, rfl, ht⟩
  · cases hk

theorem exclusionTail_fits : NodeFits ok .exclusionTail := by
  intro k start stop is ps hk hf
  rcases k with _ | _ | _ | k
  · cases hk
    obtain ⟨_, _, rfl, ⟨_, rfl⟩, _, _, rfl, ⟨_, rfl⟩, _, _, rfl, ⟨e, rfl, he⟩, rfl⟩ := hf
    exact yields_pure ⟨e, rfl, he⟩
  · cases hk
    obtain ⟨_, _, rfl, ⟨_, rfl⟩, _, _, rfl, ⟨e, rfl, he⟩, rfl⟩ := hf
    exact yields_pure ⟨e, rfl, he⟩
  · cases hk
    obtain ⟨_, _, rfl, ⟨_, rfl⟩, _, _, rfl, ⟨e, rfl, he⟩, rfl⟩ := hf
    exact yields_pure ⟨e, rfl, he⟩
  · cases hk

/-- An entry that is a single terminal fits if the terminal was read. -/
theorem spelled_of_single {e : LookaheadEntry} {s : String} (h : e.single? = some s)
    (he : ∀ x ∈ e.elements, x.Fits ok) : Spelled ok s := by
  unfold LookaheadEntry.single? at h
  split at h
  · rename_i t helements
    obtain rfl := Option.some.inj h
    exact he (.terminal t) (by simp [helements])
  · cases h

/-- The entries of a set are single terminals, or the first one that is not gives the error. -/
theorem yields_singleTokens {es : List LookaheadEntry} (ps : List Phrase)
    (h : ∀ e ∈ es, ∀ x ∈ e.elements, x.Fits ok) :
    Yields (StateT.run (Reduction.singleTokens es) ps)
      (fun r => r.1.length = es.length ∧ ∀ s ∈ r.1, Spelled ok s)
      (fun d => ∃ b, es.find? (·.single?.isNone) = some b ∧
        d = .grammar (.unsupportedLookahead b.display b.span)) := by
  induction es with
  | nil => exact yields_pure ⟨rfl, by simp⟩
  | cons e es ih =>
    rw [List.forall_mem_cons] at h
    rw [Reduction.singleTokens]
    cases hs : e.single? with
    | none => exact yields_throw ⟨e, by simp [hs], rfl⟩
    | some s =>
      have hfind : (e :: es).find? (·.single?.isNone) = es.find? (·.single?.isNone) := by
        simp [hs]
      rw [hfind]
      refine yields_run_bind (ih h.2) ?_
      rintro ss _ ⟨hl, hss⟩
      refine yields_pure ⟨by simp [hl], ?_⟩
      rw [List.forall_mem_cons]
      exact ⟨spelled_of_single hs h.1, hss⟩

/-- A set of spellings that were read is a set that was read. -/
theorem tokenSet_fits {ss : List String} {positive : Bool} (hne : ss ≠ [])
    (hss : ∀ s ∈ ss, Spelled ok s) (hp : positive = true → ∃ s, ss = [s]) :
    (Lookahead.tokenSet (.ofList ss) positive).Fits ok := by
  refine ⟨?_, ?_, fun h => ?_⟩
  · intro s hs
    exact hss s (by simpa using hs)
  · intro hempty
    obtain ⟨s, hs⟩ := List.exists_mem_of_ne_nil ss hne
    have hmem : s ∈ (Std.ExtTreeSet.ofList ss : Names) := by simpa using hs
    rw [hempty] at hmem
    simp at hmem
  · obtain ⟨s, rfl⟩ := hp h
    exact ⟨s, rfl⟩

theorem lookahead_fits : NodeFits ok .lookahead := by
  intro k start stop is ps hk hf
  rcases k with _ | _ | _ | _ | k
  · cases hk
    obtain ⟨_, _, rfl, ⟨_, rfl⟩, _, _, rfl, ⟨x, rfl, hx⟩, rfl⟩ := hf
    exact yields_pure ⟨_, rfl, tokenSet_fits (by simp) (by simpa using hx) fun _ => ⟨_, rfl⟩⟩
  · cases hk
    obtain ⟨_, _, rfl, ⟨_, rfl⟩, _, _, rfl, ⟨x, rfl, hx⟩, rfl⟩ := hf
    exact yields_pure ⟨_, rfl, tokenSet_fits (by simp) (by simpa using hx) (by simp)⟩
  · cases hk
    obtain ⟨_, _, rfl, ⟨_, rfl⟩, _, _, rfl, ⟨_, rfl⟩, _, _, rfl, ⟨e, rfl, -, he⟩, xs, _, rfl, hxs,
      _, _, rfl, ⟨_, rfl⟩, rfl⟩ := hf
    obtain ⟨es, rfl, hes⟩ := exists_map hxs
    have hall : ∀ b ∈ e :: es, ∀ x ∈ b.elements, x.Fits ok :=
      List.forall_mem_cons.mpr ⟨he, fun b hb => (hes b hb).2⟩
    refine yields_tokenSet (Yields.mono_error (Yields.mono (yields_singleTokens _ hall) ?_) ?_)
    · rintro ⟨ss, qs⟩ ⟨hl, hss⟩
      exact ⟨_, rfl, tokenSet_fits (List.ne_nil_of_length_eq_add_one hl) hss (by simp)⟩
    · rintro _ ⟨b, hb, rfl⟩
      exact .tokenSet hb
  · cases hk
    obtain ⟨_, _, rfl, ⟨_, rfl⟩, _, _, rfl, ⟨t, rfl, -, ht⟩, rfl⟩ := hf
    exact yields_pure ⟨_, rfl, ht⟩
  · cases hk

theorem lookaheadEntryTail_fits : NodeFits ok .lookaheadEntryTail := by
  intro k start stop is ps hk hf
  rcases k with _ | k
  · cases hk
    obtain ⟨_, _, rfl, ⟨_, rfl⟩, _, _, rfl, ⟨e, rfl, he⟩, rfl⟩ := hf
    exact yields_pure ⟨e, rfl, he⟩
  · cases hk

theorem lookaheadEntry_fits : NodeFits ok .lookaheadEntry := by
  intro k start stop is ps hk hf
  rcases k with _ | k
  · cases hk
    obtain ⟨xs, _, rfl, hne, hxs, rfl⟩ := hf
    obtain ⟨es, rfl, hes⟩ := exists_map hxs
    exact yields_entry ⟨_, rfl, by simpa using hne, hes⟩
  · cases hk

theorem lookaheadElement_fits : NodeFits ok .lookaheadElement := by
  intro k start stop is ps hk hf
  rcases k with _ | _ | k
  · cases hk
    obtain ⟨_, _, rfl, ⟨x, rfl, hx⟩, rfl⟩ := hf
    exact yields_pure ⟨_, rfl, hx⟩
  · cases hk
    obtain ⟨_, _, rfl, rfl, rfl⟩ := hf
    exact yields_pure ⟨_, rfl, trivial⟩
  · cases hk

/-- The reduction of each rule reads children where the rule puts them. -/
theorem node_fits (r : Rule) : NodeFits ok r := by
  cases r with
  | grammar => exact grammar_fits
  | block => exact block_fits
  | definition => exact definition_fits
  | blockEnd => exact blockEnd_fits
  | head => exact head_fits
  | paramTail => exact paramTail_fits
  | param => exact param_fits
  | lineEnd => exact lineEnd_fits
  | terminalLine => exact terminalLine_fits
  | terminal => exact terminal_fits
  | production => exact production_fits
  | guard => exact guard_fits
  | body => exact body_fits
  | symbol => exact symbol_fits
  | noLineTerminatorHere => exact noLineTerminatorHere_fits
  | nonterminal => exact nonterminal_fits
  | argTail => exact argTail_fits
  | arg => exact arg_fits
  | sigil => exact sigil_fits
  | fixedSigil => exact fixedSigil_fits
  | exclusion => exact exclusion_fits
  | exclusionTail => exact exclusionTail_fits
  | lookahead => exact lookahead_fits
  | lookaheadEntryTail => exact lookaheadEntryTail_fits
  | lookaheadEntry => exact lookaheadEntry_fits
  | lookaheadElement => exact lookaheadElement_fits

end GrammarText
