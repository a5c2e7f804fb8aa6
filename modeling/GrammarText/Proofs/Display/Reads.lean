import GrammarText.Proofs.Display.Spelling
import GrammarText.Proofs.Reduction.Agreement

/-!
# What lexemes are read as

`Reads` says that the notation's own description derives the tokens of some lexemes, whatever comes
after them, and that the trees can be reduced, without an error, to phrases of which something
holds.  Readings are put together here as the description puts items together.
-/

namespace GrammarText

/-- The tokens of some lexemes can be derived from a part of the notation's own description, by
trees that mean phrases of which `P` holds. -/
def Reads (p : Part) (ls : List Lexeme) (P : List Phrase → Prop) : Prop :=
  ∀ close (taken rest : List Token), taken.map Token.lexeme = ls →
    ∃ ts, Derives .builtin close p taken rest ts ∧
      Yields (Tree.visitAll Reduction.visitor ts) P (fun _ => False)

/-- The tokens of some lexemes can be read by a rule, as a phrase of which `P` holds. -/
def Means (r : Rule) (ls : List Lexeme) (P : Phrase → Prop) : Prop :=
  Reads (.matcher (.rule r)) ls fun ps => ∃ p, ps = [p] ∧ P p

/-! ## Putting readings together -/

section Reads

variable {r : Rule} {i : Item} {is : List Item} {ks ls : List Lexeme} {P Q : List Phrase → Prop}

theorem reads_nil : Reads (.items []) [] (· = []) := by
  intro close taken rest h
  obtain rfl := List.map_eq_nil_iff.mp h
  exact ⟨[], .nil, yields_pure rfl⟩

theorem Reads.cons (h : Reads (.item i) ks P) (hs : Reads (.items is) ls Q) :
    Reads (.items (i :: is)) (ks ++ ls) fun rs => ∃ ps qs, rs = ps ++ qs ∧ P ps ∧ Q qs := by
  intro close taken rest htaken
  obtain ⟨u, v, rfl, hu, hv⟩ := List.map_eq_append_iff.mp htaken
  obtain ⟨ts, hts, hp⟩ := h close u (v ++ rest) hu
  obtain ⟨us, hus, hq⟩ := hs close v rest hv
  exact ⟨ts ++ us, .cons hts hus, yields_visitAll_append hp hq⟩

/-- A token of a class is read as it is. -/
theorem reads_token {k : Kind} {l : Lexeme} (h : l.kind = k) :
    Reads (.item (.token k)) [l] fun ps => ∃ t : Token, ps = [.token t] ∧ t.lexeme = l := by
  intro close taken rest htaken
  obtain ⟨t, rfl, ht⟩ := List.map_eq_singleton_iff.mp htaken
  have haccepts : (Wanted.kind k).accepts t = true := by
    rw [← h, ← ht]
    exact decide_eq_true rfl
  exact ⟨[.token t], .one (.leaf rfl haccepts), yields_pure ⟨t, rfl, ht⟩⟩

/-- A reserved word is read as it is. -/
theorem reads_word (w : Word) :
    Reads (.item (.word w)) [.reserved w] fun ps => ∃ t : Token, ps = [.token t] := by
  intro close taken rest htaken
  obtain ⟨t, rfl, ht⟩ := List.map_eq_singleton_iff.mp htaken
  exact ⟨[.token t], .one (.leaf rfl (decide_eq_true ht)), yields_pure ⟨t, rfl⟩⟩

theorem Means.reads {P : Phrase → Prop} (h : Means r ls P) :
    Reads (.item (.rule r)) ls fun ps => ∃ p, ps = [p] ∧ P p := by
  intro close taken rest htaken
  obtain ⟨ts, hts, hp⟩ := h close taken rest htaken
  exact ⟨ts, .one hts, hp⟩

/-- An optional item that is there. -/
theorem Means.reads_optional {P : Phrase → Prop} (h : Means r ls P) :
    Reads (.item ⟨.rule r, .optional⟩) ls fun ps => ∃ p, ps = [p] ∧ P p := by
  intro close taken rest htaken
  obtain ⟨ts, hts, hp⟩ := h close taken rest htaken
  exact ⟨ts, .present hts, hp⟩

/-- An optional item that is not there. -/
theorem reads_absent (m : Matcher) : Reads (.item ⟨m, .optional⟩) [] (· = [.absent]) := by
  intro close taken rest htaken
  obtain rfl := List.map_eq_nil_iff.mp htaken
  exact ⟨[.absent], .absent, yields_pure rfl⟩

/-- What a node means is what its rule makes of its children. -/
theorem Reads.node {k : Nat} {Q : Phrase → Prop} (h : Reads (.items is) ks P)
    (hk : ((builtinRules.alternatives? r).getD [])[k]? = some is) (hls : ks = ls)
    (hn : ∀ start stop ps, P ps →
      Yields ((Reduction.node ⟨r, k, start, stop⟩).run' ps) Q (fun _ => False)) : Means r ls Q := by
  intro close taken rest htaken
  obtain ⟨ts, hts, hp⟩ := h close taken rest (hls ▸ htaken)
  cases halternatives : builtinRules.alternatives? r with
  | none => simp [halternatives] at hk
  | some alternatives =>
    rw [halternatives] at hk
    refine ⟨[.node (.over close r (0 + k) taken rest) ts], ?_, ?_⟩
    · exact .rule halternatives (Derives.choice_iff.mpr ⟨k, is, ts, hk, hts, rfl⟩)
    · rw [Nat.zero_add]
      exact yields_visitAll_singleton (yields_visit_node hp (hn _ _))

theorem Means.mono {P Q : Phrase → Prop} (h : Means r ls P) (hpq : ∀ p, P p → Q p) :
    Means r ls Q := by
  intro close taken rest htaken
  obtain ⟨ts, hts, hp⟩ := h close taken rest htaken
  refine ⟨ts, hts, hp.mono ?_⟩
  rintro _ ⟨p, rfl, hp⟩
  exact ⟨p, rfl, hpq p hp⟩

/-! ### Repetitions -/

variable {α β γ : Type} {f : α → List Lexeme} {c : β → Phrase} {v : β → γ} {w : α → γ}
  {xs : List α}

/-- Parts one after another are read one after another. -/
theorem reads_rounds (h : ∀ x ∈ xs, Means r (f x) fun p => ∃ b, p = c b ∧ v b = w x) :
    Reads (.rounds (.rule r)) (xs.flatMap f)
      fun ps => ∃ bs : List β, ps = bs.map c ∧ bs.map v = xs.map w := by
  induction xs with
  | nil =>
    intro close taken rest htaken
    obtain rfl := List.map_eq_nil_iff.mp htaken
    exact ⟨[], .done, yields_pure ⟨[], rfl, rfl⟩⟩
  | cons x xs ih =>
    rw [List.forall_mem_cons] at h
    intro close taken rest htaken
    obtain ⟨t, u, rfl, ht, hu⟩ := List.map_eq_append_iff.mp htaken
    obtain ⟨ts, hts, hp⟩ := h.1 close t (u ++ rest) ht
    obtain ⟨us, hus, hq⟩ := ih h.2 close u rest hu
    refine ⟨ts ++ us, .round hts hus, (yields_visitAll_append hp hq).mono ?_⟩
    rintro _ ⟨_, _, rfl, ⟨_, rfl, b, rfl, hb⟩, bs, rfl, hbs⟩
    exact ⟨b :: bs, rfl, by simp [hb, hbs]⟩

theorem reads_star (h : ∀ x ∈ xs, Means r (f x) fun p => ∃ b, p = c b ∧ v b = w x) :
    Reads (.item ((Item.rule r).times .star)) (xs.flatMap f)
      fun ps => ∃ bs : List β, ps = [.repeated (bs.map c)] ∧ bs.map v = xs.map w := by
  intro close taken rest htaken
  obtain ⟨ts, hts, hp⟩ := reads_rounds h close taken rest htaken
  refine ⟨[.repeated ts], .star hts, (yields_visitAll_repeated hp).mono ?_⟩
  rintro _ ⟨_, rfl, bs, rfl, hbs⟩
  exact ⟨bs, rfl, hbs⟩

theorem reads_plus (hne : xs ≠ [])
    (h : ∀ x ∈ xs, Means r (f x) fun p => ∃ b, p = c b ∧ v b = w x) :
    Reads (.item ((Item.rule r).times .plus)) (xs.flatMap f)
      fun ps => ∃ bs : List β, ps = [.repeated (bs.map c)] ∧ bs.map v = xs.map w := by
  obtain ⟨x, xs, rfl⟩ := List.exists_cons_of_ne_nil hne
  rw [List.forall_mem_cons] at h
  intro close taken rest htaken
  obtain ⟨t, u, rfl, ht, hu⟩ := List.map_eq_append_iff.mp htaken
  obtain ⟨ts, hts, hp⟩ := h.1 close t (u ++ rest) ht
  obtain ⟨us, hus, hq⟩ := reads_rounds h.2 close u rest hu
  refine ⟨[.repeated (ts ++ us)], .plus hts hus,
    (yields_visitAll_repeated (yields_visitAll_append hp hq)).mono ?_⟩
  rintro _ ⟨_, rfl, _, _, rfl, ⟨_, rfl, b, rfl, hb⟩, bs, rfl, hbs⟩
  exact ⟨b :: bs, rfl, by simp [hb, hbs]⟩

end Reads

end GrammarText
