import GrammarText.Proofs.Parsing.Depth
import GrammarText.Proofs.Parsing.Openings

/-!
# Predictive descriptions: the parser finds what can be derived

In a predictive description two tokens ahead always tell which way a derivation goes: whether an
item is met once more, and which of two alternatives that have begun alike is meant.  There the
order of alternatives and the greed of repetitions do no harm: where a rule can be derived in front
of tokens that may follow it, a trace finds just that derivation (`Trace.finds`).
-/

namespace GrammarText

/-- Whether a matcher may stand before tokens that begin as the words beyond it say, given what may
follow each rule. -/
def Matcher.admits (follow : Rule → List (List Wanted)) (m : Matcher)
    (beyond : List (List Wanted)) : Bool :=
  match m with
  | .rule r => beyond.all fun ws => (follow r).any (·.isPrefixOf ws)
  | _ => true

/-- Whether each item may stand before the next ones, and whether the tokens ahead tell when an item
is not met or not met again. -/
def Description.guarded (g : Description) (idle : Rule → Bool)
    (follow : Rule → List (List Wanted)) (after : List (List Wanted)) : List Item → Bool
  | [] => true
  | i :: is =>
    let beyond := g.openings is after
    let parts := allApart (g.openings [i.times .one] [[]]) beyond
    g.guarded idle follow after is && match i.quantifier with
      | .one => i.matcher.admits follow beyond
      | .optional => i.matcher.admits follow beyond && parts
      | .star | .plus =>
        i.matcher.admits follow (g.openings (i.times .star :: is) after) && parts
          && !i.matcher.idle idle
      | .peek => i.matcher.wanted?.isSome

/-- Whether the tokens ahead tell two lists of items apart, after what both have in common. -/
def Description.diverge (g : Description) (after : List (List Wanted)) :
    List Item → List Item → Bool
  | i :: is, j :: js =>
    allApart (g.openings (i :: is) [[]]) (g.openings (j :: js) after)
      || (i = j && i.quantifier = .one && g.diverge after is js)
  | is, js => allApart (g.openings is [[]]) (g.openings js after)

/-- A description in which two tokens ahead tell how to go on. -/
structure Predictive (g : Description) extends Layering g where
  /-- How the tokens after a rule may begin. -/
  follow : Rule → List (List Wanted)
  guarded : ∀ r alternatives, g.rules.alternatives? r = some alternatives →
    ∀ is ∈ alternatives, g.guarded idle follow (follow r) is = true
  diverge : ∀ r alternatives, g.rules.alternatives? r = some alternatives →
    alternatives.Pairwise fun is js => g.diverge (follow r) is js = true

namespace Predictive

variable {g : Description} {close : Nat}

def Follows (P : Predictive g) (m : Matcher) (rest : List Token) : Prop :=
  ∀ r, m = .rule r → Begins (P.follow r) rest

theorem follows_of_admits {P : Predictive g} {m : Matcher} {beyond : List (List Wanted)}
    {rest : List Token} (h : m.admits P.follow beyond = true) (hb : Begins beyond rest) :
    P.Follows m rest := by
  rintro r rfl
  obtain ⟨ws, hws, ho⟩ := hb
  obtain ⟨vs, hvs, hp⟩ := List.any_eq_true.mp (List.all_eq_true.mp h ws hws)
  exact ⟨vs, hvs, ho.of_prefix (List.isPrefixOf_iff_prefix.mp hp)⟩

/-- Items stand before the tokens that they derive and others that may come after them. -/
structure Stands (P : Predictive g) (close : Nat) (after : List (List Wanted)) (is : List Item)
    (ahead : List Token) : Prop where
  guarded : g.guarded P.idle P.follow after is = true
  derives : ∃ taken rest ts, ahead = taken ++ rest ∧ Derives g close (.items is) taken rest ts ∧
    Begins after rest

/-- What is said of a trace of a part with a result: a derivation of the part before tokens that may
follow it is what is found. -/
def Finds (P : Predictive g) (close : Nat) (p : Part) (ahead : List Token)
    (res : Option (List Tree × List Token)) : Prop :=
  match p with
  | .matcher m => ∀ taken rest ts, ahead = taken ++ rest → P.Follows m rest →
      Derives g close p taken rest ts → res = some (ts, rest)
  | .rounds m => ∀ after is taken rest ts, ahead = taken ++ rest →
      g.guarded P.idle P.follow after (⟨m, .star⟩ :: is) = true → P.Stands close after is rest →
      Derives g close p taken rest ts → res = some (ts, rest)
  | .item i => ∀ after is taken rest ts, ahead = taken ++ rest →
      g.guarded P.idle P.follow after (i :: is) = true → P.Stands close after is rest →
      Derives g close p taken rest ts → res = some (ts, rest)
  | .items is =>
      (∀ after taken rest ts, ahead = taken ++ rest →
        g.guarded P.idle P.follow after is = true → Begins after rest →
        Derives g close p taken rest ts → res = some (ts, rest)) ∧
      -- Items that are not the ones derived miss.
      (∀ after js, g.diverge after is js = true → P.Stands close after js ahead → res = none)
  | .choice r _ alternatives => ∀ taken rest ts, ahead = taken ++ rest →
      (∀ is ∈ alternatives, g.guarded P.idle P.follow (P.follow r) is = true) →
      (alternatives.Pairwise fun is js => g.diverge (P.follow r) is js = true) →
      Begins (P.follow r) rest → Derives g close p taken rest ts → res = some (ts, rest)

/-! ## What the guards of an item say -/

section Guards

variable {P : Predictive g} {after : List (List Wanted)} {m : Matcher} {is : List Item}
  {ahead : List Token}

theorem guarded_tail {i : Item} (h : g.guarded P.idle P.follow after (i :: is) = true) :
    g.guarded P.idle P.follow after is = true := by
  rw [Description.guarded, Bool.and_eq_true] at h
  exact h.1

theorem Stands.begins (h : P.Stands close after is ahead) :
    Begins (g.openings is after) ahead := by
  obtain ⟨taken, rest, ts, rfl, hd, ha⟩ := h.derives
  exact hd.begins ha

theorem Stands.cons {i : Item} {taken rest : List Token} {ts : List Tree}
    (hg : g.guarded P.idle P.follow after (i :: is) = true)
    (hd : Derives g close (.item i) taken rest ts) (h : P.Stands close after is rest) :
    P.Stands close after (i :: is) (taken ++ rest) := by
  obtain ⟨u, v, us, rfl, hu, ha⟩ := h.derives
  exact ⟨hg, taken ++ u, v, ts ++ us, by simp, .cons hd hu, ha⟩

theorem follows_one (hg : g.guarded P.idle P.follow after (⟨m, .one⟩ :: is) = true)
    (h : P.Stands close after is ahead) : P.Follows m ahead := by
  simp only [Description.guarded, Bool.and_eq_true] at hg
  exact follows_of_admits hg.2 h.begins

theorem follows_optional (hg : g.guarded P.idle P.follow after (⟨m, .optional⟩ :: is) = true)
    (h : P.Stands close after is ahead) : P.Follows m ahead := by
  simp only [Description.guarded, Bool.and_eq_true] at hg
  exact follows_of_admits hg.2.1 h.begins

theorem follows_star (hg : g.guarded P.idle P.follow after (⟨m, .star⟩ :: is) = true)
    (h : P.Stands close after (⟨m, .star⟩ :: is) ahead) : P.Follows m ahead := by
  simp only [Description.guarded, Bool.and_eq_true] at hg
  exact follows_of_admits hg.2.1.1 h.begins

theorem not_idle_of_star (hg : g.guarded P.idle P.follow after (⟨m, .star⟩ :: is) = true) :
    m.idle P.idle = false := by
  simp only [Description.guarded, Bool.and_eq_true, Bool.not_eq_true'] at hg
  exact hg.2.2

/-- Where an item is not met, its matcher derives nothing. -/
theorem not_derives_of_optional
    (hg : g.guarded P.idle P.follow after (⟨m, .optional⟩ :: is) = true)
    (h : P.Stands close after is ahead) {taken rest : List Token} {ts : List Tree}
    (ha : ahead = taken ++ rest) : ¬ Derives g close (.matcher m) taken rest ts := by
  subst ha
  simp only [Description.guarded, Bool.and_eq_true] at hg
  exact fun hd => not_begins_of_allApart hg.2.2 hd.begins_matcher h.begins

theorem not_derives_of_star (hg : g.guarded P.idle P.follow after (⟨m, .star⟩ :: is) = true)
    (h : P.Stands close after is ahead) {taken rest : List Token} {ts : List Tree}
    (ha : ahead = taken ++ rest) : ¬ Derives g close (.matcher m) taken rest ts := by
  subst ha
  simp only [Description.guarded, Bool.and_eq_true] at hg
  exact fun hd => not_begins_of_allApart hg.2.1.2 hd.begins_matcher h.begins

/-- Lists of items that diverge at once do not both stand before the same tokens. -/
theorem not_derives_of_allApart {js : List Item}
    (hp : allApart (g.openings js [[]]) (g.openings is after) = true)
    (h : P.Stands close after is ahead) {taken rest : List Token} {ts : List Tree}
    (ha : ahead = taken ++ rest) : ¬ Derives g close (.items js) taken rest ts := by
  subst ha
  exact fun hd => not_begins_of_allApart hp (hd.begins (begins_nil_word rest)) h.begins

end Guards

/-! ## One step of a trace -/

section Steps

variable {P : Predictive g} {peeks : Prop} {m : Matcher} {i : Item} {is : List Item} {r : Rule}
  {n : Nat} {alternatives : List (List Item)} {ahead mid rest : List Token} {ts us : List Tree}
  {res : Option (List Tree × List Token)}

theorem finds_rule (hr : g.rules.alternatives? r = some alternatives)
    (h : P.Finds close (.choice r 0 alternatives) ahead res) :
    P.Finds close (.matcher (.rule r)) ahead res := by
  intro taken rest ts ha hf hd
  obtain ⟨alternatives', hr', hc⟩ := Derives.rule_iff.mp hd
  obtain rfl : alternatives = alternatives' := Option.some.inj (hr.symm.trans hr')
  exact h taken rest ts ha (P.guarded r alternatives hr) (P.diverge r alternatives hr)
    (hf r rfl) hc

/-- The first alternative is met: either it is the one derived, or it diverges from that one. -/
theorem finds_here
    (h : P.Finds close (.items is) ahead (some (ts, rest))) :
    P.Finds close (.choice r n (is :: alternatives)) ahead
      (some ([.node ⟨r, n, startOf close ahead, stopOf close ahead rest⟩ ts], rest)) := by
  intro taken rest' ts' ha hg hp hf hd
  subst ha
  cases hd with
  | here hd =>
    have := h.1 _ taken rest' _ rfl (hg is (by simp)) hf hd
    obtain ⟨rfl, rfl⟩ : ts = _ ∧ rest = rest' := by simpa using this
    rw [stopOf_append]
    rfl
  | later hd =>
    -- A later alternative that is derived would have told itself apart from the one met.
    obtain ⟨k, js, us, hk, hjs, -⟩ := Derives.choice_iff.mp hd
    have hmem : js ∈ alternatives := List.mem_of_getElem? hk
    have hdiv := (List.pairwise_cons.mp hp).1 js hmem
    have := h.2 _ js hdiv ⟨hg js (by simp [hmem]), taken, rest', us, rfl, hjs, hf⟩
    simp at this

theorem finds_later (h : P.Finds close (.items is) ahead none)
    (hs : P.Finds close (.choice r (n + 1) alternatives) ahead res) :
    P.Finds close (.choice r n (is :: alternatives)) ahead res := by
  intro taken rest ts ha hg hp hf hd
  cases hd with
  | here hd =>
    have := h.1 _ taken rest _ ha (hg is (by simp)) hf hd
    simp at this
  | later hd =>
    exact hs taken rest ts ha (fun js hjs => hg js (by simp [hjs]))
      (List.pairwise_cons.mp hp).2 hf hd

/-- After a miss no round can be derived. -/
theorem finds_done (h : P.Finds close (.matcher m) ahead none) :
    P.Finds close (.rounds m) ahead (some ([], ahead)) := by
  intro after is taken rest ts ha hg hs hd
  rcases Derives.rounds_iff.mp hd with ⟨rfl, rfl⟩ | ⟨u, v, us, vs, rfl, rfl, hu, hv⟩
  · simp [ha]
  · have hf := follows_star hg (hs.cons hg (.star hv))
    have := h u (v ++ rest) us (by simpa using ha) hf hu
    simp at this

/-- No round takes nothing. -/
theorem finds_stall {ms : List Miss}
    (ht : Trace g close peeks (.matcher m) ahead ms (some (ts, rest)))
    (hl : ¬ rest.length < ahead.length) : P.Finds close (.rounds m) ahead (some (ts, rest)) := by
  intro after is _ _ _ _ hg _ _
  obtain ⟨taken, rfl, hd⟩ := ht.derives rfl
  have htaken : taken = [] := by
    cases taken with
    | nil => rfl
    | cons t taken =>
      simp only [List.length_append, List.length_cons, Nat.not_lt] at hl
      omega
  -- Only an idle matcher takes nothing, and such ones are not repeated.
  have hidle : m.idle P.idle = true := hd.idle P.toLayering htaken
  simp [not_idle_of_star hg] at hidle

theorem finds_round {ms : List Miss}
    (ht : Trace g close peeks (.matcher m) ahead ms (some (ts, mid)))
    (h : P.Finds close (.matcher m) ahead (some (ts, mid)))
    (hs : P.Finds close (.rounds m) mid (some (us, rest))) :
    P.Finds close (.rounds m) ahead (some (ts ++ us, rest)) := by
  intro after is taken rest' ts' ha hg hst hd
  rcases Derives.rounds_iff.mp hd with ⟨rfl, rfl⟩ | ⟨u, v, ws, vs, rfl, rfl, hu, hv⟩
  · -- The items that come next stand there, so no round does.
    obtain ⟨x, hx, hxd⟩ := ht.derives rfl
    exact absurd hxd (not_derives_of_star hg hst (by rw [← hx, ha, List.nil_append]))
  · have hf := follows_star hg (hst.cons hg (.star hv))
    have := h u (v ++ rest') ws (by simpa using ha) hf hu
    obtain ⟨rfl, rfl⟩ : ts = ws ∧ mid = v ++ rest' := by simpa using this
    have := hs after is v rest' vs rfl hg hst hv
    obtain ⟨rfl, rfl⟩ : us = vs ∧ rest = rest' := by simpa using this
    rfl

theorem finds_one (h : P.Finds close (.matcher m) ahead res) :
    P.Finds close (.item ⟨m, .one⟩) ahead res := by
  intro after is taken rest ts ha hg hs hd
  exact h taken rest ts ha (follows_one hg hs) (Derives.one_iff.mp hd)

theorem finds_present {ms : List Miss}
    (ht : Trace g close peeks (.matcher m) ahead ms (some (ts, rest)))
    (h : P.Finds close (.matcher m) ahead (some (ts, rest))) :
    P.Finds close (.item ⟨m, .optional⟩) ahead (some (ts, rest)) := by
  intro after is taken rest' ts' ha hg hs hd
  rcases Derives.optional_iff.mp hd with hd | ⟨rfl, rfl⟩
  · exact h taken rest' ts' ha (follows_optional hg hs) hd
  · obtain ⟨x, hx, hxd⟩ := ht.derives rfl
    exact absurd hxd (not_derives_of_optional hg hs (by rw [← hx, ha, List.nil_append]))

theorem finds_absent (h : P.Finds close (.matcher m) ahead none) :
    P.Finds close (.item ⟨m, .optional⟩) ahead (some ([.absent], ahead)) := by
  intro after is taken rest ts ha hg hs hd
  rcases Derives.optional_iff.mp hd with hd | ⟨rfl, rfl⟩
  · have := h taken rest ts ha (follows_optional hg hs) hd
    simp at this
  · simp [ha]

theorem finds_star (h : P.Finds close (.rounds m) ahead (some (ts, rest))) :
    P.Finds close (.item ⟨m, .star⟩) ahead (some ([.repeated ts], rest)) := by
  intro after is taken rest' ts' ha hg hs hd
  obtain ⟨us, rfl, hrounds⟩ := Derives.star_iff.mp hd
  have := h after is taken rest' us ha hg hs hrounds
  obtain ⟨rfl, rfl⟩ : ts = us ∧ rest = rest' := by simpa using this
  rfl

/-- One or more rounds are rounds that are more than none. -/
theorem finds_plus (h : P.Finds close (.rounds m) ahead (some (ts, rest))) :
    P.Finds close (.item ⟨m, .plus⟩) ahead
      (if ts.isEmpty then none else some ([.repeated ts], rest)) := by
  intro after is taken rest' ts' ha hg hs hd
  obtain ⟨u, v, us, vs, rfl, rfl, hu, hv⟩ := Derives.plus_iff.mp hd
  have := h after is (u ++ v) rest' (us ++ vs) ha hg hs (.round hu hv)
  obtain ⟨rfl, rfl⟩ : ts = us ++ vs ∧ rest = rest' := by simpa using this
  obtain ⟨t, rfl⟩ := hu.exists_tree
  rfl

theorem finds_peek :
    P.Finds close (.item ⟨m, .peek⟩) ahead (some ([], ahead)) := by
  intro after is taken rest' ts' ha hg hs hd
  obtain ⟨rfl, rfl, -⟩ := Derives.peek_iff.mp hd
  simp [ha]

theorem finds_peekMiss (h : P.Finds close (.matcher m) ahead none) :
    P.Finds close (.item ⟨m, .peek⟩) ahead none := by
  intro after is taken rest ts ha hg hs hd
  obtain ⟨rfl, rfl, u, v, us, rfl, hu⟩ := Derives.peek_iff.mp hd
  -- A peek asks for a token, so nothing has to be known of what follows.
  have hw : m.wanted?.isSome = true := by
    simp only [Description.guarded, Bool.and_eq_true] at hg
    exact hg.2
  have := h u v us ha (by rintro r rfl; simp [Matcher.wanted?] at hw) hu
  simp at this

theorem finds_nil : P.Finds close (.items []) ahead (some ([], ahead)) := by
  constructor
  · intro after taken rest ts ha _ _ hd
    obtain ⟨rfl, rfl⟩ := Derives.nil_iff.mp hd
    simp [ha]
  · intro after js hdiv hs
    exact absurd .nil (not_derives_of_allApart hdiv hs (List.nil_append ahead).symm)

/-- An item that is met goes as it is derived, if it is derived. -/
theorem finds_item (h : P.Finds close (.item i) ahead res) {after : List (List Wanted)}
    {taken : List Token} (ha : ahead = taken ++ rest)
    (hg : g.guarded P.idle P.follow after (i :: is) = true) (hf : Begins after rest)
    (hd : Derives g close (.items (i :: is)) taken rest ts) :
    ∃ u v us vs, taken = u ++ v ∧ ts = us ++ vs ∧ res = some (us, v ++ rest) ∧
      Derives g close (.items is) v rest vs := by
  obtain ⟨u, v, us, vs, rfl, rfl, hu, hv⟩ := Derives.cons_iff.mp hd
  have hs : P.Stands close after is (v ++ rest) := ⟨guarded_tail hg, v, rest, vs, rfl, hv, hf⟩
  exact ⟨u, v, us, vs, rfl, rfl, h after is u (v ++ rest) us (by simpa using ha) hg hs hu, hv⟩

theorem finds_cons {ms : List Miss}
    (ht : Trace g close peeks (.items (i :: is)) ahead ms (some (ts ++ us, rest)))
    (h : P.Finds close (.item i) ahead (some (ts, mid)))
    (hs : P.Finds close (.items is) mid (some (us, rest))) :
    P.Finds close (.items (i :: is)) ahead (some (ts ++ us, rest)) := by
  constructor
  · intro after taken rest' ts' ha hg hf hd
    obtain ⟨u, v, us', vs, rfl, rfl, heq, hv⟩ := finds_item h ha hg hf hd
    obtain ⟨rfl, rfl⟩ : ts = us' ∧ mid = v ++ rest' := by simpa using heq
    have := hs.1 after v rest' vs rfl (guarded_tail hg) hf hv
    obtain ⟨rfl, rfl⟩ : us = vs ∧ rest = rest' := by simpa using this
    rfl
  · intro after js hdiv hst
    obtain ⟨x, hx, hxd⟩ := ht.derives rfl
    cases js with
    | nil => exact absurd hxd (not_derives_of_allApart hdiv hst hx)
    | cons j js =>
      rw [Description.diverge, Bool.or_eq_true] at hdiv
      rcases hdiv with hdiv | hdiv
      · exact absurd hxd (not_derives_of_allApart hdiv hst hx)
      · -- Both lists begin with one item, which goes as it is derived.
        simp only [Bool.and_eq_true, decide_eq_true_eq] at hdiv
        obtain ⟨⟨rfl, -⟩, hdiv⟩ := hdiv
        obtain ⟨hg, y, rest', ys, hy, hyd, hf⟩ := hst
        obtain ⟨u, v, us', vs, rfl, rfl, heq, hv⟩ := finds_item h hy hg hf hyd
        obtain ⟨rfl, rfl⟩ : ts = us' ∧ mid = v ++ rest' := by simpa using heq
        have := hs.2 after js hdiv ⟨guarded_tail hg, v, rest', vs, rfl, hv, hf⟩
        simp at this

theorem finds_consMiss (h : P.Finds close (.item i) ahead none) :
    P.Finds close (.items (i :: is)) ahead none := by
  refine ⟨?_, fun _ _ _ _ => rfl⟩
  intro after taken rest ts ha hg hf hd
  obtain ⟨u, v, us, vs, -, -, heq, -⟩ := finds_item h ha hg hf hd
  simp at heq

theorem finds_consLater (h : P.Finds close (.item i) ahead (some (ts, mid)))
    (hs : P.Finds close (.items is) mid none) : P.Finds close (.items (i :: is)) ahead none := by
  refine ⟨?_, fun _ _ _ _ => rfl⟩
  intro after taken rest ts' ha hg hf hd
  obtain ⟨u, v, us, vs, -, -, heq, hv⟩ := finds_item h ha hg hf hd
  obtain ⟨rfl, rfl⟩ : ts = us ∧ mid = v ++ rest := by simpa using heq
  have := hs.1 after v rest vs rfl (guarded_tail hg) hf hv
  simp at this

end Steps

end Predictive

/-! ## All steps -/

variable {g : Description} {close : Nat}

/-- What can be derived of a part in front of tokens that may follow it is what a trace finds. -/
theorem Trace.finds (P : Predictive g) {peeks : Prop} {p : Part} {ahead : List Token}
    {ms : List Miss} {res : Option (List Tree × List Token)}
    (h : Trace g close peeks p ahead ms res) :
    P.Finds close p ahead res := by
  induction h with
  | leaf hw ht =>
    intro taken rest ts ha _ hd
    obtain ⟨t, -, rfl, rfl⟩ := (Derives.token_iff hw).mp hd
    simp_all
  | leafMiss hw ht =>
    intro taken rest ts ha _ hd
    obtain ⟨t, hacc, rfl, rfl⟩ := (Derives.token_iff hw).mp hd
    simp_all
  | undefined hr =>
    intro taken rest ts ha _ hd
    obtain ⟨alternatives, hr', -⟩ := Derives.rule_iff.mp hd
    simp [hr] at hr'
  | rule hr h ih => exact Predictive.finds_rule hr ih
  | exhausted =>
    intro taken rest ts ha _ _ _ hd
    nomatch hd
  | here h ih => exact Predictive.finds_here ih
  | later h hs ih ihs => exact Predictive.finds_later ih ihs
  | done h ih => exact Predictive.finds_done ih
  | stall h hl => exact Predictive.finds_stall h hl
  | round h hl hs ih ihs => exact Predictive.finds_round h ih ihs
  | one h ih => exact Predictive.finds_one ih
  | present h ih => exact Predictive.finds_present h ih
  | absent h ih => exact Predictive.finds_absent ih
  | star h ih => exact Predictive.finds_star ih
  | plus hts h ih => simpa [hts] using Predictive.finds_plus ih
  | plusMiss h ih => simpa using Predictive.finds_plus ih
  | peek hp h ih => exact Predictive.finds_peek
  | peekMiss h ih => exact Predictive.finds_peekMiss ih
  | nil => exact Predictive.finds_nil
  | cons h hs ih ihs => exact Predictive.finds_cons (.cons h hs) ih ihs
  | consMiss h ih => exact Predictive.finds_consMiss ih
  | consLater h hs ih ihs => exact Predictive.finds_consLater ih ihs

end GrammarText
