import GrammarText.Proofs.Parsing.Refusal
import GrammarText.Proofs.Reduction.Refines

/-!
# Where a token stands in a derivation

Each token that the notation derives is asked for by an item of some alternative of a rule.
`Framed` says where: which tokens the items before it and behind it derive, and that whatever else
the rule derives there may come in the place of that alternative.  Few places of the table ask for a
reserved word or for a class of tokens (`Notation.spots`), so a token tells of which rule it is.
-/

namespace GrammarText

open List (Forall₂)

/-! ## The places of the table -/

def Matcher.Accepts (m : Matcher) (t : Token) : Prop :=
  ∃ w, m.wanted? = some w ∧ w.accepts t = true

/-- A token is asked for by itself, not again and again. -/
def Item.once (i : Item) : Bool :=
  i.matcher.wanted?.isNone || (i.quantifier ≠ .star && i.quantifier ≠ .plus)

namespace Notation

def alternatives (r : Rule) : List (List Item) := (builtinRules.alternatives? r).getD []

/-- The places of the table at which a token is asked for: the rule, the number of the alternative
and that of the item. -/
def spots (w : Wanted) : List (Rule × Nat × Nat) :=
  Rule.all.flatMap fun r => (alternatives r).zipIdx.flatMap fun (is, k) =>
    is.zipIdx.filterMap fun (i, j) => if i.matcher.wanted? = some w then some (r, k, j) else none

theorem mem_spots {r : Rule} {k j : Nat} {is : List Item} {i : Item} {w : Wanted}
    (his : (alternatives r)[k]? = some is) (hi : is[j]? = some i)
    (hw : i.matcher.wanted? = some w) : (r, k, j) ∈ spots w := by
  refine List.mem_flatMap.mpr ⟨r, Rule.mem_all r, List.mem_flatMap.mpr ⟨(is, k), ?_, ?_⟩⟩
  · rwa [List.mem_zipIdx_iff_getElem?]
  · refine List.mem_filterMap.mpr ⟨(i, j), ?_, by simp [hw]⟩
    rwa [List.mem_zipIdx_iff_getElem?]

/-- A token is asked for only at the places for what accepts it. -/
theorem mem_spots_of_accepts {r : Rule} {k j : Nat} {is : List Item} {i : Item} {v : Wanted}
    {t : Token} (his : (alternatives r)[k]? = some is) (hi : is[j]? = some i)
    (ht : i.matcher.Accepts t) (hv : v.accepts t = true) (hne : v ≠ .kind .reserved) :
    (r, k, j) ∈ spots v := by
  obtain ⟨w, hw, hwt⟩ := ht
  have hspot := mem_spots his hi hw
  have hwr : w ≠ .kind .reserved := by
    rintro rfl
    have hnone : spots (.kind .reserved) = [] := by decide +kernel
    rw [hnone] at hspot
    cases hspot
  rwa [Wanted.eq_of_accepts hv hwt hne hwr]

theorem once_alternatives {r : Rule} {alternatives : List (List Item)}
    (hr : builtinRules.alternatives? r = some alternatives) :
    ∀ is ∈ alternatives, ∀ i ∈ is, i.once = true := by
  cases r <;> cases hr <;> decide +kernel

end Notation

def Part.Once : Part → Prop
  | .matcher _ => True
  | .rounds m => m.wanted? = none
  | .item i => i.once = true
  | .items is => ∀ i ∈ is, i.once = true
  | .choice _ _ alternatives => ∀ is ∈ alternatives, ∀ i ∈ is, i.once = true

/-! ## What may come after a part -/

namespace Predictive

variable {g : Description} {P : Predictive g} {close : Nat} {m : Matcher} {i : Item}
  {is : List Item} {u v rest : List Token} {ts us : List Tree}

def Precedes (P : Predictive g) (close : Nat) (p : Part) (rest : List Token) : Prop :=
  match p with
  | .matcher m => P.Follows m rest
  | .rounds m => ∃ after is, g.guarded P.idle P.follow after (⟨m, .star⟩ :: is) = true ∧
      P.Stands close after is rest
  | .item i => ∃ after is, g.guarded P.idle P.follow after (i :: is) = true ∧
      P.Stands close after is rest
  | .items is => ∃ after, g.guarded P.idle P.follow after is = true ∧ Begins after rest
  | .choice r _ alternatives =>
      (∀ is ∈ alternatives, g.guarded P.idle P.follow (P.follow r) is = true) ∧
        Begins (P.follow r) rest

theorem precedes_choice {r : Rule} {alternatives : List (List Item)}
    (h : P.Precedes close (.matcher (.rule r)) rest)
    (hr : g.rules.alternatives? r = some alternatives) :
    P.Precedes close (.choice r 0 alternatives) rest :=
  ⟨P.guarded r alternatives hr, h r rfl⟩

/-- Before more rounds there may be a round. -/
theorem precedes_round (h : P.Precedes close (.rounds m) rest)
    (hs : Derives g close (.rounds m) v rest us) :
    P.Precedes close (.matcher m) (v ++ rest) := by
  obtain ⟨after, is, hg, hstands⟩ := h
  exact follows_star hg (hstands.cons hg (.star hs))

theorem precedes_one (h : P.Precedes close (.item ⟨m, .one⟩) rest) :
    P.Precedes close (.matcher m) rest := by
  obtain ⟨after, is, hg, hstands⟩ := h
  exact follows_one hg hstands

theorem precedes_present (h : P.Precedes close (.item ⟨m, .optional⟩) rest) :
    P.Precedes close (.matcher m) rest := by
  obtain ⟨after, is, hg, hstands⟩ := h
  exact follows_optional hg hstands

theorem precedes_item (h : P.Precedes close (.items (i :: is)) rest)
    (hs : Derives g close (.items is) v rest us) :
    P.Precedes close (.item i) (v ++ rest) := by
  obtain ⟨after, hg, hafter⟩ := h
  exact ⟨after, is, hg, guarded_tail hg, v, rest, us, rfl, hs, hafter⟩

theorem precedes_items (h : P.Precedes close (.items (i :: is)) rest) :
    P.Precedes close (.items is) rest := by
  obtain ⟨after, hg, hafter⟩ := h
  exact ⟨after, guarded_tail hg, hafter⟩

end Predictive

/-! ## Frames -/

/-- A part, or the whole rule if it is some of the alternatives of one. -/
def Part.whole : Part → Part
  | .choice r _ _ => .matcher (.rule r)
  | p => p

variable {close : Nat} {p q : Part} {ends : Bool} {pre post rest taken more : List Token}
  {t : Token} {ts us : List Tree}

/-- A token stands between others in what a rule derives: an item of an alternative asks for it, and
the items before it and behind it derive tokens next to it.  Whatever else the rule derives there,
if it means the same, may come in the place of the alternative. -/
inductive Framed (close : Nat) (p : Part) (pre : List Token) (t : Token) (post rest : List Token)
    (ts : List Tree) : Prop where
  | mk {r k j is i} {pre₀ pre₁ post₁ post₀ us vs}
    (hpre : pre = pre₀ ++ pre₁) (hpost : post = post₁ ++ post₀)
    (his : (Notation.alternatives r)[k]? = some is) (hi : is[j]? = some i)
    (ht : i.matcher.Accepts t)
    (hfollows : Description.builtin_predictive.Follows (.rule r) (post₀ ++ rest))
    (hbefore : Derives .builtin close (.items (is.take j)) pre₁
      (t :: (post₁ ++ (post₀ ++ rest))) us)
    (hbehind : Derives .builtin close (.items (is.drop (j + 1))) post₁ (post₀ ++ rest) vs)
    (hplug : ∀ w ws, Derives .builtin close (.matcher (.rule r)) w (post₀ ++ rest) ws →
      Tree.AllRefine [.node (.over close r k (pre₁ ++ t :: post₁) (post₀ ++ rest))
        (us ++ .token t :: vs)] ws →
      ∃ ts', Derives .builtin close p.whole (pre₀ ++ (w ++ post₀)) rest ts' ∧
        Tree.AllRefine ts ts')
    (hsucceed : Tree.Succeed ts →
      Tree.Succeed [.node (.over close r k (pre₁ ++ t :: post₁) (post₀ ++ rest))
        (us ++ .token t :: vs)]) :
    Framed close p pre t post rest ts

/-- A token that stands in a part of what a part derives stands in the whole. -/
theorem Framed.mono {front : List Token} (h : Framed close q pre t post (more ++ rest) ts)
    (hq : ∀ taken' ts', Derives .builtin close q.whole taken' (more ++ rest) ts' →
      Tree.AllRefine ts ts' → ∃ us',
        Derives .builtin close p.whole (front ++ (taken' ++ more)) rest us' ∧
        Tree.AllRefine us us') (hsucceeds : Tree.Succeed us → Tree.Succeed ts) :
    Framed close p (front ++ pre) t (post ++ more) rest us := by
  obtain ⟨rfl, rfl, his, hi, ht, hfollows, hbefore, hbehind, hplug, hsucceed⟩ := h
  rename_i r k j is i pre₀ pre₁ post₁ post₀ vs ws
  rw [← List.append_assoc post₀] at hfollows hbefore hbehind hplug hsucceed
  refine .mk (List.append_assoc front pre₀ pre₁).symm (List.append_assoc post₁ post₀ more) his hi
    ht hfollows hbefore hbehind ?_ fun h => hsucceed (hsucceeds h)
  intro w xs hw hxs
  obtain ⟨ts', hts', hrefine⟩ := hplug w xs hw hxs
  obtain ⟨us', hus', hrefine'⟩ := hq _ ts' hts' hrefine
  refine ⟨us', ?_, hrefine'⟩
  simpa using hus'

/-- A token that stands in what a part derives stands in what another part derives from the same
tokens. -/
theorem Framed.same (h : Framed close q pre t post rest ts)
    (hq : ∀ taken' ts', Derives .builtin close q.whole taken' rest ts' → Tree.AllRefine ts ts' →
      ∃ us', Derives .builtin close p.whole taken' rest us' ∧ Tree.AllRefine us us')
    (hsucceeds : Tree.Succeed us → Tree.Succeed ts) : Framed close p pre t post rest us := by
  have hin : Framed close q pre t post ([] ++ rest) ts := h
  have hmono : Framed close p ([] ++ pre) t (post ++ []) rest us :=
    hin.mono (by simpa using hq) hsucceeds
  rwa [List.nil_append, List.append_nil] at hmono

/-! ### Parts one after another -/

theorem Matcher.not_accepts {m : Matcher} (hm : m.wanted? = none) : ¬ m.Accepts t := by
  rintro ⟨w, hw, -⟩
  simp [hm] at hw

/-- A part takes no end of the text before or at a token in it. -/
theorem Derives.isEof_of_split (h : Derives .builtin close p (pre ++ t :: post) rest ts)
    (hapt : Description.builtin_orderly.Apt ends p) : ∀ s ∈ pre ++ [t], s.isEof = false := by
  intro s hs
  refine Description.builtin_orderly.isEof_of_derives h hapt s ?_
  rw [List.append_cons]
  exact List.mem_append_left post hs

/-- A token of two runs is one of the first run or one of the second. -/
theorem split_cases {u v : List Token} (h : u ++ v = pre ++ t :: post) :
    (∃ mid, u = pre ++ t :: mid ∧ post = mid ++ v) ∨
      ∃ mid, v = mid ++ t :: post ∧ pre = u ++ mid := by
  rcases List.append_eq_append_iff.mp h with ⟨mid, rfl, rfl⟩ | ⟨mid, rfl, hmid⟩
  · exact .inr ⟨mid, rfl, rfl⟩
  · cases mid with
    | nil => exact .inr ⟨[], by simpa using hmid.symm, by simp⟩
    | cons s mid =>
      obtain ⟨rfl, rfl⟩ := List.cons_eq_cons.mp hmid
      exact .inl ⟨mid, rfl, rfl⟩

/-- A token of some rounds is one of some round. -/
theorem Derives.exists_round {g : Description} {m : Matcher}
    (h : Derives g close (.rounds m) (pre ++ t :: post) rest ts) :
    ∃ front u v back xs x ys, pre = front ++ u ∧ post = v ++ back ∧ ts = xs ++ (x ++ ys) ∧
      Derives g close (.rounds m) front (u ++ t :: (v ++ (back ++ rest))) xs ∧
      Derives g close (.matcher m) (u ++ t :: v) (back ++ rest) x ∧
      Derives g close (.rounds m) back rest ys := by
  generalize hw : pre ++ t :: post = w at h
  induction h using rounds_induction generalizing pre with
  | done => simp at hw
  | @round u v rest ts us h hs ih =>
    rcases split_cases hw.symm with ⟨mid, rfl, rfl⟩ | ⟨mid, rfl, rfl⟩
    · exact ⟨[], pre, mid, v, [], ts, us, rfl, rfl, rfl, .done, h, hs⟩
    · obtain ⟨front, u', v', back, xs, x, ys, rfl, rfl, rfl, hfront, hx, hback⟩ := ih rfl
      refine ⟨u ++ front, u', v', back, ts ++ xs, x, ys, by simp, rfl, by simp, ?_, hx, hback⟩
      exact .round (by simpa using h) hfront

/-- Before a token that is not the end of the text a part derives what it derives before any other
tokens. -/
theorem Derives.before_token (h : Derives .builtin close p taken (pre ++ t :: post ++ rest) ts)
    (hp : p.Placed) (hapt : Description.builtin_orderly.Apt ends p)
    (hpre : ∀ s ∈ pre ++ [t], s.isEof = false) (rest' : List Token) :
    ∃ us, Derives .builtin close p taken rest' us ∧ Tree.AllRefine ts us := by
  have hends : EndsWith (pre ++ t :: post ++ rest) rest' := by
    intro e he heof
    have hmem : e ∈ pre ++ [t] := by
      cases pre with
      | nil => simpa using he.symm
      | cons s pre => simp_all
    rw [hpre e hmem] at heof
    cases heof
  obtain ⟨us, hus, halike⟩ := h.before close hp hapt hends
  exact ⟨us, hus, halike.refine⟩

section Pairs

variable {a b : Part} {u v mid : List Token} {vs : List Tree}

/-- A whole is two parts one after the other: it derives what they derive, and it means something
only if they do. -/
structure Pairs (close : Nat) (a b p : Part) (rest : List Token) (ts us vs : List Tree) :
    Prop where
  derives : ∀ u v ts' us', Derives .builtin close a.whole u (v ++ rest) ts' →
    Derives .builtin close b.whole v rest us' → Tree.AllRefine ts ts' → Tree.AllRefine us us' →
    ∃ vs', Derives .builtin close p.whole (u ++ v) rest vs' ∧ Tree.AllRefine vs vs'
  succeed : Tree.Succeed vs → Tree.Succeed (ts ++ us)

/-- A token of the first of two parts. -/
theorem Framed.first (h : Framed close a pre t mid (v ++ rest) ts)
    (hpair : Pairs close a b p rest ts us vs) (hs : Derives .builtin close b.whole v rest us) :
    Framed close p pre t (mid ++ v) rest vs := by
  have hmono : Framed close p ([] ++ pre) t (mid ++ v) rest vs := h.mono
    (fun taken' ts' hts' hrefine => hpair.derives taken' v ts' us hts' hs hrefine (.refl us))
    fun hvs => (Tree.succeed_append (hpair.succeed hvs)).1
  rwa [List.nil_append] at hmono

/-- A token of the second of two parts. -/
theorem Framed.second (h : Framed close b mid t post rest us)
    (hs : Derives .builtin close a u (mid ++ t :: post ++ rest) ts) (hp : a.Placed)
    (hapt : Description.builtin_orderly.Apt ends a) (ha : a.whole = a)
    (hmid : ∀ s ∈ mid ++ [t], s.isEof = false) (hpair : Pairs close a b p rest ts us vs) :
    Framed close p (u ++ mid) t post rest vs := by
  have hin : Framed close b mid t post ([] ++ rest) us := h
  have hmono : Framed close p (u ++ mid) t (post ++ []) rest vs := hin.mono
    (fun taken' us' hus' hrefine => by
      obtain ⟨ts', hts', hrefine'⟩ := hs.before_token hp hapt hmid (taken' ++ rest)
      rw [List.append_nil]
      exact hpair.derives u taken' ts' us' (ha.symm ▸ hts') hus' hrefine' hrefine)
    fun hvs => (Tree.succeed_append (hpair.succeed hvs)).2
  rwa [List.append_nil] at hmono

end Pairs

/-- A part takes a token itself, not by a rule. -/
def Part.Takes (close : Nat) (pre : List Token) (t : Token) (post rest : List Token)
    (ts : List Tree) : Part → Prop
  | .matcher m => pre = [] ∧ post = [] ∧ ts = [.token t] ∧ m.Accepts t
  | .item i => pre = [] ∧ post = [] ∧ ts = [.token t] ∧ i.matcher.Accepts t
  | .items is => ∃ j i us vs, is[j]? = some i ∧ i.matcher.Accepts t ∧
      Derives .builtin close (.items (is.take j)) pre (t :: (post ++ rest)) us ∧
      Derives .builtin close (.items (is.drop (j + 1))) post rest vs ∧ ts = us ++ .token t :: vs
  | .rounds _ | .choice .. => False

/-- A token that an item of an alternative takes is framed by the rule. -/
theorem Part.Takes.framed {r : Rule} {k : Nat} {is : List Item} {alternatives : List (List Item)}
    (h : (Part.items is).Takes close pre t post rest ts)
    (his : (Notation.alternatives r)[k]? = some is)
    (hfollows : Description.builtin_predictive.Follows (.rule r) rest) :
    Framed close (.choice r k alternatives) pre t post rest
      [.node (.over close r k (pre ++ t :: post) rest) ts] := by
  obtain ⟨j, i, us, vs, hi, ht, hus, hvs, rfl⟩ := h
  refine .mk (List.nil_append pre).symm (List.append_nil post).symm his hi ht hfollows hus hvs
    ?_ id
  intro w ws hw hrefine
  exact ⟨ws, by simpa [Part.whole] using hw, hrefine⟩

/-- A rule derives what the items of an alternative derive. -/
theorem Derives.alternative {r : Rule} {k : Nat} {is : List Item}
    (his : (Notation.alternatives r)[k]? = some is)
    (h : Derives .builtin close (.items is) taken rest ts) :
    Derives .builtin close (.matcher (.rule r)) taken rest
      [.node (.over close r k taken rest) ts] := by
  cases hr : builtinRules.alternatives? r with
  | none => simp [Notation.alternatives, hr] at his
  | some all =>
    rw [Notation.alternatives, hr] at his
    exact .rule hr (choice_iff.mpr ⟨k, is, ts, his, h, by rw [Nat.zero_add]⟩)

/-- What a rule derives is what the items of one of its alternatives derive. -/
theorem Derives.exists_alternative {r : Rule}
    (h : Derives .builtin close (.matcher (.rule r)) taken rest ts) :
    ∃ k is us, (Notation.alternatives r)[k]? = some is ∧
      Derives .builtin close (.items is) taken rest us ∧
      ts = [.node (.over close r k taken rest) us] := by
  obtain ⟨alternatives, hr, hchoice⟩ := rule_iff.mp h
  obtain ⟨k, is, us, hk, hus, rfl⟩ := choice_iff.mp hchoice
  refine ⟨k, is, us, ?_, hus, by rw [Nat.zero_add]⟩
  rw [Notation.alternatives, show builtinRules.alternatives? r = some alternatives from hr]
  exact hk

/-- Some of the alternatives of a rule derive what the rule derives. -/
theorem Derives.whole (h : Derives .builtin close p taken rest ts) (hp : p.Placed) :
    Derives .builtin close p.whole taken rest ts := by
  cases p with
  | choice r n alternatives =>
    obtain ⟨k, is, us, hk, hus, rfl⟩ := choice_iff.mp h
    have his : (Notation.alternatives r)[n + k]? = some is := by
      rw [← List.getElem?_drop, Notation.alternatives, hp, hk]
    exact hus.alternative his
  | _ => exact h

/-- Each token that a part derives is taken by the part itself or stands in what a rule derives. -/
theorem Derives.exists_frame (h : Derives .builtin close p taken rest ts) (hp : p.Placed)
    (hapt : Description.builtin_orderly.Apt ends p) (honce : p.Once)
    (hprec : Description.builtin_predictive.Precedes close p rest)
    (htaken : taken = pre ++ t :: post) :
    p.Takes close pre t post rest ts ∨ Framed close p pre t post rest ts := by
  induction h generalizing ends pre post with
  | @leaf m w t' rest hw ht' =>
    obtain ⟨rfl, htail⟩ : pre = [] ∧ t' :: [] = t :: post := by
      cases pre with
      | nil => exact ⟨rfl, htaken⟩
      | cons s pre => simp at htaken
    obtain ⟨rfl, rfl⟩ := List.cons_eq_cons.mp htail
    exact .inl ⟨rfl, rfl, rfl, w, hw, ht'⟩
  | @rule r alternatives taken rest ts hr h ih =>
    rcases ih (Part.placed_rule hr) (Orderly.apt_rule hapt hr).1 (Notation.once_alternatives hr)
      (Predictive.precedes_choice hprec hr) htaken with htakes | hframe
    · exact htakes.elim
    · exact .inr (hframe.same (fun taken' ts' hts' hrefine => ⟨ts', hts', hrefine⟩) id)
  | @here r k is alternatives taken rest ts h ih =>
    obtain ⟨hguarded, hafter⟩ := hprec
    have hfollows : Description.builtin_predictive.Follows (.rule r) rest := by
      rintro r' hr'
      obtain rfl := Matcher.rule.inj hr'
      exact hafter
    rcases ih trivial (hapt is List.mem_cons_self) (honce is List.mem_cons_self)
      ⟨_, hguarded is List.mem_cons_self, hafter⟩ htaken with htakes | hframe
    · subst htaken
      exact .inr (htakes.framed hp.getElem? hfollows)
    · refine .inr (hframe.same (fun taken' ts' hts' hrefine => ?_) Tree.Succeed.node)
      exact ⟨_, (Derives.here hts').whole hp, hrefine.node rfl rfl⟩
  | @later r k is alternatives taken rest ts h ih =>
    obtain ⟨hguarded, hafter⟩ := hprec
    rcases ih hp.later (fun js hjs => hapt js (List.mem_cons_of_mem _ hjs))
      (fun js hjs => honce js (List.mem_cons_of_mem _ hjs))
      ⟨fun js hjs => hguarded js (List.mem_cons_of_mem _ hjs), hafter⟩ htaken with htakes | hframe
    · exact htakes.elim
    · exact .inr (hframe.same (fun taken' ts' hts' hrefine => ⟨ts', hts', hrefine⟩) id)
  | done => simp at htaken
  | @round m u v rest ts us h hs ih ihs =>
    have hpair : Pairs close (.matcher m) (.rounds m) (.rounds m) rest ts us (ts ++ us) :=
      ⟨fun _ _ _ _ hts' hus' hrefine hrefine' => ⟨_, .round hts' hus', hrefine.append hrefine'⟩, id⟩
    rcases split_cases htaken with ⟨mid, rfl, rfl⟩ | ⟨mid, rfl, rfl⟩
    · rcases ih trivial hapt trivial (Predictive.precedes_round hprec hs) rfl with htakes | hframe
      · exact absurd htakes.2.2.2 (Matcher.not_accepts honce)
      · exact .inr (hframe.first hpair hs)
    · rcases ihs trivial hapt honce hprec rfl with htakes | hframe
      · exact htakes.elim
      · exact .inr (hframe.second h trivial hapt rfl (hs.isEof_of_split hapt) hpair)
  | one h ih =>
    rcases ih trivial hapt trivial (Predictive.precedes_one hprec) htaken with htakes | hframe
    · exact .inl htakes
    · exact .inr (hframe.same (fun taken' ts' hts' hrefine => ⟨ts', .one hts', hrefine⟩) id)
  | present h ih =>
    rcases ih trivial hapt trivial (Predictive.precedes_present hprec) htaken with htakes | hframe
    · exact .inl htakes
    · exact .inr (hframe.same (fun taken' ts' hts' hrefine => ⟨ts', .present hts', hrefine⟩) id)
  | absent => simp at htaken
  | @star m taken rest ts h ih =>
    have hrule : m.wanted? = none := by simpa [Part.Once, Item.once] using honce
    rcases ih trivial hapt hrule hprec htaken with htakes | hframe
    · exact htakes.elim
    · exact .inr (hframe.same (fun taken' ts' hts' hrefine => ⟨_, .star hts', hrefine.repeated⟩)
        Tree.Succeed.repeated)
  | @plus m u v rest ts us h hs ih ihs =>
    have hrule : m.wanted? = none := by simpa [Part.Once, Item.once] using honce
    have hpair : Pairs close (.matcher m) (.rounds m) (.item ⟨m, .plus⟩) rest ts us
        [.repeated (ts ++ us)] :=
      ⟨fun _ _ _ _ hts' hus' hrefine hrefine' =>
        ⟨_, .plus hts' hus', (hrefine.append hrefine').repeated⟩, Tree.Succeed.repeated⟩
    rcases split_cases htaken with ⟨mid, rfl, rfl⟩ | ⟨mid, rfl, rfl⟩
    · rcases ih trivial hapt trivial (Predictive.precedes_round hprec hs) rfl with htakes | hframe
      · exact absurd htakes.2.2.2 (Matcher.not_accepts hrule)
      · exact .inr (hframe.first hpair hs)
    · rcases ihs trivial hapt hrule hprec rfl with htakes | hframe
      · exact htakes.elim
      · exact .inr (hframe.second h trivial hapt rfl (hs.isEof_of_split hapt) hpair)
  | peek h ih => simp at htaken
  | nil => simp at htaken
  | @cons i is u v rest ts us h hs ih ihs =>
    obtain ⟨haptItem, -, haptItems⟩ := Orderly.apt_cons hapt
    obtain ⟨hi, his⟩ := List.forall_mem_cons.mp honce
    have hpair : Pairs close (.item i) (.items is) (.items (i :: is)) rest ts us (ts ++ us) :=
      ⟨fun _ _ _ _ hts' hus' hrefine hrefine' => ⟨_, .cons hts' hus', hrefine.append hrefine'⟩, id⟩
    rcases split_cases htaken with ⟨mid, rfl, rfl⟩ | ⟨mid, rfl, rfl⟩
    · rcases ih trivial haptItem hi (Predictive.precedes_item hprec hs) rfl with htakes | hframe
      · obtain ⟨rfl, rfl, rfl, ht⟩ := htakes
        exact .inl ⟨0, i, [], us, rfl, ht, .nil, hs, rfl⟩
      · exact .inr (hframe.first hpair hs)
    · rcases ihs trivial haptItems his (Predictive.precedes_items hprec) rfl with htakes | hframe
      · obtain ⟨j, i', vs, ws, hj, ht, hvs, hws, rfl⟩ := htakes
        rw [List.append_assoc] at h
        exact .inl ⟨j + 1, i', ts ++ vs, ws, hj, ht, .cons h hvs, hws, (List.append_assoc ..).symm⟩
      · exact .inr (hframe.second h trivial haptItem rfl (hs.isEof_of_split haptItems) hpair)

/-- Each token of some blocks before the end of the text stands in what a rule derives. -/
theorem Derives.framed {e : Token}
    (h : Derives .builtin close (.rounds (.rule .block)) (pre ++ t :: post) (e :: rest) ts)
    (he : e.isEof = true) :
    Framed close (.rounds (.rule .block)) pre t post (e :: rest) ts := by
  have hend : Derives .builtin close (.items [.token .eof]) [e] rest [.token e] :=
    .cons (u := [e]) (v := []) (.one (.leaf rfl (by rw [Wanted.accepts_eof, he]))) .nil
  have hguarded : Description.builtin.guarded Notation.idle Notation.follow [[]]
      [(Item.rule .block).times .star, .token .eof] = true :=
    Description.builtin_predictive.guarded .grammar _ rfl _ List.mem_cons_self
  have hprec : Description.builtin_predictive.Precedes close (.rounds (.rule .block))
      (e :: rest) :=
    ⟨[[]], [.token .eof], hguarded, Predictive.guarded_tail hguarded, [e], rest, _, rfl, hend,
      begins_nil_word rest⟩
  exact (h.exists_frame trivial apt_blocks rfl hprec rfl).resolve_left id

end GrammarText
