import GrammarText.Proofs.Parsing.Misses

/-!
# Continuations: what was asked for could have come next

In an orderly description every rule can be met, only the start rule takes the end of the text, and
a peek asks for that end, at places after which nothing has to come any more.  So whatever a trace
asks for, it asks for after tokens that lead there: had it come, the text could have gone on to its
end (`Trace.sound`).  And a peek that finds what it asks for has found the end of a text that is
derived as a whole.
-/

namespace GrammarText

/-! ## What can be met -/

/-- A token that is what was asked for. -/
def Wanted.sample : Wanted → Token
  | kind k => ⟨.ofKind k "", 0, 0⟩
  | word w => ⟨.reserved w, 0, 0⟩

@[simp] theorem Wanted.accepts_sample (w : Wanted) : w.accepts w.sample = true := by
  cases w <;> simp [accepts, sample, Token.kind]

/-- Whether an item can be met in front of any tokens, given which rules can be. -/
def Item.fruitful (fruit : Rule → Bool) (i : Item) : Bool :=
  match i.quantifier, i.matcher with
  | .one, .rule r | .plus, .rule r => fruit r
  | .one, _ | .plus, _ | .optional, _ | .star, _ => true
  | .peek, _ => false

/-- Whether a rule can be met in front of any tokens, by calls at most so deep. -/
def Description.fruitful (g : Description) : Nat → Rule → Bool
  | 0, _ => false
  | depth + 1, r => ((g.rules.alternatives? r).getD []).any fun is =>
      is.all (·.fruitful (g.fruitful depth))

/-- Whether a rule may derive nothing before the end of the text. -/
def Description.shuts (g : Description) (r : Rule) : Bool :=
  ((g.rules.alternatives? r).getD []).any fun is => is = [(Item.token .eof).times .peek]

def Item.shuts (g : Description) (i : Item) : Bool :=
  match i.quantifier, i.matcher with
  | .optional, _ | .star, _ => true
  | .one, .rule r => g.shuts r
  | _, _ => false

/-- Tokens that a part derives in front of any others. -/
def Part.Bears (g : Description) (p : Part) (u : List Token) : Prop :=
  ∀ close rest, ∃ ts, Derives g close p u rest ts

namespace Part

variable {g : Description}

theorem exists_bears_matcher {fruit : Rule → Bool}
    (hf : ∀ r, fruit r = true → ∃ u, (matcher (.rule r)).Bears g u) {m : Matcher}
    (h : ∀ r, m = .rule r → fruit r = true) : ∃ u, (matcher m).Bears g u := by
  cases m with
  | token k => exact ⟨[(Wanted.kind k).sample], fun _ _ => ⟨_, .leaf rfl (by simp)⟩⟩
  | word w => exact ⟨[(Wanted.word w).sample], fun _ _ => ⟨_, .leaf rfl (by simp)⟩⟩
  | rule r => exact hf r (h r rfl)

theorem exists_bears_item {fruit : Rule → Bool}
    (hf : ∀ r, fruit r = true → ∃ u, (matcher (.rule r)).Bears g u) {i : Item}
    (h : i.fruitful fruit = true) : ∃ u, (item i).Bears g u := by
  obtain ⟨m, q⟩ := i
  cases q with
  | one =>
    obtain ⟨u, hu⟩ := exists_bears_matcher hf (m := m) (by rintro r rfl; exact h)
    refine ⟨u, fun close rest => ?_⟩
    obtain ⟨ts, hd⟩ := hu close rest
    exact ⟨ts, .one hd⟩
  | plus =>
    obtain ⟨u, hu⟩ := exists_bears_matcher hf (m := m) (by rintro r rfl; exact h)
    refine ⟨u, fun close rest => ?_⟩
    obtain ⟨ts, hd⟩ := hu close rest
    exact ⟨_, by simpa using Derives.plus (v := []) hd .done⟩
  | optional => exact ⟨[], fun _ _ => ⟨_, .absent⟩⟩
  | star => exact ⟨[], fun _ _ => ⟨_, .star .done⟩⟩
  | peek => cases h

theorem exists_bears_items {fruit : Rule → Bool}
    (hf : ∀ r, fruit r = true → ∃ u, (matcher (.rule r)).Bears g u) {is : List Item}
    (h : is.all (·.fruitful fruit) = true) : ∃ u, (items is).Bears g u := by
  induction is with
  | nil => exact ⟨[], fun _ _ => ⟨_, .nil⟩⟩
  | cons i is ih =>
    rw [List.all_cons, Bool.and_eq_true] at h
    obtain ⟨u, hu⟩ := exists_bears_item hf h.1
    obtain ⟨v, hv⟩ := ih h.2
    refine ⟨u ++ v, fun close rest => ?_⟩
    obtain ⟨us, hu⟩ := hu close (v ++ rest)
    obtain ⟨vs, hv⟩ := hv close rest
    exact ⟨us ++ vs, .cons hu hv⟩

theorem exists_bears_rule {depth : Nat} {r : Rule} (h : g.fruitful depth r = true) :
    ∃ u, (matcher (.rule r)).Bears g u := by
  induction depth generalizing r with
  | zero => cases h
  | succ depth ih =>
    obtain ⟨is, his, hf⟩ := List.any_eq_true.mp h
    cases hr : g.rules.alternatives? r with
    | none => simp [hr] at his
    | some alternatives =>
      obtain ⟨u, hu⟩ := exists_bears_items (fun r => ih) hf
      obtain ⟨n, hn⟩ := List.mem_iff_getElem?.mp (by simpa [hr] using his)
      refine ⟨u, fun close rest => ?_⟩
      obtain ⟨ts, hd⟩ := hu close rest
      exact ⟨_, .rule hr (Derives.choice_iff.mpr ⟨n, is, ts, hn, hd, rfl⟩)⟩

end Part

/-- A peek for the end of the text finds it. -/
theorem Derives.peek_eof {g : Description} {e : Token} (he : e.isEof = true) (close : Nat) :
    Derives g close (.item ((Item.token .eof).times .peek)) [] [e] [] := by
  rw [← Wanted.accepts_eof] at he
  have hleaf : Derives g close (.matcher (.token .eof)) [e] [] [.token e] := .leaf rfl he
  exact Derives.peek_iff.mpr ⟨rfl, rfl, [e], [], _, rfl, hleaf⟩

/-- Items that may derive nothing before the end of the text do so. -/
theorem Derives.items_shut {g : Description} {is : List Item} (h : is.all (·.shuts g) = true)
    {e : Token} (he : e.isEof = true) (close : Nat) :
    ∃ ts, Derives g close (.items is) [] [e] ts := by
  induction is with
  | nil => exact ⟨[], .nil⟩
  | cons i is ih =>
    rw [List.all_cons, Bool.and_eq_true] at h
    obtain ⟨us, hus⟩ := ih h.2
    suffices hi : ∃ ts, Derives g close (.item i) [] ([] ++ [e]) ts by
      obtain ⟨ts, hts⟩ := hi
      exact ⟨ts ++ us, .cons hts hus⟩
    obtain ⟨m, q⟩ := i
    cases q with
    | optional => exact ⟨_, .absent⟩
    | star => exact ⟨_, .star .done⟩
    | one =>
      cases m with
      | token k => cases h.1
      | word w => cases h.1
      | rule r =>
        obtain ⟨js, hjs, hpeek⟩ := List.any_eq_true.mp h.1
        obtain rfl := of_decide_eq_true hpeek
        cases hr : g.rules.alternatives? r with
        | none => simp [hr] at hjs
        | some alternatives =>
          obtain ⟨n, hn⟩ := List.mem_iff_getElem?.mp (by simpa [hr] using hjs)
          have hitems := Derives.cons (g := g) (u := []) (v := []) (.peek_eof he close) .nil
          exact ⟨_, .one (.rule hr (Derives.choice_iff.mpr ⟨n, _, _, hn, hitems, rfl⟩))⟩
    | plus | peek => cases m <;> cases h.1

/-! ## Orderly descriptions -/

/-- Whether a matcher asks for something that may come inside a text, where `ends` says that the
text may end after it.  Some rules, those of `closing`, may be called only there. -/
def Matcher.apt (root : Rule) (closing : Rule → Bool) (ends : Bool) : Matcher → Bool
  | .token k => k ≠ .eof && k ≠ .reserved
  | .word _ => true
  | .rule r => r ≠ root && (!closing r || ends)

/-- An apt matcher asks neither for the end of the text nor for reserved words as a class. -/
theorem Matcher.wanted_of_apt {root : Rule} {closing : Rule → Bool} {ends : Bool} {m : Matcher}
    {w : Wanted} (h : m.apt root closing ends = true) (hw : m.wanted? = some w) :
    w ≠ .kind .reserved ∧ ∀ t : Token, w.accepts t = true → t.isEof = false := by
  cases m with
  | token k =>
    cases hw
    simp only [apt, Bool.and_eq_true, decide_eq_true_eq] at h
    refine ⟨by simpa using h.2, fun t ht => ?_⟩
    rw [← Wanted.accepts_eof]
    simp_all [Wanted.accepts]
  | word w =>
    cases hw
    refine ⟨by simp, fun t ht => ?_⟩
    rw [← Wanted.accepts_eof]
    simp_all [Wanted.accepts, Token.kind, Lexeme.kind]
  | rule r => cases hw

/-- Whether an item is apt: a peek has to ask for the end of the text where the text may end. -/
def Item.apt (root : Rule) (closing : Rule → Bool) (ends : Bool) (i : Item) : Bool :=
  match i.quantifier with
  | .peek => i.matcher = .token .eof && ends
  | _ => i.matcher.apt root closing ends

/-- Whether items are apt one after another, with items after each that can be met. -/
def Description.apt (g : Description) (closing : Rule → Bool) (ends : Bool) : List Item → Bool
  | [] => true
  | i :: is =>
    i.apt g.start closing (ends && is.all (·.shuts g)) &&
      is.all (·.fruitful (g.fruitful g.rules.length))
      && g.apt closing ends is

/-- A description in which a text is taken to its end by the start rule alone, and other rules look
for that end only where nothing more has to come. -/
structure Orderly (g : Description) where
  /-- The rules that may look for the end of the text. -/
  closing : Rule → Bool
  /-- What a text is but for its end. -/
  body : Item
  total : g.Total
  alternatives_start : g.rules.alternatives? g.start = some [[body, .token .eof]]
  apt_body : body.apt g.start closing true = true
  apt : ∀ r alternatives, r ≠ g.start → g.rules.alternatives? r = some alternatives →
    ∀ is ∈ alternatives, g.apt closing (closing r) is = true

namespace Orderly

variable {g : Description} {close : Nat} {p : Part} {ends : Bool}

def Apt (O : Orderly g) (ends : Bool) : Part → Prop
  | .matcher m | .rounds m => m.apt g.start O.closing ends = true
  | .item i => i.apt g.start O.closing ends = true
  | .items is => g.apt O.closing ends is = true
  | .choice _ _ alternatives => ∀ is ∈ alternatives, g.apt O.closing ends is = true

instance (O : Orderly g) (ends : Bool) : (p : Part) → Decidable (O.Apt ends p)
  | .matcher m | .rounds m => inferInstanceAs (Decidable (m.apt g.start O.closing ends = true))
  | .item i => inferInstanceAs (Decidable (i.apt g.start O.closing ends = true))
  | .items is => inferInstanceAs (Decidable (g.apt O.closing ends is = true))
  | .choice _ _ alternatives =>
    inferInstanceAs (Decidable (∀ is ∈ alternatives, g.apt O.closing ends is = true))

section Apt

variable {O : Orderly g} {m : Matcher} {i : Item} {is : List Item} {r : Rule}
  {alternatives : List (List Item)}

/-- The alternatives of a rule that is called are apt, and where they need the text to end, it may
end. -/
theorem apt_rule (h : O.Apt ends (.matcher (.rule r)))
    (hr : g.rules.alternatives? r = some alternatives) :
    O.Apt (O.closing r) (.choice r 0 alternatives) ∧ (O.closing r = true → ends = true) := by
  simp only [Apt, Matcher.apt, Bool.and_eq_true, Bool.or_eq_true, Bool.not_eq_true',
    decide_eq_true_eq] at h
  refine ⟨O.apt r alternatives h.1 hr, fun hc => ?_⟩
  rcases h.2 with hn | he
  · simp [hc] at hn
  · exact he

theorem apt_peek (h : O.Apt ends (.item ⟨m, .peek⟩)) : m = .token .eof ∧ ends = true := by
  simpa [Apt, Item.apt] using h

theorem apt_cons (h : O.Apt ends (.items (i :: is))) :
    O.Apt (ends && is.all (·.shuts g)) (.item i) ∧ (∃ u, (Part.items is).Bears g u) ∧
      O.Apt ends (.items is) := by
  simp only [Apt, Description.apt, Bool.and_eq_true] at h
  exact ⟨h.1.1, Part.exists_bears_items (fun r => Part.exists_bears_rule) h.1.2, h.2⟩

end Apt

/-- Inside a text the end of the text is not taken. -/
theorem isEof_of_derives (O : Orderly g) {taken rest : List Token} {ts : List Tree}
    (h : Derives g close p taken rest ts) (hp : O.Apt ends p) :
    ∀ t ∈ taken, t.isEof = false := by
  induction h generalizing ends with
  | leaf hw ht =>
    rw [List.forall_mem_singleton]
    exact (Matcher.wanted_of_apt hp hw).2 _ ht
  | rule hr h ih => exact ih (apt_rule hp hr).1
  | here h ih => exact ih (hp _ (by simp))
  | later h ih => exact ih fun is his => hp is (by simp [his])
  | done | absent | peek | nil => simp
  | round h hs ih ihs =>
    rw [List.forall_mem_append]
    exact ⟨ih hp, ihs hp⟩
  | one h ih => exact ih hp
  | present h ih => exact ih hp
  | star h ih => exact ih hp
  | plus h hs ih ihs =>
    rw [List.forall_mem_append]
    exact ⟨ih hp, ihs hp⟩
  | cons h hs ih ihs =>
    rw [List.forall_mem_append]
    exact ⟨ih (apt_cons hp).1, ihs (apt_cons hp).2.2⟩

/-- The start rule derives a body and the end of the text. -/
theorem start_iff (O : Orderly g) {taken rest : List Token} {ts : List Tree} :
    Derives g close (.matcher (.rule g.start)) taken rest ts ↔
      ∃ u e us, taken = u ++ [e] ∧ e.isEof = true ∧
        ts = [.node (.over close g.start 0 taken rest) (us ++ [.token e])] ∧
        Derives g close (.item O.body) u (e :: rest) us := by
  constructor
  · intro h
    obtain ⟨alternatives, hr, hc⟩ := Derives.rule_iff.mp h
    obtain rfl := Option.some.inj (O.alternatives_start.symm.trans hr)
    obtain ⟨n, is, us, hn, hd, rfl⟩ := Derives.choice_iff.mp hc
    obtain ⟨rfl, rfl⟩ : n = 0 ∧ is = [O.body, .token .eof] := by
      cases n <;> simp_all
    obtain ⟨u, v, vs, ws, rfl, rfl, hu, hv⟩ := Derives.cons_iff.mp hd
    obtain ⟨v, w, xs, ys, rfl, rfl, he, hw⟩ := Derives.cons_iff.mp hv
    obtain ⟨e, hacc, rfl, rfl⟩ := (Derives.token_iff rfl).mp (Derives.one_iff.mp he)
    obtain ⟨rfl, rfl⟩ := Derives.nil_iff.mp hw
    rw [Wanted.accepts_eof] at hacc
    exact ⟨u, e, vs, by simp, hacc, by simp, hu⟩
  · rintro ⟨u, e, us, rfl, he, rfl, hd⟩
    rw [← Wanted.accepts_eof] at he
    have hend : Derives g close (.item (.token .eof)) [e] ([] ++ rest) [.token e] :=
      .one (.leaf rfl he)
    exact .rule O.alternatives_start (.here (.cons hd (.cons hend .nil)))

end Orderly

/-! ## Where a part stands in a text -/

def Description.Whole (g : Description) (close : Nat) (tokens : List Token) : Prop :=
  ∃ ts, Derives g close (.matcher (.rule g.start)) tokens [] ts

def Part.entered : Part → Part
  | .rounds m => .item ⟨m, .plus⟩
  | p => p

/-- After the tokens `pre` a part leads to the end of a text, by what may come `after` it. -/
structure Leads (g : Description) (pre : List Token) (p : Part) (ends : Bool)
    (after : Nat → List Token → Prop) : Prop where
  whole : ∀ close u v ts, Derives g close p.entered u v ts → after close v →
    g.Whole close (pre ++ (u ++ v))
  fruitful : ∃ v, ∀ close, after close v
  /-- Where the text may end after the part, its end may come. -/
  ends : ends = true → ∀ e : Token, e.isEof = true → ∀ close, after close [e]

/-- What may come after an item that has some part after it. -/
def Part.before (g : Description) (p : Part) (after : Nat → List Token → Prop) (close : Nat)
    (w : List Token) : Prop :=
  ∃ u v ts, w = u ++ v ∧ Derives g close p u v ts ∧ after close v

/-- Before the last token of a whole text there is no end of a text. -/
theorem Orderly.isEof_of_whole {g : Description} (O : Orderly g) {close : Nat}
    {pre more : List Token} {t : Token} (h : g.Whole close (pre ++ t :: more)) :
    ∀ s ∈ pre, s.isEof = false := by
  obtain ⟨ts, hd⟩ := h
  obtain ⟨u, e, us, htok, -, -, hu⟩ := O.start_iff.mp hd
  have hfree : ∀ s ∈ u, s.isEof = false := O.isEof_of_derives hu O.apt_body
  intro s hs
  refine hfree s ?_
  -- The last token is the one that the start rule takes, and the body has all before it.
  have hlast : u = pre ++ (t :: more).dropLast := by
    rw [← List.dropLast_append_of_ne_nil (List.cons_ne_nil t more), htok, List.dropLast_concat]
  rw [hlast]
  exact List.mem_append_left _ hs

namespace Leads

variable {g : Description} {pre taken : List Token} {ends : Bool} {m : Matcher} {i : Item}
  {is : List Item} {r : Rule} {n : Nat} {alternatives : List (List Item)}
  {after : Nat → List Token → Prop}

theorem rule (h : Leads g pre (.matcher (.rule r)) ends after)
    (hr : g.rules.alternatives? r = some alternatives) {ends' : Bool}
    (he : ends' = true → ends = true) : Leads g pre (.choice r 0 alternatives) ends' after where
  whole close u v ts hd := h.whole close u v ts (.rule hr hd)
  fruitful := h.fruitful
  ends he' := h.ends (he he')

theorem here (h : Leads g pre (.choice r n (is :: alternatives)) ends after) :
    Leads g pre (.items is) ends after where
  whole close u v _ hd := h.whole close u v _ (.here hd)
  fruitful := h.fruitful
  ends := h.ends

theorem later (h : Leads g pre (.choice r n (is :: alternatives)) ends after) :
    Leads g pre (.choice r (n + 1) alternatives) ends after where
  whole close u v ts hd := h.whole close u v ts (.later hd)
  fruitful := h.fruitful
  ends := h.ends

theorem one (h : Leads g pre (.item ⟨m, .one⟩) ends after) :
    Leads g pre (.matcher m) ends after where
  whole close u v ts hd := h.whole close u v ts (.one hd)
  fruitful := h.fruitful
  ends := h.ends

theorem optional (h : Leads g pre (.item ⟨m, .optional⟩) ends after) :
    Leads g pre (.matcher m) ends after where
  whole close u v ts hd := h.whole close u v ts (.present hd)
  fruitful := h.fruitful
  ends := h.ends

theorem star (h : Leads g pre (.item ⟨m, .star⟩) ends after) :
    Leads g pre (.rounds m) ends after where
  whole close u v ts hd := by
    obtain ⟨x, y, us, vs, rfl, rfl, hx, hy⟩ := Derives.plus_iff.mp hd
    exact h.whole close (x ++ y) v _ (.star (.round hx hy))
  fruitful := h.fruitful
  ends := h.ends

theorem plus (h : Leads g pre (.item ⟨m, .plus⟩) ends after) :
    Leads g pre (.rounds m) ends after where
  whole := h.whole
  fruitful := h.fruitful
  ends := h.ends

/-- After one round there may be more. -/
theorem round (h : Leads g pre (.rounds m) ends after) :
    Leads g pre (.matcher m) ends ((Part.rounds m).before g after) where
  whole close u v ts hd ha := by
    obtain ⟨x, y, us, rfl, hx, hy⟩ := ha
    have := h.whole close (u ++ x) y _ (.plus hd hx) hy
    simpa using this
  fruitful := by
    obtain ⟨v, hv⟩ := h.fruitful
    exact ⟨v, fun close => ⟨[], v, [], rfl, .done, hv close⟩⟩
  ends he e hend close := ⟨[], [e], [], rfl, .done, h.ends he e hend close⟩

theorem next_round (h : Leads g pre (.rounds m) ends after)
    (ht : (Part.matcher m).Bears g taken) : Leads g (pre ++ taken) (.rounds m) ends after where
  whole close u v ts hd ha := by
    obtain ⟨x, y, us, vs, rfl, -, hx, hy⟩ := Derives.plus_iff.mp hd
    obtain ⟨ws, hw⟩ := ht close (x ++ y ++ v)
    have := h.whole close (taken ++ (x ++ y)) v _ (.plus hw (.round hx hy)) ha
    simpa using this
  fruitful := h.fruitful
  ends := h.ends

/-- Where the end of the text is asked for by a peek it ends a text. -/
theorem peek {e : Token} (h : Leads g pre (.item ((Item.token .eof).times .peek)) true after)
    (he : e.isEof = true) (close : Nat) : g.Whole close (pre ++ [e]) :=
  h.whole close [] [e] [] (Derives.peek_eof he close) (h.ends rfl e he close)

/-- After an item the other items come. -/
theorem cons (h : Leads g pre (.items (i :: is)) ends after)
    (hb : ∃ u, (Part.items is).Bears g u) :
    Leads g pre (.item i) (ends && is.all (·.shuts g)) ((Part.items is).before g after) where
  whole close u v ts hd ha := by
    obtain ⟨x, y, us, rfl, hx, hy⟩ := ha
    have := h.whole close (u ++ x) y _ (.cons hd hx) hy
    simpa using this
  fruitful := by
    obtain ⟨u, hu⟩ := hb
    obtain ⟨v, hv⟩ := h.fruitful
    refine ⟨u ++ v, fun close => ?_⟩
    obtain ⟨ts, hts⟩ := hu close v
    exact ⟨u, v, ts, rfl, hts, hv close⟩
  ends he e hend close := by
    rw [Bool.and_eq_true] at he
    obtain ⟨ts, hts⟩ := Derives.items_shut he.2 hend close
    exact ⟨[], [e], ts, rfl, hts, h.ends he.1 e hend close⟩

theorem next_item (h : Leads g pre (.items (i :: is)) ends after)
    (ht : (Part.item i).Bears g taken) : Leads g (pre ++ taken) (.items is) ends after where
  whole close u v ts hd ha := by
    obtain ⟨ws, hw⟩ := ht close (u ++ v)
    have := h.whole close (taken ++ u) v _ (.cons hw hd) ha
    simpa using this
  fruitful := h.fruitful
  ends := h.ends

end Leads

/-! ## What was asked for could have come -/

/-- What was asked for in vain, at some place in the tokens of a text, would have led on to the end
of a text. -/
structure Miss.Sound (g : Description) (tokens : List Token) (m : Miss) : Prop where
  not_reserved : m.wanted ≠ .kind .reserved
  place : ∃ pre ahead, tokens = pre ++ ahead ∧ m.left = ahead.length ∧
    (∀ t ∈ ahead.head?, m.wanted.accepts t = false) ∧
    ∀ t : Token, m.wanted.accepts t = true → ∃ v, ∀ close, g.Whole close (pre ++ t :: v)

/-- The place of a miss is told by the count of tokens from there on. -/
theorem Miss.Sound.at_place {g : Description} {m : Miss} {pre ahead : List Token}
    (h : m.Sound g (pre ++ ahead)) (hl : m.left = ahead.length) :
    (∀ t ∈ ahead.head?, m.wanted.accepts t = false) ∧
      ∀ t : Token, m.wanted.accepts t = true → ∃ v, ∀ close, g.Whole close (pre ++ t :: v) := by
  obtain ⟨pre', ahead', htok, hl', hhead, hgo⟩ := h.place
  obtain ⟨rfl, rfl⟩ := List.append_inj' htok (hl.symm.trans hl')
  exact ⟨hhead, hgo⟩

namespace Trace

variable {g : Description} {close : Nat} {p : Part} {ahead : List Token} {ms : List Miss}

/-- What is found without the help of a peek is borne by the part. -/
theorem bears {ts : List Tree} {rest : List Token}
    (h : Trace g close False p ahead ms (some (ts, rest))) :
    ∃ taken, ahead = taken ++ rest ∧ p.Bears g taken := by
  obtain ⟨taken, rfl, hd⟩ := h.derives_before rfl
  refine ⟨taken, rfl, fun close' rest' => ?_⟩
  obtain ⟨ts', hd, -⟩ := hd close' rest'
  exact ⟨ts', hd⟩

/-- Over the tokens of a text that is not derived as a whole, a trace of a part that leads to the
end of a text has no peek that finds what it asks for, and all that it asked for could have come. -/
theorem sound (O : Orderly g) {tokens : List Token} (hend : Ended tokens)
    (hno : ¬ g.Whole close tokens) {peeks : Prop}
    {res : Option (List Tree × List Token)} (h : Trace g close peeks p ahead ms res)
    {pre : List Token} {ends : Bool} {after : Nat → List Token → Prop}
    (htok : tokens = pre ++ ahead)
    (hp : O.Apt ends p) (hl : Leads g pre p ends after) :
    Trace g close False p ahead ms res ∧ ∀ m ∈ ms, m.Sound g tokens := by
  induction h generalizing pre ends after with
  | leaf hw ht => exact ⟨.leaf hw ht, by simp⟩
  | @leafMiss m w ahead hw ht =>
    refine ⟨.leafMiss hw ht, ?_⟩
    rw [List.forall_mem_singleton]
    refine ⟨(Matcher.wanted_of_apt hp hw).1, pre, ahead, htok, rfl, ht, fun t hacc => ?_⟩
    obtain ⟨v, hv⟩ := hl.fruitful
    exact ⟨v, fun close => hl.whole close [t] v _ (.leaf hw hacc) (hv close)⟩
  | undefined hr => exact ⟨.undefined hr, by simp⟩
  | rule hr h ih =>
    obtain ⟨hp, he⟩ := Orderly.apt_rule hp hr
    obtain ⟨ht, hms⟩ := ih htok hp (hl.rule hr he)
    exact ⟨.rule hr ht, hms⟩
  | exhausted => exact ⟨.exhausted, by simp⟩
  | here h ih =>
    obtain ⟨ht, hms⟩ := ih htok (hp _ (by simp)) hl.here
    exact ⟨.here ht, hms⟩
  | later h hs ih ihs =>
    obtain ⟨ht, hms⟩ := ih htok (hp _ (by simp)) hl.here
    obtain ⟨hts, hms'⟩ := ihs htok (fun is his => hp is (by simp [his])) hl.later
    exact ⟨.later ht hts, List.forall_mem_append.mpr ⟨hms, hms'⟩⟩
  | done h ih =>
    obtain ⟨ht, hms⟩ := ih htok hp hl.round
    exact ⟨.done ht, hms⟩
  | stall h hlt ih =>
    obtain ⟨ht, hms⟩ := ih htok hp hl.round
    exact ⟨.stall ht hlt, hms⟩
  | round h hlt hs ih ihs =>
    obtain ⟨ht, hms⟩ := ih htok hp hl.round
    -- As no peek has helped, the round can be derived in front of whatever comes instead.
    obtain ⟨taken, rfl, hb⟩ := ht.bears
    obtain ⟨hts, hms'⟩ := ihs (by simpa using htok) hp (hl.next_round hb)
    exact ⟨.round ht hlt hts, List.forall_mem_append.mpr ⟨hms, hms'⟩⟩
  | one h ih =>
    obtain ⟨ht, hms⟩ := ih htok hp hl.one
    exact ⟨.one ht, hms⟩
  | present h ih =>
    obtain ⟨ht, hms⟩ := ih htok hp hl.optional
    exact ⟨.present ht, hms⟩
  | absent h ih =>
    obtain ⟨ht, hms⟩ := ih htok hp hl.optional
    exact ⟨.absent ht, hms⟩
  | star h ih =>
    obtain ⟨ht, hms⟩ := ih htok hp hl.star
    exact ⟨.star ht, hms⟩
  | plus hts h ih =>
    obtain ⟨ht, hms⟩ := ih htok hp hl.plus
    exact ⟨.plus hts ht, hms⟩
  | plusMiss h ih =>
    obtain ⟨ht, hms⟩ := ih htok hp hl.plus
    exact ⟨.plusMiss ht, hms⟩
  | peek hpeek h ih =>
    -- The end of the text has been found where the text may end.
    obtain ⟨rfl, rfl⟩ := Orderly.apt_peek hp
    obtain ⟨taken, rfl, hd⟩ := h.derives rfl
    obtain ⟨e, hacc, rfl, -⟩ := (Derives.token_iff rfl).mp hd
    rw [Wanted.accepts_eof] at hacc
    obtain rfl := hend.eq_nil_of_isEof hacc htok
    subst htok
    exact absurd (hl.peek hacc close) hno
  | peekMiss h ih =>
    obtain ⟨rfl, rfl⟩ := Orderly.apt_peek hp
    cases h with
    | leafMiss hw ht =>
      refine ⟨.peekMiss (.leafMiss hw ht), ?_⟩
      rw [List.forall_mem_singleton]
      cases hw
      refine ⟨by simp, pre, _, htok, rfl, ht, fun e hacc => ⟨[], fun close => ?_⟩⟩
      rw [Wanted.accepts_eof] at hacc
      exact hl.peek hacc close
  | nil => exact ⟨.nil, by simp⟩
  | cons h hs ih ihs =>
    obtain ⟨hp, hb, hps⟩ := Orderly.apt_cons hp
    obtain ⟨ht, hms⟩ := ih htok hp (hl.cons hb)
    obtain ⟨taken, rfl, hb⟩ := ht.bears
    obtain ⟨hts, hms'⟩ := ihs (by simpa using htok) hps (hl.next_item hb)
    exact ⟨.cons ht hts, List.forall_mem_append.mpr ⟨hms, hms'⟩⟩
  | consMiss h ih =>
    obtain ⟨hp, hb, hps⟩ := Orderly.apt_cons hp
    obtain ⟨ht, hms⟩ := ih htok hp (hl.cons hb)
    exact ⟨.consMiss ht, hms⟩
  | consLater h hs ih ihs =>
    obtain ⟨hp, hb, hps⟩ := Orderly.apt_cons hp
    obtain ⟨ht, hms⟩ := ih htok hp (hl.cons hb)
    obtain ⟨taken, rfl, hb⟩ := ht.bears
    obtain ⟨hts, hms'⟩ := ihs (by simpa using htok) hps (hl.next_item hb)
    exact ⟨.consLater ht hts, List.forall_mem_append.mpr ⟨hms, hms'⟩⟩

/-- The same of a trace of a body and the end of the text. -/
theorem sound_body (O : Orderly g) {tokens : List Token} (hend : Ended tokens)
    (hno : ¬ g.Whole close tokens) {peeks : Prop}
    (h : Trace g close peeks (.items [O.body, .token .eof]) tokens ms none) :
    Trace g close False (.items [O.body, .token .eof]) tokens ms none ∧
      ∀ m ∈ ms, m.Sound g tokens := by
  have hl : Leads g [] (.item O.body) true fun _ v => ∃ e : Token, e.isEof = true ∧ v = [e] := by
    refine ⟨?_, ⟨[(Wanted.kind .eof).sample], fun _ => ⟨_, rfl, rfl⟩⟩, fun _ e he _ => ⟨e, he, rfl⟩⟩
    rintro close u v ts hd ⟨e, he, rfl⟩
    exact ⟨_, O.start_iff.mpr ⟨u, e, ts, rfl, he, rfl, hd⟩⟩
  cases h with
  | consMiss h =>
    obtain ⟨ht, hms⟩ := h.sound O hend hno rfl O.apt_body hl
    exact ⟨.consMiss ht, hms⟩
  | consLater h hs =>
    obtain ⟨ht, hms⟩ := h.sound O hend hno rfl O.apt_body hl
    obtain ⟨taken, htok, hb⟩ := ht.bears
    -- What is missed after a body is the end of the text.
    have hend : ∀ t : Token, (Wanted.kind .eof).accepts t = true →
        ∃ v, ∀ close, g.Whole close (taken ++ t :: v) := by
      intro t hacc
      refine ⟨[], fun close => ?_⟩
      obtain ⟨us, hus⟩ := hb close [t]
      rw [Wanted.accepts_eof] at hacc
      exact ⟨_, O.start_iff.mpr ⟨taken, t, us, rfl, hacc, rfl, hus⟩⟩
    cases hs with
    | consMiss hs =>
      cases hs with
      | one hs =>
        cases hs with
        | leafMiss hw hacc =>
          cases hw
          refine ⟨.consLater ht (.consMiss (.one (.leafMiss rfl hacc))), ?_⟩
          rw [List.forall_mem_append, List.forall_mem_singleton]
          exact ⟨hms, by simp, taken, _, htok, rfl, hacc, hend⟩
    | consLater hs hs' => cases hs'

/-- The same of a trace of a whole text. -/
theorem sound_start (O : Orderly g) {tokens : List Token} (hend : Ended tokens)
    (hno : ¬ g.Whole close tokens) {peeks : Prop}
    (h : Trace g close peeks (.matcher (.rule g.start)) tokens ms none) :
    Trace g close False (.matcher (.rule g.start)) tokens ms none ∧
      ∀ m ∈ ms, m.Sound g tokens := by
  cases h with
  | leafMiss hw => cases hw
  | undefined hr => simp [O.alternatives_start] at hr
  | rule hr h =>
    obtain rfl := Option.some.inj (O.alternatives_start.symm.trans hr)
    cases h with
    | later h hs =>
      cases hs
      obtain ⟨ht, hms⟩ := h.sound_body O hend hno
      exact ⟨.rule hr (.later ht .exhausted), by simpa using hms⟩

end Trace
end GrammarText
