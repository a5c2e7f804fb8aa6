import GrammarText.Tree.Parse

/-!
# Derivations: what a description means as an ordinary grammar

A description is read here as a context-free grammar: any alternative of a rule may be taken, an
item may be met as often as its quantifier allows, and a peek asks only that what it names could be
taken next.  `Derives` says which tokens a part of a description stands for, in front of which
others, and by which trees.  Nothing in it is about the order of alternatives or about how long a
repetition goes on.
-/

namespace GrammarText

def Wanted.accepts : Wanted → Token → Bool
  | kind k, t => t.kind = k
  | word w, t => t.lexeme = .reserved w

/-- Only the token for the end of the text is of the class for that end. -/
theorem Wanted.accepts_eof (t : Token) : (kind .eof).accepts t = t.isEof := by
  obtain ⟨lexeme, start, stop⟩ := t
  cases lexeme <;> rfl

/-- A token of a class has the text of that class. -/
theorem Wanted.eq_ofKind_of_accepts {k : Kind} {t : Token} (h : (kind k).accepts t = true) :
    t.lexeme = .ofKind k t.text := by
  obtain rfl : t.kind = k := by simpa [accepts] using h
  exact (Lexeme.ofKind_kind_text t.lexeme).symm

theorem Wanted.eq_reserved_of_accepts {w : Word} {t : Token} (h : (word w).accepts t = true) :
    t.lexeme = .reserved w := of_decide_eq_true h

/-- The last token, and no other, stands for the end of the text. -/
def Ended (tokens : List Token) : Prop :=
  ∃ body e, tokens = body ++ [e] ∧ e.isEof = true ∧ ∀ t ∈ body, t.isEof = false

/-- Nothing stands behind the end of the text. -/
theorem Ended.eq_nil_of_isEof {tokens body rest : List Token} {e : Token} (h : Ended tokens)
    (he : e.isEof = true) (ht : tokens = body ++ e :: rest) : rest = [] := by
  obtain ⟨body', e', rfl, -, hbody⟩ := h
  rcases List.eq_nil_or_concat rest with rfl | ⟨rest, f, rfl⟩
  · rfl
  · have hsplit : body' ++ [e'] = (body ++ e :: rest) ++ [f] := by simpa using ht
    obtain ⟨rfl, -⟩ := List.append_inj' hsplit rfl
    simp [hbody e (by simp)] at he

/-- What a matcher asks of a single token.  A rule asks for no token itself. -/
def Matcher.wanted? : Matcher → Option Wanted
  | .token k => some (.kind k)
  | .word w => some (.word w)
  | .rule _ => none

/-- The node of an alternative that takes some tokens in front of others. -/
def Node.over (close : Nat) (r : Rule) (n : Nat) (taken rest : List Token) : Node :=
  ⟨r, n, startOf close (taken ++ rest), (taken.getLast?.map Token.stop).getD (startOf close rest)⟩

/-- A part of a description from which tokens can be derived. -/
inductive Part where
  /-- What a matcher asks for, once. -/
  | matcher (m : Matcher)
  /-- What a matcher asks for, any number of times. -/
  | rounds (m : Matcher)
  | item (i : Item)
  /-- Items one after another. -/
  | items (is : List Item)
  /-- The alternatives of a rule from the one with a given number on. -/
  | choice (r : Rule) (n : Nat) (alternatives : List (List Item))

/-- What a part asks for itself is of a kind. -/
def Part.All (ok : Matcher → Prop) : Part → Prop
  | matcher m | rounds m => ok m
  | item i => ok i.matcher
  | items is => ∀ i ∈ is, ok i.matcher
  | choice _ _ alternatives => ∀ is ∈ alternatives, ∀ i ∈ is, ok i.matcher

/-- A part derives the tokens `taken` in front of the tokens `rest`, by some trees. -/
inductive Derives (g : Description) (close : Nat) :
    Part → List Token → List Token → List Tree → Prop where
  | leaf {m w t rest} (hw : m.wanted? = some w) (ht : w.accepts t = true) :
      Derives g close (.matcher m) [t] rest [.token t]
  | rule {r alternatives taken rest ts} (hr : g.rules.alternatives? r = some alternatives)
      (h : Derives g close (.choice r 0 alternatives) taken rest ts) :
      Derives g close (.matcher (.rule r)) taken rest ts
  | here {r n is alternatives taken rest ts} (h : Derives g close (.items is) taken rest ts) :
      Derives g close (.choice r n (is :: alternatives)) taken rest
        [.node (.over close r n taken rest) ts]
  | later {r n is alternatives taken rest ts}
      (h : Derives g close (.choice r (n + 1) alternatives) taken rest ts) :
      Derives g close (.choice r n (is :: alternatives)) taken rest ts
  | done {m rest} : Derives g close (.rounds m) [] rest []
  | round {m u v rest ts us} (h : Derives g close (.matcher m) u (v ++ rest) ts)
      (hs : Derives g close (.rounds m) v rest us) :
      Derives g close (.rounds m) (u ++ v) rest (ts ++ us)
  | one {m taken rest ts} (h : Derives g close (.matcher m) taken rest ts) :
      Derives g close (.item ⟨m, .one⟩) taken rest ts
  | present {m taken rest ts} (h : Derives g close (.matcher m) taken rest ts) :
      Derives g close (.item ⟨m, .optional⟩) taken rest ts
  | absent {m rest} : Derives g close (.item ⟨m, .optional⟩) [] rest [.absent]
  | star {m taken rest ts} (h : Derives g close (.rounds m) taken rest ts) :
      Derives g close (.item ⟨m, .star⟩) taken rest [.repeated ts]
  | plus {m u v rest ts us} (h : Derives g close (.matcher m) u (v ++ rest) ts)
      (hs : Derives g close (.rounds m) v rest us) :
      Derives g close (.item ⟨m, .plus⟩) (u ++ v) rest [.repeated (ts ++ us)]
  -- What a peek has found stays in front.
  | peek {m u v ts} (h : Derives g close (.matcher m) u v ts) :
      Derives g close (.item ⟨m, .peek⟩) [] (u ++ v) []
  | nil {rest} : Derives g close (.items []) [] rest []
  | cons {i is u v rest ts us} (h : Derives g close (.item i) u (v ++ rest) ts)
      (hs : Derives g close (.items is) v rest us) :
      Derives g close (.items (i :: is)) (u ++ v) rest (ts ++ us)

namespace Derives

variable {g : Description} {close : Nat} {taken rest : List Token} {ts : List Tree}

/-! ## Reading a derivation back, by the part that it is of -/

theorem matcher_iff {m : Matcher} : Derives g close (.matcher m) taken rest ts ↔
    (∃ w t, m.wanted? = some w ∧ w.accepts t = true ∧ taken = [t] ∧ ts = [.token t]) ∨
    ∃ r alternatives, m = .rule r ∧ g.rules.alternatives? r = some alternatives ∧
      Derives g close (.choice r 0 alternatives) taken rest ts := by
  constructor
  · intro h
    cases h with
    | leaf hw ht => exact .inl ⟨_, _, hw, ht, rfl, rfl⟩
    | rule hr h => exact .inr ⟨_, _, rfl, hr, h⟩
  · rintro (⟨w, t, hw, ht, rfl, rfl⟩ | ⟨r, alternatives, rfl, hr, h⟩)
    · exact .leaf hw ht
    · exact .rule hr h

theorem rule_iff {r : Rule} : Derives g close (.matcher (.rule r)) taken rest ts ↔
    ∃ alternatives, g.rules.alternatives? r = some alternatives ∧
      Derives g close (.choice r 0 alternatives) taken rest ts := by
  rw [matcher_iff]
  simp [Matcher.wanted?]

theorem token_iff {m : Matcher} {w : Wanted} (hw : m.wanted? = some w) :
    Derives g close (.matcher m) taken rest ts ↔
      ∃ t, w.accepts t = true ∧ taken = [t] ∧ ts = [.token t] := by
  cases m <;> simp_all [matcher_iff, Matcher.wanted?]

/-- The alternatives of a rule derive what one of them derives, under a node of its number. -/
theorem choice_iff {r : Rule} {n : Nat} {alternatives : List (List Item)} :
    Derives g close (.choice r n alternatives) taken rest ts ↔
      ∃ i is us, alternatives[i]? = some is ∧ Derives g close (.items is) taken rest us ∧
        ts = [.node (.over close r (n + i) taken rest) us] := by
  induction alternatives generalizing n with
  | nil => simpa using fun h => nomatch h
  | cons js alternatives ih =>
    constructor
    · intro h
      cases h with
      | here h => exact ⟨0, js, _, rfl, h, rfl⟩
      | later h =>
        obtain ⟨i, is, us, hi, hd, rfl⟩ := ih.mp h
        exact ⟨i + 1, is, us, hi, hd, by rw [Nat.add_right_comm, Nat.add_assoc]⟩
    · rintro ⟨i, is, us, hi, h, rfl⟩
      cases i with
      | zero =>
        obtain rfl : js = is := by simpa using hi
        exact .here h
      | succ i =>
        refine .later (ih.mpr ⟨i, is, us, by simpa using hi, h, ?_⟩)
        rw [Nat.add_right_comm, Nat.add_assoc]

theorem nil_iff : Derives g close (.items []) taken rest ts ↔ taken = [] ∧ ts = [] := by
  constructor
  · intro h
    cases h
    exact ⟨rfl, rfl⟩
  · rintro ⟨rfl, rfl⟩
    exact .nil

theorem cons_iff {i : Item} {is : List Item} : Derives g close (.items (i :: is)) taken rest ts ↔
    ∃ u v us vs, taken = u ++ v ∧ ts = us ++ vs ∧ Derives g close (.item i) u (v ++ rest) us ∧
      Derives g close (.items is) v rest vs := by
  constructor
  · intro h
    cases h with
    | cons h hs => exact ⟨_, _, _, _, rfl, rfl, h, hs⟩
  · rintro ⟨u, v, us, vs, rfl, rfl, h, hs⟩
    exact .cons h hs

/-- Items in two groups derive what the groups derive one after the other. -/
theorem append_iff {is js : List Item} : Derives g close (.items (is ++ js)) taken rest ts ↔
    ∃ u v us vs, taken = u ++ v ∧ ts = us ++ vs ∧ Derives g close (.items is) u (v ++ rest) us ∧
      Derives g close (.items js) v rest vs := by
  induction is generalizing taken ts with
  | nil =>
    simp only [nil_iff, List.nil_append]
    constructor
    · intro h
      exact ⟨[], taken, [], ts, rfl, rfl, ⟨rfl, rfl⟩, h⟩
    · rintro ⟨u, v, us, vs, rfl, rfl, ⟨rfl, rfl⟩, h⟩
      exact h
  | cons i is ih =>
    simp only [List.cons_append, cons_iff, ih]
    constructor
    · rintro ⟨u, v, us, vs, rfl, rfl, h, u', v', us', vs', rfl, rfl, h', hs⟩
      exact ⟨u ++ u', v', us ++ us', vs', by simp, by simp,
        ⟨u, u', us, us', rfl, rfl, by simpa using h, h'⟩, hs⟩
    · rintro ⟨u, v, us, vs, rfl, rfl, ⟨u', v', us', vs', rfl, rfl, h, h'⟩, hs⟩
      exact ⟨u', v' ++ v, us', vs' ++ vs, by simp, by simp, by simpa using h,
        v', v, vs', vs, rfl, rfl, h', hs⟩

theorem one_iff {m : Matcher} : Derives g close (.item ⟨m, .one⟩) taken rest ts ↔
    Derives g close (.matcher m) taken rest ts :=
  ⟨fun h => by cases h; assumption, .one⟩

/-- Items of which the first asks for a token derive such a token before what the others derive. -/
theorem cons_token_iff {m : Matcher} {is : List Item} {w : Wanted} (hw : m.wanted? = some w) :
    Derives g close (.items (⟨m, .one⟩ :: is)) taken rest ts ↔
      ∃ t v us, w.accepts t = true ∧ taken = t :: v ∧ ts = .token t :: us ∧
        Derives g close (.items is) v rest us := by
  rw [cons_iff]
  constructor
  · rintro ⟨u, v, us, vs, rfl, rfl, hu, hv⟩
    obtain ⟨t, ht, rfl, rfl⟩ := (token_iff hw).mp (one_iff.mp hu)
    exact ⟨t, v, vs, ht, rfl, rfl, hv⟩
  · rintro ⟨t, v, us, ht, rfl, rfl, hv⟩
    exact ⟨[t], v, [.token t], us, rfl, rfl, .one (.leaf hw ht), hv⟩

theorem cons_word_iff {w : Word} {is : List Item} :
    Derives g close (.items (.word w :: is)) taken rest ts ↔
      ∃ t v us, t.lexeme = .reserved w ∧ taken = t :: v ∧ ts = .token t :: us ∧
        Derives g close (.items is) v rest us := by
  simp only [Item.word, cons_token_iff (m := .word w) rfl, Wanted.accepts, decide_eq_true_eq]

theorem cons_word {w : Word} {is : List Item} {t : Token} (ht : t.lexeme = .reserved w)
    (h : Derives g close (.items is) taken rest ts) :
    Derives g close (.items (.word w :: is)) (t :: taken) rest (.token t :: ts) :=
  cons_word_iff.mpr ⟨t, taken, ts, ht, rfl, rfl, h⟩

theorem singleton_iff {i : Item} : Derives g close (.items [i]) taken rest ts ↔
    Derives g close (.item i) taken rest ts := by
  rw [cons_iff]
  constructor
  · rintro ⟨u, v, us, vs, rfl, rfl, hu, hv⟩
    obtain ⟨rfl, rfl⟩ := nil_iff.mp hv
    simpa using hu
  · intro h
    exact ⟨taken, [], ts, [], by simp, by simp, by simpa using h, .nil⟩

theorem optional_iff {m : Matcher} : Derives g close (.item ⟨m, .optional⟩) taken rest ts ↔
    Derives g close (.matcher m) taken rest ts ∨ taken = [] ∧ ts = [.absent] := by
  constructor
  · intro h
    cases h with
    | present h => exact .inl h
    | absent => exact .inr ⟨rfl, rfl⟩
  · rintro (h | ⟨rfl, rfl⟩)
    · exact .present h
    · exact .absent

theorem star_iff {m : Matcher} : Derives g close (.item ⟨m, .star⟩) taken rest ts ↔
    ∃ us, ts = [.repeated us] ∧ Derives g close (.rounds m) taken rest us := by
  constructor
  · intro h
    cases h with
    | star h => exact ⟨_, rfl, h⟩
  · rintro ⟨us, rfl, h⟩
    exact .star h

theorem plus_iff {m : Matcher} : Derives g close (.item ⟨m, .plus⟩) taken rest ts ↔
    ∃ u v us vs, taken = u ++ v ∧ ts = [.repeated (us ++ vs)] ∧
      Derives g close (.matcher m) u (v ++ rest) us ∧ Derives g close (.rounds m) v rest vs := by
  constructor
  · intro h
    cases h with
    | plus h hs => exact ⟨_, _, _, _, rfl, rfl, h, hs⟩
  · rintro ⟨u, v, us, vs, rfl, rfl, h, hs⟩
    exact .plus h hs

theorem peek_iff {m : Matcher} : Derives g close (.item ⟨m, .peek⟩) taken rest ts ↔
    taken = [] ∧ ts = [] ∧ ∃ u v us, rest = u ++ v ∧ Derives g close (.matcher m) u v us := by
  constructor
  · intro h
    cases h with
    | peek h => exact ⟨rfl, rfl, _, _, _, rfl, h⟩
  · rintro ⟨rfl, rfl, u, v, us, rfl, h⟩
    exact .peek h

theorem rounds_iff {m : Matcher} : Derives g close (.rounds m) taken rest ts ↔
    (taken = [] ∧ ts = []) ∨ ∃ u v us vs, taken = u ++ v ∧ ts = us ++ vs ∧
      Derives g close (.matcher m) u (v ++ rest) us ∧ Derives g close (.rounds m) v rest vs := by
  constructor
  · intro h
    cases h with
    | done => exact .inl ⟨rfl, rfl⟩
    | round h hs => exact .inr ⟨_, _, _, _, rfl, rfl, h, hs⟩
  · rintro (⟨rfl, rfl⟩ | ⟨u, v, us, vs, rfl, rfl, h, hs⟩)
    · exact .done
    · exact .round h hs

/-- A matcher stands for one tree. -/
theorem exists_tree {m : Matcher} (h : Derives g close (.matcher m) taken rest ts) :
    ∃ t, ts = [t] := by
  rcases matcher_iff.mp h with ⟨w, t, -, -, -, rfl⟩ | ⟨r, alternatives, -, -, h⟩
  · exact ⟨_, rfl⟩
  · obtain ⟨i, is, us, -, -, rfl⟩ := choice_iff.mp h
    exact ⟨_, rfl⟩

/-- An item that does not look ahead stands for one tree. -/
theorem exists_item_tree {i : Item} (h : Derives g close (.item i) taken rest ts)
    (hi : i.quantifier ≠ .peek) : ∃ t, ts = [t] := by
  cases h with
  | one h | present h => exact h.exists_tree
  | absent | star | plus => exact ⟨_, rfl⟩
  | peek => cases hi rfl

/-! ## Rounds -/

/-- What holds of no round, and of a round and more rounds if it does of these, holds of rounds. -/
theorem rounds_induction {m : Matcher}
    {motive : ∀ taken rest ts, Derives g close (.rounds m) taken rest ts → Prop}
    (done : ∀ rest, motive [] rest [] .done)
    (round : ∀ {u v rest ts us} (h : Derives g close (.matcher m) u (v ++ rest) ts)
      (hs : Derives g close (.rounds m) v rest us), motive v rest us hs →
      motive (u ++ v) rest (ts ++ us) (.round h hs))
    (h : Derives g close (.rounds m) taken rest ts) : motive taken rest ts h := by
  suffices hall : ∀ p, Derives g close p taken rest ts → p = .rounds m →
      ∃ h : Derives g close (.rounds m) taken rest ts, motive taken rest ts h from
    (hall _ h rfl).2
  clear h
  intro p h hp
  induction h with
  | done => exact ⟨.done, done _⟩
  | round h hs ih ihs =>
    obtain rfl := Part.rounds.inj hp
    exact ⟨.round h hs, round h hs (ihs rfl).2⟩
  | _ => cases hp

/-- Rounds in two groups are rounds. -/
theorem rounds_append {m : Matcher} {u v : List Token} {us : List Tree}
    (h : Derives g close (.rounds m) u (v ++ rest) ts)
    (hs : Derives g close (.rounds m) v rest us) :
    Derives g close (.rounds m) (u ++ v) rest (ts ++ us) := by
  generalize hr : v ++ rest = r at h
  induction h using rounds_induction with
  | done => exact hs
  | round h h' ih =>
    subst hr
    rw [← List.append_assoc] at h
    rw [List.append_assoc, List.append_assoc]
    exact .round h (ih rfl)

/-- Rounds that take tokens are one round or more. -/
theorem plus_of_rounds {m : Matcher} (h : Derives g close (.rounds m) taken rest ts)
    (hne : taken ≠ []) : Derives g close (.item ⟨m, .plus⟩) taken rest [.repeated ts] := by
  rcases rounds_iff.mp h with ⟨hnil, -⟩ | ⟨u, v, us, vs, rfl, rfl, hu, hv⟩
  · exact absurd hnil hne
  · exact .plus hu hv

/-! ## The tokens of a derivation -/

/-- Where the rules that a part asks for ask for nothing else in turn, each of its tokens is one
that a matcher of the kind accepts. -/
theorem forall_taken {ok : Matcher → Prop} {P : Token → Prop} {p : Part}
    (hleaf : ∀ m w t, m.wanted? = some w → w.accepts t = true → ok m → P t)
    (hrule : ∀ r alternatives, g.rules.alternatives? r = some alternatives → ok (.rule r) →
      (Part.choice r 0 alternatives).All ok)
    (h : Derives g close p taken rest ts) (hp : p.All ok) : ∀ t ∈ taken, P t := by
  induction h with
  | leaf hw ht => simpa using hleaf _ _ _ hw ht hp
  | rule hr h ih => exact ih (hrule _ _ hr hp)
  | here h ih => exact ih (hp _ List.mem_cons_self)
  | later h ih => exact ih fun is his => hp is (List.mem_cons_of_mem _ his)
  | done | absent | peek | nil => simp
  | round h hs ih ihs => exact List.forall_mem_append.mpr ⟨ih hp, ihs hp⟩
  | one h ih | present h ih | star h ih => exact ih hp
  | plus h hs ih ihs => exact List.forall_mem_append.mpr ⟨ih hp, ihs hp⟩
  | cons h hs ih ihs =>
    obtain ⟨hi, his⟩ := List.forall_mem_cons.mp hp
    exact List.forall_mem_append.mpr ⟨ih hi, ihs his⟩

end Derives
end GrammarText
