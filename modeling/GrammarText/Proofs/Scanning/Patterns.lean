import GrammarText.Proofs.Scanning.Stands

/-!
# Patterns that prefer their longest matches

A pattern matches some texts (`Pattern.Matches`), and at the start of a text it tries one match
after another: the first alternative before the second one, and as many characters as possible
before fewer (`Pattern.runs`).  The first match that is tried need not be the longest one.  It is
the longest one where each match is tried before all shorter ones (`Pattern.Descends`); this follows
from how a pattern is made, mostly because no other match could be tried at all (`Pattern.Exact`).
-/

namespace GrammarText

/-! ## Leading characters that satisfy a test -/

section SpanCount

variable {t : Char → Bool} {cs : List Char} {n : Nat}

theorem spanCount_cons_of_pos {c : Char} (h : t c = true) (cs : List Char) :
    spanCount t (c :: cs) = spanCount t cs + 1 := by
  rw [spanCount, List.takeWhile_cons_of_pos h]
  rfl

/-- So many of the leading characters satisfy a test, and no more. -/
theorem le_spanCount_iff : n ≤ spanCount t cs ↔ n ≤ cs.length ∧ ∀ c ∈ cs.take n, t c = true := by
  constructor
  · intro h
    refine ⟨Nat.le_trans h (spanCount_le t cs), fun c hc => ?_⟩
    refine all_take_spanCount t cs c ?_
    rw [← Nat.min_eq_left h, ← List.take_take] at hc
    exact List.mem_of_mem_take hc
  · rintro ⟨hlength, hall⟩
    induction cs generalizing n with
    | nil => exact Nat.le_trans hlength (Nat.zero_le _)
    | cons c cs ih =>
      cases n with
      | zero => exact Nat.zero_le _
      | succ n =>
        rw [List.take_succ_cons, List.forall_mem_cons] at hall
        rw [spanCount_cons_of_pos hall.1]
        exact Nat.succ_le_succ (ih (Nat.le_of_succ_le_succ hlength) hall.2)

/-- Before the last of the leading characters that satisfy a test there are more of them. -/
theorem exists_cons_of_lt_spanCount (h : n < spanCount t cs) :
    ∃ c more, cs.drop n = c :: more ∧ t c = true := by
  obtain ⟨hn, hall⟩ := le_spanCount_iff.mp (Nat.succ_le_of_lt h)
  refine ⟨cs[n], cs.drop (n + 1), List.drop_eq_getElem_cons hn, hall _ ?_⟩
  exact List.mem_take_iff_getElem.mpr ⟨n, by omega, rfl⟩

end SpanCount

/-! ## Patterns -/

inductive Pattern where
  | empty
  /-- A character that satisfies a test. -/
  | one (test : Char → Bool)
  /-- Any number of characters that satisfy a test. -/
  | many (test : Char → Bool)
  | seq (p q : Pattern)
  | alt (p q : Pattern)

namespace Pattern

def Matches : Pattern → List Char → Prop
  | empty, cs => cs = []
  | one t, cs => ∃ c, cs = [c] ∧ t c = true
  | many t, cs => ∀ c ∈ cs, t c = true
  | seq p q, cs => ∃ u v, cs = u ++ v ∧ p.Matches u ∧ q.Matches v
  | alt p q, cs => p.Matches cs ∨ q.Matches cs

/-- How many characters a pattern takes at the start of a text, in the order in which the matches
are tried: the first alternative comes first, and more characters come before fewer. -/
def runs : Pattern → List Char → List Nat
  | empty, _ => [0]
  | one _, [] => []
  | one t, c :: _ => if t c then [1] else []
  | many t, cs => (List.range (spanCount t cs + 1)).reverse
  | seq p q, cs => (p.runs cs).flatMap fun n => (q.runs (cs.drop n)).map (n + ·)
  | alt p q, cs => p.runs cs ++ q.runs cs

def char (c : Char) : Pattern := one (· = c)

def more (t : Char → Bool) : Pattern := seq (one t) (many t)

def moreTo (t : Char → Bool) (c : Char) : Pattern := seq (one t) (seq (many t) (char c))

def word : List Char → Pattern
  | [] => empty
  | c :: cs => seq (char c) (word cs)

/-- One of some words, tried in their order. -/
def anyOf : List (List Char) → Pattern
  | [] => one fun _ => false
  | w :: ws => alt (word w) (anyOf ws)

variable {p q : Pattern} {t : Char → Bool} {cs : List Char} {n : Nat}

/-! ## What is tried is matched -/

/-- A pattern tries the beginnings of a text that it matches, and no others. -/
theorem mem_runs_iff : n ∈ p.runs cs ↔ n ≤ cs.length ∧ p.Matches (cs.take n) := by
  induction p generalizing cs n with
  | empty =>
    rw [runs, List.mem_singleton, Matches, List.take_eq_nil_iff]
    constructor
    · rintro rfl
      exact ⟨Nat.zero_le _, .inl rfl⟩
    · rintro ⟨hlength, rfl | rfl⟩
      · rfl
      · exact Nat.le_zero.mp hlength
  | one t =>
    cases cs with
    | nil => simp [runs, Matches]
    | cons c cs =>
      constructor
      · intro hn
        cases ht : t c with
        | false => simp [runs, ht] at hn
        | true =>
          obtain rfl : n = 1 := by simpa [runs, ht] using hn
          exact ⟨by simp, c, by simp, ht⟩
      · rintro ⟨hn, d, hd, ht⟩
        obtain rfl : n = 1 := by rw [← List.length_take_of_le hn, hd, List.length_singleton]
        obtain rfl : c = d := by simpa using hd
        simp [runs, ht]
  | many t =>
    rw [runs, List.mem_reverse, List.mem_range, Nat.lt_succ_iff]
    exact le_spanCount_iff
  | seq p q ihp ihq =>
    simp only [runs, List.mem_flatMap, List.mem_map, ihp, ihq, Matches]
    constructor
    · rintro ⟨k, ⟨hk, hp⟩, m, ⟨hm, hq⟩, rfl⟩
      rw [List.length_drop] at hm
      refine ⟨by omega, _, _, ?_, hp, hq⟩
      exact List.take_add
    · rintro ⟨hn, u, v, huv, hp, hq⟩
      have hlength : u.length + v.length = n := by
        rw [← List.length_append, ← huv, List.length_take_of_le hn]
      obtain ⟨rest, hrest⟩ := List.take_prefix n cs
      rw [huv, List.append_assoc] at hrest
      subst hrest
      refine ⟨u.length, ⟨by simp, by simpa using hp⟩, v.length, ⟨by simp, ?_⟩, hlength⟩
      simpa using hq
  | alt p q ihp ihq =>
    rw [runs, List.mem_append, ihp, ihq, Matches, and_or_left]

/-! ## What is matched -/

theorem matches_one : (one t).Matches cs ↔ ∃ c, cs = [c] ∧ t c = true := .rfl

theorem matches_many : (many t).Matches cs ↔ ∀ c ∈ cs, t c = true := .rfl

theorem matches_alt : (alt p q).Matches cs ↔ p.Matches cs ∨ q.Matches cs := .rfl

theorem matches_char {c : Char} : (char c).Matches cs ↔ cs = [c] := by
  simp [char, matches_one]

theorem matches_seq_one : (seq (one t) p).Matches cs ↔
    ∃ c more, cs = c :: more ∧ t c = true ∧ p.Matches more := by
  constructor
  · rintro ⟨_, more, rfl, ⟨c, rfl, hc⟩, hmore⟩
    exact ⟨c, more, rfl, hc, hmore⟩
  · rintro ⟨c, more, rfl, hc, hmore⟩
    exact ⟨[c], more, rfl, ⟨c, rfl, hc⟩, hmore⟩

theorem matches_seq_char {c : Char} : (seq (char c) p).Matches cs ↔
    ∃ more, cs = c :: more ∧ p.Matches more := by
  rw [char, matches_seq_one]
  constructor
  · rintro ⟨d, more, rfl, hd, hmore⟩
    exact ⟨more, by rw [of_decide_eq_true hd], hmore⟩
  · rintro ⟨more, rfl, hmore⟩
    exact ⟨c, more, rfl, decide_eq_true rfl, hmore⟩

theorem matches_more : (more t).Matches cs ↔ cs ≠ [] ∧ ∀ c ∈ cs, t c = true := by
  rw [more, matches_seq_one]
  constructor
  · rintro ⟨c, more, rfl, hc, hmore⟩
    exact ⟨List.cons_ne_nil c more, List.forall_mem_cons.mpr ⟨hc, hmore⟩⟩
  · rintro ⟨hne, hall⟩
    obtain ⟨c, more, rfl⟩ := List.exists_cons_of_ne_nil hne
    exact ⟨c, more, rfl, (List.forall_mem_cons.mp hall).1, (List.forall_mem_cons.mp hall).2⟩

/-- A pattern and a last character. -/
theorem matches_closed {c : Char} : (seq p (char c)).Matches cs ↔
    ∃ body, cs = body ++ [c] ∧ p.Matches body := by
  constructor
  · rintro ⟨body, _, rfl, hbody, hc⟩
    exact ⟨body, by rw [matches_char.mp hc], hbody⟩
  · rintro ⟨body, rfl, hbody⟩
    exact ⟨body, [c], rfl, hbody, matches_char.mpr rfl⟩

theorem matches_moreTo {c : Char} : (moreTo t c).Matches cs ↔
    ∃ body, cs = body ++ [c] ∧ body ≠ [] ∧ ∀ d ∈ body, t d = true := by
  rw [moreTo, matches_seq_one]
  constructor
  · rintro ⟨d, more, rfl, hd, hmore⟩
    obtain ⟨body, rfl, hbody⟩ := matches_closed.mp hmore
    exact ⟨d :: body, rfl, List.cons_ne_nil d body, List.forall_mem_cons.mpr ⟨hd, hbody⟩⟩
  · rintro ⟨body, rfl, hne, hall⟩
    obtain ⟨d, body, rfl⟩ := List.exists_cons_of_ne_nil hne
    obtain ⟨hd, hbody⟩ := List.forall_mem_cons.mp hall
    exact ⟨d, body ++ [c], rfl, hd, matches_closed.mpr ⟨body, rfl, hbody⟩⟩

theorem matches_word {w : List Char} : (word w).Matches cs ↔ cs = w := by
  induction w generalizing cs with
  | nil => rfl
  | cons c w ih => simp only [word, matches_seq_char, ih, exists_eq_right]

theorem matches_anyOf {ws : List (List Char)} : (anyOf ws).Matches cs ↔ cs ∈ ws := by
  induction ws with
  | nil => simp [anyOf, Matches]
  | cons w ws ih => rw [anyOf, Matches, matches_word, ih, List.mem_cons]

/-! ## Matches that are tried before all shorter ones -/

/-- Wherever it is, a pattern tries each match before all shorter ones. -/
def Descends (p : Pattern) : Prop := ∀ cs, (p.runs cs).Pairwise (· ≥ ·)

/-- Wherever it is, a pattern has one match at most. -/
def Exact (p : Pattern) : Prop := ∀ cs, (p.runs cs).length ≤ 1

/-- A pattern has no match at the end of a text or at a character that satisfies a test. -/
def Avoids (q : Pattern) (t : Char → Bool) : Prop :=
  q.runs [] = [] ∧ ∀ c cs, t c = true → q.runs (c :: cs) = []

/-- No text begins with matches of both patterns. -/
def Apart (p q : Pattern) : Prop :=
  ∀ u v rest rest', p.Matches u → q.Matches v → u ++ rest ≠ v ++ rest'

/-- Of such a pattern the first match is the longest one. -/
theorem Descends.le_of_head? (h : p.Descends) {m : Nat} (hm : (p.runs cs).head? = some m)
    (hn : n ∈ p.runs cs) : n ≤ m := by
  obtain ⟨ns, hns⟩ := List.head?_eq_some_iff.mp hm
  have hdescends := h cs
  rw [hns] at hn hdescends
  rcases List.mem_cons.mp hn with rfl | hn
  · exact Nat.le_refl _
  · exact List.rel_of_pairwise_cons hdescends hn

theorem Exact.cases (h : p.Exact) (cs : List Char) :
    p.runs cs = [] ∨ ∃ n, p.runs cs = [n] := by
  have hlength := h cs
  match p.runs cs, hlength with
  | [], _ => exact .inl rfl
  | [n], _ => exact .inr ⟨n, rfl⟩

theorem Exact.descends (h : p.Exact) : p.Descends := by
  intro cs
  rcases h.cases cs with hnil | ⟨n, hn⟩
  · rw [hnil]
    exact .nil
  · rw [hn]
    exact List.pairwise_singleton _ _

/-- What comes after a pattern with one match at most is tried at one place. -/
theorem Exact.runs_seq (h : p.Exact) (q : Pattern) (cs : List Char) : (seq p q).runs cs = [] ∨
    ∃ n, (seq p q).runs cs = (q.runs (cs.drop n)).map (n + ·) := by
  rw [runs]
  rcases h.cases cs with hnil | ⟨n, hn⟩
  · exact .inl (by rw [hnil]; rfl)
  · exact .inr ⟨n, by rw [hn, List.flatMap_singleton]⟩

theorem exact_empty : empty.Exact := fun _ => Nat.le_refl _

theorem exact_one (t : Char → Bool) : (one t).Exact := by
  intro cs
  cases cs with
  | nil => exact Nat.zero_le _
  | cons c cs => cases h : t c <;> simp [runs, h]

theorem Exact.seq (h : p.Exact) (hq : q.Exact) : (seq p q).Exact := by
  intro cs
  rcases h.runs_seq q cs with hnil | ⟨n, hn⟩
  · rw [hnil]
    exact Nat.zero_le _
  · rw [hn, List.length_map]
    exact hq _

theorem exact_word (w : List Char) : (word w).Exact := by
  induction w with
  | nil => exact exact_empty
  | cons c w ih => exact (exact_one _).seq ih

theorem Exact.alt (h : p.Exact) (hq : q.Exact) (hapart : p.Apart q) : (alt p q).Exact := by
  intro cs
  rw [runs]
  rcases h.cases cs with hnil | ⟨n, hn⟩
  · rw [hnil]
    exact hq cs
  · rcases hq.cases cs with hnil | ⟨m, hm⟩
    · rw [hnil, List.append_nil]
      exact h cs
    · have hp := mem_runs_iff.mp (hn ▸ List.mem_singleton_self n)
      have hq := mem_runs_iff.mp (hm ▸ List.mem_singleton_self m)
      refine absurd ?_ (hapart _ _ (cs.drop n) (cs.drop m) hp.2 hq.2)
      rw [List.take_append_drop, List.take_append_drop]

/-- The first match of any number of characters is that of all of them. -/
theorem runs_many (t : Char → Bool) (cs : List Char) :
    (many t).runs cs = spanCount t cs :: (List.range (spanCount t cs)).reverse := by
  rw [runs, List.range_succ, List.reverse_append]
  rfl

theorem descends_many (t : Char → Bool) : (many t).Descends := by
  intro cs
  rw [runs, List.pairwise_reverse]
  exact List.pairwise_le_range

theorem Exact.seq_descends (h : p.Exact) (hq : q.Descends) : (Pattern.seq p q).Descends := by
  intro cs
  rcases h.runs_seq q cs with hnil | ⟨n, hn⟩
  · rw [hnil]
    exact .nil
  · rw [hn, List.pairwise_map]
    exact (hq _).imp fun hle => Nat.add_le_add_left hle n

theorem descends_more (t : Char → Bool) : (more t).Descends :=
  (exact_one t).seq_descends (descends_many t)

/-- Any number of characters before something that avoids such characters are all of them. -/
theorem Exact.many_seq (hq : q.Exact) (h : q.Avoids t) : (Pattern.seq (many t) q).Exact := by
  intro cs
  rw [runs, runs_many, List.flatMap_cons]
  -- Where fewer are taken, another one of them comes next.
  have hnil : ((List.range (spanCount t cs)).reverse.flatMap fun n =>
      (q.runs (cs.drop n)).map (n + ·)) = [] := by
    refine List.flatMap_eq_nil_iff.mpr fun n hn => ?_
    rw [List.mem_reverse, List.mem_range] at hn
    obtain ⟨c, more, hdrop, hc⟩ := exists_cons_of_lt_spanCount hn
    rw [hdrop, h.2 c more hc, List.map_nil]
  rw [hnil, List.append_nil, List.length_map]
  exact hq _

theorem avoids_char {c : Char} (h : t c = false) : (char c).Avoids t := by
  refine ⟨rfl, fun d ds hd => if_neg fun hdc => ?_⟩
  rw [of_decide_eq_true hdc, h] at hd
  cases hd

theorem exact_moreTo {c : Char} (h : t c = false) : (moreTo t c).Exact :=
  (exact_one t).seq ((exact_one _).many_seq (avoids_char h))

/-- Longer words are tried before shorter ones if they stand before them. -/
theorem descends_anyOf {ws : List (List Char)} (h : ws.Pairwise fun v w => w.length ≤ v.length) :
    (anyOf ws).Descends := by
  induction ws with
  | nil => exact (exact_one _).descends
  | cons w ws ih =>
    obtain ⟨hw, hws⟩ := List.pairwise_cons.mp h
    intro cs
    rw [anyOf, runs, List.pairwise_append]
    refine ⟨(exact_word w).descends cs, ih hws cs, fun m hm n hn => ?_⟩
    rw [mem_runs_iff, matches_word] at hm
    rw [mem_runs_iff, matches_anyOf] at hn
    have hle := hw _ hn.2
    rw [← hm.2, List.length_take_of_le hm.1, List.length_take_of_le hn.1] at hle
    exact hle

/-- Where a character comes next that does not satisfy a test, all those before it were taken. -/
theorem head?_of_stop (hp : p.Exact) (hn : n ∈ (seq p (many t)).runs cs) {c : Char}
    (hc : (cs.drop n).head? = some c) (ht : t c = false) :
    ((seq p (many t)).runs cs).head? = some n := by
  rcases hp.runs_seq (many t) cs with hnil | ⟨k, hk⟩
  · rw [hnil] at hn
    cases hn
  · rw [hk, List.mem_map] at hn
    obtain ⟨m, hm, rfl⟩ := hn
    rw [runs, List.mem_reverse, List.mem_range] at hm
    have hlast : m = spanCount t (cs.drop k) := by
      refine Classical.byContradiction fun hne => ?_
      obtain ⟨d, more, hdrop, hd⟩ :=
        exists_cons_of_lt_spanCount (Nat.lt_of_le_of_ne (Nat.le_of_lt_succ hm) hne)
      rw [List.drop_drop] at hdrop
      rw [hdrop] at hc
      obtain rfl : d = c := by simpa using hc
      rw [hd] at ht
      cases ht
    rw [hk, runs_many, ← hlast]
    rfl

end Pattern
end GrammarText
