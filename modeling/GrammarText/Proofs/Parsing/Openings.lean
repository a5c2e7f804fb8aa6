import GrammarText.Proofs.Parsing.Derivation

/-!
# Openings: how derived tokens begin

A word is a list of things to ask for, one token after another.  `Description.openings` computes
words of which one opens whatever some items derive together with what stands after it.  It looks
at few tokens and unfolds few rules; where it gives up early it answers the empty word, which opens
everything, so that no bound has to be justified.
-/

namespace GrammarText

/-- Tokens begin as a word asks. -/
def Opens : List Wanted → List Token → Prop
  | [], _ => True
  | _ :: _, [] => False
  | w :: ws, t :: ts => w.accepts t = true ∧ Opens ws ts

def Begins (words : List (List Wanted)) (ts : List Token) : Prop := ∃ ws ∈ words, Opens ws ts

theorem Opens.of_prefix {ws vs : List Wanted} {ts : List Token} (h : ws <+: vs)
    (ho : Opens vs ts) : Opens ws ts := by
  induction ws generalizing vs ts with
  | nil => trivial
  | cons w ws ih =>
    obtain ⟨us, rfl⟩ := h
    cases ts with
    | nil => exact ho
    | cons t ts => exact ⟨ho.1, ih (List.prefix_append ws us) ho.2⟩

theorem begins_nil_word (ts : List Token) : Begins [[]] ts := ⟨[], by simp, trivial⟩

theorem Begins.append_left {a b : List (List Wanted)} {ts : List Token} (h : Begins a ts) :
    Begins (a ++ b) ts := by
  obtain ⟨ws, hws, ho⟩ := h
  exact ⟨ws, List.mem_append_left b hws, ho⟩

theorem Begins.append_right {a b : List (List Wanted)} {ts : List Token} (h : Begins b ts) :
    Begins (a ++ b) ts := by
  obtain ⟨ws, hws, ho⟩ := h
  exact ⟨ws, List.mem_append_right a hws, ho⟩

/-! ## Words that no tokens can have in common -/

def Wanted.apart : Wanted → Wanted → Bool
  | kind j, kind k => j ≠ k
  | word v, word w => v ≠ w
  | kind k, word _ | word _, kind k => k ≠ .reserved

/-- At some place two words ask for what no token is both. -/
def wordsApart : List Wanted → List Wanted → Bool
  | v :: vs, w :: ws => v.apart w || wordsApart vs ws
  | _, _ => false

def allApart (a b : List (List Wanted)) : Bool := a.all fun v => b.all fun w => wordsApart v w

theorem Wanted.kind_of_accepts_word {w : Word} {t : Token} (h : (word w).accepts t = true) :
    t.kind = .reserved := by
  simp only [accepts, decide_eq_true_eq] at h
  simp [Token.kind, h, Lexeme.kind]

theorem Wanted.not_accepts_of_apart {v w : Wanted} {t : Token} (h : v.apart w = true)
    (hv : v.accepts t = true) : w.accepts t = false := by
  rw [Bool.eq_false_iff]
  intro hw
  cases v with
  | kind j =>
    cases w with
    | kind k => simp_all [apart, accepts]
    | word w =>
      have := kind_of_accepts_word hw
      simp_all [apart, accepts]
  | word v =>
    cases w with
    | kind k =>
      have := kind_of_accepts_word hv
      simp_all [apart, accepts]
    | word w => simp_all [apart, accepts]

theorem not_opens_of_wordsApart {vs ws : List Wanted} {ts : List Token}
    (h : wordsApart vs ws = true) (hv : Opens vs ts) : ¬ Opens ws ts := by
  induction vs generalizing ws ts with
  | nil => simp [wordsApart] at h
  | cons v vs ih =>
    cases ws with
    | nil => simp [wordsApart] at h
    | cons w ws =>
      cases ts with
      | nil => exact hv.elim
      | cons t ts =>
        rintro ⟨hw, hws⟩
        rw [wordsApart, Bool.or_eq_true] at h
        rcases h with h | h
        · simp [Wanted.not_accepts_of_apart h hv.1] at hw
        · exact ih h hv.2 hws

theorem not_begins_of_allApart {a b : List (List Wanted)} {ts : List Token}
    (h : allApart a b = true) (ha : Begins a ts) : ¬ Begins b ts := by
  obtain ⟨vs, hvs, hv⟩ := ha
  rintro ⟨ws, hws, hw⟩
  have := List.all_eq_true.mp (List.all_eq_true.mp h vs hvs) ws hws
  exact not_opens_of_wordsApart this hv hw

/-! ## The openings of items -/

/-- Words of at most `length` wants for how items begin, with words for what stands after them. The
first number bounds how often rules and repetitions are unfolded. -/
def Description.openingsWithin (g : Description) :
    Nat → Nat → List Item → List (List Wanted) → List (List Wanted)
  | 0, _, _, _ => [[]]
  | _ + 1, 0, _, _ => [[]]
  | _ + 1, length + 1, [], after => after.map (·.take (length + 1))
  | fuel + 1, length + 1, i :: is, after =>
    match i.quantifier with
    | .one =>
      match i.matcher with
      | .token k => (g.openingsWithin fuel length is after).map (.kind k :: ·)
      | .word w => (g.openingsWithin fuel length is after).map (.word w :: ·)
      | .rule r => ((g.rules.alternatives? r).getD []).flatMap fun js =>
          g.openingsWithin fuel (length + 1) (js ++ is) after
    | .optional =>
      g.openingsWithin fuel (length + 1) (i.times .one :: is) after
        ++ g.openingsWithin fuel (length + 1) is after
    | .star =>
      g.openingsWithin fuel (length + 1) (i.times .one :: i :: is) after
        ++ g.openingsWithin fuel (length + 1) is after
    | .plus => g.openingsWithin fuel (length + 1) (i.times .one :: i.times .star :: is) after
    -- Only what a peek asks for is used, which is enough.
    | .peek => g.openingsWithin fuel (length + 1) [i.times .one] [[]]

/-- Words of at most two wants for how items begin. -/
def Description.openings (g : Description) (is : List Item) (after : List (List Wanted)) :
    List (List Wanted) := g.openingsWithin 20 2 is after

theorem Begins.map_cons {words : List (List Wanted)} {w : Wanted} {t : Token} {ts : List Token}
    (ht : w.accepts t = true) (h : Begins words ts) : Begins (words.map (w :: ·)) (t :: ts) := by
  obtain ⟨ws, hws, ho⟩ := h
  exact ⟨w :: ws, List.mem_map_of_mem hws, ht, ho⟩

namespace Derives

variable {g : Description} {close : Nat}

theorem begins_within {fuel length : Nat} {is : List Item} {after : List (List Wanted)}
    {taken rest : List Token} {ts : List Tree} (h : Derives g close (.items is) taken rest ts)
    (hafter : Begins after rest) :
    Begins (g.openingsWithin fuel length is after) (taken ++ rest) := by
  fun_induction Description.openingsWithin g fuel length is after generalizing taken rest ts with
  -- No room or no fuel is left: the empty word opens everything.
  | case1 | case2 => exact begins_nil_word _
  | case3 fuel length after =>
    obtain ⟨rfl, -⟩ := nil_iff.mp h
    obtain ⟨ws, hws, ho⟩ := hafter
    exact ⟨ws.take (length + 1), List.mem_map_of_mem hws, ho.of_prefix (List.take_prefix _ _)⟩
  | case4 fuel length i is after hq k hm ih | case5 fuel length i is after hq k hm ih =>
    obtain ⟨m, q⟩ := i
    obtain rfl : q = .one := hq
    obtain rfl : m = _ := hm
    obtain ⟨u, v, us, vs, rfl, rfl, hi, his⟩ := cons_iff.mp h
    obtain ⟨t, ht, rfl, -⟩ := (token_iff rfl).mp (one_iff.mp hi)
    exact (ih his hafter).map_cons ht
  | case6 fuel length i is after hq r hm ih =>
    obtain ⟨m, q⟩ := i
    obtain rfl : q = .one := hq
    obtain rfl : m = .rule r := hm
    obtain ⟨u, v, us, vs, rfl, rfl, hi, his⟩ := cons_iff.mp h
    obtain ⟨alternatives, hr, hc⟩ := rule_iff.mp (one_iff.mp hi)
    obtain ⟨n, js, ws, hn, hjs, -⟩ := choice_iff.mp hc
    -- The alternative taken stands in the place of the call.
    obtain ⟨words, hwords, ho⟩ :=
      ih js (append_iff.mpr ⟨u, v, ws, vs, rfl, rfl, hjs, his⟩) hafter
    refine ⟨words, List.mem_flatMap.mpr ⟨js, ?_, hwords⟩, ho⟩
    simpa [hr] using List.mem_of_getElem? hn
  | case7 fuel length i is after hq ih ihs =>
    obtain ⟨m, q⟩ := i
    obtain rfl : q = .optional := hq
    obtain ⟨u, v, us, vs, rfl, rfl, hi, his⟩ := cons_iff.mp h
    rcases optional_iff.mp hi with hi | ⟨rfl, -⟩
    · exact (ih (.cons (.one hi) his) hafter).append_left
    · exact (ihs his hafter).append_right
  | case8 fuel length i is after hq ih ihs =>
    obtain ⟨m, q⟩ := i
    obtain rfl : q = .star := hq
    obtain ⟨u, v, us, vs, rfl, rfl, hi, his⟩ := cons_iff.mp h
    obtain ⟨ws, -, hi⟩ := star_iff.mp hi
    -- Rounds are none, or one round and then the same repetition.
    rcases rounds_iff.mp hi with ⟨rfl, -⟩ | ⟨x, y, xs, ys, rfl, -, hx, hy⟩
    · exact (ihs his hafter).append_right
    · have hall := Derives.cons (.one (by simpa using hx)) (.cons (.star hy) his)
      simpa using (ih hall hafter).append_left
  | case9 fuel length i is after hq ih =>
    obtain ⟨m, q⟩ := i
    obtain rfl : q = .plus := hq
    obtain ⟨u, v, us, vs, rfl, rfl, hi, his⟩ := cons_iff.mp h
    obtain ⟨x, y, xs, ys, rfl, -, hx, hy⟩ := plus_iff.mp hi
    have hall := Derives.cons (.one (by simpa using hx)) (.cons (.star hy) his)
    simpa using ih hall hafter
  | case10 fuel length i is after hq ih =>
    obtain ⟨m, q⟩ := i
    obtain rfl : q = .peek := hq
    obtain ⟨u, v, us, vs, rfl, rfl, hi, -⟩ := cons_iff.mp h
    obtain ⟨rfl, -, x, y, xs, hxy, hx⟩ := peek_iff.mp hi
    have hnil : Derives g close (.items []) [] y [] := .nil
    have hall := Derives.cons (.one (by simpa using hx)) hnil
    simpa [hxy] using ih hall (begins_nil_word y)

/-- What items derive begins, together with what stands after it, as one of their openings says. -/
theorem begins {is : List Item} {after : List (List Wanted)} {taken rest : List Token}
    {ts : List Tree} (h : Derives g close (.items is) taken rest ts) (hafter : Begins after rest) :
    Begins (g.openings is after) (taken ++ rest) := begins_within h hafter

/-- What a matcher derives begins as one of the openings of an item that asks for it says. -/
theorem begins_matcher {m : Matcher} {taken rest : List Token} {ts : List Tree}
    (h : Derives g close (.matcher m) taken rest ts) :
    Begins (g.openings [⟨m, .one⟩] [[]]) (taken ++ rest) := by
  have hnil : Derives g close (.items []) [] rest [] := .nil
  have hall := Derives.cons (.one (by simpa using h)) hnil
  simpa using hall.begins (begins_nil_word rest)

end Derives
end GrammarText
