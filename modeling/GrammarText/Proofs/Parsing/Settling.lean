import GrammarText.Proofs.Description.Printed
import GrammarText.Proofs.Parsing.Notation
import GrammarText.Proofs.Parsing.Recursion

/-!
# Settling: the parser comes to an end

An attempt that is allowed more depth goes the same way, but that it may come farther before it is
cut off (`Description.attempt_keptBy`).  So where no rule can call itself again at the same place,
every attempt has one end, whatever depth beyond the parser's own bound it is allowed, and no loop
runs for more rounds than there are tokens left and one (`Description.attempt_returns`).
-/

namespace GrammarText
namespace Attempt

variable {α β : Type} {a b : Attempt α}

/-- The second attempt is the same as the first one, unless the first one was cut off. -/
def KeptBy (a b : Attempt α) : Prop := a.Settled → b = a

theorem KeptBy.refl (a : Attempt α) : a.KeptBy a := fun _ => rfl

theorem KeptBy.andThen {f g : α → List Token → Attempt β} (h : a.KeptBy b)
    (hf : ∀ value rest, (f value rest).KeptBy (g value rest)) :
    (a.andThen f).KeptBy (b.andThen g) := by
  intro hs
  cases ho : a.outcome with
  | hit value rest =>
    obtain rfl := h (by simp [Settled, ho])
    rw [andThen_of_hit ho] at hs
    rw [andThen_of_hit ho, andThen_of_hit ho, hf value rest hs]
  | miss =>
    obtain rfl := h (by simp [Settled, ho])
    rw [andThen_of_miss ho, andThen_of_miss ho]
  | tooDeep r => exact absurd (by rw [andThen_of_tooDeep ho]) (hs r)

theorem KeptBy.map (h : a.KeptBy b) (f : α → β) : (a.map f).KeptBy (b.map f) :=
  h.andThen fun _ _ => .refl _

theorem KeptBy.orElse {f g : Unit → Attempt α} (h : a.KeptBy b) (hf : (f ()).KeptBy (g ())) :
    (a.orElse f).KeptBy (b.orElse g) := by
  intro hs
  cases ho : a.outcome with
  | hit value rest =>
    obtain rfl := h (by simp [Settled, ho])
    rw [orElse_of_hit ho, orElse_of_hit ho]
  | miss =>
    obtain rfl := h (by simp [Settled, ho])
    rw [orElse_of_miss ho] at hs
    rw [orElse_of_miss ho, orElse_of_miss ho, hf hs]
  | tooDeep r =>
    rw [orElse_of_tooDeep ho] at hs
    exact absurd ho (hs r)

theorem repeated_keptBy {once twice : List Token → Attempt α}
    (h : ∀ ahead, (once ahead).KeptBy (twice ahead)) (limit : Nat) (ahead : List Token) :
    (repeated once limit ahead).KeptBy (repeated twice limit ahead) := by
  induction limit generalizing ahead with
  | zero => exact .refl _
  | succ limit ih =>
    refine KeptBy.orElse ((h ahead).andThen fun value rest => ?_) (.refl _)
    split
    · exact (ih rest).map _
    · exact .refl _

/-- Beyond one for each token ahead and one more, the limit on rounds has no effect. -/
theorem repeated_limit {once : List Token → Attempt α} {limit limit' : Nat} {ahead : List Token}
    (h : ahead.length < limit) (h' : ahead.length < limit') :
    repeated once limit ahead = repeated once limit' ahead := by
  induction limit generalizing limit' ahead with
  | zero => omega
  | succ limit ih =>
    cases limit' with
    | zero => omega
    | succ limit' =>
      simp only [repeated]
      congr 2
      funext value rest
      split
      · rw [show repeated once limit rest = repeated once limit' rest from ih (by omega) (by omega)]
      · rfl

/-- Each round but the last takes a token. -/
theorem length_le_of_repeated {once : List Token → Attempt α} {limit : Nat}
    {ahead rest : List Token} {ts : List α}
    (ho : (repeated once limit ahead).outcome = .hit ts rest) : ts.length ≤ ahead.length + 1 := by
  induction limit generalizing ahead ts with
  | zero =>
    obtain ⟨rfl, -⟩ : [] = ts ∧ ahead = rest := by simpa [repeated, hit] using ho
    exact Nat.zero_le _
  | succ limit ih =>
    rcases repeated_cases ho with ⟨-, rfl, -⟩ | ⟨t, mid, -, ⟨-, rfl, -⟩ | ⟨hlt, us, hr, rfl⟩⟩
    · exact Nat.zero_le _
    · exact Nat.le_add_left 1 _
    · have hus : us.length ≤ mid.length + 1 := ih hr
      simp only [List.length_cons]
      omega

end Attempt

/-! ## More depth -/

section KeptBy

open Attempt

variable {call deeper : Rule → List Token → Attempt Tree}

theorem Matcher.attempt_keptBy (h : ∀ r ahead, (call r ahead).KeptBy (deeper r ahead))
    (m : Matcher) (ahead : List Token) :
    (m.attempt call ahead).KeptBy (m.attempt deeper ahead) := by
  cases m with
  | token k | word w => exact .refl _
  | rule r => exact h r ahead

theorem Item.attempt_keptBy (h : ∀ r ahead, (call r ahead).KeptBy (deeper r ahead)) (i : Item)
    (ahead : List Token) : (i.attempt call ahead).KeptBy (i.attempt deeper ahead) := by
  obtain ⟨m, q⟩ := i
  have hm := Matcher.attempt_keptBy h m
  cases q with
  | one => exact (hm ahead).map _
  | optional => exact ((hm ahead).map _).orElse (.refl _)
  | star => exact (repeated_keptBy hm _ ahead).map _
  | plus => exact (repeated_keptBy hm _ ahead).andThen fun _ _ => .refl _
  | peek => exact (hm ahead).andThen fun _ _ => .refl _

theorem attemptItems_keptBy (h : ∀ r ahead, (call r ahead).KeptBy (deeper r ahead))
    (is : List Item) (ahead : List Token) :
    (attemptItems call is ahead).KeptBy (attemptItems deeper is ahead) := by
  induction is generalizing ahead with
  | nil => exact .refl _
  | cons i is ih => exact (Item.attempt_keptBy h i ahead).andThen fun _ rest => (ih rest).map _

theorem attemptFirst_keptBy (h : ∀ r ahead, (call r ahead).KeptBy (deeper r ahead)) (n : Nat)
    (alternatives : List (List Item)) (ahead : List Token) :
    (attemptFirst call n alternatives ahead).KeptBy (attemptFirst deeper n alternatives ahead) := by
  induction alternatives generalizing n with
  | nil => exact .refl _
  | cons is alternatives ih =>
    exact ((attemptItems_keptBy h is ahead).map _).orElse (ih (n + 1))

/-- More depth changes nothing about an attempt that was not cut off. -/
theorem Description.attempt_keptBy {g : Description} {close depth depth' : Nat}
    (hle : depth ≤ depth') (r : Rule) (ahead : List Token) :
    (g.attempt close depth r ahead).KeptBy (g.attempt close depth' r ahead) := by
  induction depth generalizing depth' r ahead with
  | zero =>
    intro hs
    exact absurd rfl (hs r)
  | succ depth ih =>
    obtain ⟨depth', rfl⟩ : ∃ n, depth' = n + 1 := ⟨depth' - 1, by omega⟩
    rw [attempt, attempt]
    split
    · exact .refl _
    · exact (attemptFirst_keptBy (ih (by omega)) 0 _ ahead).andThen fun _ _ => .refl _

end KeptBy

/-! ## The end of every attempt -/

namespace Description

variable {g : Description} {close depth : Nat}

/-- With the parser's own bound for some tokens no attempt over as many tokens is cut off. -/
theorem attempt_settled_of_length_le (R : Ranking g) {tokens ahead : List Token}
    (hdepth : g.depthBound tokens ≤ depth) (hle : ahead.length ≤ tokens.length) (r : Rule) :
    (g.attempt close depth r ahead).Settled := by
  refine attempt_settled R ?_
  have hrank : R.rank r < g.rules.length := R.rank_lt_length r
  have hmul : g.rules.length * ahead.length ≤ g.rules.length * tokens.length :=
    Nat.mul_le_mul_left _ hle
  rw [depthBound, Nat.add_mul, Nat.mul_comm tokens.length] at hdepth
  omega

/-- Loops over as many tokens come to an end after no more rounds than there are tokens left and
one. -/
theorem exists_rounds (R : Ranking g) {tokens ahead : List Token}
    (hdepth : g.depthBound tokens ≤ depth) (hle : ahead.length ≤ tokens.length) (m : Matcher)
    (limit : Nat) : ∃ rounds rest,
      (Attempt.repeated (m.attempt (g.attempt close depth)) limit ahead).outcome =
        .hit rounds rest ∧ rounds.length ≤ ahead.length + 1 := by
  have hs : ∀ {later : List Token}, later.length ≤ tokens.length →
      (m.attempt (g.attempt close depth) later).Settled :=
    fun hl => Matcher.attempt_settled fun r _ => attempt_settled_of_length_le R hdepth hl r
  have hsettled : (Attempt.repeated (m.attempt (g.attempt close depth)) limit ahead).Settled :=
    Attempt.settled_repeated (hs hle) fun later hl => hs (by omega)
  cases ho : (Attempt.repeated (m.attempt (g.attempt close depth)) limit ahead).outcome with
  | hit rounds rest => exact ⟨rounds, rest, rfl, Attempt.length_le_of_repeated ho⟩
  | miss => exact absurd ho Attempt.repeated_ne_miss
  | tooDeep r => exact absurd ho (hsettled r)

theorem parse_ne_leftRecursion (R : Ranking g) (tokens : List Token) (r : Rule) (place : Span) :
    g.parse tokens ≠ .error (.leftRecursion r place) := by
  obtain ⟨ms, res, -, ⟨t, rest, -, -, hok⟩ | ⟨-, herror⟩⟩ := exists_trace R tokens
  · simp [hok]
  · rw [herror, farthestError]
    split
    · simp
    · split <;> simp

/-- A description that has been read and in which no rule can call itself again at the same place is
parsed to an end.  Beyond the parser's own bound no attempt at a rule is cut off, whatever the
tokens, the rule and the place, and all depths give the same; and no limit beyond the tokens left
cuts a loop off, which then runs for at most one round more than there are tokens left.  The
notation's own grammar is such a description. -/
theorem attempt_returns :
    (∀ text g, Description.read text = .ok g → (∀ r, ¬ g.LeftRecursive r) → ∀ tokens : List Token,
      (∀ r place, g.parse tokens ≠ .error (.leftRecursion r place)) ∧
      ∀ close depth pos, g.depthBound tokens ≤ depth →
        (∀ r, (g.attempt close depth r (tokens.drop pos)).Settled ∧
          g.attempt close depth r (tokens.drop pos) =
            g.attempt close (g.depthBound tokens) r (tokens.drop pos)) ∧
        ∀ (m : Matcher) (limit : Nat), tokens.length - pos < limit →
          let loop := Attempt.repeated (m.attempt (g.attempt close depth))
          loop limit (tokens.drop pos) = loop (tokens.length - pos + 1) (tokens.drop pos) ∧
            ∃ rounds rest, (loop limit (tokens.drop pos)).outcome = .hit rounds rest ∧
              rounds.length ≤ tokens.length - pos + 1) ∧
    Description.read builtinText = .ok .builtin ∧ ∀ r, ¬ Description.builtin.LeftRecursive r := by
  refine ⟨fun text g hread hrec tokens => ?_, read_builtinText, builtin_ranking.not_leftRecursive⟩
  obtain ⟨R⟩ := (closed_of_read hread).exists_ranking hrec
  refine ⟨parse_ne_leftRecursion R tokens, fun close depth pos hdepth => ?_⟩
  have hle : (tokens.drop pos).length ≤ tokens.length := by simp
  refine ⟨fun r => ⟨attempt_settled_of_length_le R hdepth hle r, ?_⟩,
    fun m limit hlimit => ⟨?_, ?_⟩⟩
  · exact attempt_keptBy hdepth r _ (attempt_settled_of_length_le R (Nat.le_refl _) hle r)
  · exact Attempt.repeated_limit (by simpa using hlimit) (by simp)
  · simpa using exists_rounds R hdepth hle m limit

/-- The loop of `lineBreaks` stops after a round that takes nothing. -/
theorem attempt_returns_lineBreaks :
    let tokens : List Token := [⟨.newline, 0, 1⟩, ⟨.eof, 1, 1⟩]
    let loop := Attempt.repeated ((Matcher.rule .block).attempt (lineBreaks.attempt 1 6))
    (∃ text, Description.read text = .ok lineBreaks) ∧ (∀ r, ¬ lineBreaks.LeftRecursive r) ∧
      lineBreaks.depthBound tokens ≤ 6 ∧
      ∃ rounds rest, (loop 9 tokens).outcome = .hit rounds rest ∧ rounds.length ≤ 3 := by
  intro tokens loop
  have hrec := lineBreaks_layering.ranking.not_leftRecursive
  have hloop := (((attempt_returns.1 _ lineBreaks read_lineBreaks hrec tokens).2 1 6 0
    (by decide)).2 (.rule .block) 9 (by decide)).2
  exact ⟨⟨_, read_lineBreaks⟩, hrec, by decide, hloop⟩

end Description
end GrammarText
