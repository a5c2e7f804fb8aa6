import GrammarText.Proofs.Parsing.Trace
import Mathlib.Logic.Relation

/-!
# Depth: how deeply rules call one another

A rule that calls itself before a token is taken would do so for ever.  Where rules can be ranked
so that every call without a token between goes down in rank, the depth that the parser allows is
never used up: at one place there are at most as many calls inside one another as there are rules.

What a rule calls at once is told by `Description.CallsAtOnce`, which asks of the items before the
call only that each may be met without taking a token; a `Ranking` goes down with these calls.  A
`Layering` is a ranking by a table of the rules that may take no token, which is checked item by
item.
-/

namespace GrammarText

/-! ## Calls at the same place -/

namespace Description

/-- Some tokens are ahead of which a match of the rule takes none. -/
def MayTakeNothing (g : Description) (r : Rule) : Prop :=
  ∃ close depth ahead tree, (g.attempt close depth r ahead).outcome = .hit tree ahead

/-- An item may be met without taking a token: what it asks for may be left out, is only looked at,
or is a rule that may take nothing. -/
def MayPass (g : Description) (i : Item) : Prop :=
  match i.quantifier with
  | .one | .plus => ∃ r, i.matcher = .rule r ∧ g.MayTakeNothing r
  | .optional | .star | .peek => True

/-- In the first rule a call of the second one stands behind items that may all be met without
taking a token. -/
def CallsAtOnce (g : Description) (r s : Rule) : Prop :=
  ∃ alternatives before i after, g.rules.alternatives? r = some alternatives ∧
    before ++ i :: after ∈ alternatives ∧ i.matcher = .rule s ∧ ∀ j ∈ before, g.MayPass j

/-- A rule can call itself again at the place where it is called. -/
def LeftRecursive (g : Description) (r : Rule) : Prop := Relation.TransGen g.CallsAtOnce r r

end Description

/-- A rank for each rule that goes down with every call at the same place. -/
structure Ranking (g : Description) where
  rank : Rule → Nat
  rank_lt : ∀ {r s}, g.CallsAtOnce r s → rank s < rank r
  rank_lt_length : ∀ r, rank r < g.rules.length

/-- A rule that can be ranked does not call itself again at the place where it is called. -/
theorem Ranking.not_leftRecursive {g : Description} (R : Ranking g) (r : Rule) :
    ¬ g.LeftRecursive r := by
  have hdown : ∀ s, Relation.TransGen g.CallsAtOnce r s → R.rank s < R.rank r := by
    intro s h
    induction h with
    | single h => exact R.rank_lt h
    | tail _ h ih => exact Nat.lt_trans (R.rank_lt h) ih
  exact fun h => Nat.lt_irrefl _ (hdown r h)

/-! ## Rankings by a table -/

/-- Whether a matcher may be met without taking a token, given which rules may be. -/
def Matcher.idle (idle : Rule → Bool) : Matcher → Bool
  | .rule r => idle r
  | _ => false

def Item.idle (idle : Rule → Bool) (i : Item) : Bool :=
  match i.quantifier with
  | .one | .plus => i.matcher.idle idle
  | .optional | .star | .peek => true

def Part.idle (idle : Rule → Bool) : Part → Bool
  | matcher m => m.idle idle
  | rounds _ => true
  | item i => i.idle idle
  | items is => is.all (·.idle idle)
  | choice _ _ alternatives => alternatives.any (·.all (·.idle idle))

/-- The rules that items call before a token has to be taken. -/
def leading (idle : Rule → Bool) : List Item → List Rule
  | [] => []
  | i :: is =>
    (match i.matcher with
      | .rule r => [r]
      | _ => []) ++ (if i.idle idle then leading idle is else [])

/-- A description without left recursion, with the rules that may take no token and a rank for each
rule that goes down with every call before the first token. -/
structure Layering (g : Description) where
  idle : Rule → Bool
  rank : Rule → Nat
  idle_of_all : ∀ r alternatives, g.rules.alternatives? r = some alternatives →
    ∀ is ∈ alternatives, is.all (·.idle idle) = true → idle r = true
  rank_lt : ∀ r alternatives, g.rules.alternatives? r = some alternatives →
    ∀ is ∈ alternatives, ∀ s ∈ leading idle is, rank s < rank r
  rank_lt_length : ∀ r, rank r < g.rules.length

/-- What derives no tokens at all is idle. -/
theorem Derives.idle {g : Description} {close : Nat} (L : Layering g) {p : Part}
    {taken rest : List Token} {ts : List Tree} (h : Derives g close p taken rest ts)
    (htaken : taken = []) : p.idle L.idle = true := by
  induction h with
  | leaf => cases htaken
  | rule hr h ih =>
    obtain ⟨is, his, hidle⟩ := List.any_eq_true.mp (ih htaken)
    exact L.idle_of_all _ _ hr is his hidle
  | here h ih =>
    simp only [Part.idle, List.any_cons, Bool.or_eq_true]
    exact .inl (ih htaken)
  | later h ih =>
    simp only [Part.idle, List.any_cons, Bool.or_eq_true]
    exact .inr (ih htaken)
  | done | round | absent | star | peek | nil => rfl
  | one h ih => exact ih htaken
  | present => rfl
  | plus h hs ih => exact ih (List.append_eq_nil_iff.mp htaken).1
  | cons h hs ih ihs =>
    obtain ⟨hu, hv⟩ := List.append_eq_nil_iff.mp htaken
    have := ih hu
    have := ihs hv
    simp_all [Part.idle]

/-- What items call behind items that are idle leads them. -/
theorem mem_leading {idle : Rule → Bool} {before after : List Item} {i : Item} {s : Rule}
    (hi : i.matcher = .rule s) (h : ∀ j ∈ before, j.idle idle = true) :
    s ∈ leading idle (before ++ i :: after) := by
  induction before with
  | nil => simp [leading, hi]
  | cons j before ih =>
    simp only [List.forall_mem_cons] at h
    simp [leading, h.1, ih h.2]

namespace Layering

variable {g : Description}

theorem idle_of_mayTakeNothing (L : Layering g) {r : Rule} (h : g.MayTakeNothing r) :
    L.idle r = true := by
  obtain ⟨close, depth, ahead, tree, ho⟩ := h
  obtain ⟨taken, htaken, hd⟩ :=
    ((Description.attempt_traced depth r ahead).of_hit ho).derives rfl
  exact hd.idle L (List.self_eq_append_left.mp htaken)

theorem idle_of_mayPass (L : Layering g) {i : Item} (h : g.MayPass i) : i.idle L.idle = true := by
  obtain ⟨m, q⟩ := i
  cases q with
  | one | plus =>
    obtain ⟨r, rfl, hr⟩ := h
    exact L.idle_of_mayTakeNothing hr
  | optional | star | peek => rfl

def ranking (L : Layering g) : Ranking g where
  rank := L.rank
  rank_lt := by
    rintro r s ⟨alternatives, before, i, after, hr, hmem, hi, hbefore⟩
    exact L.rank_lt r alternatives hr _ hmem s
      (mem_leading hi fun j hj => L.idle_of_mayPass (hbefore j hj))
  rank_lt_length := L.rank_lt_length

end Layering

/-! ## Attempts that are not cut off -/

namespace Attempt

variable {α β : Type}

def Settled (a : Attempt α) : Prop := ∀ r, a.outcome ≠ .tooDeep r

theorem settled_andThen {a : Attempt α} {f : α → List Token → Attempt β} (ha : a.Settled)
    (hf : ∀ value rest, a.outcome = .hit value rest → (f value rest).Settled) :
    (a.andThen f).Settled := by
  cases ho : a.outcome with
  | hit value rest =>
    rw [andThen_of_hit ho]
    exact hf value rest ho
  | miss => simp [andThen_of_miss ho, Settled]
  | tooDeep r => exact absurd ho (ha r)

theorem settled_hit (value : α) (rest : List Token) : (hit value rest).Settled := by
  simp [Settled, hit]

theorem settled_map {a : Attempt α} (ha : a.Settled) (f : α → β) : (a.map f).Settled :=
  settled_andThen ha fun _ _ _ => settled_hit _ _

theorem settled_orElse {a : Attempt α} {f : Unit → Attempt α} (ha : a.Settled)
    (hf : (f ()).Settled) : (a.orElse f).Settled := by
  cases ho : a.outcome with
  | hit value rest => rwa [orElse_of_hit ho]
  | miss =>
    rw [orElse_of_miss ho]
    exact hf
  | tooDeep r => exact absurd ho (ha r)

theorem settled_repeated {once : List Token → Attempt α} {limit : Nat} {ahead : List Token}
    (h : (once ahead).Settled)
    (hs : ∀ later : List Token, later.length < ahead.length → (once later).Settled) :
    (repeated once limit ahead).Settled := by
  induction limit generalizing ahead with
  | zero => exact settled_hit _ _
  | succ limit ih =>
    refine settled_orElse (settled_andThen h fun value rest _ => ?_) (settled_hit _ _)
    split
    · rename_i hlt
      exact settled_map (ih (hs rest hlt) fun later hl => hs later (by omega)) _
    · exact settled_hit _ _

theorem repeated_ne_miss {once : List Token → Attempt α} {limit : Nat} {ahead : List Token} :
    (repeated once limit ahead).outcome ≠ .miss := by
  cases limit with
  | zero => simp [repeated, hit]
  | succ limit =>
    rw [repeated, orElse]
    split
    · simp [hit]
    · assumption

/-- Rounds that are met are none, because the first one is missed, or one that takes nothing, or
one that takes a token and then more. -/
theorem repeated_cases {once : List Token → Attempt α} {limit : Nat} {ahead rest : List Token}
    {ts : List α} (ho : (repeated once (limit + 1) ahead).outcome = .hit ts rest) :
    ((once ahead).outcome = .miss ∧ ts = [] ∧ rest = ahead) ∨
    ∃ t mid, (once ahead).outcome = .hit t mid ∧
      ((¬ mid.length < ahead.length ∧ ts = [t] ∧ rest = mid) ∨
        (mid.length < ahead.length ∧
          ∃ us, (repeated once limit mid).outcome = .hit us rest ∧ ts = t :: us)) := by
  cases h : (once ahead).outcome with
  | hit t mid =>
    refine .inr ⟨t, mid, rfl, ?_⟩
    by_cases hlt : mid.length < ahead.length
    · cases hr : (repeated once limit mid).outcome with
      | hit us last =>
        obtain ⟨rfl, rfl⟩ : t :: us = ts ∧ last = rest := by
          simpa [repeated, andThen_of_hit h, hlt, map_of_hit hr, orElse, after] using ho
        exact .inr ⟨hlt, us, rfl, rfl⟩
      | miss => exact absurd hr repeated_ne_miss
      | tooDeep r =>
        simp [repeated, andThen_of_hit h, hlt, map_of_tooDeep hr, orElse, after] at ho
    · obtain ⟨rfl, rfl⟩ : [t] = ts ∧ mid = rest := by
        simpa [repeated, andThen_of_hit h, hlt, orElse, after, hit] using ho
      exact .inl ⟨hlt, rfl, rfl⟩
  | miss =>
    obtain ⟨rfl, rfl⟩ : [] = ts ∧ ahead = rest := by
      simpa [repeated, andThen_of_miss h, orElse, after, hit] using ho
    exact .inl ⟨rfl, rfl, rfl⟩
  | tooDeep r => simp [repeated, andThen_of_tooDeep h, orElse] at ho

end Attempt

section Settled

open Attempt

variable {g : Description} {close : Nat} {call : Rule → List Token → Attempt Tree}
  {ahead : List Token}

theorem settled_takeToken (test : Token → Bool) (wanted : Wanted) (ahead : List Token) :
    (takeToken test wanted ahead).Settled := by
  cases ahead with
  | nil => simp [takeToken, fail, Settled]
  | cons t rest =>
    simp only [takeToken]
    split <;> simp [hit, fail, Settled]

theorem Matcher.attempt_settled {m : Matcher}
    (h : ∀ r, m = .rule r → (call r ahead).Settled) : (m.attempt call ahead).Settled := by
  cases m with
  | token k => exact settled_takeToken _ _ _
  | word w => exact settled_takeToken _ _ _
  | rule r => exact h r rfl

theorem Item.attempt_settled {i : Item} (h : ∀ r, i.matcher = .rule r → (call r ahead).Settled)
    (hs : ∀ r (later : List Token), later.length < ahead.length → (call r later).Settled) :
    (i.attempt call ahead).Settled := by
  obtain ⟨m, q⟩ := i
  have hm : (m.attempt call ahead).Settled := Matcher.attempt_settled h
  have hr : (Attempt.repeated (m.attempt call) (ahead.length + 1) ahead).Settled :=
    settled_repeated hm fun later hl => Matcher.attempt_settled fun r _ => hs r later hl
  cases q with
  | one => exact settled_map hm _
  | optional => exact settled_orElse (settled_map hm _) (settled_hit _ _)
  | star => exact settled_map hr _
  | plus =>
    refine settled_andThen hr fun ts rest _ => ?_
    split
    · simp [Settled]
    · exact settled_hit _ _
  | peek => exact settled_andThen hm fun _ _ _ => settled_hit _ _

/-- An item that takes no token where it is met may be met without taking one. -/
theorem Item.mayPass_of_hit {depth : Nat} {i : Item} {ts : List Tree}
    (ho : (i.attempt (g.attempt close depth) ahead).outcome = .hit ts ahead) : g.MayPass i := by
  obtain ⟨m, q⟩ := i
  have htraced (ahead : List Token) :
      (m.attempt (g.attempt close depth) ahead).Traced g close (.matcher m) ([·]) ahead :=
    Matcher.attempt_traced (Description.attempt_traced depth) m ahead
  -- A single token that is asked for is taken, so what is met without it is a rule.
  have hrule : ∀ {t}, (m.attempt (g.attempt close depth) ahead).outcome = .hit t ahead →
      ∃ r, m = .rule r ∧ g.MayTakeNothing r := by
    intro t ht
    obtain ⟨taken, htaken, hd⟩ := ((htraced ahead).of_hit ht).derives rfl
    obtain rfl : taken = [] := List.self_eq_append_left.mp htaken
    rcases Derives.matcher_iff.mp hd with ⟨w, t, -, -, hnil, -⟩ | ⟨r, alternatives, rfl, -, -⟩
    · simp at hnil
    · exact ⟨r, rfl, close, depth, ahead, t, ht⟩
  cases q with
  | one =>
    cases hm : (m.attempt (g.attempt close depth) ahead).outcome with
    | hit t rest =>
      obtain ⟨-, rfl⟩ : [t] = ts ∧ rest = ahead := by
        simpa [Item.attempt, map_of_hit hm] using ho
      exact hrule hm
    | miss => simp [Item.attempt, map_of_miss hm] at ho
    | tooDeep r => simp [Item.attempt, map_of_tooDeep hm] at ho
  | plus =>
    cases hm : (repeated (m.attempt (g.attempt close depth)) (ahead.length + 1) ahead).outcome with
    | hit us rest =>
      obtain ⟨hus, rfl⟩ : us ≠ [] ∧ rest = ahead := by
        cases us <;> simp_all [Item.attempt, andThen_of_hit hm, hit, after]
      rcases repeated_cases hm with ⟨-, rfl, -⟩ | ⟨t, mid, ht, ⟨-, -, rfl⟩ | ⟨hlt, vs, hr, -⟩⟩
      · exact absurd rfl hus
      · exact hrule ht
      · -- A round that has taken a token would leave less.
        obtain ⟨taken, rfl, -⟩ := ((repeated_traced htraced hlt).of_hit hr).derives rfl
        simp only [List.length_append] at hlt
        omega
    | miss => exact absurd hm repeated_ne_miss
    | tooDeep r => simp [Item.attempt, andThen_of_tooDeep hm] at ho
  | optional | star | peek => trivial

theorem attemptItems_settled {depth : Nat} {is : List Item}
    (h : ∀ before i after s, is = before ++ i :: after → i.matcher = .rule s →
      (∀ j ∈ before, g.MayPass j) → (g.attempt close depth s ahead).Settled)
    (hs : ∀ s (later : List Token), later.length < ahead.length →
      (g.attempt close depth s later).Settled) :
    (attemptItems (g.attempt close depth) is ahead).Settled := by
  induction is generalizing ahead with
  | nil => exact settled_hit _ _
  | cons i is ih =>
    have hi : (i.attempt (g.attempt close depth) ahead).Settled :=
      Item.attempt_settled (fun s hs => h [] i is s rfl hs (by simp)) hs
    refine settled_andThen hi fun ts mid ho => settled_map ?_ _
    obtain ⟨taken, rfl, -⟩ :=
      ((Item.attempt_traced (Description.attempt_traced depth) i ahead).of_hit ho).derives rfl
    cases taken with
    | nil =>
      -- Nothing was taken, so what the other items call at once all items call at once.
      refine ih (fun before j after s his hj hbefore => ?_) hs
      refine h (i :: before) j after s (by rw [his]; rfl) hj ?_
      exact List.forall_mem_cons.mpr ⟨Item.mayPass_of_hit ho, hbefore⟩
    | cons t taken =>
      have hlength : (t :: taken ++ mid).length = taken.length + mid.length + 1 := by
        simp only [List.cons_append, List.length_cons, List.length_append]
      refine ih (fun _ _ _ s _ _ _ => hs s mid (by omega)) fun s later hl => hs s later (by omega)

theorem attemptFirst_settled {depth n : Nat} {alternatives : List (List Item)}
    (h : ∀ before i after s, before ++ i :: after ∈ alternatives → i.matcher = .rule s →
      (∀ j ∈ before, g.MayPass j) → (g.attempt close depth s ahead).Settled)
    (hs : ∀ s (later : List Token), later.length < ahead.length →
      (g.attempt close depth s later).Settled) :
    (attemptFirst (g.attempt close depth) n alternatives ahead).Settled := by
  induction alternatives generalizing n with
  | nil => simp [attemptFirst, Settled]
  | cons is alternatives ih =>
    refine settled_orElse (settled_map (attemptItems_settled ?_ hs) _) (ih ?_)
    · rintro before i after s rfl
      exact h before i after s List.mem_cons_self
    · exact fun before i after s hmem => h before i after s (List.mem_cons_of_mem _ hmem)

/-- Below the bound that goes with its rank and with the tokens ahead, no attempt is cut off. -/
theorem Description.attempt_settled (R : Ranking g) {depth : Nat} {r : Rule}
    (hdepth : g.rules.length * ahead.length + R.rank r < depth) :
    (g.attempt close depth r ahead).Settled := by
  induction depth generalizing r ahead with
  | zero => omega
  | succ depth ih =>
    rw [Description.attempt]
    split
    · simp [Settled]
    · rename_i alternatives hr
      refine settled_andThen (attemptFirst_settled ?_ ?_) fun _ _ _ => settled_hit _ _
      · intro before i after s hmem hi hbefore
        have := R.rank_lt ⟨alternatives, before, i, after, hr, hmem, hi, hbefore⟩
        exact ih (by omega)
      · intro s later hl
        have hs := R.rank_lt_length s
        have hmul : g.rules.length * (later.length + 1) ≤ g.rules.length * ahead.length :=
          Nat.mul_le_mul_left _ hl
        rw [Nat.mul_add] at hmul
        exact ih (by omega)

/-- The depth that the parser allows for some tokens is never used up over them. -/
theorem Description.attempt_depthBound_settled (R : Ranking g) (r : Rule) (tokens : List Token) :
    (g.attempt close (g.depthBound tokens) r tokens).Settled := by
  refine Description.attempt_settled R ?_
  have := R.rank_lt_length r
  rw [Description.depthBound, Nat.add_mul, Nat.mul_comm tokens.length]
  omega

end Settled

/-- A parse goes as a trace of the start rule at all tokens does. -/
theorem Description.exists_trace {g : Description} (R : Ranking g) (tokens : List Token) :
    ∃ ms res, Trace g (closeOf tokens) True (.matcher (.rule g.start)) tokens ms res ∧
      ((∃ t rest, res = some ([t], rest) ∧ atEnd rest = true ∧ g.parse tokens = .ok t) ∨
        ((∀ ts rest, res = some (ts, rest) → atEnd rest = false) ∧
          g.parse tokens = .error (farthestError tokens (closeOf tokens) ms))) := by
  let a := g.attempt (closeOf tokens) (g.depthBound tokens) g.start tokens
  have hs : a.Settled := Description.attempt_depthBound_settled R g.start tokens
  have ht : a.Traced g (closeOf tokens) (.matcher (.rule g.start)) ([·]) tokens :=
    Description.attempt_traced _ _ _
  rw [Description.parse]
  cases ho : a.outcome with
  | hit t rest =>
    refine ⟨a.misses, _, ht.of_hit ho, ?_⟩
    by_cases he : atEnd rest = true
    · exact .inl ⟨t, rest, rfl, he, by simp [he]⟩
    · refine .inr ⟨?_, by simp [a, he]⟩
      intro ts rest' hres
      cases hres
      simpa using he
  | miss =>
    refine ⟨a.misses, none, ht.of_miss ho, .inr ⟨by simp, ?_⟩⟩
    simp [a]
  | tooDeep r => exact absurd ho (hs r)

end GrammarText
