import GrammarText.Proofs.Diagnostic.Results

/-!
# Parsing looks at tokens for what is asked of them

Two lists of tokens, one for one accepted where the other is, are read in the same way: attempts at
them end alike and meet the same misses (`Description.attempt_matches`), so they have trees of one
shape or are refused alike (`Description.parse_matches`).  This holds for any description, also for
one that a parser is at a loss with.
-/

namespace GrammarText

open List (Forall₂)

variable (L : Token → Token → Prop)

/-- Trees of one shape over tokens that are related. -/
inductive Tree.AllMatch : List Tree → List Tree → Prop where
  | nil : AllMatch [] []
  | token {t u ts us} (ht : L t u) (h : AllMatch ts us) :
      AllMatch (.token t :: ts) (.token u :: us)
  | absent {ts us} (h : AllMatch ts us) : AllMatch (.absent :: ts) (.absent :: us)
  | repeated {xs ys ts us} (hx : AllMatch xs ys) (h : AllMatch ts us) :
      AllMatch (.repeated xs :: ts) (.repeated ys :: us)
  | node {n m xs ys ts us} (hr : n.rule = m.rule) (hk : n.alternative = m.alternative)
      (hx : AllMatch xs ys) (h : AllMatch ts us) : AllMatch (.node n xs :: ts) (.node m ys :: us)

def Tree.Match (t u : Tree) : Prop := AllMatch L [t] [u]

/-- Attempts end alike: in values that are related, before tokens that are. -/
inductive Outcome.Matches {α β : Type} (R : α → β → Prop) : Outcome α → Outcome β → Prop where
  | hit {a b rest rest'} (h : R a b) (hrest : Forall₂ L rest rest') :
      Matches R (.hit a rest) (.hit b rest')
  | miss : Matches R .miss .miss
  | tooDeep (r : Rule) : Matches R (.tooDeep r) (.tooDeep r)

structure Attempt.Matches {α β : Type} (R : α → β → Prop) (a : Attempt α) (b : Attempt β) :
    Prop where
  outcome : a.outcome.Matches L R b.outcome
  misses : a.misses = b.misses

variable {L}

theorem Tree.AllMatch.append {ts us xs ys : List Tree} (h : AllMatch L ts us)
    (hx : AllMatch L xs ys) : AllMatch L (ts ++ xs) (us ++ ys) := by
  induction h with
  | nil => exact hx
  | token ht h ih => exact .token ht ih
  | absent h ih => exact .absent ih
  | repeated hx h ihx ih => exact .repeated hx ih
  | node hr hk hx h ihx ih => exact .node hr hk hx ih

/-! ## Attempts -/

namespace Attempt

variable {α β γ δ : Type} {R : α → β → Prop} {S : γ → δ → Prop} {a : Attempt α} {b : Attempt β}
  {ahead ahead' : List Token}

theorem matches_hit {x : α} {y : β} (h : R x y) (hahead : Forall₂ L ahead ahead') :
    (hit x ahead).Matches L R (hit y ahead') := ⟨.hit h hahead, rfl⟩

theorem matches_fail (hahead : Forall₂ L ahead ahead') (w : Wanted) :
    (fail (α := α) ahead w).Matches L R (fail ahead' w) :=
  ⟨.miss, by rw [fail, fail, hahead.length_eq]⟩

theorem Matches.after (h : a.Matches L R b) (misses : List Miss) :
    (a.after misses).Matches L R (b.after misses) :=
  ⟨h.outcome, by rw [misses_after, misses_after, h.misses]⟩

theorem Matches.andThen {f : α → List Token → Attempt γ} {k : β → List Token → Attempt δ}
    (h : a.Matches L R b)
    (hf : ∀ x y rest rest', R x y → Forall₂ L rest rest' → (f x rest).Matches L S (k y rest')) :
    (a.andThen f).Matches L S (b.andThen k) := by
  obtain ⟨o, misses⟩ := a
  obtain ⟨o', misses'⟩ := b
  obtain ⟨houtcome, rfl⟩ := h
  cases houtcome with
  | hit hxy hrest => exact (hf _ _ _ _ hxy hrest).after misses
  | miss => exact ⟨.miss, rfl⟩
  | tooDeep r => exact ⟨.tooDeep r, rfl⟩

theorem Matches.orElse {f : Unit → Attempt α} {k : Unit → Attempt β} (h : a.Matches L R b)
    (hf : (f ()).Matches L R (k ())) : (a.orElse f).Matches L R (b.orElse k) := by
  obtain ⟨o, misses⟩ := a
  obtain ⟨o', misses'⟩ := b
  obtain ⟨houtcome, rfl⟩ := h
  cases houtcome with
  | hit hxy hrest => exact ⟨.hit hxy hrest, rfl⟩
  | miss => exact hf.after misses
  | tooDeep r => exact ⟨.tooDeep r, rfl⟩

theorem Matches.map {f : α → γ} {k : β → δ} (h : a.Matches L R b)
    (hf : ∀ x y, R x y → S (f x) (k y)) : (a.map f).Matches L S (b.map k) :=
  h.andThen fun _ _ _ _ hxy hrest => matches_hit (hf _ _ hxy) hrest

theorem matches_repeated {once : List Token → Attempt α} {once' : List Token → Attempt β}
    (h : ∀ ahead ahead', Forall₂ L ahead ahead' → (once ahead).Matches L R (once' ahead'))
    (limit : Nat) (hahead : Forall₂ L ahead ahead') :
    (repeated once limit ahead).Matches L (Forall₂ R) (repeated once' limit ahead') := by
  induction limit generalizing ahead ahead' with
  | zero => exact matches_hit .nil hahead
  | succ limit ih =>
    refine .orElse (.andThen (h _ _ hahead) fun x y rest rest' hxy hrest => ?_)
      (matches_hit .nil hahead)
    rw [hahead.length_eq, hrest.length_eq]
    split
    · exact (ih hrest).map fun _ _ => .cons hxy
    · exact matches_hit (.cons hxy .nil) hrest

end Attempt

section Parts

open Attempt

variable (hL : ∀ t u, L t u → ∀ w : Wanted, w.accepts u = w.accepts t)
include hL

theorem takeToken_matches (w : Wanted) {ahead ahead' : List Token} (h : Forall₂ L ahead ahead') :
    (takeToken w.accepts w ahead).Matches L (Tree.Match L) (takeToken w.accepts w ahead') := by
  cases h with
  | nil => exact matches_fail .nil w
  | @cons t u ts us htu h =>
    rw [takeToken, takeToken, hL t u htu]
    split
    · exact matches_hit (.token htu .nil) h
    · exact matches_fail (.cons htu h) w

variable {call call' : Rule → List Token → Attempt Tree}
  (hcall : ∀ r ahead ahead', Forall₂ L ahead ahead' →
    (call r ahead).Matches L (Tree.Match L) (call' r ahead'))
include hcall

theorem Matcher.attempt_matches (m : Matcher) {ahead ahead' : List Token}
    (h : Forall₂ L ahead ahead') :
    (m.attempt call ahead).Matches L (Tree.Match L) (m.attempt call' ahead') := by
  cases m with
  | token k => exact takeToken_matches hL (.kind k) h
  | word w => exact takeToken_matches hL (.word w) h
  | rule r => exact hcall r _ _ h

omit hL hcall in
theorem Tree.AllMatch.of_forall₂ {ts us : List Tree} (h : Forall₂ (Match L) ts us) :
    AllMatch L ts us := by
  induction h with
  | nil => exact .nil
  | cons ht h ih => exact ht.append ih

theorem Item.attempt_matches (i : Item) {ahead ahead' : List Token} (h : Forall₂ L ahead ahead') :
    (i.attempt call ahead).Matches L (Tree.AllMatch L) (i.attempt call' ahead') := by
  obtain ⟨m, q⟩ := i
  have honce := Matcher.attempt_matches hL hcall m h
  have hrounds := matches_repeated (fun _ _ => Matcher.attempt_matches hL hcall m)
    (ahead.length + 1) h
  rw [h.length_eq] at hrounds
  rw [Item.attempt, Item.attempt, h.length_eq]
  cases q with
  | one => exact honce.map fun _ _ ht => ht
  | optional =>
    exact .orElse (honce.map fun _ _ ht => ht) (matches_hit (.absent .nil) h)
  | star => exact hrounds.map fun _ _ hts => .repeated (.of_forall₂ hts) .nil
  | plus =>
    refine hrounds.andThen fun ts us rest rest' hts hrest => ?_
    cases hts with
    | nil => exact ⟨.miss, rfl⟩
    | cons ht hts => exact matches_hit (.repeated (.of_forall₂ (.cons ht hts)) .nil) hrest
  | peek => exact honce.andThen fun _ _ _ _ _ _ => matches_hit .nil h

theorem attemptItems_matches (is : List Item) {ahead ahead' : List Token}
    (h : Forall₂ L ahead ahead') :
    (attemptItems call is ahead).Matches L (Tree.AllMatch L) (attemptItems call' is ahead') := by
  induction is generalizing ahead ahead' with
  | nil => exact matches_hit .nil h
  | cons i is ih =>
    refine (Item.attempt_matches hL hcall i h).andThen fun ts us rest rest' hts hrest => ?_
    exact (ih hrest).map fun _ _ => hts.append

theorem attemptFirst_matches (n : Nat) (alternatives : List (List Item))
    {ahead ahead' : List Token} (h : Forall₂ L ahead ahead') :
    (attemptFirst call n alternatives ahead).Matches L
      (fun x y => x.1 = y.1 ∧ Tree.AllMatch L x.2 y.2)
      (attemptFirst call' n alternatives ahead') := by
  induction alternatives generalizing n with
  | nil => exact ⟨.miss, rfl⟩
  | cons is alternatives ih =>
    exact .orElse ((attemptItems_matches hL hcall is h).map fun _ _ hts => ⟨rfl, hts⟩) (ih _)

end Parts

/-! ## Parses -/

namespace Description

variable (g : Description) {tokens tokens' : List Token}
  (hL : ∀ t u, L t u → ∀ w : Wanted, w.accepts u = w.accepts t)
include hL

/-- A rule is matched alike at tokens that are related. -/
theorem attempt_matches (close close' depth : Nat) (r : Rule) (h : Forall₂ L tokens tokens') :
    (g.attempt close depth r tokens).Matches L (Tree.Match L)
      (g.attempt close' depth r tokens') := by
  induction depth generalizing r tokens tokens' with
  | zero => exact ⟨.tooDeep r, rfl⟩
  | succ depth ih =>
    rw [attempt, attempt]
    split
    · exact ⟨.miss, rfl⟩
    · have hcall : ∀ r ahead ahead', Forall₂ L ahead ahead' →
          (g.attempt close depth r ahead).Matches L (Tree.Match L)
            (g.attempt close' depth r ahead') := fun r _ _ => ih r
      refine (attemptFirst_matches hL hcall 0 _ h).andThen ?_
      rintro ⟨k, ts⟩ ⟨_, us⟩ rest rest' ⟨rfl, hts⟩ hrest
      exact Attempt.matches_hit (.node rfl rfl hts .nil) hrest

theorem atEnd_matches (h : Forall₂ L tokens tokens') : atEnd tokens' = atEnd tokens := by
  cases h with
  | nil => rfl
  | @cons t u ts us htu h =>
    rw [atEnd, atEnd, ← Wanted.accepts_eof, ← Wanted.accepts_eof, hL t u htu]

/-- The error after given misses names the same, wherever it points. -/
theorem farthestError_matches (close close' : Nat) (misses : List Miss)
    (h : Forall₂ L tokens tokens') : (Diagnostic.parse (farthestError tokens close misses)).Alike
      (.parse (farthestError tokens' close' misses)) := by
  rw [farthestError, farthestError, h.length_eq]
  generalize farthestLeft tokens'.length misses = left
  have hdrop := List.forall₂_drop (tokens'.length - left) h
  generalize tokens.drop (tokens'.length - left) = ahead at hdrop
  generalize tokens'.drop (tokens'.length - left) = ahead' at hdrop
  cases hdrop with
  | nil => rfl
  | @cons t u ts us htu hts =>
    have hisEof : u.isEof = t.isEof := by
      rw [← Wanted.accepts_eof, ← Wanted.accepts_eof, hL t u htu]
    dsimp only
    rw [hisEof]
    split <;> rfl

/-- Tokens that are related have trees of one shape, or are refused alike. -/
theorem parse_matches (h : Forall₂ L tokens tokens') :
    ResultsAlike (Tree.Match L) ((g.parse tokens).mapError .parse)
      ((g.parse tokens').mapError .parse) := by
  have hdepth : g.depthBound tokens' = g.depthBound tokens := by
    rw [depthBound, depthBound, h.length_eq]
  have hattempt := g.attempt_matches hL (closeOf tokens) (closeOf tokens') (g.depthBound tokens)
    g.start h
  rw [parse, parse, hdepth]
  generalize g.attempt (closeOf tokens) (g.depthBound tokens) g.start tokens = a at hattempt
  generalize g.attempt (closeOf tokens') (g.depthBound tokens) g.start tokens' = b at hattempt
  obtain ⟨o, misses⟩ := a
  obtain ⟨o', misses'⟩ := b
  obtain ⟨houtcome, rfl⟩ := hattempt
  have herror := farthestError_matches hL (closeOf tokens) (closeOf tokens') misses h
  cases houtcome with
  | hit htree hrest =>
    dsimp only
    rw [atEnd_matches hL hrest]
    split
    · exact htree
    · exact herror
  | miss => exact herror
  | tooDeep r => rfl

end Description
end GrammarText
