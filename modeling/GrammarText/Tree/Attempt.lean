import GrammarText.Tree.Basic

/-!
Attempts: what comes of matching something at the start of a list of tokens.

An attempt ends in a hit, which leaves the tokens that it has not taken, or in a miss. Either way
it brings the misses met on the way, of itself and of its parts, because a text that is refused is
explained by those that lie farthest to the right.
-/

namespace GrammarText

/-- What was asked for where another token stood. -/
inductive Wanted where
  | kind (kind : Kind)
  | word (word : Word)
  deriving DecidableEq, Repr

/-- A place where something was asked for in vain, given by the count of tokens from there on. -/
structure Miss where
  left : Nat
  wanted : Wanted
  deriving DecidableEq, Repr

inductive Outcome (α : Type) where
  | hit (value : α) (rest : List Token)
  | miss
  /-- Rules called one another more deeply than the attempt allows. -/
  | tooDeep (rule : Rule)
  deriving Repr

/-- The end of an attempt, and the misses met on the way, in order. -/
structure Attempt (α : Type) where
  outcome : Outcome α
  misses : List Miss
  deriving Repr

namespace Attempt

variable {α β : Type}

def hit (value : α) (rest : List Token) : Attempt α := ⟨.hit value rest, []⟩

def fail (ahead : List Token) (wanted : Wanted) : Attempt α := ⟨.miss, [⟨ahead.length, wanted⟩]⟩

def after (a : Attempt α) (misses : List Miss) : Attempt α :=
  { a with misses := misses ++ a.misses }

def andThen (a : Attempt α) (f : α → List Token → Attempt β) : Attempt β :=
  match a.outcome with
  | .hit value rest => (f value rest).after a.misses
  | .miss => ⟨.miss, a.misses⟩
  | .tooDeep r => ⟨.tooDeep r, a.misses⟩

def orElse (a : Attempt α) (f : Unit → Attempt α) : Attempt α :=
  match a.outcome with
  | .miss => (f ()).after a.misses
  | _ => a

def map (f : α → β) (a : Attempt α) : Attempt β := a.andThen fun value rest => hit (f value) rest

@[simp] theorem outcome_after (a : Attempt α) (misses : List Miss) :
    (a.after misses).outcome = a.outcome := rfl

@[simp] theorem misses_after (a : Attempt α) (misses : List Miss) :
    (a.after misses).misses = misses ++ a.misses := rfl

variable {a : Attempt α} {value : α} {rest : List Token} {r : Rule}

theorem andThen_of_hit (h : a.outcome = .hit value rest) (f : α → List Token → Attempt β) :
    a.andThen f = (f value rest).after a.misses := by
  simp [andThen, h]

theorem andThen_of_miss (h : a.outcome = .miss) (f : α → List Token → Attempt β) :
    a.andThen f = ⟨.miss, a.misses⟩ := by
  simp [andThen, h]

theorem andThen_of_tooDeep (h : a.outcome = .tooDeep r) (f : α → List Token → Attempt β) :
    a.andThen f = ⟨.tooDeep r, a.misses⟩ := by
  simp [andThen, h]

theorem map_of_hit (h : a.outcome = .hit value rest) (f : α → β) :
    a.map f = ⟨.hit (f value) rest, a.misses⟩ := by
  simp [map, andThen_of_hit h, after, hit]

theorem map_of_miss (h : a.outcome = .miss) (f : α → β) : a.map f = ⟨.miss, a.misses⟩ :=
  andThen_of_miss h _

theorem map_of_tooDeep (h : a.outcome = .tooDeep r) (f : α → β) :
    a.map f = ⟨.tooDeep r, a.misses⟩ := andThen_of_tooDeep h _

theorem orElse_of_hit (h : a.outcome = .hit value rest) (f : Unit → Attempt α) :
    a.orElse f = a := by
  simp [orElse, h]

theorem orElse_of_miss (h : a.outcome = .miss) (f : Unit → Attempt α) :
    a.orElse f = (f ()).after a.misses := by
  simp [orElse, h]

theorem orElse_of_tooDeep (h : a.outcome = .tooDeep r) (f : Unit → Attempt α) :
    a.orElse f = a := by
  simp [orElse, h]

/-- Matches again and again, at most `limit` times, until a miss or a hit that takes nothing; that
hit still counts. -/
def repeated (f : List Token → Attempt α) : Nat → List Token → Attempt (List α)
  | 0, ahead => hit [] ahead
  | limit + 1, ahead =>
    -- The rounds after this one never miss, so what is caught here is a miss of `f` itself.
    ((f ahead).andThen fun value rest =>
      if rest.length < ahead.length then (repeated f limit rest).map (value :: ·)
      else hit [value] rest).orElse fun _ => hit [] ahead

end Attempt
end GrammarText
