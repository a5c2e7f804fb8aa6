import GrammarText.Proofs.Reduction.Blocks

/-!
# Trees that are reduced in turn

The places that reduction gathers in a tree are still there when it comes to the next one
(`Tree.reduceInTurn`).  A tree that was parsed leaves none of them if it means anything
(`Tree.reduce_leaves_none`), since each declaration takes the places gathered for it.  So trees mean
in turn what each means by itself, up to and with the first that means nothing
(`Tree.reduceInTurn_alone`).
-/

namespace GrammarText.Tree

/-- What trees mean one after another, each with the places before it that those before it have
left. -/
def reduceInTurn (gathered : Gathered) : List Tree → List (Except Diagnostic Phrase)
  | [] => []
  | t :: ts => (t.reduce gathered).1 :: reduceInTurn (t.reduce gathered).2 ts

/-- A tree that was parsed, and that means something, leaves nothing gathered. -/
theorem reduce_leaves_none {tokens : List Token} {t : Tree} (h : ofTokens tokens = .ok t)
    {p : Phrase} (hp : (t.reduce .none).1 = .ok p) : (t.reduce .none).2 = .none := by
  obtain ⟨_, _, _, _, _, _, _, _, _, _, hreduce⟩ := exists_meanBlocks_of_reduce h hp
  rw [hreduce]

/-- Trees that were parsed mean in turn what each means by itself, where all before it mean
something. -/
theorem reduceInTurn_alone {ts : List Tree} (h : ∀ t ∈ ts, ∃ tokens, ofTokens tokens = .ok t)
    {n : Nat} {t : Tree} (ht : ts[n]? = some t)
    (hok : ∀ m < n, ∃ p, (reduceInTurn .none ts)[m]? = some (.ok p)) :
    (reduceInTurn .none ts)[n]? = some (t.reduce .none).1 := by
  induction ts generalizing n with
  | nil => cases ht
  | cons u us ih =>
    rw [List.forall_mem_cons] at h
    cases n with
    | zero =>
      obtain rfl := Option.some.inj ht
      rfl
    | succ n =>
      obtain ⟨p, hp⟩ := hok 0 n.succ_pos
      obtain ⟨tokens, hu⟩ := h.1
      have hnone : (u.reduce .none).2 = .none := reduce_leaves_none hu (Option.some.inj hp)
      -- So the trees after the first start as those of a run of their own.
      have hrest : reduceInTurn .none (u :: us) = (u.reduce .none).1 :: reduceInTurn .none us := by
        rw [reduceInTurn, hnone]
      rw [hrest] at hok ⊢
      exact ih h.2 ht fun m hm => hok (m + 1) (Nat.succ_lt_succ hm)

/-- A definition, and after it one that passes an argument twice: the second is refused for what it
is refused for by itself. -/
theorem reduceInTurn_alone_refused :
    let tokens : List Token := [⟨.nonterminal "A", 0, 1⟩, ⟨.colons ":", 1, 2⟩, ⟨.newline, 2, 3⟩,
      ⟨.terminal "\x60x\x60", 3, 6⟩, ⟨.eof, 6, 6⟩]
    let others : List Token := [⟨.nonterminal "B", 0, 1⟩, ⟨.colons ":", 1, 2⟩, ⟨.newline, 2, 3⟩,
      ⟨.call "C", 3, 4⟩, ⟨.reserved .openBracket, 4, 5⟩, ⟨.reserved .plus, 5, 6⟩,
      ⟨.nonterminal "P", 6, 7⟩, ⟨.reserved .comma, 7, 8⟩, ⟨.reserved .plus, 8, 9⟩,
      ⟨.nonterminal "P", 9, 10⟩, ⟨.reserved .closeBracket, 10, 11⟩, ⟨.eof, 11, 11⟩]
    ∃ t u, ofTokens tokens = .ok t ∧ ofTokens others = .ok u ∧
      (∃ p, (reduceInTurn .none [t, u])[0]? = some (.ok p)) ∧
      (reduceInTurn .none [t, u])[1]? = some (u.reduce .none).1 := by
  intro tokens others
  have hok : (ofTokens tokens >>= fun t => (ofTokens others).map fun _ =>
      (t.reduce .none).1.isOk).toOption = some true := by decide +kernel
  cases ht : ofTokens tokens with
  | error e => simp [ht, bind, Except.bind, Except.toOption] at hok
  | ok t =>
    cases hu : ofTokens others with
    | error e => simp [ht, hu, bind, Except.bind, Except.toOption, Except.map] at hok
    | ok u =>
      cases hp : (t.reduce .none).1 with
      | error e =>
        simp [ht, hu, hp, bind, Except.bind, Except.toOption, Except.map, Except.isOk,
          Except.toBool] at hok
      | ok p =>
        have hfirst : (reduceInTurn .none [t, u])[0]? = some (.ok p) := congrArg some hp
        refine ⟨t, u, rfl, rfl, ⟨p, hfirst⟩, reduceInTurn_alone (n := 1) ?_ rfl ?_⟩
        · simpa using ⟨⟨tokens, ht⟩, others, hu⟩
        · intro m hm
          obtain rfl : m = 0 := by omega
          exact ⟨p, hfirst⟩

end GrammarText.Tree
