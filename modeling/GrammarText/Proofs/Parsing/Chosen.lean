import GrammarText.Proofs.Parsing.Settling

/-!
# Choices: the tree that the parser gives is the one that ordered choice asks for

`Chosen` says which trees a part of a description has between two places of a list of tokens when
alternatives are tried in order: the number of a node's alternative, the items that its children
come from, the misses that came before, and the bytes that the node covers.  What the parser finds
anywhere is chosen in this sense (`Trace.met`), for any description without left recursion
(`Description.parse_chosen`).
-/

namespace GrammarText

open GrammarText.Tree (tokensOfAll)

/-! ## What the parser does at a place -/

section Places

variable (g : Description) (tokens : List Token)

def Description.matcherAt (m : Matcher) (pos : Nat) : Attempt Tree :=
  m.attempt (g.attempt (closeOf tokens) (g.depthBound tokens)) (tokens.drop pos)

def Description.itemsAt (is : List Item) (pos : Nat) : Attempt (List Tree) :=
  attemptItems (g.attempt (closeOf tokens) (g.depthBound tokens)) is (tokens.drop pos)

end Places

/-- Where the token at a place starts, or where the last one has ended behind them all. -/
def startAt (tokens : List Token) (pos : Nat) : Nat :=
  match tokens[pos]? with
  | some t => t.start
  | none => closeOf tokens

/-- The bytes from the first to the last of the tokens between two places, or none where the first
place is. -/
inductive SpanBetween (tokens : List Token) : Nat → Nat → Nat → Nat → Prop where
  | empty {i} : SpanBetween tokens i i (startAt tokens i) (startAt tokens i)
  | tokens {i j first last} (hlt : i < j) (hfirst : tokens[i]? = some first)
      (hlast : tokens[j - 1]? = some last) : SpanBetween tokens i j first.start last.stop

/-- A part of a description is met between two places of a list of tokens by trees of which each
node is of the first alternative that can be met. -/
inductive Chosen (g : Description) (tokens : List Token) : Part → Nat → Nat → List Tree → Prop where
  | token {m w t i} (hw : m.wanted? = some w) (ht : tokens[i]? = some t)
      (hacc : w.accepts t = true) : Chosen g tokens (.matcher m) i (i + 1) [.token t]
  | node {r alternatives n is i j start stop ts}
      (hr : g.rules.alternatives? r = some alternatives) (hn : alternatives[n]? = some is)
      (hbefore : ∀ k < n, ∀ js, alternatives[k]? = some js →
        (g.itemsAt tokens js i).outcome = .miss)
      (hspan : SpanBetween tokens i j start stop) (h : Chosen g tokens (.items is) i j ts) :
      Chosen g tokens (.matcher (.rule r)) i j [.node ⟨r, n, start, stop⟩ ts]
  | done {m i} (hmiss : (g.matcherAt tokens m i).outcome = .miss) :
      Chosen g tokens (.rounds m) i i []
  -- A round that takes nothing is the last one.
  | stall {m i ts} (h : Chosen g tokens (.matcher m) i i ts) : Chosen g tokens (.rounds m) i i ts
  | round {m i j k ts us} (hlt : i < j) (h : Chosen g tokens (.matcher m) i j ts)
      (hs : Chosen g tokens (.rounds m) j k us) : Chosen g tokens (.rounds m) i k (ts ++ us)
  | one {m i j ts} (h : Chosen g tokens (.matcher m) i j ts) :
      Chosen g tokens (.item ⟨m, .one⟩) i j ts
  | present {m i j ts} (h : Chosen g tokens (.matcher m) i j ts) :
      Chosen g tokens (.item ⟨m, .optional⟩) i j ts
  | absent {m i} (hmiss : (g.matcherAt tokens m i).outcome = .miss) :
      Chosen g tokens (.item ⟨m, .optional⟩) i i [.absent]
  | star {m i j ts} (h : Chosen g tokens (.rounds m) i j ts) :
      Chosen g tokens (.item ⟨m, .star⟩) i j [.repeated ts]
  | plus {m i j ts} (hts : ts ≠ []) (h : Chosen g tokens (.rounds m) i j ts) :
      Chosen g tokens (.item ⟨m, .plus⟩) i j [.repeated ts]
  -- What a peek has found stays in front.
  | peek {m i j ts} (h : Chosen g tokens (.matcher m) i j ts) :
      Chosen g tokens (.item ⟨m, .peek⟩) i i []
  | nil {i} : Chosen g tokens (.items []) i i []
  | cons {i is j k l ts us} (h : Chosen g tokens (.item i) j k ts)
      (hs : Chosen g tokens (.items is) k l us) :
      Chosen g tokens (.items (i :: is)) j l (ts ++ us)

/-! ## The leaves of what is chosen -/

theorem tokensOfAll_append (ts us : List Tree) :
    tokensOfAll (ts ++ us) = tokensOfAll ts ++ tokensOfAll us := by
  induction ts with
  | nil => rfl
  | cons t ts ih => rw [List.cons_append, tokensOfAll, tokensOfAll, ih, List.append_assoc]

theorem take_append_take_drop {α : Type} {i j k : Nat} (hij : i ≤ j) (hjk : j ≤ k) (l : List α) :
    (l.drop i).take (j - i) ++ (l.drop j).take (k - j) = (l.drop i).take (k - i) := by
  rw [show k - i = (j - i) + (k - j) by omega, List.take_add, List.drop_drop,
    show i + (j - i) = j by omega]

namespace Chosen

variable {g : Description} {tokens : List Token} {p : Part} {i j : Nat} {ts : List Tree}

theorem le (h : Chosen g tokens p i j ts) : i ≤ j := by
  induction h with
  | token => exact Nat.le_succ _
  | done | absent | peek | nil | stall => exact Nat.le_refl _
  | node hr hn hbefore hspan h ih => exact ih
  | one h ih | present h ih | star h ih => exact ih
  | plus hts h ih => exact ih
  | round hlt h hs ih ihs | cons h hs ih ihs => exact Nat.le_trans ih ihs

/-- The leaves of what is chosen between two places are the tokens there. -/
theorem tokensOfAll_eq (h : Chosen g tokens p i j ts) :
    tokensOfAll ts = (tokens.drop i).take (j - i) := by
  induction h with
  | @token m w t i hw ht hacc =>
    obtain ⟨hlt, rfl⟩ := List.getElem?_eq_some_iff.mp ht
    rw [List.drop_eq_getElem_cons hlt, Nat.add_sub_cancel_left]
    rfl
  | done | absent | peek | nil => simp [tokensOfAll, Tree.tokens]
  | stall h ih | one h ih | present h ih => exact ih
  | node hr hn hbefore hspan h ih => simpa [tokensOfAll, Tree.tokens] using ih
  | star h ih | plus hts h ih => simpa [tokensOfAll, Tree.tokens] using ih
  | round hlt h hs ih ihs | cons h hs ih ihs =>
    rw [tokensOfAll_append, ih, ihs, take_append_take_drop h.le hs.le]

end Chosen

/-! ## What the parser finds is chosen -/

/-- The parser goes about a part in one way. -/
theorem Trace.unique {g : Description} {close : Nat} {peeks : Prop} {p : Part}
    {ahead : List Token} {ms ms' : List Miss} {res res' : Option (List Tree × List Token)}
    (h : Trace g close peeks p ahead ms res) (h' : Trace g close peeks p ahead ms' res') :
    ms' = ms ∧ res' = res := by
  -- What the first trace says of a part is all that the second one can say of it, so both take the
  -- next step alike.
  induction h generalizing ms' res' with
  | leaf hw ht =>
    cases h' with
    | leaf => exact ⟨rfl, rfl⟩
    | leafMiss hw' ht' =>
      obtain rfl := Option.some.inj (hw.symm.trans hw')
      cases ht.symm.trans (ht' _ rfl)
    | undefined | rule => cases hw
  | leafMiss hw ht =>
    cases h' with
    | leaf hw' ht' =>
      obtain rfl := Option.some.inj (hw.symm.trans hw')
      cases ht'.symm.trans (ht _ rfl)
    | leafMiss hw' =>
      obtain rfl := Option.some.inj (hw.symm.trans hw')
      exact ⟨rfl, rfl⟩
    | undefined | rule => cases hw
  | undefined hr =>
    cases h' with
    | leaf hw' | leafMiss hw' => cases hw'
    | undefined => exact ⟨rfl, rfl⟩
    | rule hr' => cases hr.symm.trans hr'
  | rule hr h ih =>
    cases h' with
    | leaf hw' | leafMiss hw' => cases hw'
    | undefined hr' => cases hr.symm.trans hr'
    | rule hr' h' =>
      obtain rfl := Option.some.inj (hr.symm.trans hr')
      exact ih h'
  | exhausted =>
    cases h'
    exact ⟨rfl, rfl⟩
  | here h ih =>
    cases h' with
    | here h' =>
      obtain ⟨rfl, hres⟩ := ih h'
      cases hres
      exact ⟨rfl, rfl⟩
    | later h' => cases (ih h').2
  | later h hs ih ihs =>
    cases h' with
    | here h' => cases (ih h').2
    | later h' hs' =>
      obtain ⟨rfl, -⟩ := ih h'
      obtain ⟨rfl, rfl⟩ := ihs hs'
      exact ⟨rfl, rfl⟩
  | done h ih =>
    cases h' with
    | done h' =>
      obtain ⟨rfl, -⟩ := ih h'
      exact ⟨rfl, rfl⟩
    | stall h' | round h' => cases (ih h').2
  | stall h hl ih =>
    cases h' with
    | done h' => cases (ih h').2
    | stall h' hl' => exact ih h'
    | round h' hl' =>
      cases (ih h').2
      exact absurd hl' hl
  | round h hl hs ih ihs =>
    cases h' with
    | done h' => cases (ih h').2
    | stall h' hl' =>
      cases (ih h').2
      exact absurd hl hl'
    | round h' hl' hs' =>
      obtain ⟨rfl, hres⟩ := ih h'
      cases hres
      obtain ⟨rfl, hres⟩ := ihs hs'
      cases hres
      exact ⟨rfl, rfl⟩
  | one h ih =>
    cases h' with
    | one h' => exact ih h'
  | present h ih =>
    cases h' with
    | present h' => exact ih h'
    | absent h' => cases (ih h').2
  | absent h ih =>
    cases h' with
    | present h' => cases (ih h').2
    | absent h' =>
      obtain ⟨rfl, -⟩ := ih h'
      exact ⟨rfl, rfl⟩
  | star h ih =>
    cases h' with
    | star h' =>
      obtain ⟨rfl, hres⟩ := ih h'
      cases hres
      exact ⟨rfl, rfl⟩
  | plus hts h ih =>
    cases h' with
    | plus hts' h' =>
      obtain ⟨rfl, hres⟩ := ih h'
      cases hres
      exact ⟨rfl, rfl⟩
    | plusMiss h' =>
      cases (ih h').2
      exact absurd rfl hts
  | plusMiss h ih =>
    cases h' with
    | plus hts' h' =>
      cases (ih h').2
      exact absurd rfl hts'
    | plusMiss h' =>
      obtain ⟨rfl, -⟩ := ih h'
      exact ⟨rfl, rfl⟩
  | peek hp h ih =>
    cases h' with
    | peek hp' h' =>
      obtain ⟨rfl, -⟩ := ih h'
      exact ⟨rfl, rfl⟩
    | peekMiss h' => cases (ih h').2
  | peekMiss h ih =>
    cases h' with
    | peek hp' h' => cases (ih h').2
    | peekMiss h' =>
      obtain ⟨rfl, -⟩ := ih h'
      exact ⟨rfl, rfl⟩
  | nil =>
    cases h'
    exact ⟨rfl, rfl⟩
  | cons h hs ih ihs =>
    cases h' with
    | cons h' hs' =>
      obtain ⟨rfl, hres⟩ := ih h'
      cases hres
      obtain ⟨rfl, hres⟩ := ihs hs'
      cases hres
      exact ⟨rfl, rfl⟩
    | consMiss h' => cases (ih h').2
    | consLater h' hs' =>
      cases (ih h').2
      cases (ihs hs').2
  | consMiss h ih =>
    cases h' with
    | cons h' | consLater h' => cases (ih h').2
    | consMiss h' =>
      obtain ⟨rfl, -⟩ := ih h'
      exact ⟨rfl, rfl⟩
  | consLater h hs ih ihs =>
    cases h' with
    | cons h' hs' =>
      cases (ih h').2
      cases (ihs hs').2
    | consMiss h' => cases (ih h').2
    | consLater h' hs' =>
      obtain ⟨rfl, hres⟩ := ih h'
      cases hres
      obtain ⟨rfl, -⟩ := ihs hs'
      exact ⟨rfl, rfl⟩

/-- An attempt that is not cut off misses where a trace finds nothing. -/
theorem Attempt.Traced.outcome_eq_miss {g : Description} {close : Nat} {α : Type} {p : Part}
    {trees : α → List Tree} {ahead : List Token} {a : Attempt α} {ms : List Miss}
    (ht : a.Traced g close p trees ahead) (hs : a.Settled)
    (h : Trace g close True p ahead ms none) : a.outcome = .miss := by
  cases ho : a.outcome with
  | hit value rest => exact absurd (h.unique (ht.of_hit ho)).2 (by simp)
  | miss => rfl
  | tooDeep r => exact absurd ho (hs r)

section Chosen

variable {g : Description} {tokens : List Token} {ms : List Miss} {pos : Nat}

theorem Description.outcome_matcherAt (R : Ranking g) {m : Matcher}
    (h : Trace g (closeOf tokens) True (.matcher m) (tokens.drop pos) ms none) :
    (g.matcherAt tokens m pos).outcome = .miss := by
  refine (Matcher.attempt_traced (attempt_traced _) m _).outcome_eq_miss ?_ h
  exact Matcher.attempt_settled fun r _ =>
    attempt_settled_of_length_le R (Nat.le_refl _) (by simp) r

theorem Description.outcome_itemsAt (R : Ranking g) {is : List Item}
    (h : Trace g (closeOf tokens) True (.items is) (tokens.drop pos) ms none) :
    (g.itemsAt tokens is pos).outcome = .miss := by
  have hs (r : Rule) {later : List Token} (hl : later.length ≤ tokens.length) :
      (g.attempt (closeOf tokens) (g.depthBound tokens) r later).Settled :=
    attempt_settled_of_length_le R (Nat.le_refl _) hl r
  have hlength : (tokens.drop pos).length ≤ tokens.length := by simp
  refine (attemptItems_traced (attempt_traced _) is _).outcome_eq_miss ?_ h
  exact attemptItems_settled (fun _ _ _ r _ _ _ => hs r hlength) fun r later hl => hs r (by omega)

theorem startOf_drop (tokens : List Token) (pos : Nat) :
    startOf (closeOf tokens) (tokens.drop pos) = startAt tokens pos := by
  rw [startAt, ← List.head?_drop]
  cases tokens.drop pos <;> rfl

theorem spanBetween_of_stopOf {i j : Nat} (hij : i ≤ j) (hj : j ≤ tokens.length) :
    SpanBetween tokens i j (startOf (closeOf tokens) (tokens.drop i))
      (stopOf (closeOf tokens) (tokens.drop i) (tokens.drop j)) := by
  have hcount : (tokens.drop i).length - (tokens.drop j).length = j - i := by
    simp only [List.length_drop]
    omega
  rw [stopOf, hcount]
  rcases Nat.eq_or_lt_of_le hij with rfl | hlt
  · rw [Nat.sub_self, List.take_zero, startOf_drop]
    exact .empty
  · have hi : i < tokens.length := by omega
    have hlast : j - 1 < tokens.length := by omega
    have hstart : startOf (closeOf tokens) (tokens.drop i) = tokens[i].start := by
      rw [List.drop_eq_getElem_cons hi, startOf]
    have hstop : ((tokens.drop i).take (j - i)).getLast? = some tokens[j - 1] := by
      rw [List.getLast?_eq_getElem?, List.length_take, List.length_drop, List.getElem?_take_of_lt,
        List.getElem?_drop, List.getElem?_eq_some_iff]
      · refine ⟨by omega, ?_⟩
        congr 1
        omega
      · omega
    rw [hstart, hstop]
    exact .tokens hlt (List.getElem?_eq_getElem hi) (List.getElem?_eq_getElem hlast)

/-- What is met between two places; of alternatives, by the first that can be met. -/
def Part.Met (g : Description) (tokens : List Token) (i j : Nat) (ts : List Tree) : Part → Prop
  | .choice r n alternatives => ∃ k is start stop us, alternatives[k]? = some is ∧
      (∀ l < k, ∀ js, alternatives[l]? = some js → (g.itemsAt tokens js i).outcome = .miss) ∧
      SpanBetween tokens i j start stop ∧ Chosen g tokens (.items is) i j us ∧
      ts = [.node ⟨r, n + k, start, stop⟩ us]
  | p => Chosen g tokens p i j ts

/-- What a trace finds at a place among the tokens is chosen there. -/
theorem Trace.met (R : Ranking g) {p : Part} {ahead : List Token}
    {res : Option (List Tree × List Token)} (h : Trace g (closeOf tokens) True p ahead ms res)
    {i : Nat} (hi : i ≤ tokens.length) (ha : ahead = tokens.drop i) {ts : List Tree}
    {rest : List Token} (hres : res = some (ts, rest)) :
    ∃ j, i ≤ j ∧ j ≤ tokens.length ∧ rest = tokens.drop j ∧ p.Met g tokens i j ts := by
  induction h generalizing i ts rest with
  | leafMiss | undefined | exhausted | plusMiss | peekMiss | consMiss | consLater => cases hres
  | leaf hw ht =>
    cases hres
    have hlt : i < tokens.length := by
      have := congrArg List.length ha
      simp only [List.length_cons, List.length_drop] at this
      omega
    rw [List.drop_eq_getElem_cons hlt] at ha
    obtain ⟨rfl, rfl⟩ := List.cons.inj ha
    exact ⟨i + 1, Nat.le_succ i, hlt, rfl, .token hw (List.getElem?_eq_getElem hlt) ht⟩
  | rule hr h ih =>
    obtain ⟨j, hij, hj, hrest, k, is, start, stop, us, hk, hbefore, hspan, hus, rfl⟩ :=
      ih hi ha hres
    refine ⟨j, hij, hj, hrest, ?_⟩
    rw [Nat.zero_add]
    exact .node hr hk hbefore hspan hus
  | here h ih =>
    cases hres
    obtain ⟨j, hij, hj, rfl, hus⟩ := ih hi ha rfl
    subst ha
    exact ⟨j, hij, hj, rfl, 0, _, _, _, _, rfl, by simp, spanBetween_of_stopOf hij hj, hus, rfl⟩
  | later h hs ih ihs =>
    obtain ⟨j, hij, hj, hrest, k, is, start, stop, us, hk, hbefore, hspan, hus, rfl⟩ :=
      ihs hi ha hres
    subst ha
    refine ⟨j, hij, hj, hrest, k + 1, is, start, stop, us, hk, fun l hl js hjs => ?_, hspan, hus,
      ?_⟩
    · cases l with
      | zero =>
        obtain rfl := by simpa using hjs
        exact Description.outcome_itemsAt R h
      | succ l => exact hbefore l (by omega) js (by simpa using hjs)
    · rw [Nat.add_right_comm, Nat.add_assoc]
  | done h ih =>
    cases hres
    subst ha
    exact ⟨i, Nat.le_refl _, hi, rfl, .done (Description.outcome_matcherAt R h)⟩
  | stall h hl ih =>
    cases hres
    obtain ⟨j, hij, hj, rfl, hts⟩ := ih hi ha rfl
    obtain rfl : i = j := by
      simp only [ha, List.length_drop] at hl
      omega
    exact ⟨i, hij, hj, rfl, .stall hts⟩
  | round h hl hs ih ihs =>
    cases hres
    obtain ⟨j, hij, hj, rfl, hts⟩ := ih hi ha rfl
    obtain ⟨k, hjk, hk, rfl, hus⟩ := ihs hj rfl rfl
    have hlt : i < j := by
      simp only [ha, List.length_drop] at hl
      omega
    exact ⟨k, Nat.le_trans hij hjk, hk, rfl, .round hlt hts hus⟩
  | one h ih =>
    obtain ⟨j, hij, hj, hrest, hts⟩ := ih hi ha hres
    exact ⟨j, hij, hj, hrest, .one hts⟩
  | present h ih =>
    cases hres
    obtain ⟨j, hij, hj, hrest, hts⟩ := ih hi ha rfl
    exact ⟨j, hij, hj, hrest, .present hts⟩
  | absent h ih =>
    cases hres
    subst ha
    exact ⟨i, Nat.le_refl _, hi, rfl, .absent (Description.outcome_matcherAt R h)⟩
  | star h ih =>
    cases hres
    obtain ⟨j, hij, hj, hrest, hts⟩ := ih hi ha rfl
    exact ⟨j, hij, hj, hrest, .star hts⟩
  | plus hne h ih =>
    cases hres
    obtain ⟨j, hij, hj, hrest, hts⟩ := ih hi ha rfl
    exact ⟨j, hij, hj, hrest, .plus hne hts⟩
  | peek hp h ih =>
    cases hres
    obtain ⟨j, -, -, -, hts⟩ := ih hi ha rfl
    exact ⟨i, Nat.le_refl _, hi, ha, .peek hts⟩
  | nil =>
    cases hres
    exact ⟨i, Nat.le_refl _, hi, ha, .nil⟩
  | cons h hs ih ihs =>
    cases hres
    obtain ⟨j, hij, hj, rfl, hts⟩ := ih hi ha rfl
    obtain ⟨k, hjk, hk, rfl, hus⟩ := ihs hj rfl rfl
    exact ⟨k, Nat.le_trans hij hjk, hk, rfl, .cons hts hus⟩

end Chosen

/-! ## Trees of descriptions without left recursion -/

namespace Description

variable {g : Description} {text : String}

/-- A rule that the parser may come to look up. -/
inductive Reached (g : Description) : Rule → Prop where
  | start : Reached g g.start
  | call {r s alternatives items i} (h : Reached g r)
      (hr : g.rules.alternatives? r = some alternatives) (hitems : items ∈ alternatives)
      (hi : i ∈ items) (hs : i.matcher = .rule s) : Reached g s

/-- In a closed description no lookup fails. -/
theorem Closed.exists_alternatives (hg : g.Closed) {r : Rule} (h : g.Reached r) :
    ∃ alternatives, g.rules.alternatives? r = some alternatives := by
  refine RuleTable.exists_alternatives_iff.mpr ?_
  cases h with
  | start => exact hg.start
  | call h hr hitems hi hs => exact hg.references _ (RuleTable.mem_references hr hitems hi hs)

/-- What the parser gives for tokens by a description that has been read and in which no rule can
call itself again at the same place.  No rule is looked up in vain.  Each match of a matcher or of
items ends at a place among the tokens, is the one chosen there by trying alternatives in order, and
has the tokens in between as its leaves.  And the tree of a whole parse is chosen for the start rule
from the first token on, up to where the text may end. -/
theorem parse_chosen (hread : Description.read text = .ok g) (hrec : ∀ r, ¬ g.LeftRecursive r)
    (tokens : List Token) :
    (∀ r, g.Reached r → ∃ alternatives, g.rules.alternatives? r = some alternatives) ∧
    (∀ depth pos, pos ≤ tokens.length →
      (∀ m tree rest,
        (Matcher.attempt (g.attempt (closeOf tokens) depth) m (tokens.drop pos)).outcome =
          .hit tree rest →
        ∃ stop, pos ≤ stop ∧ stop ≤ tokens.length ∧ rest = tokens.drop stop ∧
          Chosen g tokens (.matcher m) pos stop [tree] ∧
          tree.tokens = (tokens.drop pos).take (stop - pos)) ∧
      ∀ is ts rest,
        (attemptItems (g.attempt (closeOf tokens) depth) is (tokens.drop pos)).outcome =
          .hit ts rest →
        ∃ stop, pos ≤ stop ∧ stop ≤ tokens.length ∧ rest = tokens.drop stop ∧
          Chosen g tokens (.items is) pos stop ts ∧
          tokensOfAll ts = (tokens.drop pos).take (stop - pos)) ∧
    ∀ tree, g.parse tokens = .ok tree → ∃ stop, stop ≤ tokens.length ∧
      atEnd (tokens.drop stop) = true ∧ Chosen g tokens (.matcher (.rule g.start)) 0 stop [tree] ∧
      tree.tokens = tokens.take stop := by
  have hg : g.Closed := closed_of_read hread
  obtain ⟨R⟩ := hg.exists_ranking hrec
  have hleaves {p : Part} {i j : Nat} {tree : Tree} (h : Chosen g tokens p i j [tree]) :
      tree.tokens = (tokens.drop i).take (j - i) := by
    simpa [tokensOfAll] using h.tokensOfAll_eq
  refine ⟨fun r => hg.exists_alternatives, fun depth pos hpos => ⟨?_, ?_⟩, fun tree hok => ?_⟩
  · intro m tree rest ho
    obtain ⟨stop, hle, hstop, hrest, hmet⟩ :=
      ((Matcher.attempt_traced (attempt_traced depth) m _).of_hit ho).met R hpos rfl rfl
    exact ⟨stop, hle, hstop, hrest, hmet, hleaves hmet⟩
  · intro is ts rest ho
    obtain ⟨stop, hle, hstop, hrest, hmet⟩ :=
      ((attemptItems_traced (attempt_traced depth) is _).of_hit ho).met R hpos rfl rfl
    exact ⟨stop, hle, hstop, hrest, hmet, hmet.tokensOfAll_eq⟩
  · obtain ⟨ms, res, htrace, ⟨t, rest, hres, hend, ht⟩ | ⟨-, herror⟩⟩ := exists_trace R tokens
    · obtain rfl : tree = t := by simpa [hok] using ht
      obtain ⟨stop, -, hstop, rfl, hmet⟩ :=
        htrace.met R (Nat.zero_le _) List.drop_zero.symm hres
      exact ⟨stop, hstop, hend, hmet, by simpa using hleaves hmet⟩
    · simp [hok] at herror

/-- The tree of a line break by `lineBreaks`. -/
theorem parse_chosen_lineBreaks :
    let tokens : List Token := [⟨.newline, 0, 1⟩, ⟨.eof, 1, 1⟩]
    let tree : Tree := .node ⟨.grammar, 0, 0, 1⟩
      [.repeated [.node ⟨.block, 0, 0, 1⟩ [.repeated [.token ⟨.newline, 0, 1⟩]],
        .node ⟨.block, 0, 1, 1⟩ [.repeated []]], .token ⟨.eof, 1, 1⟩]
    (∃ text, Description.read text = .ok lineBreaks) ∧ (∀ r, ¬ lineBreaks.LeftRecursive r) ∧
      lineBreaks.parse tokens = .ok tree ∧ ∃ stop, stop ≤ 2 ∧
        Chosen lineBreaks tokens (.matcher (.rule .grammar)) 0 stop [tree] := by
  intro tokens tree
  have hrec := lineBreaks_layering.ranking.not_leftRecursive
  have hparse : lineBreaks.parse tokens = .ok tree := rfl
  obtain ⟨stop, hstop, -, hchosen, -⟩ :=
    (parse_chosen read_lineBreaks hrec tokens).2.2 tree hparse
  exact ⟨⟨_, read_lineBreaks⟩, hrec, hparse, stop, hstop, hchosen⟩

end Description
end GrammarText
