import GrammarText.Proofs.Parsing.Derivation

/-!
# Traces: how the parser goes about a part of a description

`Trace` tells what the parser does at the tokens ahead, step by step: alternatives in order, each
repetition until its first miss, and every miss noted down.  It speaks of no bound on the depth of
calls; an attempt that is not cut off by that bound has a trace (`Description.attempt_traced`), and
what a trace finds is a derivation (`Trace.derives`).  All that is known of the parser in general is
proved by induction on traces.
-/

namespace GrammarText

/-- The parser meets a part at the tokens ahead with these misses and this result: the trees found
and the tokens left, or nothing.  Where `peeks` fails, no peek has found what it asks for. -/
inductive Trace (g : Description) (close : Nat) (peeks : Prop) :
    Part → List Token → List Miss → Option (List Tree × List Token) → Prop where
  | leaf {m w t rest} (hw : m.wanted? = some w) (ht : w.accepts t = true) :
      Trace g close peeks (.matcher m) (t :: rest) [] (some ([.token t], rest))
  | leafMiss {m w ahead} (hw : m.wanted? = some w)
      (ht : ∀ t ∈ ahead.head?, w.accepts t = false) :
      Trace g close peeks (.matcher m) ahead [⟨ahead.length, w⟩] none
  | undefined {r ahead} (hr : g.rules.alternatives? r = none) :
      Trace g close peeks (.matcher (.rule r)) ahead [] none
  | rule {r alternatives ahead ms res} (hr : g.rules.alternatives? r = some alternatives)
      (h : Trace g close peeks (.choice r 0 alternatives) ahead ms res) :
      Trace g close peeks (.matcher (.rule r)) ahead ms res
  | exhausted {r n ahead} : Trace g close peeks (.choice r n []) ahead [] none
  | here {r n is alternatives ahead ms ts rest}
      (h : Trace g close peeks (.items is) ahead ms (some (ts, rest))) :
      Trace g close peeks (.choice r n (is :: alternatives)) ahead ms
        (some ([.node ⟨r, n, startOf close ahead, stopOf close ahead rest⟩ ts], rest))
  | later {r n is alternatives ahead ms ms' res}
      (h : Trace g close peeks (.items is) ahead ms none)
      (hs : Trace g close peeks (.choice r (n + 1) alternatives) ahead ms' res) :
      Trace g close peeks (.choice r n (is :: alternatives)) ahead (ms ++ ms') res
  | done {m ahead ms} (h : Trace g close peeks (.matcher m) ahead ms none) :
      Trace g close peeks (.rounds m) ahead ms (some ([], ahead))
  -- A round that takes nothing is the last one.
  | stall {m ahead ms ts rest} (h : Trace g close peeks (.matcher m) ahead ms (some (ts, rest)))
      (hl : ¬ rest.length < ahead.length) :
      Trace g close peeks (.rounds m) ahead ms (some (ts, rest))
  | round {m ahead ms ts mid ms' us rest}
      (h : Trace g close peeks (.matcher m) ahead ms (some (ts, mid)))
      (hl : mid.length < ahead.length)
      (hs : Trace g close peeks (.rounds m) mid ms' (some (us, rest))) :
      Trace g close peeks (.rounds m) ahead (ms ++ ms') (some (ts ++ us, rest))
  | one {m ahead ms res} (h : Trace g close peeks (.matcher m) ahead ms res) :
      Trace g close peeks (.item ⟨m, .one⟩) ahead ms res
  | present {m ahead ms ts rest} (h : Trace g close peeks (.matcher m) ahead ms (some (ts, rest))) :
      Trace g close peeks (.item ⟨m, .optional⟩) ahead ms (some (ts, rest))
  | absent {m ahead ms} (h : Trace g close peeks (.matcher m) ahead ms none) :
      Trace g close peeks (.item ⟨m, .optional⟩) ahead ms (some ([.absent], ahead))
  | star {m ahead ms ts rest} (h : Trace g close peeks (.rounds m) ahead ms (some (ts, rest))) :
      Trace g close peeks (.item ⟨m, .star⟩) ahead ms (some ([.repeated ts], rest))
  | plus {m ahead ms ts rest} (hts : ts ≠ [])
      (h : Trace g close peeks (.rounds m) ahead ms (some (ts, rest))) :
      Trace g close peeks (.item ⟨m, .plus⟩) ahead ms (some ([.repeated ts], rest))
  | plusMiss {m ahead ms rest} (h : Trace g close peeks (.rounds m) ahead ms (some ([], rest))) :
      Trace g close peeks (.item ⟨m, .plus⟩) ahead ms none
  | peek {m ahead ms ts rest} (hp : peeks)
      (h : Trace g close peeks (.matcher m) ahead ms (some (ts, rest))) :
      Trace g close peeks (.item ⟨m, .peek⟩) ahead ms (some ([], ahead))
  | peekMiss {m ahead ms} (h : Trace g close peeks (.matcher m) ahead ms none) :
      Trace g close peeks (.item ⟨m, .peek⟩) ahead ms none
  | nil {ahead} : Trace g close peeks (.items []) ahead [] (some ([], ahead))
  | cons {i is ahead ms ts mid ms' us rest}
      (h : Trace g close peeks (.item i) ahead ms (some (ts, mid)))
      (hs : Trace g close peeks (.items is) mid ms' (some (us, rest))) :
      Trace g close peeks (.items (i :: is)) ahead (ms ++ ms') (some (ts ++ us, rest))
  | consMiss {i is ahead ms} (h : Trace g close peeks (.item i) ahead ms none) :
      Trace g close peeks (.items (i :: is)) ahead ms none
  | consLater {i is ahead ms ts mid ms'}
      (h : Trace g close peeks (.item i) ahead ms (some (ts, mid)))
      (hs : Trace g close peeks (.items is) mid ms' none) :
      Trace g close peeks (.items (i :: is)) ahead (ms ++ ms') none

variable {g : Description} {close : Nat}

/-- A repetition never misses. -/
theorem Trace.rounds_ne_none {peeks : Prop} {m : Matcher} {ahead : List Token} {ms : List Miss} :
    ¬ Trace g close peeks (.rounds m) ahead ms none := by
  intro h
  cases h

/-! ## Attempts have traces -/

/-- The attempt goes as a trace of the part does, unless calls were too deep. -/
def Attempt.Traced {α : Type} (g : Description) (close : Nat) (p : Part) (trees : α → List Tree)
    (ahead : List Token) (a : Attempt α) : Prop :=
  match a.outcome with
  | .hit value rest => Trace g close True p ahead a.misses (some (trees value, rest))
  | .miss => Trace g close True p ahead a.misses none
  | .tooDeep _ => True

namespace Attempt.Traced

variable {α : Type} {p : Part} {trees : α → List Tree} {ahead rest : List Token} {a : Attempt α}
  {value : α}

theorem of_hit (h : a.Traced g close p trees ahead) (ho : a.outcome = .hit value rest) :
    Trace g close True p ahead a.misses (some (trees value, rest)) := by
  simpa [Traced, ho] using h

theorem of_miss (h : a.Traced g close p trees ahead) (ho : a.outcome = .miss) :
    Trace g close True p ahead a.misses none := by
  simpa [Traced, ho] using h

end Attempt.Traced

section Traced

open Attempt

variable {call : Rule → List Token → Attempt Tree}

theorem takeToken_traced {m : Matcher} {w : Wanted} (hw : m.wanted? = some w)
    (ahead : List Token) :
    (takeToken w.accepts w ahead).Traced g close (.matcher m) ([·]) ahead := by
  cases ahead with
  | nil => exact .leafMiss hw (by simp)
  | cons t rest =>
    by_cases ht : w.accepts t = true
    · simpa [takeToken, ht, Traced, hit] using .leaf hw ht
    · simpa [takeToken, ht, Traced, fail] using .leafMiss hw (by simpa using ht)

theorem Matcher.attempt_traced
    (hcall : ∀ r ahead, (call r ahead).Traced g close (.matcher (.rule r)) ([·]) ahead)
    (m : Matcher) (ahead : List Token) :
    (m.attempt call ahead).Traced g close (.matcher m) ([·]) ahead := by
  cases m with
  | token k => exact takeToken_traced (w := .kind k) rfl ahead
  | word w => exact takeToken_traced (w := .word w) rfl ahead
  | rule r => exact hcall r ahead

-- The limit on rounds is never met, as each round but the last takes a token.
theorem repeated_traced {m : Matcher} {once : List Token → Attempt Tree}
    (honce : ∀ ahead, (once ahead).Traced g close (.matcher m) ([·]) ahead)
    {limit : Nat} {ahead : List Token} (hl : ahead.length < limit) :
    (Attempt.repeated once limit ahead).Traced g close (.rounds m) id ahead := by
  induction limit generalizing ahead with
  | zero => omega
  | succ limit ih =>
    have h := honce ahead
    cases ho : (once ahead).outcome with
    | hit t mid =>
      by_cases hm : mid.length < ahead.length
      · have hs : (Attempt.repeated once limit mid).Traced g close (.rounds m) id mid :=
          ih (by omega)
        cases hr : (Attempt.repeated once limit mid).outcome with
        | hit ts rest =>
          simpa [Attempt.repeated, andThen_of_hit ho, hm, map_of_hit hr, orElse, Traced, after]
            using .round (h.of_hit ho) hm (hs.of_hit hr)
        | miss => exact absurd (hs.of_miss hr) Trace.rounds_ne_none
        | tooDeep r =>
          simp [Attempt.repeated, andThen_of_hit ho, hm, map_of_tooDeep hr, orElse, Traced, after]
      · simpa [Attempt.repeated, andThen_of_hit ho, hm, orElse, Traced, after, hit]
          using .stall (h.of_hit ho) hm
    | miss =>
      simpa [Attempt.repeated, andThen_of_miss ho, orElse, Traced, after, hit]
        using .done (h.of_miss ho)
    | tooDeep r => simp [Attempt.repeated, andThen_of_tooDeep ho, orElse, Traced]

theorem Item.attempt_traced
    (hcall : ∀ r ahead, (call r ahead).Traced g close (.matcher (.rule r)) ([·]) ahead)
    (i : Item) (ahead : List Token) :
    (i.attempt call ahead).Traced g close (.item i) id ahead := by
  obtain ⟨m, q⟩ := i
  have h := Matcher.attempt_traced hcall m ahead
  have hs : (Attempt.repeated (m.attempt call) (ahead.length + 1) ahead).Traced g close
      (.rounds m) id ahead := repeated_traced (Matcher.attempt_traced hcall m) (Nat.lt_succ_self _)
  cases q with
  | one =>
    cases ho : (m.attempt call ahead).outcome with
    | hit t rest => simpa [Item.attempt, map_of_hit ho, Traced] using .one (h.of_hit ho)
    | miss => simpa [Item.attempt, map_of_miss ho, Traced] using .one (h.of_miss ho)
    | tooDeep r => simp [Item.attempt, map_of_tooDeep ho, Traced]
  | optional =>
    cases ho : (m.attempt call ahead).outcome with
    | hit t rest => simpa [Item.attempt, map_of_hit ho, orElse, Traced] using .present (h.of_hit ho)
    | miss =>
      simpa [Item.attempt, map_of_miss ho, orElse, Traced, after, hit] using .absent (h.of_miss ho)
    | tooDeep r => simp [Item.attempt, map_of_tooDeep ho, orElse, Traced]
  | star =>
    cases ho : (Attempt.repeated (m.attempt call) (ahead.length + 1) ahead).outcome with
    | hit ts rest => simpa [Item.attempt, map_of_hit ho, Traced] using .star (hs.of_hit ho)
    | miss => exact absurd (hs.of_miss ho) Trace.rounds_ne_none
    | tooDeep r => simp [Item.attempt, map_of_tooDeep ho, Traced]
  | plus =>
    cases ho : (Attempt.repeated (m.attempt call) (ahead.length + 1) ahead).outcome with
    | hit ts rest =>
      have hts := hs.of_hit ho
      cases ts with
      | nil => simpa [Item.attempt, andThen_of_hit ho, Traced, after] using .plusMiss hts
      | cons t ts =>
        simpa [Item.attempt, andThen_of_hit ho, Traced, after, hit] using .plus (by simp) hts
    | miss => exact absurd (hs.of_miss ho) Trace.rounds_ne_none
    | tooDeep r => simp [Item.attempt, andThen_of_tooDeep ho, Traced]
  | peek =>
    cases ho : (m.attempt call ahead).outcome with
    | hit t rest =>
      simpa [Item.attempt, andThen_of_hit ho, Traced, after, hit] using .peek trivial (h.of_hit ho)
    | miss => simpa [Item.attempt, andThen_of_miss ho, Traced] using .peekMiss (h.of_miss ho)
    | tooDeep r => simp [Item.attempt, andThen_of_tooDeep ho, Traced]

theorem attemptItems_traced
    (hcall : ∀ r ahead, (call r ahead).Traced g close (.matcher (.rule r)) ([·]) ahead)
    (is : List Item) (ahead : List Token) :
    (attemptItems call is ahead).Traced g close (.items is) id ahead := by
  induction is generalizing ahead with
  | nil => simpa [attemptItems, Traced, hit] using .nil
  | cons i is ih =>
    have h := Item.attempt_traced hcall i ahead
    cases ho : (i.attempt call ahead).outcome with
    | hit ts mid =>
      cases hr : (attemptItems call is mid).outcome with
      | hit us rest =>
        simpa [attemptItems, andThen_of_hit ho, map_of_hit hr, Traced, after]
          using .cons (h.of_hit ho) ((ih mid).of_hit hr)
      | miss =>
        simpa [attemptItems, andThen_of_hit ho, map_of_miss hr, Traced, after]
          using .consLater (h.of_hit ho) ((ih mid).of_miss hr)
      | tooDeep r => simp [attemptItems, andThen_of_hit ho, map_of_tooDeep hr, Traced, after]
    | miss => simpa [attemptItems, andThen_of_miss ho, Traced] using .consMiss (h.of_miss ho)
    | tooDeep r => simp [attemptItems, andThen_of_tooDeep ho, Traced]

theorem attemptFirst_traced
    (hcall : ∀ r ahead, (call r ahead).Traced g close (.matcher (.rule r)) ([·]) ahead)
    (r : Rule) (n : Nat) (alternatives : List (List Item)) (ahead : List Token) :
    ((attemptFirst call n alternatives ahead).andThen fun (n, ts) rest =>
      .hit (Tree.node ⟨r, n, startOf close ahead, stopOf close ahead rest⟩ ts) rest).Traced
        g close (.choice r n alternatives) ([·]) ahead := by
  induction alternatives generalizing n with
  | nil => simpa [attemptFirst, andThen, Traced] using .exhausted
  | cons is alternatives ih =>
    have h := attemptItems_traced hcall is ahead
    cases ho : (attemptItems call is ahead).outcome with
    | hit ts rest =>
      simpa [attemptFirst, map_of_hit ho, orElse, andThen, Traced, after, hit]
        using .here (h.of_hit ho)
    | miss =>
      have hs := ih (n + 1)
      cases hr : (attemptFirst call (n + 1) alternatives ahead).outcome with
      | hit v rest =>
        rw [andThen_of_hit hr] at hs
        have hs := hs.of_hit rfl
        simp only [misses_after, hit, List.append_nil] at hs
        simpa [attemptFirst, map_of_miss ho, orElse, hr, andThen, Traced, after, hit]
          using .later (h.of_miss ho) hs
      | miss =>
        rw [andThen_of_miss hr] at hs
        simpa [attemptFirst, map_of_miss ho, orElse, hr, andThen, Traced, after]
          using .later (h.of_miss ho) (hs.of_miss rfl)
      | tooDeep s => simp [attemptFirst, map_of_miss ho, orElse, hr, andThen, Traced, after]
    | tooDeep s => simp [attemptFirst, map_of_tooDeep ho, orElse, andThen, Traced]

/-- An attempt at a rule has a trace, unless it was cut off. -/
theorem Description.attempt_traced (depth : Nat) (r : Rule) (ahead : List Token) :
    (g.attempt close depth r ahead).Traced g close (.matcher (.rule r)) ([·]) ahead := by
  induction depth generalizing r ahead with
  | zero => simp [Description.attempt, Traced]
  | succ depth ih =>
    cases hr : g.rules.alternatives? r with
    | none => simpa [Description.attempt, hr, Traced] using .undefined hr
    | some alternatives =>
      have h := attemptFirst_traced ih r 0 alternatives ahead
      rw [Description.attempt, hr]
      -- The outcome is that of the first alternative, and so are its misses.
      unfold Traced at h ⊢
      split at h
      · rename_i ho
        simpa [ho] using .rule hr h
      · rename_i ho
        simpa [ho] using .rule hr h
      · rename_i ho
        simp [ho]

end Traced

/-! ## What a trace finds is a derivation -/

theorem stopOf_append (close : Nat) (taken rest : List Token) :
    stopOf close (taken ++ rest) rest =
      (taken.getLast?.map Token.stop).getD (startOf close rest) := by
  have htake : (taken ++ rest).take ((taken ++ rest).length - rest.length) = taken := by simp
  rw [stopOf, htake]
  cases hl : taken.getLast? with
  | none => simp [List.getLast?_eq_none_iff.mp hl]
  | some t => simp

namespace Trace

variable {peeks : Prop} {p : Part} {ahead : List Token} {ms : List Miss}

/-- The tokens found stand in front of the tokens left, and they are derived by the trees found. -/
theorem derives {res : Option (List Tree × List Token)} (h : Trace g close peeks p ahead ms res)
    {ts : List Tree} {rest : List Token} (hres : res = some (ts, rest)) :
    ∃ taken, ahead = taken ++ rest ∧ Derives g close p taken rest ts := by
  induction h generalizing ts rest with
  | leaf hw ht =>
    cases hres
    exact ⟨[_], rfl, .leaf hw ht⟩
  | leafMiss | undefined | exhausted | plusMiss | peekMiss | consMiss | consLater => cases hres
  | rule hr h ih =>
    obtain ⟨taken, rfl, hd⟩ := ih hres
    exact ⟨taken, rfl, .rule hr hd⟩
  | here h ih =>
    cases hres
    obtain ⟨taken, rfl, hd⟩ := ih rfl
    refine ⟨taken, rfl, ?_⟩
    rw [stopOf_append]
    exact .here hd
  | later h hs ih ihs =>
    obtain ⟨taken, rfl, hd⟩ := ihs hres
    exact ⟨taken, rfl, .later hd⟩
  | done h ih =>
    cases hres
    exact ⟨[], rfl, .done⟩
  | stall h hl ih =>
    cases hres
    obtain ⟨taken, rfl, hd⟩ := ih rfl
    exact ⟨taken, rfl, by simpa using Derives.round hd .done⟩
  | round h hl hs ih ihs =>
    cases hres
    obtain ⟨u, rfl, hu⟩ := ih rfl
    obtain ⟨v, rfl, hv⟩ := ihs rfl
    exact ⟨u ++ v, by simp, .round hu hv⟩
  | one h ih =>
    obtain ⟨taken, rfl, hd⟩ := ih hres
    exact ⟨taken, rfl, .one hd⟩
  | present h ih =>
    cases hres
    obtain ⟨taken, rfl, hd⟩ := ih rfl
    exact ⟨taken, rfl, .present hd⟩
  | absent h ih =>
    cases hres
    exact ⟨[], rfl, .absent⟩
  | star h ih =>
    cases hres
    obtain ⟨taken, rfl, hd⟩ := ih rfl
    exact ⟨taken, rfl, .star hd⟩
  | plus hts h ih =>
    cases hres
    obtain ⟨taken, rfl, hd⟩ := ih rfl
    rcases Derives.rounds_iff.mp hd with ⟨-, hnil⟩ | ⟨u, v, us, vs, rfl, rfl, hu, hv⟩
    · exact absurd hnil hts
    · exact ⟨u ++ v, rfl, .plus hu hv⟩
  | peek hp h ih =>
    cases hres
    obtain ⟨taken, rfl, hd⟩ := ih rfl
    exact ⟨[], rfl, .peek hd⟩
  | nil =>
    cases hres
    exact ⟨[], rfl, .nil⟩
  | cons h hs ih ihs =>
    cases hres
    obtain ⟨u, rfl, hu⟩ := ih rfl
    obtain ⟨v, rfl, hv⟩ := ihs rfl
    exact ⟨u ++ v, by simp, .cons hu hv⟩

end Trace
end GrammarText
