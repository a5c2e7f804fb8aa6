import GrammarText.Proofs.Parsing.Trace

/-!
# Misses: what a trace tells of tokens that it has not come to

A trace that finds nothing has met a miss (`Trace.exists_miss`).  What a trace finds without the
help of a peek stands in front of any tokens (`Trace.derives_before`).  And a trace that was stopped
at some place goes the same way over other tokens from there on, as long as the first of them is not
what was asked for at that place (`Trace.replay`).
-/

namespace GrammarText

variable {g : Description} {close : Nat} {p : Part} {ahead : List Token} {ms : List Miss}
  {res : Option (List Tree × List Token)}

/-- Every rule is defined and has an alternative. -/
def Description.Total (g : Description) : Prop :=
  ∀ r, ∃ is alternatives, g.rules.alternatives? r = some (is :: alternatives)

/-- A result that shows that something was asked for in vain: nothing, or rounds of which the first
was not met. -/
def Part.InVain (res : Option (List Tree × List Token)) : Part → Prop
  | .choice _ _ [] => False
  | .rounds _ => ∃ rest, res = some ([], rest)
  | _ => res = none

/-- Rounds that give no trees take no tokens. -/
theorem Derives.rounds_nil {m : Matcher} {taken rest : List Token} {ts : List Tree}
    (h : Derives g close (.rounds m) taken rest ts) (hts : ts = []) : taken = [] := by
  rcases rounds_iff.mp h with ⟨rfl, -⟩ | ⟨u, v, us, vs, -, rfl, hu, -⟩
  · rfl
  · obtain ⟨t, rfl⟩ := hu.exists_tree
    simp at hts

namespace Trace

/-- The tokens left are among those ahead. -/
theorem length_le {peeks : Prop} {ts : List Tree} {rest : List Token}
    (h : Trace g close peeks p ahead ms (some (ts, rest))) : rest.length ≤ ahead.length := by
  obtain ⟨taken, rfl, -⟩ := h.derives rfl
  rw [List.length_append]
  exact Nat.le_add_left _ _

/-- What was in vain has met a miss at the tokens ahead or farther on. -/
theorem exists_miss (hg : g.Total) {peeks : Prop} (h : Trace g close peeks p ahead ms res)
    (hv : p.InVain res) : ∃ m ∈ ms, m.left ≤ ahead.length := by
  induction h with
  | leaf | here | present | absent | star | plus | peek | nil | cons => cases hv
  | one h ih => exact ih hv
  | leafMiss hw ht => exact ⟨_, List.mem_singleton_self _, Nat.le_refl _⟩
  | @undefined r _ hr =>
    obtain ⟨is, alternatives, hr'⟩ := hg r
    simp [hr] at hr'
  | rule hr h ih =>
    obtain ⟨is, alternatives, hr'⟩ := hg _
    obtain rfl := Option.some.inj (hr.symm.trans hr')
    exact ih hv
  | exhausted => exact hv.elim
  | later h hs ih ihs =>
    obtain ⟨m, hm, hl⟩ := ih rfl
    exact ⟨m, List.mem_append_left _ hm, hl⟩
  | done h ih => exact ih rfl
  -- Rounds that met anything have a tree to show for it.
  | stall h hl =>
    obtain ⟨rest, hres⟩ := hv
    obtain ⟨taken, -, hd⟩ := h.derives rfl
    obtain ⟨t, rfl⟩ := hd.exists_tree
    simp at hres
  | round h hl hs =>
    obtain ⟨rest, hres⟩ := hv
    obtain ⟨taken, -, hd⟩ := h.derives rfl
    obtain ⟨t, rfl⟩ := hd.exists_tree
    simp at hres
  | plusMiss h ih => exact ih ⟨_, rfl⟩
  | peekMiss h ih | consMiss h ih => exact ih rfl
  | consLater h hs ih ihs =>
    obtain ⟨m, hm, hl⟩ := ihs rfl
    exact ⟨m, List.mem_append_right _ hm, Nat.le_trans hl h.length_le⟩

end Trace

/-! ## In front of other tokens -/

/-- The tokens taken from those ahead can be derived in front of any tokens, by as many trees as
some. -/
def Portable (g : Description) (p : Part) (ahead : List Token) (ts : List Tree)
    (rest : List Token) : Prop :=
  ∃ taken, ahead = taken ++ rest ∧
    ∀ close' rest', ∃ ts', Derives g close' p taken rest' ts' ∧ ts'.length = ts.length

namespace Portable

variable {q r : Part} {ts us : List Tree} {rest mid : List Token}

/-- A step that makes other trees of those found, as many for as many. -/
theorem imp (h : Portable g p ahead ts rest)
    (hstep : ∀ close taken rest ts', ts'.length = ts.length → Derives g close p taken rest ts' →
      ∃ us', Derives g close q taken rest us' ∧ us'.length = us.length) :
    Portable g q ahead us rest := by
  obtain ⟨taken, rfl, hd⟩ := h
  refine ⟨taken, rfl, fun close' rest' => ?_⟩
  obtain ⟨ts', hd, hl⟩ := hd close' rest'
  exact hstep _ _ _ _ hl hd

/-- A step that goes on where another has stopped. -/
theorem append (h : Portable g p ahead ts mid) (hs : Portable g q mid us rest)
    (hstep : ∀ close u v rest ts' us', Derives g close p u (v ++ rest) ts' →
      Derives g close q v rest us' → Derives g close r (u ++ v) rest (ts' ++ us')) :
    Portable g r ahead (ts ++ us) rest := by
  obtain ⟨u, rfl, hu⟩ := h
  obtain ⟨v, rfl, hv⟩ := hs
  refine ⟨u ++ v, (List.append_assoc u v rest).symm, fun close' rest' => ?_⟩
  obtain ⟨ts', hts, hl⟩ := hu close' (v ++ rest')
  obtain ⟨us', hus, hls⟩ := hv close' rest'
  refine ⟨ts' ++ us', hstep _ _ _ _ _ _ hts hus, ?_⟩
  rw [List.length_append, List.length_append, hl, hls]

end Portable

namespace Trace

/-- What is found without the help of a peek can be derived in front of any tokens, by as many
trees. -/
theorem derives_before (h : Trace g close False p ahead ms res) {ts : List Tree}
    {rest : List Token} (hres : res = some (ts, rest)) : Portable g p ahead ts rest := by
  induction h generalizing ts rest with
  | leaf hw ht =>
    cases hres
    exact ⟨[_], rfl, fun _ _ => ⟨_, .leaf hw ht, rfl⟩⟩
  | leafMiss | undefined | exhausted | plusMiss | peekMiss | consMiss | consLater => cases hres
  | rule hr h ih => exact (ih hres).imp fun _ _ _ _ hl hd => ⟨_, .rule hr hd, hl⟩
  | here h ih =>
    cases hres
    exact (ih rfl).imp fun _ _ _ _ _ hd => ⟨_, .here hd, rfl⟩
  | later h hs ih ihs => exact (ihs hres).imp fun _ _ _ _ hl hd => ⟨_, .later hd, hl⟩
  | done =>
    cases hres
    exact ⟨[], rfl, fun _ _ => ⟨[], .done, rfl⟩⟩
  | stall h hl ih =>
    cases hres
    refine (ih rfl).imp fun _ _ _ _ hl hd => ⟨_, ?_, hl⟩
    simpa using Derives.round hd .done
  | round h hl hs ih ihs =>
    cases hres
    exact (ih rfl).append (ihs rfl) fun _ _ _ _ _ _ hu hv => .round hu hv
  | one h ih => exact (ih hres).imp fun _ _ _ _ hl hd => ⟨_, .one hd, hl⟩
  | present h ih =>
    cases hres
    exact (ih rfl).imp fun _ _ _ _ hl hd => ⟨_, .present hd, hl⟩
  | absent =>
    cases hres
    exact ⟨[], rfl, fun _ _ => ⟨[.absent], .absent, rfl⟩⟩
  | star h ih =>
    cases hres
    exact (ih rfl).imp fun _ _ _ _ _ hd => ⟨_, .star hd, rfl⟩
  | plus hts h ih =>
    cases hres
    refine (ih rfl).imp fun _ _ _ _ hl hd => ?_
    rcases Derives.rounds_iff.mp hd with ⟨-, rfl⟩ | ⟨u, v, us, vs, rfl, rfl, hu, hv⟩
    · exact absurd (List.length_eq_zero_iff.mp hl.symm) hts
    · exact ⟨_, .plus hu hv, rfl⟩
  | peek hp => exact hp.elim
  | nil =>
    cases hres
    exact ⟨[], rfl, fun _ _ => ⟨[], .nil, rfl⟩⟩
  | cons h hs ih ihs =>
    cases hres
    exact (ih rfl).append (ihs rfl) fun _ _ _ _ _ _ hu hv => .cons hu hv

end Trace

/-! ## The same way over other tokens -/

/-- Two results over tokens with one beginning and different ends `x` and `y`: both find nothing, or
both stop at the same place in the beginning, with as many trees. -/
def Alike (x y : List Token) : Option (List Tree × List Token) →
    Option (List Tree × List Token) → Prop
  | none, none => True
  | some (ts, rest), some (ts', rest') =>
    ts.length = ts'.length ∧ ∃ v, rest = v ++ x ∧ rest' = v ++ y
  | _, _ => False

/-- A result that is found beyond the place where the tokens `x` start. -/
def Beyond (x : List Token) (res : Option (List Tree × List Token)) : Prop :=
  ∃ ts rest, res = some (ts, rest) ∧ rest.length < x.length

section Alike

variable {x y rest : List Token} {ts : List Tree} {res' : Option (List Tree × List Token)}

theorem not_beyond_none : ¬ Beyond x none := by
  rintro ⟨ts, rest, h, -⟩
  cases h

theorem Alike.eq_none (h : Alike x y none res') : res' = none := by
  cases res' with
  | none => rfl
  | some r => exact h.elim

theorem Alike.exists_some (h : Alike x y (some (ts, rest)) res') :
    ∃ ts' v, res' = some (ts', v ++ y) ∧ rest = v ++ x ∧ ts.length = ts'.length := by
  cases res' with
  | none => exact h.elim
  | some r =>
    obtain ⟨hl, v, rfl, hr⟩ := h
    exact ⟨r.1, v, by rw [← hr], rfl, hl⟩

end Alike

/-- A result goes beyond the place where the tokens `x` start, or a trace over the tokens `y` in
their place has a result alike. -/
def Replays (g : Description) (close : Nat) (p : Part) (u x y : List Token)
    (res : Option (List Tree × List Token)) : Prop :=
  Beyond x res ∨ ∃ ms' res', Trace g close False p (u ++ y) ms' res' ∧ Alike x y res res'

section Replays

variable {q : Part} {u v x y rest mid : List Token} {ts us : List Tree}

/-- Where nothing was found, nothing is found over the other tokens. -/
theorem replays_none_iff :
    Replays g close p u x y none ↔ ∃ ms', Trace g close False p (u ++ y) ms' none := by
  constructor
  · rintro (hb | ⟨ms', res', ht, hal⟩)
    · exact absurd hb not_beyond_none
    · obtain rfl := hal.eq_none
      exact ⟨ms', ht⟩
  · rintro ⟨ms', ht⟩
    exact .inr ⟨ms', none, ht, trivial⟩

/-- What was found before the place is found over the other tokens too. -/
theorem replays_some_iff : Replays g close p u x y (some (ts, rest)) ↔ rest.length < x.length ∨
    ∃ ms' ts' v, rest = v ++ x ∧ ts'.length = ts.length ∧
      Trace g close False p (u ++ y) ms' (some (ts', v ++ y)) := by
  constructor
  · rintro (⟨_, _, hres, hb⟩ | ⟨ms', res', ht, hal⟩)
    · cases hres
      exact .inl hb
    · obtain ⟨ts', v, rfl, rfl, hl⟩ := hal.exists_some
      exact .inr ⟨ms', ts', v, rfl, hl.symm, ht⟩
  · rintro (hb | ⟨ms', ts', v, rfl, hl, ht⟩)
    · exact .inl ⟨ts, rest, rfl, hb⟩
    · exact .inr ⟨ms', _, ht, hl.symm, v, rfl, rfl⟩

/-- A step that keeps the result. -/
theorem Replays.imp {res : Option (List Tree × List Token)} (h : Replays g close p u x y res)
    (hstep : ∀ ms res, Trace g close False p (u ++ y) ms res →
      ∃ ms', Trace g close False q (u ++ y) ms' res) : Replays g close q u x y res := by
  rcases h with hb | ⟨ms', res', ht, hal⟩
  · exact .inl hb
  · obtain ⟨ms'', ht⟩ := hstep _ _ ht
    exact .inr ⟨ms'', res', ht, hal⟩

/-- A step that makes other trees of those found, as many for as many. -/
theorem Replays.imp_some (h : Replays g close p u x y (some (ts, rest)))
    (hstep : ∀ ms ts' v, rest = v ++ x → ts'.length = ts.length →
      Trace g close False p (u ++ y) ms (some (ts', v ++ y)) →
      ∃ ms' us', us'.length = us.length ∧
        Trace g close False q (u ++ y) ms' (some (us', v ++ y))) :
    Replays g close q u x y (some (us, rest)) := by
  rw [replays_some_iff] at h ⊢
  rcases h with hb | ⟨ms', ts', v, hv, hl, ht⟩
  · exact .inl hb
  · obtain ⟨ms'', us', hus, ht⟩ := hstep _ _ _ hv hl ht
    exact .inr ⟨ms'', us', v, hv, hus, ht⟩

/-- A step that goes on where another has stopped. -/
theorem Replays.append {r : Part} (h : Replays g close p u x y (some (ts, mid)))
    (hs : ∀ v, mid = v ++ x → Replays g close q v x y (some (us, rest)))
    (hle : rest.length ≤ mid.length)
    (hstep : ∀ ms ms' ts' us' v w, mid = v ++ x →
      Trace g close False p (u ++ y) ms (some (ts', v ++ y)) →
      Trace g close False q (v ++ y) ms' (some (us', w ++ y)) →
      ∃ ms'', Trace g close False r (u ++ y) ms'' (some (ts' ++ us', w ++ y))) :
    Replays g close r u x y (some (ts ++ us, rest)) := by
  rw [replays_some_iff] at h ⊢
  rcases h with hb | ⟨ms, ts', v, rfl, hl, ht⟩
  · exact .inl (Nat.lt_of_le_of_lt hle hb)
  · rcases replays_some_iff.mp (hs v rfl) with hb | ⟨ms', us', w, rfl, hls, hts⟩
    · exact .inl hb
    · obtain ⟨ms'', ht⟩ := hstep _ _ _ _ _ _ rfl ht hts
      refine .inr ⟨ms'', ts' ++ us', w, rfl, ?_, ht⟩
      rw [List.length_append, List.length_append, hl, hls]

end Replays

namespace Trace

variable {u x y : List Token}

/-- A trace that met no miss in the tokens `x` but at their start either goes beyond that start or
goes the same way over any tokens `y` in their place that do not start with what was missed. -/
theorem replay (hg : g.Total) (h : Trace g close False p ahead ms res) (close' : Nat)
    (ha : ahead = u ++ x) (hx : ∀ m ∈ ms, x.length ≤ m.left)
    (hy : ∀ m ∈ ms, m.left = x.length → ∀ t ∈ y.head?, m.wanted.accepts t = false) :
    Replays g close' p u x y res := by
  -- Each case that goes on after a first part splits the misses into those of the two parts.
  induction h generalizing u with
  | leaf hw ht =>
    rw [replays_some_iff]
    cases u with
    | nil =>
      obtain rfl := ha
      exact .inl (Nat.lt_succ_self _)
    | cons t u =>
      obtain ⟨rfl, rfl⟩ := by simpa using ha
      exact .inr ⟨_, _, u, rfl, rfl, .leaf hw ht⟩
  | leafMiss hw ht =>
    refine replays_none_iff.mpr ⟨_, .leafMiss hw ?_⟩
    cases u with
    | nil => exact hy _ (List.mem_singleton_self _) (by simp [ha])
    | cons t u => simpa [ha] using ht
  | undefined hr => exact replays_none_iff.mpr ⟨_, .undefined hr⟩
  | rule hr h ih => exact (ih ha hx hy).imp fun _ _ ht => ⟨_, .rule hr ht⟩
  | exhausted => exact replays_none_iff.mpr ⟨_, .exhausted⟩
  | here h ih => exact (ih ha hx hy).imp_some fun _ _ _ _ _ ht => ⟨_, [_], by rfl, .here ht⟩
  | later h hs ih ihs =>
    simp only [List.forall_mem_append] at hx hy
    obtain ⟨ms', ht⟩ := replays_none_iff.mp (ih ha hx.1 hy.1)
    exact (ihs ha hx.2 hy.2).imp fun _ _ hts => ⟨_, .later ht hts⟩
  | done h ih =>
    obtain ⟨ms', ht⟩ := replays_none_iff.mp (ih ha hx hy)
    exact replays_some_iff.mpr (.inr ⟨_, _, u, ha, rfl, .done ht⟩)
  -- Both ends are put after the same tokens, so the lengths compare alike over either.
  | stall h hlt ih =>
    refine (ih ha hx hy).imp_some fun _ _ v hv hl ht => ⟨_, _, hl, .stall ht ?_⟩
    simp only [ha, hv, List.length_append] at hlt ⊢
    omega
  | round h hlt hs ih ihs =>
    simp only [List.forall_mem_append] at hx hy
    refine (ih ha hx.1 hy.1).append (fun v hv => ihs hv hx.2 hy.2) hs.length_le ?_
    intro _ _ _ _ v w hv ht hts
    refine ⟨_, .round ht ?_ hts⟩
    simp only [ha, hv, List.length_append] at hlt ⊢
    omega
  | one h ih => exact (ih ha hx hy).imp fun _ _ ht => ⟨_, .one ht⟩
  | present h ih => exact (ih ha hx hy).imp_some fun _ _ _ _ hl ht => ⟨_, _, hl, .present ht⟩
  | absent h ih =>
    obtain ⟨ms', ht⟩ := replays_none_iff.mp (ih ha hx hy)
    exact replays_some_iff.mpr (.inr ⟨_, _, u, ha, rfl, .absent ht⟩)
  | star h ih => exact (ih ha hx hy).imp_some fun _ _ _ _ _ ht => ⟨_, [_], by rfl, .star ht⟩
  | plus hts h ih =>
    refine (ih ha hx hy).imp_some fun _ ts' _ _ hl ht => ⟨_, [_], by rfl, .plus ?_ ht⟩
    rintro rfl
    exact hts (List.length_eq_zero_iff.mp hl.symm)
  | plusMiss h ih =>
    rcases replays_some_iff.mp (ih ha hx hy) with hb | ⟨ms', ts', v, rfl, hl, ht⟩
    · -- No round was met, so nothing was taken either.
      obtain ⟨taken, hrest, hd⟩ := h.derives rfl
      obtain rfl := hd.rounds_nil rfl
      have := congrArg List.length (ha.symm.trans hrest)
      simp only [List.length_append, List.length_nil] at this
      omega
    · obtain rfl := List.length_eq_zero_iff.mp hl
      exact replays_none_iff.mpr ⟨_, .plusMiss ht⟩
  | peek hp => exact hp.elim
  | peekMiss h ih =>
    obtain ⟨ms', ht⟩ := replays_none_iff.mp (ih ha hx hy)
    exact replays_none_iff.mpr ⟨_, .peekMiss ht⟩
  | nil => exact replays_some_iff.mpr (.inr ⟨_, _, u, ha, rfl, .nil⟩)
  | cons h hs ih ihs =>
    simp only [List.forall_mem_append] at hx hy
    exact (ih ha hx.1 hy.1).append (fun v hv => ihs hv hx.2 hy.2) hs.length_le
      fun _ _ _ _ _ _ _ ht hts => ⟨_, .cons ht hts⟩
  | consMiss h ih =>
    obtain ⟨ms', ht⟩ := replays_none_iff.mp (ih ha hx hy)
    exact replays_none_iff.mpr ⟨_, .consMiss ht⟩
  | consLater h hs ih ihs =>
    simp only [List.forall_mem_append] at hx hy
    rcases replays_some_iff.mp (ih ha hx.1 hy.1) with hb | ⟨ms', ts', v, rfl, -, ht⟩
    · -- What was missed after tokens beyond the place lies beyond it too.
      obtain ⟨m, hm, hle⟩ := hs.exists_miss hg rfl
      have := hx.2 m hm
      omega
    · obtain ⟨ms'', hts⟩ := replays_none_iff.mp (ihs rfl hx.2 hy.2)
      exact replays_none_iff.mpr ⟨_, .consLater ht hts⟩

end Trace
end GrammarText
