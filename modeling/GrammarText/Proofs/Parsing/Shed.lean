import GrammarText.Proofs.Parsing.Transfer

/-!
# The last line break of a text

A line break at the end of a text ends a line or a block, or it is a blank block.  Where it ends a
line or a block, the end of the text does so as well, and what was derived with the line break is
derived without it (`Derives.shed`).
-/

namespace GrammarText

open List (Forall₂)

variable {close : Nat} {p q : Part} {ends : Bool} {taken rest rest' : List Token}
  {ts us : List Tree}

/-! ## Where a line break may be left out -/

/-- Whether a line break that a matcher takes last ends a line or a block in it. -/
def Matcher.sheds : Matcher → Bool
  | .token k => k ≠ .newline
  | .word _ => true
  | .rule r => r ≠ .block

def Notation.sheds : List Item → Bool
  | [] => true
  | i :: is => (i.matcher.sheds || !is.all (·.idle idle)) && sheds is

def Part.Sheds : Part → Prop
  | .matcher m | .rounds m => m.sheds = true
  | .item i => i.matcher.sheds = true
  | .items is => Notation.sheds is = true
  | .choice _ _ alternatives => ∀ is ∈ alternatives, Notation.sheds is = true

theorem Notation.sheds_alternatives {r : Rule} {alternatives : List (List Item)}
    (hr : builtinRules.alternatives? r = some alternatives) (hending : r.isEnding = false)
    (h : (Matcher.rule r).sheds = true) : ∀ is ∈ alternatives, sheds is = true := by
  revert hending h
  cases r <;> cases hr <;> decide +kernel

/-- What a part derives with a line break at the end it derives without it before the end of the
text. -/
def Part.MayShed (p : Part) (taken : List Token) (ts : List Tree) : Prop :=
  ∀ run t e' close', taken = run ++ [t] → t.lexeme = .newline → e'.isEof = true →
    ∃ us, Derives .builtin close' p run [e'] us ∧ Tree.AllAlike Anywhere Anywhere ts us

/-- Nothing is left out of nothing. -/
theorem Part.mayShed_nil : p.MayShed [] ts := by
  rintro run t e' close' htaken
  simp at htaken

/-- What sheds in a part sheds in the whole. -/
theorem Part.MayShed.mono (h : p.MayShed taken ts)
    (hq : ∀ run e' close' vs, Derives .builtin close' p run [e'] vs →
      Tree.AllAlike Anywhere Anywhere ts vs → ∃ ws,
        Derives .builtin close' q run [e'] ws ∧ Tree.AllAlike Anywhere Anywhere us ws) :
    q.MayShed taken us := by
  intro run t e' close' htaken ht he'
  obtain ⟨vs, hvs, halike⟩ := h run t e' close' htaken ht he'
  exact hq run e' close' vs hvs halike

theorem eq_of_concat_eq_singleton {run : List Token} {t t' : Token} (h : run ++ [t] = [t']) :
    run = [] ∧ t = t' := by
  simpa [List.append_eq_singleton_iff] using h

/-- The end of a line or of a block may be the end of the text. -/
theorem mayShed_of_isEnding {r : Rule} (hr : r.isEnding = true)
    (h : Derives .builtin close (.matcher (.rule r)) taken rest ts) :
    (Part.matcher (.rule r)).MayShed taken ts := by
  rintro run t e' close' rfl ht he'
  obtain ⟨alternatives, halternatives, hchoice⟩ := Derives.rule_iff.mp h
  obtain rfl := Notation.alternatives_of_isEnding halternatives hr
  have hpeek : Derives .builtin close' (.matcher (.rule r)) [] [e']
      [.node (.over close' r 1 [] [e']) []] := by
    have hitems := Derives.cons (g := .builtin) (u := []) (v := []) (.peek_eof he' close') .nil
    exact .rule halternatives (.later (.here hitems))
  obtain ⟨k, is, us, hk, hitems, rfl⟩ := Derives.choice_iff.mp hchoice
  rcases k with _ | _ | k
  · cases hk
    obtain ⟨u, v, us, vs, huv, rfl, hu, hv⟩ := Derives.cons_iff.mp hitems
    obtain ⟨t', ht', rfl, rfl⟩ := (Derives.token_iff rfl).mp (Derives.one_iff.mp hu)
    obtain ⟨rfl, rfl⟩ := Derives.nil_iff.mp hv
    obtain ⟨rfl, rfl⟩ := eq_of_concat_eq_singleton huv
    exact ⟨_, hpeek, .ending [t] [] rfl hr .nil⟩
  · cases hk
    obtain ⟨u, v, us, vs, huv, rfl, hu, hv⟩ := Derives.cons_iff.mp hitems
    obtain ⟨rfl, rfl, -⟩ := Derives.peek_iff.mp hu
    obtain ⟨rfl, rfl⟩ := Derives.nil_iff.mp hv
    simp at huv
  · cases hk

/-- Without the line break some tokens end where they ended with it, or later. -/
theorem endsWith_newline {v : List Token} {e t e' : Token} (ht : t.lexeme = .newline) :
    EndsWith (v ++ [t] ++ [e]) (v ++ [e']) := by
  intro f hf heof
  cases v with
  | nil =>
    obtain rfl : t = f := by simpa using hf
    simp [Token.isEof, ht] at heof
  | cons s v => exact ⟨f, by simpa using hf, heof⟩

/-- Of two parts one after the other, the second one sheds, or the first one if the second one takes
nothing. -/
theorem exists_shed_pair {u v run : List Token} {e t e' : Token} (close' : Nat)
    (hp : p.Placed) (hq : q.Placed)
    (hapt : ∃ ends, Description.builtin_orderly.Apt ends p)
    (hapt' : ∃ ends, Description.builtin_orderly.Apt ends q)
    (h : Derives .builtin close p u (v ++ [e]) ts) (hs : Derives .builtin close q v [e] us)
    (hu : v = [] → p.MayShed u ts) (hv : q.MayShed v us)
    (huv : u ++ v = run ++ [t]) (ht : t.lexeme = .newline) (he' : e'.isEof = true) :
    ∃ u' v' ts' us', run = u' ++ v' ∧ Derives .builtin close' p u' (v' ++ [e']) ts' ∧
      Derives .builtin close' q v' [e'] us' ∧
      Tree.AllAlike Anywhere Anywhere (ts ++ us) (ts' ++ us') := by
  obtain ⟨ends, hapt⟩ := hapt
  obtain ⟨ends', hapt'⟩ := hapt'
  rcases List.eq_nil_or_concat' v with rfl | ⟨v', t', rfl⟩
  · rw [List.append_nil] at huv
    obtain ⟨ts', hts', halike⟩ := hu rfl run t e' close' huv ht he'
    have hends : EndsWith [e] [e'] := fun _ _ _ => ⟨e', rfl, he'⟩
    obtain ⟨us', hus', halike'⟩ := hs.before close' hq hapt' hends
    exact ⟨run, [], ts', us', (List.append_nil run).symm, hts', hus', halike.append halike'⟩
  · rw [← List.append_assoc] at huv
    obtain ⟨hrun, hlast⟩ := List.append_inj' huv rfl
    obtain rfl := List.singleton_inj.mp hlast
    obtain ⟨us', hus', halike'⟩ := hv v' t' e' close' rfl ht he'
    obtain ⟨ts', hts', halike⟩ := h.before close' hp hapt (endsWith_newline ht)
    exact ⟨u, v', ts', us', hrun.symm, hts', hus', halike.append halike'⟩

/-- What is derived with a line break at the end of the text is derived without it, if it ends a
line or a block. -/
theorem Derives.shed (h : Derives .builtin close p taken rest ts)
    (hrest : ∃ e, rest = [e]) (hp : p.Placed)
    (hapt : Description.builtin_orderly.Apt ends p) (hsheds : p.Sheds) : p.MayShed taken ts := by
  -- The line break is that of the last part that takes a token; all parts before it stay.
  induction h generalizing ends with
  | @leaf m w t' rest hw ht' =>
    rintro run t e' close' htaken ht he'
    obtain ⟨rfl, rfl⟩ := eq_of_concat_eq_singleton htaken.symm
    cases m with
    | token k =>
      cases hw
      have hk : k = .newline := by
        simpa [Wanted.accepts, Token.kind, ht, Lexeme.kind, eq_comm] using ht'
      simp [Part.Sheds, Matcher.sheds, hk] at hsheds
    | word w =>
      cases hw
      simp [Wanted.accepts, ht] at ht'
    | rule r => cases hw
  | @rule r alternatives taken rest ts hr h ih =>
    cases hending : r.isEnding with
    | true => exact mayShed_of_isEnding hending (.rule hr h)
    | false =>
      refine (ih hrest (Part.placed_rule hr) (Orderly.apt_rule hapt hr).1
        (Notation.sheds_alternatives hr hending hsheds)).mono ?_
      exact fun run e' close' vs hvs halike => ⟨vs, .rule hr hvs, halike⟩
  | @here r k is alternatives taken rest ts h ih =>
    refine (ih hrest trivial (hapt is List.mem_cons_self) (hsheds is List.mem_cons_self)).mono ?_
    exact fun run e' close' vs hvs halike => ⟨_, .here hvs, .node rfl rfl trivial halike .nil⟩
  | later h ih =>
    refine (ih hrest hp.later (fun js hjs => hapt js (List.mem_cons_of_mem _ hjs))
      fun js hjs => hsheds js (List.mem_cons_of_mem _ hjs)).mono ?_
    exact fun run e' close' vs hvs halike => ⟨vs, .later hvs, halike⟩
  | done => exact Part.mayShed_nil
  | @round m u v rest ts us h hs ih ihs =>
    obtain ⟨e, rfl⟩ := hrest
    intro run t e' close' huv ht he'
    obtain ⟨u', v', ts', us', rfl, hu', hv', halike⟩ := exists_shed_pair (p := .matcher m)
      (q := .rounds m) close' trivial trivial ⟨_, hapt⟩ ⟨_, hapt⟩ h hs
      (fun hnil => ih ⟨e, by rw [hnil]; rfl⟩ trivial hapt hsheds)
      (ihs ⟨e, rfl⟩ trivial hapt hsheds) huv ht he'
    exact ⟨_, .round hu' hv', halike⟩
  | one h ih =>
    refine (ih hrest trivial hapt hsheds).mono ?_
    exact fun run e' close' vs hvs halike => ⟨vs, .one hvs, halike⟩
  | present h ih =>
    refine (ih hrest trivial hapt hsheds).mono ?_
    exact fun run e' close' vs hvs halike => ⟨vs, .present hvs, halike⟩
  | absent => exact Part.mayShed_nil
  | star h ih =>
    refine (ih hrest trivial hapt hsheds).mono ?_
    exact fun run e' close' vs hvs halike => ⟨_, .star hvs, .repeated halike .nil⟩
  | @plus m u v rest ts us h hs ih ihs =>
    obtain ⟨e, rfl⟩ := hrest
    intro run t e' close' huv ht he'
    obtain ⟨u', v', ts', us', rfl, hu', hv', halike⟩ := exists_shed_pair (p := .matcher m)
      (q := .rounds m) close' trivial trivial ⟨_, hapt⟩ ⟨_, hapt⟩ h hs
      (fun hnil => ih ⟨e, by rw [hnil]; rfl⟩ trivial hapt hsheds)
      (ihs ⟨e, rfl⟩ trivial hapt hsheds) huv ht he'
    exact ⟨_, .plus hu' hv', .repeated halike .nil⟩
  | peek h ih => exact Part.mayShed_nil
  | nil => exact Part.mayShed_nil
  | @cons i is u v rest ts us h hs ih ihs =>
    obtain ⟨e, rfl⟩ := hrest
    obtain ⟨haptItem, -, haptItems⟩ := Orderly.apt_cons hapt
    obtain ⟨hi, his⟩ : (i.matcher.sheds || !is.all (·.idle Notation.idle)) = true ∧
      Notation.sheds is = true := by simpa [Part.Sheds, Notation.sheds] using hsheds
    have hfirst : v = [] → (Part.item i).MayShed u ts := by
      rintro rfl
      have hidle : is.all (·.idle Notation.idle) = true :=
        hs.idle Description.builtin_layering rfl
      have hsheds : i.matcher.sheds = true := by simpa [hidle] using hi
      exact ih ⟨e, rfl⟩ trivial haptItem hsheds
    intro run t e' close' huv ht he'
    obtain ⟨u', v', ts', us', rfl, hu', hv', halike⟩ := exists_shed_pair (p := .item i)
      (q := .items is) close' trivial trivial ⟨_, haptItem⟩ ⟨_, haptItems⟩ h hs hfirst
      (ihs ⟨e, rfl⟩ trivial haptItems his) huv ht he'
    exact ⟨_, .cons hu' hv', halike⟩

end GrammarText
