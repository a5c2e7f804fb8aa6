import GrammarText.Proofs.Parsing.Notation
import GrammarText.Proofs.Reduction.Agreement
import GrammarText.Proofs.Scanning.Slices
import Mathlib.Data.List.Forall2

/-!
# Derivations from other tokens

What a part derives does not depend on where its tokens stand, nor on what comes after them unless
this is the end of the text (`Derives.transfer`).  What is derived before the end of the text may
also be derived before anything else, with line breaks in the place of that end (`Derives.trade`).
`Tree.AllAlike` relates the trees: they are alike but for their spans, which are in given relations,
and for what stands under the ends of lines and blocks.
-/

namespace GrammarText

open List (Forall₂)

/-! ## Trees that are alike -/

def Token.Alike (T : Span → Span → Prop) (t u : Token) : Prop :=
  t.lexeme = u.lexeme ∧ T t.span u.span

def Rule.isEnding (r : Rule) : Bool := r = .lineEnd || r = .blockEnd

/-- Trees are alike but for the ends of lines and blocks and for the spans of tokens and of nodes,
which are in relations of their own. -/
inductive Tree.AllAlike (T N : Span → Span → Prop) : List Tree → List Tree → Prop where
  | nil : AllAlike T N [] []
  | token {t u ts us} (ht : t.Alike T u) (h : AllAlike T N ts us) :
      AllAlike T N (.token t :: ts) (.token u :: us)
  | absent {ts us} (h : AllAlike T N ts us) : AllAlike T N (.absent :: ts) (.absent :: us)
  | repeated {xs ys ts us} (hx : AllAlike T N xs ys) (h : AllAlike T N ts us) :
      AllAlike T N (.repeated xs :: ts) (.repeated ys :: us)
  | node {n m xs ys ts us} (hr : n.rule = m.rule) (hk : n.alternative = m.alternative)
      (hs : N n.span m.span) (hx : AllAlike T N xs ys) (h : AllAlike T N ts us) :
      AllAlike T N (.node n xs :: ts) (.node m ys :: us)
  | ending {n m ts us} (xs ys : List Token) (hr : n.rule = m.rule) (he : n.rule.isEnding = true)
      (h : AllAlike T N ts us) :
      AllAlike T N (.node n (xs.map .token) :: ts) (.node m (ys.map .token) :: us)

variable {T N : Span → Span → Prop} {ts us : List Tree}

/-- Trees are alike to themselves. -/
theorem Tree.AllAlike.refl (hT : ∀ s, T s s) (hN : ∀ s, N s s) : ∀ ts, AllAlike T N ts ts
  | [] => .nil
  | .token _ :: ts => .token ⟨rfl, hT _⟩ (refl hT hN ts)
  | .absent :: ts => .absent (refl hT hN ts)
  | .repeated xs :: ts => .repeated (refl hT hN xs) (refl hT hN ts)
  | .node _ xs :: ts => .node rfl rfl (hN _) (refl hT hN xs) (refl hT hN ts)

theorem Tree.AllAlike.append {xs ys : List Tree} (h : AllAlike T N ts us)
    (hx : AllAlike T N xs ys) : AllAlike T N (ts ++ xs) (us ++ ys) := by
  induction h with
  | nil => exact hx
  | token ht h ih => exact .token ht ih
  | absent h ih => exact .absent ih
  | repeated hx h ihx ih => exact .repeated hx ih
  | node hr hk hs hx h ihx ih => exact .node hr hk hs hx ih
  | ending xs ys hr he h ih => exact .ending xs ys hr he ih

theorem Token.eq_of_alike {t u : Token} (h : t.Alike Eq u) : t = u := by
  obtain ⟨hlexeme, hspan⟩ := h
  obtain ⟨hstart, hstop⟩ := Span.mk.inj hspan
  cases t
  cases u
  simp_all

theorem forall₂_alike_refl (run : List Token) : Forall₂ (Token.Alike Eq) run run :=
  List.forall₂_same.mpr fun _ _ => ⟨rfl, rfl⟩

theorem eq_of_forall₂_alike {u v : List Token} (h : Forall₂ (Token.Alike Eq) u v) : u = v := by
  induction h with
  | nil => rfl
  | cons ht h ih => rw [Token.eq_of_alike ht, ih]

/-- Functions of two lists agree if they agree on what stands at the same places. -/
theorem map_eq_map_iff {α β γ : Type} {f : α → γ} {g : β → γ} {u : List α} {v : List β} :
    u.map f = v.map g ↔ Forall₂ (fun a b => f a = g b) u v := by
  rw [← List.forall₂_eq_eq_eq, List.forall₂_map_left_iff, List.forall₂_map_right_iff]

/-- What is alike to tokens in two groups is in two groups. -/
theorem exists_of_forall₂_append {α β : Type} {R : α → β → Prop} {u v : List α} {w : List β}
    (h : Forall₂ R (u ++ v) w) : ∃ u' v', w = u' ++ v' ∧ Forall₂ R u u' ∧ Forall₂ R v v' := by
  induction u generalizing w with
  | nil => exact ⟨[], w, rfl, .nil, h⟩
  | cons a u ih =>
    obtain ⟨b, w, hab, hw, rfl⟩ := List.forall₂_cons_left_iff.mp h
    obtain ⟨u', v', rfl, hu, hv⟩ := ih hw
    exact ⟨b :: u', v', rfl, .cons hab hu, hv⟩

/-- A token is accepted for its lexeme. -/
theorem Wanted.accepts_of_alike {w : Wanted} {t u : Token} (h : t.Alike T u) :
    w.accepts u = w.accepts t := by
  have hkind : t.kind = u.kind := congrArg Lexeme.kind h.1
  cases w with
  | kind k => rw [accepts, accepts, hkind]
  | word w => rw [accepts, accepts, h.1]

theorem Wanted.accepts_newline {t : Token} (h : t.lexeme = .newline) :
    (kind .newline).accepts t = true := by
  rw [accepts, Token.kind, h]
  rfl

theorem Token.Alike.isEof {t u : Token} (h : t.Alike T u) : u.isEof = t.isEof := by
  rw [Token.isEof, Token.isEof, h.1]

/-! ## Other tokens -/

def EndsWith (rest rest' : List Token) : Prop :=
  ∀ e, rest.head? = some e → e.isEof = true → ∃ e', rest'.head? = some e' ∧ e'.isEof = true

theorem EndsWith.append {v v' rest rest' : List Token} (hv : Forall₂ (Token.Alike T) v v')
    (h : EndsWith rest rest') : EndsWith (v ++ rest) (v' ++ rest') := by
  cases hv with
  | nil => exact h
  | @cons t t' v v' ht hv =>
    intro e he heof
    obtain rfl : t = e := by simpa using he
    exact ⟨t', rfl, by rw [ht.isEof, heof]⟩

namespace Notation

/-- The ends of lines and blocks are a line break, or stand before the end of the text. -/
theorem alternatives_of_isEnding {r : Rule} {alternatives : List (List Item)}
    (hr : builtinRules.alternatives? r = some alternatives) (h : r.isEnding = true) :
    alternatives = [[.token .newline], [(Item.token .eof).times .peek]] := by
  revert h
  cases r <;> cases hr <;> decide

theorem isEnding_of_idle {r : Rule} (h : idle r = true) : r.isEnding = true := by
  revert h
  cases r <;> decide

end Notation

variable {close close' : Nat} {p : Part} {ends : Bool} {taken rest taken' rest' : List Token}

/-- Only the end of a line or a block takes no tokens, and then it has no children. -/
theorem Derives.eq_nil_of_items {r : Rule} {n : Nat} {is : List Item}
    (h : Derives .builtin close (.items is) [] rest ts)
    (his : ((builtinRules.alternatives? r).getD [])[n]? = some is) :
    r.isEnding = true ∧ ts = [] := by
  cases hr : builtinRules.alternatives? r with
  | none => simp [hr] at his
  | some alternatives =>
    rw [hr] at his
    have hidle : is.all (·.idle Notation.idle) = true := h.idle Description.builtin_layering rfl
    have hending := Notation.isEnding_of_idle (Description.builtin_layering.idle_of_all r
      alternatives hr is (List.mem_of_getElem? his) hidle)
    refine ⟨hending, ?_⟩
    rw [Notation.alternatives_of_isEnding hr hending] at his
    rcases n with _ | _ | n
    · cases his
      simp [Item.idle, Item.token, Matcher.idle] at hidle
    · cases his
      obtain ⟨u, v, us, vs, -, rfl, hpeek, hnil⟩ := cons_iff.mp h
      rw [(peek_iff.mp hpeek).2.1, (nil_iff.mp hnil).2]
      rfl
    · cases his

/-- What a part derives it also derives from tokens elsewhere, if these end where they did.  A part
that may not end the text does not look at what comes after it. -/
theorem Derives.transfer
    (hN : ∀ u u', u ≠ [] → Forall₂ (Token.Alike T) u u' → N (Span.over u) (Span.over u'))
    (h : Derives .builtin close p taken rest ts) (hp : p.Placed)
    (hapt : Description.builtin_orderly.Apt ends p) (htaken : Forall₂ (Token.Alike T) taken taken')
    (hrest : ends = true → EndsWith rest rest') :
    ∃ us, Derives .builtin close' p taken' rest' us ∧ Tree.AllAlike T N ts us := by
  induction h generalizing ends taken' rest' with
  | @leaf m w t rest hw ht =>
    obtain ⟨t', _, htt, htail, rfl⟩ := List.forall₂_cons_left_iff.mp htaken
    obtain rfl := List.forall₂_nil_left_iff.mp htail
    exact ⟨_, .leaf hw (by rw [Wanted.accepts_of_alike htt, ht]), .token htt .nil⟩
  | @rule r alternatives taken rest ts hr h ih =>
    obtain ⟨happly, hends⟩ := Orderly.apt_rule hapt hr
    obtain ⟨us, hus, halike⟩ :=
      ih (Part.placed_rule hr) happly htaken fun hclosing => hrest (hends hclosing)
    exact ⟨us, .rule hr hus, halike⟩
  | @here r n is alternatives taken rest ts h ih =>
    obtain ⟨us, hus, halike⟩ := ih trivial (hapt is List.mem_cons_self) htaken hrest
    refine ⟨_, .here hus, ?_⟩
    by_cases hnil : taken = []
    · -- Nothing was taken, so this is the end of a line or of a block.
      subst hnil
      obtain rfl := List.forall₂_nil_left_iff.mp htaken
      obtain ⟨hending, rfl⟩ := h.eq_nil_of_items hp.getElem?
      obtain ⟨-, rfl⟩ := hus.eq_nil_of_items hp.getElem?
      exact .ending [] [] rfl hending .nil
    · have hnil' : taken' ≠ [] := by
        rintro rfl
        exact hnil (List.forall₂_nil_right_iff.mp htaken)
      refine .node rfl rfl ?_ halike .nil
      rw [Node.span_over r n hnil, Node.span_over r n hnil']
      exact hN _ _ hnil htaken
  | @later r n is alternatives taken rest ts h ih =>
    obtain ⟨us, hus, halike⟩ :=
      ih hp.later (fun js hjs => hapt js (List.mem_cons_of_mem _ hjs)) htaken hrest
    exact ⟨us, .later hus, halike⟩
  | done =>
    obtain rfl := List.forall₂_nil_left_iff.mp htaken
    exact ⟨[], .done, .nil⟩
  | @round m u v rest ts us h hs ih ihs =>
    obtain ⟨u', v', rfl, hu, hv⟩ := exists_of_forall₂_append htaken
    obtain ⟨ts', hts, halike⟩ := ih trivial hapt hu fun hends => (hrest hends).append hv
    obtain ⟨us', hus, halike'⟩ := ihs trivial hapt hv hrest
    exact ⟨ts' ++ us', .round hts hus, halike.append halike'⟩
  | one h ih =>
    obtain ⟨us, hus, halike⟩ := ih trivial hapt htaken hrest
    exact ⟨us, .one hus, halike⟩
  | present h ih =>
    obtain ⟨us, hus, halike⟩ := ih trivial hapt htaken hrest
    exact ⟨us, .present hus, halike⟩
  | absent =>
    obtain rfl := List.forall₂_nil_left_iff.mp htaken
    exact ⟨_, .absent, .absent .nil⟩
  | star h ih =>
    obtain ⟨us, hus, halike⟩ := ih trivial hapt htaken hrest
    exact ⟨_, .star hus, .repeated halike .nil⟩
  | @plus m u v rest ts us h hs ih ihs =>
    obtain ⟨u', v', rfl, hu, hv⟩ := exists_of_forall₂_append htaken
    obtain ⟨ts', hts, halike⟩ := ih trivial hapt hu fun hends => (hrest hends).append hv
    obtain ⟨us', hus, halike'⟩ := ihs trivial hapt hv hrest
    exact ⟨_, .plus hts hus, .repeated (halike.append halike') .nil⟩
  | @peek m u v ts h ih =>
    -- What is looked for is the end of the text, and this comes next in the other tokens too.
    obtain rfl := List.forall₂_nil_left_iff.mp htaken
    obtain ⟨rfl, hends⟩ := Orderly.apt_peek hapt
    obtain ⟨e, he, rfl, -⟩ := (token_iff rfl).mp h
    rw [Wanted.accepts_eof] at he
    obtain ⟨e', hhead, he'⟩ := hrest hends e rfl he
    obtain ⟨more, rfl⟩ := List.head?_eq_some_iff.mp hhead
    rw [← Wanted.accepts_eof] at he'
    have hleaf : Derives .builtin close' (.matcher (.token .eof)) [e'] more [.token e'] :=
      .leaf rfl he'
    exact ⟨[], .peek hleaf, .nil⟩
  | nil =>
    obtain rfl := List.forall₂_nil_left_iff.mp htaken
    exact ⟨[], .nil, .nil⟩
  | @cons i is u v rest ts us h hs ih ihs =>
    obtain ⟨u', v', rfl, hu, hv⟩ := exists_of_forall₂_append htaken
    obtain ⟨happly, -, hrestapt⟩ := Orderly.apt_cons hapt
    obtain ⟨ts', hts, halike⟩ := ih trivial happly hu fun hends =>
      (hrest (Bool.and_eq_true_iff.mp hends).1).append hv
    obtain ⟨us', hus, halike'⟩ := ihs trivial hrestapt hv hrest
    exact ⟨ts' ++ us', .cons hts hus, halike.append halike'⟩

/-- The text may end after blocks. -/
theorem apt_blocks : Description.builtin_orderly.Apt true (.rounds (.rule .block)) := by decide

def Anywhere (_ _ : Span) : Prop := True

/-- What a part derives it derives before other tokens, if they end where these do. -/
theorem Derives.before (close' : Nat) (h : Derives .builtin close p taken rest ts) (hp : p.Placed)
    (hapt : Description.builtin_orderly.Apt ends p) (hrest : EndsWith rest rest') :
    ∃ us, Derives .builtin close' p taken rest' us ∧ Tree.AllAlike Anywhere Anywhere ts us :=
  h.transfer (fun _ _ _ _ => trivial) hp hapt
    (List.forall₂_same.mpr fun _ _ => ⟨rfl, trivial⟩) fun _ => hrest

/-- What a part that may not end the text derives it derives before any tokens. -/
theorem Derives.inside (close' : Nat) (h : Derives .builtin close p taken rest ts) (hp : p.Placed)
    (hapt : Description.builtin_orderly.Apt false p) (rest' : List Token) :
    ∃ us, Derives .builtin close' p taken rest' us ∧ Tree.AllAlike Anywhere Anywhere ts us :=
  h.transfer (fun _ _ _ _ => trivial) hp hapt
    (List.forall₂_same.mpr fun _ _ => ⟨rfl, trivial⟩) nofun

/-! ## Line breaks in the place of the end of the text -/

/-- How many line breaks may come in the place of the end of the text, at the end of a rule. -/
def Notation.breaks : Rule → Nat
  | .lineEnd | .blockEnd | .terminalLine | .production => 1
  | .definition | .block | .grammar => 2
  | _ => 0

def Matcher.breaks : Matcher → Nat
  | .rule r => Notation.breaks r
  | _ => 0

def Notation.breaksOf : List Item → Nat
  | [] => 0
  | i :: is => i.matcher.breaks + breaksOf is

def Part.breaks : Part → Nat
  | .matcher m | .rounds m => m.breaks
  | .item i => i.matcher.breaks
  | .items is => Notation.breaksOf is
  | .choice r _ _ => Notation.breaks r

/-- An item takes a token in each round and does not look ahead. -/
def Item.steady (i : Item) : Bool :=
  match i.quantifier with
  | .one | .optional => true
  | .star | .plus => !i.matcher.idle Notation.idle
  | .peek => false

def Part.Steady : Part → Prop
  | .matcher _ => True
  | .rounds m => m.idle Notation.idle = false
  | .item i => i.steady = true
  | .items is => ∀ i ∈ is, i.steady = true
  | .choice r _ alternatives => r.isEnding = false ∧
      ∀ is ∈ alternatives, (∀ i ∈ is, i.steady = true) ∧ Notation.breaksOf is ≤ Notation.breaks r

theorem Notation.steady_alternatives {r : Rule} {alternatives : List (List Item)}
    (hr : builtinRules.alternatives? r = some alternatives) (h : r.isEnding = false) :
    (Part.choice r 0 alternatives).Steady := by
  refine ⟨h, ?_⟩
  revert h
  cases r <;> cases hr <;> decide +kernel

/-- A span has the same start, and only one that ended at a given place ends elsewhere. -/
def Stretched (last : Nat) (s s' : Span) : Prop :=
  s'.start = s.start ∧ (s'.stop = s.stop ∨ s.stop = last)

theorem Derives.refl_transfer (last close' : Nat) (h : Derives .builtin close p taken rest ts)
    (hp : p.Placed) (hapt : Description.builtin_orderly.Apt ends p) (hrest : EndsWith rest rest') :
    ∃ us, Derives .builtin close' p taken rest' us ∧ Tree.AllAlike Eq (Stretched last) ts us := by
  refine h.transfer (fun u u' _ hu => ?_) hp hapt (forall₂_alike_refl taken)
    fun _ => hrest
  rw [eq_of_forall₂_alike hu]
  exact ⟨rfl, .inl rfl⟩

/-- A part derives some tokens with line breaks behind them, and these before anything else. -/
def Part.Trades (p : Part) (taken : List Token) (ts : List Tree) (last : Nat) : Prop :=
  ∃ n ≤ p.breaks, ∀ (breaks : List Token) (rest' : List Token) (close' : Nat), breaks.length = n →
    (∀ t ∈ breaks, t.lexeme = .newline) → ∃ us,
      Derives .builtin close' p (taken ++ breaks) rest' us ∧
      Tree.AllAlike Eq (Stretched last) ts us

section Trades

variable {last : Nat} {q : Part}

/-- Without line breaks there is no trade. -/
theorem Part.trades_zero (h : ∀ rest' close', ∃ us, Derives .builtin close' p taken rest' us ∧
    Tree.AllAlike Eq (Stretched last) ts us) : p.Trades taken ts last := by
  refine ⟨0, Nat.zero_le _, fun breaks rest' close' hlength _ => ?_⟩
  obtain rfl := List.eq_nil_of_length_eq_zero hlength
  rw [List.append_nil]
  exact h rest' close'

/-- What the last of some parts trades, the whole trades. -/
theorem Part.Trades.mono (h : p.Trades taken ts last) (hle : p.breaks ≤ q.breaks)
    (hq : ∀ breaks rest' close' us, Derives .builtin close' p (taken ++ breaks) rest' us →
      Tree.AllAlike Eq (Stretched last) ts us → ∃ vs,
        Derives .builtin close' q (taken' ++ breaks) rest' vs ∧
        Tree.AllAlike Eq (Stretched last) us' vs) : q.Trades taken' us' last := by
  obtain ⟨n, hn, htrade⟩ := h
  refine ⟨n, Nat.le_trans hn hle, fun breaks rest' close' hlength hall => ?_⟩
  obtain ⟨us, hus, halike⟩ := htrade breaks rest' close' hlength hall
  exact hq breaks rest' close' us hus halike

/-- At the end of a line or a block a line break may come in the place of the end of the text. -/
theorem trades_of_isEnding {r : Rule} (hr : r.isEnding = true)
    (h : Derives .builtin close (.matcher (.rule r)) taken rest ts) :
    (Part.matcher (.rule r)).Trades taken ts last := by
  obtain ⟨alternatives, halternatives, hchoice⟩ := Derives.rule_iff.mp h
  obtain rfl := Notation.alternatives_of_isEnding halternatives hr
  have hbreak : ∀ (t : Token) (rest' : List Token) (close' : Nat),
      (Wanted.kind .newline).accepts t = true →
      Derives .builtin close' (.matcher (.rule r)) [t] rest'
        [.node (.over close' r 0 [t] rest') [.token t]] := by
    intro t rest' close' ht
    have hleaf : Derives .builtin close' (.matcher (.token .newline)) [t] ([] ++ rest')
        [.token t] := .leaf rfl ht
    exact .rule halternatives (.here (.cons (.one hleaf) .nil))
  obtain ⟨k, is, us, hk, hitems, rfl⟩ := Derives.choice_iff.mp hchoice
  rcases k with _ | _ | k
  · -- The break is there already.
    cases hk
    obtain ⟨u, v, us, vs, rfl, rfl, hu, hv⟩ := Derives.cons_iff.mp hitems
    obtain ⟨t, ht, rfl, rfl⟩ := (Derives.token_iff rfl).mp (Derives.one_iff.mp hu)
    obtain ⟨rfl, rfl⟩ := Derives.nil_iff.mp hv
    exact Part.trades_zero fun rest' close' =>
      ⟨_, hbreak t rest' close' ht, .ending [t] [t] rfl hr .nil⟩
  · cases hk
    obtain ⟨u, v, us, vs, rfl, rfl, hu, hv⟩ := Derives.cons_iff.mp hitems
    obtain ⟨rfl, rfl, -⟩ := Derives.peek_iff.mp hu
    obtain ⟨rfl, rfl⟩ := Derives.nil_iff.mp hv
    have hbreaks : (Part.matcher (.rule r)).breaks = 1 := by
      revert hr
      cases r <;> decide
    refine ⟨1, Nat.le_of_eq hbreaks.symm, fun breaks rest' close' hlength hall => ?_⟩
    obtain ⟨t, rfl⟩ := List.length_eq_one_iff.mp hlength
    have haccepts := Wanted.accepts_newline (hall t List.mem_cons_self)
    exact ⟨_, hbreak t rest' close' haccepts, .ending [] [t] rfl hr .nil⟩
  · cases hk

/-- Rounds that take no token are none. -/
theorem Derives.eq_nil_of_rounds {m : Matcher} (hm : m.idle Notation.idle = false)
    (h : Derives .builtin close (.rounds m) [] rest ts) : ts = [] := by
  rcases rounds_iff.mp h with ⟨-, rfl⟩ | ⟨u, v, us, vs, huv, -, hu, -⟩
  · rfl
  · obtain ⟨rfl, -⟩ := List.append_eq_nil_iff.mp huv.symm
    have hidle : m.idle Notation.idle = true := hu.idle Description.builtin_layering rfl
    simp [hm] at hidle

/-- Tokens that are left come before the end of the text. -/
theorem endsWith_of_ne_nil {v : List Token} (hv : v ≠ []) (rest rest' : List Token) :
    EndsWith (v ++ rest) (v ++ rest') := by
  intro e he heof
  obtain ⟨t, v, rfl⟩ := List.exists_cons_of_ne_nil hv
  exact ⟨e, by simpa using he, heof⟩

/-- More line breaks stretch what ends at the last place. -/
theorem stretched_over {breaks : List Token} (hne : taken ≠ [])
    (hlast : ∀ t, taken.getLast? = some t → t.stop = last) :
    Stretched last (Span.over taken) (Span.over (taken ++ breaks)) := by
  have hx := List.getLast?_eq_some_getLast hne
  obtain ⟨t, more, rfl⟩ := List.exists_cons_of_ne_nil hne
  exact ⟨rfl, .inr (by simp [Span.over, hx, hlast _ hx])⟩

/-- Of some rounds the last one trades. -/
theorem trades_round {m : Matcher} {u v : List Token} (hm : m.idle Notation.idle = false)
    (hapt : Description.builtin_orderly.Apt ends (.matcher m))
    (h : Derives .builtin close (.matcher m) u (v ++ rest) ts)
    (hs : Derives .builtin close (.rounds m) v rest us)
    (hu : v = [] → (Part.matcher m).Trades u ts last)
    (hv : v ≠ [] → (Part.rounds m).Trades v us last) :
    (Part.rounds m).Trades (u ++ v) (ts ++ us) last := by
  by_cases hnil : v = []
  · -- This round is the last one.
    have htrade := hu hnil
    subst hnil
    obtain rfl := hs.eq_nil_of_rounds hm
    rw [List.append_nil, List.append_nil]
    refine htrade.mono (Nat.le_refl _) ?_
    intro breaks rest' close' us hus halike
    have hround := Derives.round (v := []) hus .done
    rw [List.append_nil, List.append_nil] at hround
    exact ⟨us, hround, halike⟩
  · refine (hv hnil).mono (Nat.le_refl _) ?_
    intro breaks rest' close' vs hvs halike
    obtain ⟨ts', hts, halike'⟩ := h.refl_transfer last close' trivial hapt
      (endsWith_of_ne_nil hnil rest (breaks ++ rest'))
    rw [← List.append_assoc] at hts
    rw [List.append_assoc]
    exact ⟨ts' ++ vs, .round hts hvs, halike'.append halike⟩

/-- Where rounds trade, one round or more do. -/
theorem trades_plus {m : Matcher} {u v : List Token}
    (h : Derives .builtin close (.matcher m) u (v ++ rest) ts)
    (hrounds : (Part.rounds m).Trades (u ++ v) (ts ++ us) last) :
    (Part.item ⟨m, .plus⟩).Trades (u ++ v) [.repeated (ts ++ us)] last := by
  refine hrounds.mono (Nat.le_refl _) ?_
  intro breaks rest' close' ws hws halike
  refine ⟨[.repeated ws], ?_, .repeated halike .nil⟩
  -- There is a first round.
  obtain ⟨t, rfl⟩ := h.exists_tree
  rcases Derives.rounds_iff.mp hws with ⟨-, rfl⟩ | ⟨u', v', us', vs', hsplit, rfl, hu', hv'⟩
  · cases halike
  · exact Derives.plus_iff.mpr ⟨u', v', us', vs', hsplit, rfl, hu', hv'⟩

/-- An item and the items after it may both trade if these take no tokens; else only these do. -/
theorem trades_cons {i : Item} {is : List Item} {u v : List Token}
    (hapt : Description.builtin_orderly.Apt ends (.item i))
    (h : Derives .builtin close (.item i) u (v ++ rest) ts)
    (hu : v = [] → (Part.item i).Trades u ts last) (hv : (Part.items is).Trades v us last) :
    (Part.items (i :: is)).Trades (u ++ v) (ts ++ us) last := by
  by_cases hnil : v = []
  · obtain ⟨k, hk, htrade⟩ := hu hnil
    obtain ⟨n, hn, htrades⟩ := hv
    subst hnil
    refine ⟨k + n, Nat.add_le_add hk hn, fun breaks rest' close' hlength hall => ?_⟩
    -- The first breaks are for the item and the others for the items after it.
    obtain ⟨ts', hts, halike⟩ := htrade (breaks.take k) (breaks.drop k ++ rest') close'
      (by simp [hlength]) fun t ht => hall t (List.mem_of_mem_take ht)
    obtain ⟨us', hus, halike'⟩ := htrades (breaks.drop k) rest' close' (by simp [hlength])
      fun t ht => hall t (List.mem_of_mem_drop ht)
    refine ⟨ts' ++ us', ?_, halike.append halike'⟩
    have hcons := Derives.cons hts hus
    simpa using hcons
  · refine hv.mono (Nat.le_add_left _ _) ?_
    intro breaks rest' close' vs hvs halike
    obtain ⟨ts', hts, halike'⟩ := h.refl_transfer last close' trivial hapt
      (endsWith_of_ne_nil hnil rest (breaks ++ rest'))
    rw [← List.append_assoc] at hts
    rw [List.append_assoc]
    exact ⟨ts' ++ vs, .cons hts hvs, halike'.append halike⟩

/-- What is derived before the end of the text is also derived before anything else, with line
breaks in the place of the end of the text. -/
theorem Derives.trade (h : Derives .builtin close p taken rest ts)
    (hrest : ∃ e, rest = [e] ∧ e.isEof = true) (hp : p.Placed)
    (hapt : Description.builtin_orderly.Apt ends p) (hsteady : p.Steady)
    (hlast : ∀ t, taken.getLast? = some t → t.stop = last) : p.Trades taken ts last := by
  -- The line breaks go to the part that comes last; all parts before it stay as they are.
  induction h generalizing ends with
  | leaf hw ht => exact Part.trades_zero fun _ _ => ⟨_, .leaf hw ht, .token ⟨rfl, rfl⟩ .nil⟩
  | @rule r alternatives taken rest ts hr h ih =>
    cases hending : r.isEnding with
    | true => exact trades_of_isEnding hending (.rule hr h)
    | false =>
      refine (ih hrest (Part.placed_rule hr) (Orderly.apt_rule hapt hr).1
        (Notation.steady_alternatives hr hending) hlast).mono (Nat.le_refl _) ?_
      exact fun breaks rest' close' us hus halike => ⟨us, .rule hr hus, halike⟩
  | @here r k is alternatives taken rest ts h ih =>
    obtain ⟨hending, hall⟩ := hsteady
    obtain ⟨hitems, hle⟩ := hall is List.mem_cons_self
    -- A node that takes tokens may end later, and no other rule takes none.
    have hne : taken ≠ [] := by
      rintro rfl
      simp [(h.eq_nil_of_items hp.getElem?).1] at hending
    refine (ih hrest trivial (hapt is List.mem_cons_self) hitems hlast).mono hle ?_
    intro breaks rest' close' us hus halike
    refine ⟨_, .here hus, .node rfl rfl ?_ halike .nil⟩
    rw [Node.span_over r k hne, Node.span_over r k (List.append_ne_nil_of_left_ne_nil hne _)]
    exact stretched_over hne hlast
  | @later r k is alternatives taken rest ts h ih =>
    refine (ih hrest hp.later (fun js hjs => hapt js (List.mem_cons_of_mem _ hjs))
      ⟨hsteady.1, fun js hjs => hsteady.2 js (List.mem_cons_of_mem _ hjs)⟩ hlast).mono
      (Nat.le_refl _) ?_
    exact fun breaks rest' close' us hus halike => ⟨us, .later hus, halike⟩
  | done => exact Part.trades_zero fun _ _ => ⟨[], .done, .nil⟩
  | @round m u v rest ts us h hs ih ihs =>
    refine trades_round hsteady hapt h hs ?_ ?_
    · rintro rfl
      exact ih hrest trivial hapt trivial (by simpa using hlast)
    · intro hne
      exact ihs hrest trivial hapt hsteady
        (by simpa [List.getLast?_append_of_ne_nil _ hne] using hlast)
  | one h ih =>
    refine (ih hrest trivial hapt trivial hlast).mono (Nat.le_refl _) ?_
    exact fun breaks rest' close' us hus halike => ⟨us, .one hus, halike⟩
  | present h ih =>
    refine (ih hrest trivial hapt trivial hlast).mono (Nat.le_refl _) ?_
    exact fun breaks rest' close' us hus halike => ⟨us, .present hus, halike⟩
  | absent => exact Part.trades_zero fun _ _ => ⟨_, .absent, .absent .nil⟩
  | star h ih =>
    refine (ih hrest trivial hapt (by simpa [Part.Steady, Item.steady] using hsteady) hlast).mono
      (Nat.le_refl _) ?_
    exact fun breaks rest' close' us hus halike => ⟨_, .star hus, .repeated halike .nil⟩
  | @plus m u v rest ts us h hs ih ihs =>
    have hidle : m.idle Notation.idle = false := by
      simpa [Part.Steady, Item.steady] using hsteady
    refine trades_plus h (trades_round hidle hapt h hs ?_ ?_)
    · rintro rfl
      exact ih hrest trivial hapt trivial (by simpa using hlast)
    · intro hne
      exact ihs hrest trivial hapt hidle
        (by simpa [List.getLast?_append_of_ne_nil _ hne] using hlast)
  | peek h ih => cases hsteady
  | nil => exact Part.trades_zero fun _ _ => ⟨[], .nil, .nil⟩
  | @cons i is u v rest ts us h hs ih ihs =>
    obtain ⟨hi, his⟩ := List.forall_mem_cons.mp hsteady
    obtain ⟨haptItem, -, haptItems⟩ := Orderly.apt_cons hapt
    refine trades_cons haptItem h ?_ ?_
    · rintro rfl
      exact ih hrest trivial haptItem hi (by simpa using hlast)
    · refine ihs hrest trivial haptItems his fun t ht => hlast t ?_
      rw [List.getLast?_append, ht]
      rfl

end Trades
end GrammarText
