import GrammarText.Proofs.Display.Spelling
import GrammarText.Proofs.Reduction.Frames

/-!
# Variants of a text

Some things may be written in more than one way: `Variant` relates the lexemes of two texts that
differ in one such place.  The lexemes of a text tell where such a place is: what stands between two
separators can be read back in one way only.  `Spotted` is what a derivation says of a lexeme in
which a variant begins, and what has to be shown to write something else there.
-/

namespace GrammarText

/-! ## Lexemes -/

inductive IsExclusion : List Lexeme → Prop where
  | range (low high : String) :
      IsExclusion [.control low, .reserved .through, .control high]
  | terminal (s : String) : IsExclusion [.terminal s]
  | control (s : String) : IsExclusion [.control s]
  | nonterminal (s : String) : IsExclusion [.nonterminal s]

inductive Separates : List Lexeme → Prop where
  | comma : Separates [.reserved .comma]
  | or : Separates [.reserved .or]
  | commaOr : Separates [.reserved .comma, .reserved .or]

inductive AreExclusions : List Lexeme → Prop where
  | one {x} (hx : IsExclusion x) : AreExclusions x
  | cons {x s xs} (hx : IsExclusion x) (hs : Separates s) (hxs : AreExclusions xs) :
      AreExclusions (x ++ (s ++ xs))

/-- What comes behind some exclusions does not go on with them. -/
def EndsExclusions (post : List Lexeme) : Prop :=
  ∀ w ∈ [Word.comma, .or, .through], post.head? ≠ some (.reserved w)

def butNotOneOf : List Lexeme := [.reserved .but, .reserved .not, .reserved .one, .reserved .of]

/-- Lexemes are an entry of a set: they go from a comma or a brace to the next, inside the text. -/
structure IsEntry (ls : List Lexeme) : Prop where
  ne_nil : ls ≠ []
  comma : .reserved .comma ∉ ls
  closeBrace : .reserved .closeBrace ∉ ls
  eof : .eof ∉ ls

/-- The lexemes that say that what comes next is none of some entries. -/
def outsideOf (entries : List (List Lexeme)) : List Lexeme :=
  .reserved .outside :: .reserved .openBrace ::
    (separated [.reserved .comma] entries ++ [.reserved .closeBrace])

/-- Lexemes in which one thing is written in another way. -/
inductive Variant : List Lexeme → List Lexeme → Prop where
  /-- A production has no label. -/
  | label (pre post : List Lexeme) (s : String) : Variant (pre ++ .label s :: post) (pre ++ post)
  /-- A name has no bars around it. -/
  | bars (pre post : List Lexeme) {name : String} (hname : '|' ∉ name.toList) :
      Variant (pre ++ .barred ("|" ++ name ++ "|") :: post) (pre ++ .nonterminal name :: post)
  /-- Another separator stands before an exclusion of a list. -/
  | separator (pre post : List Lexeme) {xs s s' x : List Lexeme} (hxs : AreExclusions xs)
      (hs : Separates s) (hs' : Separates s') (hx : IsExclusion x) :
      Variant (pre ++ (butNotOneOf ++ (xs ++ (s ++ (x ++ post)))))
        (pre ++ (butNotOneOf ++ (xs ++ (s' ++ (x ++ post)))))
  /-- A list of one exclusion is written as the exclusion alone. -/
  | single (pre post : List Lexeme) {x : List Lexeme} (hx : IsExclusion x)
      (hpost : EndsExclusions post) :
      Variant (pre ++ (butNotOneOf ++ (x ++ post)))
        (pre ++ (.reserved .but :: .reserved .not :: (x ++ post)))
  /-- What comes next is not a terminal, instead of none of a set of one terminal. -/
  | unequal (pre post : List Lexeme) {l : Lexeme} (hl : l.kind = .terminal ∨ l.kind = .control) :
      Variant (pre ++ (outsideOf [[l]] ++ post)) (pre ++ (.reserved .unequal :: l :: post))
  /-- A set has the same entries in another order or another number of times. -/
  | entries (pre post : List Lexeme) {es fs : List (List Lexeme)} (hes : ∀ e ∈ es, IsEntry e)
      (hne : fs ≠ []) (h : ∀ e, e ∈ fs ↔ e ∈ es) :
      Variant (pre ++ (outsideOf es ++ post)) (pre ++ (outsideOf fs ++ post))

/-! ## Lexemes are read back in one way -/

variable {as bs cs ds x y s s' : List Lexeme}

theorem IsExclusion.eq_of_append (hx : IsExclusion x) (hy : IsExclusion y)
    (h : x ++ as = y ++ bs) (has : as.head? ≠ some (.reserved .through))
    (hbs : bs.head? ≠ some (.reserved .through)) : x = y ∧ as = bs := by
  -- Only a control character can be taken for the beginning of a range.
  cases hx with
  | range low high =>
    cases hy with
    | range => simpa [and_assoc] using h
    | control =>
      obtain ⟨-, rfl⟩ := List.cons_eq_cons.mp h
      exact absurd rfl hbs
    | terminal | nonterminal => simp at h
  | control =>
    cases hy with
    | range =>
      obtain ⟨-, rfl⟩ := List.cons_eq_cons.mp h
      exact absurd rfl has
    | control => simpa using h
    | terminal | nonterminal => simp at h
  | terminal =>
    cases hy with
    | terminal => simpa using h
    | range | control | nonterminal => simp at h
  | nonterminal =>
    cases hy with
    | nonterminal => simpa using h
    | range | control | terminal => simp at h

theorem Separates.eq_of_append (hs : Separates s) (hs' : Separates s') (h : s ++ as = s' ++ bs)
    (has : as.head? ≠ some (.reserved .or)) (hbs : bs.head? ≠ some (.reserved .or)) :
    s = s' ∧ as = bs := by
  -- Only a comma can be taken for the beginning of a comma and an `or`.
  cases hs with
  | comma =>
    cases hs' with
    | comma => simpa using h
    | or => simp at h
    | commaOr =>
      obtain ⟨-, rfl⟩ := List.cons_eq_cons.mp h
      exact absurd rfl has
  | or =>
    cases hs' with
    | or => simpa using h
    | comma | commaOr => simp at h
  | commaOr =>
    cases hs' with
    | comma =>
      obtain ⟨-, rfl⟩ := List.cons_eq_cons.mp h
      exact absurd rfl hbs
    | or => simp at h
    | commaOr => simpa using h

/-- What comes before the first of some lexemes is the same in two ways to read a list. -/
theorem eq_of_append_cons {p : Lexeme → Prop} {k l : Lexeme} (has : ∀ a ∈ as, ¬ p a)
    (hbs : ∀ b ∈ bs, ¬ p b) (hk : p k) (hl : p l) (h : as ++ k :: cs = bs ++ l :: ds) :
    as = bs ∧ k = l ∧ cs = ds := by
  induction as generalizing bs with
  | nil =>
    cases bs with
    | nil =>
      obtain ⟨rfl, rfl⟩ := List.cons_eq_cons.mp h
      exact ⟨rfl, rfl, rfl⟩
    | cons b bs =>
      obtain ⟨rfl, -⟩ := List.cons_eq_cons.mp h
      exact absurd hk (hbs k List.mem_cons_self)
  | cons a as ih =>
    rw [List.forall_mem_cons] at has
    cases bs with
    | nil =>
      obtain ⟨rfl, -⟩ := List.cons_eq_cons.mp h
      exact absurd hl has.1
    | cons b bs =>
      rw [List.forall_mem_cons] at hbs
      obtain ⟨rfl, htail⟩ := List.cons_eq_cons.mp h
      obtain ⟨rfl, rfl, rfl⟩ := ih has.2 hbs.2 htail
      exact ⟨rfl, rfl, rfl⟩

def EndsEntry (l : Lexeme) : Prop := l = .reserved .comma ∨ l = .reserved .closeBrace

theorem IsEntry.not_endsEntry {e : List Lexeme} (h : IsEntry e) : ∀ l ∈ e, ¬ EndsEntry l := by
  rintro l hl (rfl | rfl)
  · exact h.comma hl
  · exact h.closeBrace hl

/-- The entries of a set are read back in one way. -/
theorem separated_inj {es fs : List (List Lexeme)} (hes : ∀ e ∈ es, IsEntry e)
    (hfs : ∀ f ∈ fs, IsEntry f) (hne : es ≠ []) (hne' : fs ≠ [])
    (h : separated [.reserved .comma] es ++ .reserved .closeBrace :: as =
      separated [.reserved .comma] fs ++ .reserved .closeBrace :: bs) : es = fs ∧ as = bs := by
  obtain ⟨e, es, rfl⟩ := List.exists_cons_of_ne_nil hne
  obtain ⟨f, fs, rfl⟩ := List.exists_cons_of_ne_nil hne'
  have hcomma : EndsEntry (.reserved .comma) := .inl rfl
  have hclose : EndsEntry (.reserved .closeBrace) := .inr rfl
  induction es generalizing e f fs with
  | nil =>
    have he := (hes e List.mem_cons_self).not_endsEntry
    have hf := (hfs f List.mem_cons_self).not_endsEntry
    cases fs with
    | nil =>
      obtain ⟨rfl, -, rfl⟩ := eq_of_append_cons he hf hclose hclose (by simpa [separated] using h)
      exact ⟨rfl, rfl⟩
    | cons f' fs =>
      obtain ⟨-, hno, -⟩ := eq_of_append_cons he hf hclose hcomma (by simpa [separated] using h)
      cases hno
  | cons e' es ih =>
    have he := (hes e List.mem_cons_self).not_endsEntry
    have hf := (hfs f List.mem_cons_self).not_endsEntry
    cases fs with
    | nil =>
      obtain ⟨-, hno, -⟩ := eq_of_append_cons he hf hcomma hclose (by simpa [separated] using h)
      cases hno
    | cons f' fs =>
      obtain ⟨rfl, -, htail⟩ :=
        eq_of_append_cons he hf hcomma hcomma (by simpa [separated] using h)
      obtain ⟨heq, rfl⟩ := ih e' (fun g hg => hes g (List.mem_cons_of_mem _ hg)) (by simp) f' fs
        (fun g hg => hfs g (List.mem_cons_of_mem _ hg)) (by simp)
        (by simpa [separated] using htail)
      exact ⟨congrArg (e :: ·) heq, rfl⟩

/-! ## Where a variant begins -/

variable {close : Nat} {rest taken : List Token} {ts : List Tree} {ls ms : List Lexeme}
  {l : Lexeme} {v : Wanted}

/-- Some tokens of given lexemes are blocks as well, which mean what the trees mean. -/
def Rewritable (close : Nat) (rest : List Token) (ts : List Tree) (ls : List Lexeme) : Prop :=
  ∃ taken us, taken.map Token.lexeme = ls ∧
    Derives .builtin close (.rounds (.rule .block)) taken rest us ∧ Tree.AllRefine ts us

/-- A lexeme between others is asked for at a place of the table.  The items before that place and
behind it derive the tokens next to it, and the tokens of a rule that has its place there may be
others. -/
inductive Spotted (v : Wanted) (close : Nat) (rest : List Token) (ts : List Tree)
    (ls : List Lexeme) (l : Lexeme) (ms : List Lexeme) : Prop where
  | mk {r k j is t} {pre₁ post₁ post₀ us vs} (hspot : (r, k, j) ∈ Notation.spots v)
    (his : (Notation.alternatives r)[k]? = some is) (ht : t.lexeme = l)
    (hms : post₁.map Token.lexeme ++ post₀.map Token.lexeme = ms)
    (hfollows : Description.builtin_predictive.Follows (.rule r) (post₀ ++ rest))
    (hbefore : Derives .builtin close (.items (is.take j)) pre₁
      (t :: (post₁ ++ (post₀ ++ rest))) us)
    (hbehind : Derives .builtin close (.items (is.drop (j + 1))) post₁ (post₀ ++ rest) vs)
    (hsucceed : Tree.Succeed [.node (.over close r k (pre₁ ++ t :: post₁) (post₀ ++ rest))
      (us ++ .token t :: vs)])
    (hrewrite : ∀ w ws ms', Derives .builtin close (.matcher (.rule r)) w (post₀ ++ rest) ws →
      Tree.AllRefine [.node (.over close r k (pre₁ ++ t :: post₁) (post₀ ++ rest))
        (us ++ .token t :: vs)] ws →
      w.map Token.lexeme ++ post₀.map Token.lexeme = pre₁.map Token.lexeme ++ ms' →
      Rewritable close rest ts (ls ++ ms')) :
    Spotted v close rest ts ls l ms

/-- A lexeme of some blocks is spotted at a place of the table that asks for it. -/
theorem Derives.spotted {e : Token}
    (h : Derives .builtin close (.rounds (.rule .block)) taken (e :: rest) ts)
    (he : e.isEof = true) (hsucceed : Tree.Succeed ts)
    (htaken : taken.map Token.lexeme = ls ++ l :: ms)
    (hv : ∀ t : Token, t.lexeme = l → v.accepts t = true) (hne : v ≠ .kind .reserved) :
    Spotted v close (e :: rest) ts ls l ms := by
  obtain ⟨pre, tail, rfl, rfl, htail⟩ := List.map_eq_append_iff.mp htaken
  obtain ⟨t, post, rfl, ht, rfl⟩ := List.map_eq_cons_iff.mp htail
  obtain ⟨rfl, rfl, his, hi, haccepts, hfollows, hbefore, hbehind, hplug, hnode⟩ := h.framed he
  have hspot := Notation.mem_spots_of_accepts his hi haccepts (hv t ht) hne
  refine .mk hspot his ht (List.map_append ..).symm hfollows hbefore hbehind (hnode hsucceed) ?_
  intro w ws ms' hw hrefine hlexemes
  obtain ⟨us', hus', hrefine'⟩ := hplug w ws hw hrefine
  refine ⟨_, us', ?_, hus', hrefine'⟩
  rw [List.map_append, List.map_append, List.map_append, hlexemes, List.append_assoc]

end GrammarText
