import GrammarText.Proofs.Parsing.Notation
import Mathlib.Data.List.Chain

/-!
# Seams between tokens

Two tokens of a derivation stand next to each other where one item ends and the next one begins.  In
the notation prose begins a line, so a bracket is never what stands before it (`Derives.untorn`):
written without a blank between, the two would be read as bracketed prose.
-/

namespace GrammarText

/-- Whether a matcher may begin with prose: of the rules, only a production does. -/
def Matcher.opensProse : Matcher → Bool
  | .token k => k = .prose
  | .word _ => false
  | .rule r => r = .production

/-- Whether a matcher may end in an opening bracket: no rule does. -/
def Matcher.endsOpen : Matcher → Bool
  | .token k => k = .reserved
  | .word w => w = .openBracket
  | .rule _ => false

namespace Notation

def opensProse : List Item → Bool
  | [] => false
  | i :: is => i.matcher.opensProse || (i.idle idle && opensProse is)

def endOpen : List Item → Bool
  | [] => false
  | i :: is => endOpen is || (i.matcher.endsOpen && is.all (·.idle idle))

/-- No item that may end in an opening bracket stands before items that may begin with prose. -/
def seamless : List Item → Bool
  | [] => true
  | i :: is => !(i.matcher.endsOpen && opensProse is) && seamless is

theorem seamless_alternatives {r : Rule} {alternatives : List (List Item)}
    (hr : builtinRules.alternatives? r = some alternatives) :
    ∀ is ∈ alternatives, seamless is = true ∧ endOpen is = false ∧
      (opensProse is = true → r = .production) := by
  cases r <;> cases hr <;> decide +kernel

end Notation

namespace Part

def opensProse : Part → Bool
  | matcher m | rounds m => m.opensProse
  | item i => i.matcher.opensProse
  | items is => Notation.opensProse is
  | choice r _ _ => r = .production

def endsOpen : Part → Bool
  | matcher m | rounds m => m.endsOpen
  | item i => i.matcher.endsOpen
  | items is => Notation.endOpen is
  | choice .. => false

def Seamless : Part → Prop
  | items is => Notation.seamless is = true
  | choice r _ alternatives => ∀ is ∈ alternatives, Notation.seamless is = true ∧
      Notation.endOpen is = false ∧ (Notation.opensProse is = true → r = .production)
  | _ => True

end Part

/-- A token may stand before another without being torn from it. -/
def Untorn (t u : Token) : Prop := t.lexeme = .reserved .openBracket → u.kind ≠ .prose

variable {close : Nat} {p : Part} {taken rest : List Token} {ts : List Tree}

theorem Wanted.opensProse_of_accepts {m : Matcher} {w : Wanted} {t : Token}
    (hw : m.wanted? = some w) (ht : w.accepts t = true) (hprose : t.kind = .prose) :
    m.opensProse = true := by
  cases m with
  | token k =>
    cases hw
    simpa [Matcher.opensProse, accepts, hprose, eq_comm] using ht
  | word w =>
    cases hw
    simp [kind_of_accepts_word ht] at hprose
  | rule r => cases hw

theorem Wanted.endsOpen_of_accepts {m : Matcher} {w : Wanted} {t : Token}
    (hw : m.wanted? = some w) (ht : w.accepts t = true)
    (hopen : t.lexeme = .reserved .openBracket) : m.endsOpen = true := by
  cases m with
  | token k =>
    cases hw
    have hkind : t.kind = .reserved := by rw [Token.kind, hopen, Lexeme.kind]
    simpa [Matcher.endsOpen, accepts, hkind, eq_comm] using ht
  | word w =>
    cases hw
    simpa [Matcher.endsOpen, accepts, hopen, eq_comm] using ht
  | rule r => cases hw

/-- No matcher both ends in an opening bracket and begins with prose. -/
theorem Matcher.not_endsOpen_of_opensProse {m : Matcher} (h : m.opensProse = true) :
    m.endsOpen = false := by
  cases m with
  | token k =>
    obtain rfl : k = .prose := by simpa [opensProse] using h
    rfl
  | word w => cases h
  | rule r => rfl

/-- Only what may begin with prose does. -/
theorem Derives.opensProse (h : Derives .builtin close p taken rest ts) (hp : p.Seamless)
    {t : Token} (ht : taken.head? = some t) (hprose : t.kind = .prose) : p.opensProse = true := by
  induction h with
  | leaf hw hacc =>
    obtain rfl : _ = t := by simpa using ht
    exact Wanted.opensProse_of_accepts hw hacc hprose
  | rule hr h ih => exact ih (Notation.seamless_alternatives hr) ht
  | here h ih =>
    obtain ⟨hseamless, -, hopens⟩ := hp _ List.mem_cons_self
    simpa [Part.opensProse] using hopens (ih hseamless ht)
  | later h ih => exact ih (fun is his => hp is (List.mem_cons_of_mem _ his)) ht
  | done | absent | peek | nil => simp at ht
  | @round m u v rest ts us h hs ih ihs | @plus m u v rest ts us h hs ih ihs =>
    cases u with
    | nil => exact ihs trivial ht
    | cons x u => exact ih trivial ht
  | one h ih | present h ih | star h ih => exact ih trivial ht
  | @cons i is u v rest ts us h hs ih ihs =>
    rw [Part.Seamless, Notation.seamless, Bool.and_eq_true] at hp
    show (i.matcher.opensProse || (i.idle Notation.idle && Notation.opensProse is)) = true
    rw [Bool.or_eq_true, Bool.and_eq_true]
    cases u with
    | nil => exact .inr ⟨h.idle Description.builtin_layering rfl, ihs hp.2 ht⟩
    | cons x u => exact .inl (ih trivial ht)

/-- Only what may end in an opening bracket does. -/
theorem Derives.endsOpen (h : Derives .builtin close p taken rest ts) (hp : p.Seamless)
    {t : Token} (ht : taken.getLast? = some t) (hopen : t.lexeme = .reserved .openBracket) :
    p.endsOpen = true := by
  induction h with
  | leaf hw hacc =>
    obtain rfl : _ = t := by simpa using ht
    exact Wanted.endsOpen_of_accepts hw hacc hopen
  | rule hr h ih => exact ih (Notation.seamless_alternatives hr) ht
  | here h ih =>
    obtain ⟨hseamless, hends, -⟩ := hp _ List.mem_cons_self
    have hopens : Notation.endOpen _ = true := ih hseamless ht
    rw [hends] at hopens
    cases hopens
  | later h ih => exact ih (fun is his => hp is (List.mem_cons_of_mem _ his)) ht
  | done | absent | peek | nil => simp at ht
  | @round m u v rest ts us h hs ih ihs | @plus m u v rest ts us h hs ih ihs =>
    cases v with
    | nil => exact ih trivial (by simpa using ht)
    | cons x v => exact ihs trivial (by simpa [List.getLast?_append] using ht)
  | one h ih | present h ih | star h ih => exact ih trivial ht
  | @cons i is u v rest ts us h hs ih ihs =>
    rw [Part.Seamless, Notation.seamless, Bool.and_eq_true] at hp
    show (Notation.endOpen is || (i.matcher.endsOpen && is.all (·.idle Notation.idle))) = true
    rw [Bool.or_eq_true, Bool.and_eq_true]
    cases v with
    | nil =>
      exact .inr ⟨ih trivial (by simpa using ht), hs.idle Description.builtin_layering rfl⟩
    | cons x v => exact .inl (ihs hp.2 (by simpa [List.getLast?_append] using ht))

/-- No token of a derivation is torn from the one before it. -/
theorem Derives.untorn (h : Derives .builtin close p taken rest ts) (hp : p.Seamless) :
    taken.IsChain Untorn := by
  induction h with
  | leaf | done | absent | peek | nil => simp
  | rule hr h ih => exact ih (Notation.seamless_alternatives hr)
  | here h ih => exact ih (hp _ List.mem_cons_self).1
  | later h ih => exact ih fun is his => hp is (List.mem_cons_of_mem _ his)
  | @round m u v rest ts us h hs ih ihs | @plus m u v rest ts us h hs ih ihs =>
    refine List.isChain_append.mpr ⟨ih trivial, ihs trivial, ?_⟩
    intro x hx y hy hopen hprose
    have hends : m.endsOpen = true := h.endsOpen trivial hx hopen
    rw [Matcher.not_endsOpen_of_opensProse (hs.opensProse trivial hy hprose)] at hends
    cases hends
  | one h ih | present h ih | star h ih => exact ih trivial
  | @cons i is u v rest ts us h hs ih ihs =>
    rw [Part.Seamless, Notation.seamless, Bool.and_eq_true] at hp
    refine List.isChain_append.mpr ⟨ih trivial, ihs hp.2, ?_⟩
    intro x hx y hy hopen hprose
    have hends : i.matcher.endsOpen = true := h.endsOpen trivial hx hopen
    have hopens : Notation.opensProse is = true := hs.opensProse hp.2 hy hprose
    simp [hends, hopens] at hp

/-- In a list of tokens that the parser accepts, no bracket stands right before prose. -/
theorem Tree.untorn_of_ofTokens {tokens : List Token} {t : Tree} (hend : Ended tokens)
    (h : ofTokens tokens = .ok t) : tokens.IsChain Untorn :=
  Derives.untorn (derivationOf_of_ofTokens hend h) trivial

end GrammarText
