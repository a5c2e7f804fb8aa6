import GrammarText.Proofs.Assembly.Specification
import GrammarText.Proofs.Display.Faithful

/-!
# Compiled grammars are well-formed

The type of grammars allows more than the notation can say: guards within guards, empty sets, calls
that pass a parameter twice.  `WellFormed` says of each part what may stand in it, and of which words
its names and spellings are.  Every grammar that a text compiles to is well-formed
(`compile_wellFormed`): what was read fits, and what is stored was read.
-/

namespace GrammarText

/-! ## Words of a grammar -/

/-- The scanner reads a name as one nonterminal. -/
def IsNonterminal (name : String) : Prop := (Lexeme.nonterminal name).Stands []

/-- The scanner reads a spelling as one control character. -/
def IsControlCharacter (s : String) : Prop := (Lexeme.control s).Stands []

structure IsSpelling (s : String) : Prop where
  ne_empty : s ≠ ""
  no_space : ' ' ∉ s.toList
  no_newline : '\n' ∉ s.toList
  /-- A backtick stands only for itself. -/
  eq_backtick : Text.backtick ∈ s.toList → s.toList = [Text.backtick]

/-! ## Well-formed parts -/

/-- A parameter is passed on only for itself. -/
def Argument.WellFormed (param : String) (a : Argument) : Prop :=
  IsNonterminal param ∧ ∀ name, a = .var name → name = param

/-- A range goes from a control character to another. -/
def Exclusion.WellFormed : Exclusion → Prop
  | terminal spelling => IsSpelling spelling
  | nonterminal name => IsNonterminal name
  | range low high => IsControlCharacter low ∧ IsControlCharacter high

/-- A set has tokens, and a single one if it must come next. -/
def Lookahead.WellFormed : Lookahead → Prop
  | tokenSet tokens positive =>
    tokens ≠ ∅ ∧ (positive = true → tokens.size = 1) ∧ ∀ s ∈ tokens, IsSpelling s
  | notNonterminal name => IsNonterminal name

namespace Symbol

/-- Whether a symbol names a nonterminal, with arguments or without. -/
def isReference : Symbol → Bool
  | nonterminal _ | apply .. => true
  | _ => false

def isTerminal : Symbol → Bool
  | terminal _ => true
  | _ => false

/-- Calls have arguments and pass no parameter twice, only terminals and references are optional,
and something is taken out of references only. -/
def WellFormed : Symbol → Prop
  | terminal spelling => IsSpelling spelling
  | nonterminal name => IsNonterminal name
  | apply name args =>
    IsNonterminal name ∧ args ≠ [] ∧ (args.map Prod.fst).Nodup ∧ ∀ a ∈ args, a.2.WellFormed a.1
  | optional inner => (inner.isTerminal || inner.isReference) = true ∧ inner.WellFormed
  | exclusion base exclusions =>
    base.isReference = true ∧ base.WellFormed ∧ exclusions ≠ [] ∧ ∀ e ∈ exclusions, e.WellFormed
  | lookahead rule => rule.WellFormed
  | noLineTerminatorHere => True

end Symbol

/-- Only symbols depend on a parameter, and prose is trimmed.  It stood on one line or between
square brackets. -/
def Production.WellFormed : Production → Prop
  | symbols ss => ∀ s ∈ ss, s.WellFormed
  | conditional param _ body =>
    IsNonterminal param ∧ ∃ ss, body = .symbols ss ∧ ∀ s ∈ ss, Symbol.WellFormed s
  | prose text => Text.trim text.toList = text.toList ∧ ('\n' ∉ text.toList ∨ ']' ∉ text.toList)

/-- A definition has productions, and only those of a definition with parameters depend on one. -/
def Definition.WellFormed (d : Definition) : Prop :=
  d.productions ≠ [] ∧ (∀ p ∈ d.productions, p.WellFormed) ∧
    match d with
    | alternatives ps => ∀ p ∈ ps, p.isConditional = false
    | parameterized params _ => params ≠ [] ∧ ∀ param ∈ params, IsNonterminal param

def Grammar.WellFormed (g : Grammar) : Prop :=
  (∀ name d, g.get? name = some d → IsNonterminal name ∧ d.WellFormed) ∧
    ∀ name ∈ g.variableTerminals, IsNonterminal name

/-! ## Words that were read -/

theorem IsName.isNonterminal {name : String} (h : IsName name.toList) : IsNonterminal name :=
  stands_nonterminal h (by rintro c ⟨⟩)

theorem IsControl.isControlCharacter {s : String} (h : IsControl s.toList) : IsControlCharacter s :=
  stands_control h []

/-- A spelling that was read stood between backticks, or could have. -/
theorem Spelled.isSpelling {s : String} (h : Spelled Lexeme.Written s) : IsSpelling s := by
  obtain ⟨body, hquote, hbody⟩ := h.isTerminal
  obtain rfl : body = s.toList := by simpa [Text.quoted, Text.quote] using hquote.symm
  rcases hbody with ⟨hne, hchar⟩ | hs
  · have hno : ∀ c, isTerminalChar c = false → c ∉ s.toList := by
      intro c hc hmem
      rw [hchar c hmem] at hc
      cases hc
    exact ⟨fun hs => hne (by simp [hs]), hno _ rfl, hno _ rfl, fun hc => absurd hc (hno _ rfl)⟩
  · refine ⟨?_, by simp [hs, Text.backtick], by simp [hs, Text.backtick], fun _ => hs⟩
    rintro rfl
    cases hs

/-- Nothing comes in when blanks are dropped. -/
theorem Text.mem_of_mem_trim {c : Char} {cs : List Char} (h : c ∈ Text.trim cs) : c ∈ cs :=
  (List.dropWhile_suffix Text.isBlank).mem ((Text.trimEnd_prefix (Text.trimStart cs)).mem h)

theorem newline_not_mem_proseText {text : String} (h : IsProse text.toList) :
    '\n' ∉ (Reduction.proseText text).toList := by
  obtain ⟨more, htext, hmore⟩ := h
  have hdrop : Text.dropStart? ['>'] ('>' :: more) = some more := Text.dropStart?_append ['>'] more
  rw [Reduction.proseText, htext, hdrop, String.toList_ofList]
  exact fun hc => hmore _ (Text.mem_of_mem_trim hc) rfl

theorem bracket_not_mem_wrappedProseText {text : String} (h : IsWrappedProse text.toList) :
    ']' ∉ (Reduction.wrappedProseText text).toList := by
  obtain ⟨body, htext, hbody⟩ := h
  have hstart : Text.dropStart? ['[', '>'] ('[' :: '>' :: (body ++ [']'])) = some (body ++ [']']) :=
    Text.dropStart?_append ['[', '>'] _
  have hdrop : (Text.dropStart? ['[', '>'] ('[' :: '>' :: (body ++ [']'])) >>=
      Text.dropEnd? [']']) = some body := by
    rw [hstart]
    exact Text.dropEnd?_append [']'] body
  rw [Reduction.wrappedProseText, htext, hdrop, String.toList_ofList]
  exact fun hc => hbody _ (Text.mem_of_mem_trim hc) rfl

/-! ## What was read is well-formed -/

theorem Argument.Fits.wellFormed {param : String} {a : Argument}
    (h : a.Fits Lexeme.Written param) : a.WellFormed param := by
  refine ⟨IsName.isNonterminal h.1, ?_⟩
  rintro name rfl
  rcases h.2 with ⟨value, hvalue⟩ | hvar
  · cases hvalue
  · cases hvar
    rfl

theorem Exclusion.Fits.wellFormed {e : Exclusion} (h : e.Fits Lexeme.Written) : e.WellFormed := by
  cases e with
  | terminal spelling => exact Spelled.isSpelling h
  | nonterminal name => exact IsName.isNonterminal h
  | range low high =>
    exact ⟨IsControl.isControlCharacter h.1, IsControl.isControlCharacter h.2⟩

theorem Lookahead.Fits.wellFormed {l : Lookahead} (h : l.Fits Lexeme.Written) : l.WellFormed := by
  cases l with
  | tokenSet tokens positive =>
    obtain ⟨hspelled, hne, hsingle⟩ := h
    refine ⟨hne, fun hpos => ?_, fun s hs => (hspelled s hs).isSpelling⟩
    obtain ⟨s, rfl⟩ := hsingle hpos
    rw [← Std.ExtTreeSet.length_toList, toList_ofList_singleton]
    rfl
  | notNonterminal name => exact IsName.isNonterminal h

theorem Symbol.Refers.isReference {s : Symbol} (h : s.Refers Lexeme.Written) :
    s.isReference = true := by
  cases s with
  | nonterminal name | apply name args => rfl
  | _ => exact absurd h not_false

theorem Symbol.Refers.wellFormed {s : Symbol} (h : s.Refers Lexeme.Written) : s.WellFormed := by
  cases s with
  | nonterminal name =>
    rcases h with hname | ⟨q, hq, rfl⟩
    · exact IsName.isNonterminal hname
    · exact (isName_stripBars hq).isNonterminal
  | apply name args =>
    obtain ⟨hname, hne, hdistinct, hargs⟩ := h
    exact ⟨IsName.isNonterminal hname, hne, hdistinct, fun a ha => (hargs a ha).wellFormed⟩
  | _ => exact absurd h not_false

theorem Symbol.Fits.wellFormed {s : Symbol} (h : s.Fits Lexeme.Written) : s.WellFormed := by
  rcases h with hrefers | h
  · exact hrefers.wellFormed
  · cases s with
    | terminal spelling => exact Spelled.isSpelling h
    | optional inner =>
      rcases h with hinner | ⟨spelling, rfl, hspelling⟩
      · exact ⟨by rw [hinner.isReference, Bool.or_true], hinner.wellFormed⟩
      · exact ⟨rfl, hspelling.isSpelling⟩
    | exclusion base exclusions =>
      obtain ⟨hbase, hne, hexclusions⟩ := h
      exact ⟨hbase.isReference, hbase.wellFormed, hne, fun e he => (hexclusions e he).wellFormed⟩
    | lookahead rule => exact Lookahead.Fits.wellFormed h
    | noLineTerminatorHere => trivial
    | nonterminal name | apply name args => exact absurd h not_false

theorem Production.Fits.wellFormed {p : Production} (h : p.Fits Lexeme.Written) :
    p.WellFormed := by
  cases p with
  | symbols ss => exact fun s hs => (h s hs).wellFormed
  | conditional param value body =>
    obtain ⟨hparam, ss, rfl, hss⟩ := h
    exact ⟨IsName.isNonterminal hparam, ss, rfl, fun s hs => (hss s hs).wellFormed⟩
  | prose text =>
    obtain ⟨q, ⟨hq, rfl⟩ | ⟨hq, rfl⟩⟩ := h
    · refine ⟨?_, .inl (newline_not_mem_proseText hq)⟩
      rw [Reduction.proseText, String.toList_ofList, Text.trim_trim]
    · refine ⟨?_, .inr (bracket_not_mem_wrappedProseText hq)⟩
      rw [Reduction.wrappedProseText, String.toList_ofList, Text.trim_trim]

/-- Definitions that can be added have guards only where they have parameters. -/
theorem Definition.Fits.wellFormed {name : String} {d : Definition}
    (h : d.Fits Lexeme.Written name) (hu : d.Unconditional) :
    IsNonterminal name ∧ d.WellFormed := by
  obtain ⟨hne, hproductions, hhead⟩ := h
  have hall : ∀ p ∈ d.productions, p.WellFormed := fun p hp => (hproductions p hp).wellFormed
  cases d with
  | alternatives ps => exact ⟨IsName.isNonterminal hhead, hne, hall, hu⟩
  | parameterized params ps =>
    obtain ⟨hname, hparams, hwords⟩ := hhead
    exact ⟨IsName.isNonterminal hname, hne, hall, hparams,
      fun param hparam => IsName.isNonterminal (hwords param hparam)⟩

/-! ## Compiled grammars -/

/-- Every grammar that a text compiles to is well-formed. -/
theorem compile_wellFormed {text : String} {options : Options} {g : Grammar}
    (h : compile text options = .ok g) : g.WellFormed := by
  have hfits := declarationsOf_fits text
  obtain ⟨ds, hds, hg⟩ := compile_ok_iff.mp h
  rw [hds] at hfits
  obtain ⟨a, ha, -, rfl⟩ := assemble_ok_iff.mp hg
  have hread : ∀ e ∈ ds, IsNonterminal e.name ∧ e.definition.WellFormed := fun e he =>
    (hfits e he).wellFormed ((Assembly.exists_addAll_iff.mp ⟨a, ha⟩).1 e he)
  constructor
  · intro name d hd
    obtain ⟨e, he, rfl, rfl⟩ :=
      Assembly.exists_declaration ha (Std.ExtTreeMap.mem_toList_iff_getElem?_eq_some.mpr hd)
    exact hread e he
  · intro name hname
    obtain hname | ⟨e, he, -, rfl⟩ := (Assembly.mem_variableTerminals_addAll ha).mp hname
    · simp [Assembly.empty] at hname
    · exact (hread e he).1

/-- A call, an exclusion, a lookahead and prose of more than one line make a well-formed grammar. -/
theorem compile_wellFormed_two_definitions :
    let text :=
      "A :\n B[+P, ?Q] but not one of <TAB> through U+0020 or \x60\x60\x60\n\nB[P, Q] ::\n" ++
      " [~P] [lookahead != \x60x\x60] |Ab|?\n [> any\n text ]\n"
    ∃ g, compile text .new = .ok g ∧ g.WellFormed := by
  intro text
  have hok : (compile text .new).isOk = true := by decide +kernel
  cases hg : compile text .new with
  | ok g => exact ⟨g, rfl, compile_wellFormed hg⟩
  | error e => simp [hg, Except.isOk, Except.toBool] at hok

end GrammarText
