import GrammarText.Proofs.Compile.Layout
import GrammarText.Proofs.Scanning.Returns
import GrammarText.Proofs.Text.Place

/-!
# Carriage returns before line breaks are harmless

A text compiles as it does with a carriage return before each of its line breaks, unless prose in
brackets goes over one (`compile_returns`).  Either its tokens agree with those that it has then, or
the same character is refused at the same place.
-/

namespace GrammarText

open List (Forall₂)
open Text (byteLength placeAt_append)

/-- What the scanner has read is the beginning of what it reads in the end. -/
theorem Scanner.Reads.lex {s s' : Scanner} {ts : List Token} (h : s.Reads ts s') :
    s.lex.1 = s'.lex.1.map (ts ++ ·) := by
  induction h with
  | @done s => cases s.lex.1 <;> rfl
  | @token s s' s'' t ts hnext h ih =>
    rw [lex_of_next hnext, ih]
    cases s''.lex.1 <;> rfl

/-- Tokens of lexemes that agree, before the end of a text, agree. -/
theorem forall₂_agrees_of_lexemes {ts us : List Token} {t u : Token}
    (h : Forall₂ Lexeme.Agrees (ts.map Token.lexeme) (us.map Token.lexeme))
    (ht : t.lexeme = u.lexeme) : Forall₂ Token.Agrees (ts ++ [t]) (us ++ [u]) := by
  rw [List.forall₂_map_left_iff, List.forall₂_map_right_iff] at h
  refine List.rel_append h (.cons ?_ .nil)
  show t.lexeme.Agrees u.lexeme
  rw [ht]
  exact .refl _

/-- Carriage returns before line breaks are harmless.  With them a text compiles to the same
grammar as without them, or it is refused for the same thing, unless prose in brackets that is read
goes over a line break. -/
theorem compile_returns (text : String) (o : Options)
    (hline : ∀ ts s, (Scanner.ofText text.toList).Reads ts s →
      ∀ t ∈ ts, t.kind = .wrappedProse → '\n' ∉ t.text.toList) :
    ResultsAlike Eq (compile text o) (compile (String.ofList (withReturns text.toList)) o) := by
  obtain ⟨ls, rest, hls, hstuck⟩ := exists_lexes text.toList
  obtain ⟨cs, ts, s, htext, hreads, rfl, htokens⟩ := hls.tokensOf hstuck
  obtain ⟨ms, hagree, hms⟩ := hls.returns hstuck
    (List.forall_mem_map.mpr fun t ht => hline ts s hreads t ht)
  generalize hreturns : String.ofList (withReturns text.toList) = text'
  have hlist : text'.toList = withReturns text.toList := by rw [← hreturns, String.toList_ofList]
  rw [← hlist] at hms
  obtain ⟨cs', us, -, htext', -, rfl, htokens'⟩ := hms.tokensOf hstuck.returns
  -- What comes before the end, or before the character that is refused, is the same.
  obtain rfl : cs' = withReturns cs := by
    rw [hlist, htext, withReturns_append] at htext'
    exact (List.append_cancel_right htext').symm
  cases rest with
  | nil => exact compile_agree htokens htokens' (forall₂_agrees_of_lexemes hagree rfl) rfl
  | cons c rest =>
    have hbreak : c ≠ '\n' := by
      rintro rfl
      cases hstuck.1
    have hplace : Text.placeAt text.toList (byteLength cs) =
        Text.placeAt text'.toList (byteLength (withReturns cs)) := by
      rw [htext, htext', placeAt_append, placeAt_append, foldl_after_withReturns]
    rw [withReturns_cons hbreak] at htokens'
    refine compile_alike (T := Anywhere) (N := Anywhere) ?_ rfl
    rw [declarationsOf_eq_error htokens, declarationsOf_eq_error htokens']
    show Diagnostic.Alike _ _
    rw [Diagnostic.Alike, Diagnostic.unplaced, Diagnostic.unplaced, hplace]

/-- Prose is the same before a carriage return, and in brackets before one as well. -/
theorem compile_returns_prose :
    let text := "A:\n\t> some prose\n\t[> more prose]\n\t\x60x\x60 #l\nB[C]: one of\n\t\x60y\x60\n"
    (∀ ts s, (Scanner.ofText text.toList).Reads ts s →
      ∀ t ∈ ts, t.kind = .wrappedProse → '\n' ∉ t.text.toList) ∧
    ResultsAlike Eq (compile text .new)
      (compile (String.ofList (withReturns text.toList)) .new) := by
  intro text
  have hok : (tokensOf text).toOption.map (fun ts => ts.all fun t =>
      t.kind ≠ .wrappedProse ∨ '\n' ∉ t.text.toList) = some true := by decide +kernel
  have hline : ∀ ts s, (Scanner.ofText text.toList).Reads ts s →
      ∀ t ∈ ts, t.kind = .wrappedProse → '\n' ∉ t.text.toList := by
    intro ts s hreads t ht hkind
    have hlex : tokensOf text = s.lex.1.map (ts ++ ·) := hreads.lex
    cases hs : s.lex.1 with
    | error e =>
      rw [hlex, hs] at hok
      cases hok
    | ok us =>
      rw [hlex, hs] at hok
      have hall := List.all_eq_true.mp (Option.some.inj hok) t (List.mem_append_left _ ht)
      simpa [hkind] using hall
  exact ⟨hline, compile_returns text .new hline⟩

end GrammarText
