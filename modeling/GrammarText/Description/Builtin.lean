import GrammarText.Description.Basic

/-!
The notation's own grammar. A text is a list of definitions and blank lines. A definition is a
head, colons, and either lines of terminals after `one of` or one production a line; a blank line
or the end of the text closes it.
-/

namespace GrammarText

open Item (token word rule)

def builtinRules : RuleTable := [
  (.grammar, [[(rule .block).times .star, token .eof]]),
  (.block, [[token .newline], [rule .definition]]),
  (.definition, [
    [rule .head, token .colons, word .one, word .of, token .newline,
      (rule .terminalLine).times .plus, rule .blockEnd],
    [rule .head, token .colons, token .newline, (rule .production).times .plus,
      rule .blockEnd]]),
  (.blockEnd, [[token .newline], [(token .eof).times .peek]]),
  (.head, [
    [token .call, word .openBracket, rule .param, (rule .paramTail).times .star,
      word .closeBracket],
    [token .nonterminal]]),
  (.paramTail, [[word .comma, rule .param]]),
  (.param, [[token .nonterminal]]),
  (.lineEnd, [[token .newline], [(token .eof).times .peek]]),
  (.terminalLine, [[(rule .terminal).times .plus, rule .lineEnd]]),
  (.terminal, [[token .terminal], [token .control]]),
  (.production, [
    [token .prose, rule .lineEnd],
    [token .wrappedProse, rule .lineEnd],
    [(rule .guard).times .optional, rule .body, (token .label).times .optional,
      rule .lineEnd]]),
  (.guard, [
    [word .openBracket, rule .fixedSigil, token .nonterminal, word .closeBracket]]),
  (.body, [
    [word .openBracket, word .empty, word .closeBracket],
    [(rule .symbol).times .plus]]),
  (.symbol, [
    [rule .nonterminal, word .but, word .not, word .one, word .of, rule .exclusion,
      (rule .exclusionTail).times .star],
    [rule .nonterminal, word .but, word .not, rule .exclusion],
    [rule .nonterminal, word .question],
    [rule .nonterminal],
    [rule .terminal, word .question],
    [rule .terminal],
    [word .openBracket, word .lookahead, rule .lookahead, word .closeBracket],
    [rule .noLineTerminatorHere]]),
  (.noLineTerminatorHere, [
    [word .openBracket, word .no, token .nonterminal, word .here, word .closeBracket]]),
  (.nonterminal, [
    [token .call, word .openBracket, rule .arg, (rule .argTail).times .star,
      word .closeBracket],
    [token .nonterminal],
    [token .barred]]),
  (.argTail, [[word .comma, rule .arg]]),
  (.arg, [[rule .sigil, token .nonterminal]]),
  (.sigil, [[rule .fixedSigil], [word .question]]),
  (.fixedSigil, [[word .tilde], [word .plus]]),
  (.exclusion, [
    [token .control, word .through, token .control],
    [rule .terminal],
    [token .nonterminal]]),
  (.exclusionTail, [
    [word .comma, word .or, rule .exclusion],
    [word .or, rule .exclusion],
    [word .comma, rule .exclusion]]),
  (.lookahead, [
    [word .equal, rule .terminal],
    [word .unequal, rule .terminal],
    [word .outside, word .openBrace, rule .lookaheadEntry,
      (rule .lookaheadEntryTail).times .star, word .closeBrace],
    [word .outside, token .nonterminal]]),
  (.lookaheadEntryTail, [[word .comma, rule .lookaheadEntry]]),
  (.lookaheadEntry, [[(rule .lookaheadElement).times .plus]]),
  (.lookaheadElement, [[rule .terminal], [rule .noLineTerminatorHere]])]

/-- The notation's own grammar, which starts at a whole text. -/
def Description.builtin : Description := ⟨.grammar, builtinRules⟩

end GrammarText
