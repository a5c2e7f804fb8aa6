import GrammarText.Data.Basic
import GrammarText.Data.Yaml.Scalar
import GrammarText.Proofs.Data.Numeral
import GrammarText.Proofs.Text.Quoted

/-!
# Scalars are read back from YAML text

The first character of a scalar tells in which of the four ways it is written.  Each way has a
reader that finds where the scalar ends and takes away what is there only for the layout: the
indentation of its further lines, the second of two quotes, escapes.  What is written for a text is
read as that text, whatever stands behind it (`Yaml.exists_inline`, `Yaml.readLine_scalarLine`).
-/

namespace GrammarText

namespace Yaml

open Numeral (hexDigits natural? natural?_hexDigits)
open Text (consRead dropStart? dropStart?_append)

/-! ## Readers -/

/-- The indentation of a text that stands at the start of a line or not. An empty line has none. -/
def lineIndent (n : Nat) (afterBreak : Bool) (cs : List Char) : Nat :=
  if afterBreak && !firstIs isBreak cs then n else 0

/-- Takes the indentation of the lines of a text away. So many characters are still to be taken
from the line that the text starts in. -/
def unindent (n : Nat) : Nat → List Char → List Char
  | _, [] => []
  | skip + 1, _ :: cs => unindent n skip cs
  | 0, c :: cs => c :: unindent n (lineIndent n (isBreak c) cs) cs

/-- Whether a block does not go on with a line: the line is not empty and not indented enough. -/
def blockEnds (n : Nat) (cs : List Char) : Bool :=
  cs.isEmpty || (!firstIs isBreak cs && (dropStart? (indentation n) cs).isNone)

/-- Splits what stands behind a block from the block. -/
def splitBlock (n : Nat) : List Char → List Char × List Char
  | [] => ([], [])
  | c :: cs =>
    if isBreak c && blockEnds n cs then ([c], cs)
    else let (block, rest) := splitBlock n cs; (c :: block, rest)

/-- Reads a text whose opening single quote was read, up to its closing quote. -/
def readSingle : List Char → Option (List Char × List Char)
  | [] => none
  | c :: cs =>
    if c = apostrophe then
      match cs with
      | [] => some ([], [])
      | d :: ds =>
        if d = apostrophe then consRead apostrophe (readSingle ds) else some ([], d :: ds)
    else consRead c (readSingle cs)

/-- Reads a text whose opening double quote was read, up to its closing quote. -/
def readDouble : List Char → Option (List Char × List Char)
  | [] => none
  | '"' :: rest => some ([], rest)
  | '\\' :: 'x' :: a :: b :: rest => do consRead (.ofNat (← natural? 16 [a, b])) (readDouble rest)
  | '\\' :: 'u' :: a :: b :: c :: d :: rest => do
    consRead (.ofNat (← natural? 16 [a, b, c, d])) (readDouble rest)
  | '\\' :: letter :: rest => do
    consRead (← (escapeLetters.map Prod.swap).lookup letter) (readDouble rest)
  | c :: rest => consRead c (readDouble rest)

/-- Splits what stands behind a plain scalar from it: the end of the line, or the colon of a key. -/
def splitPlain : List Char → List Char × List Char
  | [] => ([], [])
  | c :: cs =>
    if c = '\n' || (c = ':' && gapNext cs) then ([], c :: cs)
    else let (plain, rest) := splitPlain cs; (c :: plain, rest)

def resolve (cs : List Char) : Data :=
  if cs = "true".toList then .bool true
  else if cs = "false".toList then .bool false
  else if cs = "[]".toList then .list []
  else if cs = "\x7b\x7d".toList then .record []
  else .text (.ofList cs)

/-- Reads a scalar that is no block. Its further lines have an indentation. -/
def readInline (n : Nat) : List Char → Option (Data × List Char)
  | [] => none
  | c :: cs =>
    if c = '|' then none
    else if c = '"' then (readDouble cs).map fun (cs, rest) => (.text (.ofList cs), rest)
    else if c = apostrophe then
      (readSingle cs).map fun (cs, rest) => (.text (.ofList (unindent n 0 cs)), rest)
    else let (plain, rest) := splitPlain (c :: cs); some (resolve plain, rest)

def readLiteral (n : Nat) (cs : List Char) : Option (List Char × List Char) :=
  let hints := cs.takeWhile (· ≠ '\n')
  match cs.dropWhile (· ≠ '\n') with
  | [] => none
  | _ :: cs =>
    let (block, rest) := splitBlock n cs
    let text := unindent n (lineIndent n true block) block
    -- A minus says that the last line end is not a part of the text.
    some (if hints.contains '-' then text.dropLast else text, rest)

def readLine (n : Nat) (cs : List Char) : Option (Data × List Char) :=
  match dropStart? ['|'] cs with
  | some cs => (readLiteral n cs).map fun (cs, rest) => (.text (.ofList cs), rest)
  | none => do
    let (d, rest) ← readInline n cs
    return (d, ← dropStart? ['\n'] rest)

/-! ## What may stand behind a scalar -/

/-- Whether a line may start so, behind its indentation. -/
def opensLine (cs : List Char) : Bool := firstIs (fun c => !(isSpace c || isBreak c)) cs

/-- Nothing, or a line that is indented less than by `n`. -/
def Below (n : Nat) (rest : List Char) : Prop :=
  rest = [] ∨ ∃ m < n, ∃ line, rest = indentation m ++ line ∧ opensLine line = true

theorem Below.mono {n m : Nat} {rest : List Char} (h : Below n rest) (hnm : n ≤ m) :
    Below m rest := by
  obtain rfl | ⟨k, hk, line, rfl, hline⟩ := h
  · exact .inl rfl
  · exact .inr ⟨k, by omega, line, rfl, hline⟩

/-- A line that is indented less than by `n` does not start with an indentation by `n`. -/
theorem dropStart?_indentation {n m : Nat} {line : List Char} (hmn : m < n)
    (hline : opensLine line = true) :
    dropStart? (indentation n) (indentation m ++ line) = none := by
  obtain ⟨k, rfl⟩ : ∃ k, n = m + (k + 1) := ⟨n - m - 1, by omega⟩
  induction m with
  | zero =>
    cases line with
    | nil => simp [opensLine, firstIs] at hline
    | cons c line =>
      have hc : ' ' ≠ c := by
        rintro rfl
        simp [opensLine, firstIs, isSpace] at hline
      simp [indentation, dropStart?, List.replicate_succ, hc]
  | succ m ih =>
    have hm := ih (by omega)
    rw [show m + 1 + (k + 1) = m + (k + 1) + 1 by omega]
    simpa [indentation, List.replicate_succ, dropStart?] using hm

theorem firstIs_indentation {n : Nat} {cs : List Char} (hcs : firstIs isBreak cs = false) :
    firstIs isBreak (indentation n ++ cs) = false := by
  cases n with
  | zero => exact hcs
  | succ n => rfl

theorem Below.blockEnds {n : Nat} {rest : List Char} (h : Below n rest) :
    blockEnds n rest = true := by
  obtain rfl | ⟨m, hm, line, rfl, hline⟩ := h
  · rfl
  · have hbreak : firstIs isBreak line = false := by
      cases line with
      | nil => rfl
      | cons c line => simp_all [opensLine, firstIs]
    simp [Yaml.blockEnds, firstIs_indentation hbreak, dropStart?_indentation hm hline]

/-! ## Blocks and single quotes -/

/-- Whether a line starts behind a text, if one starts or not before it. -/
def endsLine (afterBreak : Bool) : List Char → Bool
  | [] => afterBreak
  | c :: cs => endsLine (isBreak c) cs

theorem endsLine_cons (afterBreak : Bool) (c : Char) (cs : List Char) :
    endsLine afterBreak (c :: cs) = lastIs isBreak (c :: cs) := by
  induction cs generalizing afterBreak c with
  | nil => rfl
  | cons d cs ih =>
    rw [endsLine, ih]
    simp [lastIs]

theorem endsLine_false (cs : List Char) : endsLine false cs = lastIs isBreak cs := by
  cases cs with
  | nil => rfl
  | cons c cs => exact endsLine_cons false c cs

theorem indentLines_cons (n : Nat) (afterBreak : Bool) (c : Char) (cs : List Char) :
    indentLines n afterBreak (c :: cs)
      = indentation (lineIndent n afterBreak (c :: cs)) ++ c :: indentLines n (isBreak c) cs := by
  rw [indentLines]
  cases h : afterBreak && !isBreak c <;> simp [lineIndent, firstIs, h, indentation]

theorem firstIs_indentLines (n : Nat) (afterBreak : Bool) (cs : List Char) {tail : List Char}
    (htail : firstIs isBreak tail = false) :
    firstIs isBreak (indentLines n afterBreak cs ++ tail) = firstIs isBreak cs := by
  cases cs with
  | nil => exact htail
  | cons c cs =>
    rw [indentLines_cons]
    cases hc : isBreak c with
    | true => simp [lineIndent, firstIs, hc, indentation]
    | false =>
      rw [List.append_assoc, firstIs_indentation]
      all_goals simp [firstIs, hc]

theorem unindent_blank {n skip m : Nat} (hm : m ≤ skip) : unindent n skip (indentation m) = [] := by
  induction m generalizing skip with
  | zero => cases skip <;> rfl
  | succ m ih =>
    obtain ⟨skip, rfl⟩ : ∃ k, skip = k + 1 := ⟨skip - 1, by omega⟩
    exact ih (by omega)

theorem unindent_indentation (n skip : Nat) (cs : List Char) :
    unindent n skip (indentation skip ++ cs) = unindent n 0 cs := by
  induction skip with
  | zero => rfl
  | succ skip ih => exact ih

/-- The indentation of the lines of a text is taken away, also of a line that holds nothing else. -/
theorem unindent_indentLines {n m : Nat} (afterBreak : Bool) (cs : List Char)
    (hm : m ≤ if endsLine afterBreak cs then n else 0) :
    unindent n (lineIndent n afterBreak cs) (indentLines n afterBreak cs ++ indentation m)
      = cs := by
  induction cs generalizing afterBreak with
  | nil => exact unindent_blank (by cases afterBreak <;> exact hm)
  | cons c cs ih =>
    have htail : firstIs isBreak (indentation m) = false := by
      rw [← List.append_nil (indentation m)]
      exact firstIs_indentation rfl
    have hrest : lineIndent n (isBreak c) (indentLines n (isBreak c) cs ++ indentation m)
        = lineIndent n (isBreak c) cs := by
      rw [lineIndent, firstIs_indentLines n (isBreak c) cs htail, lineIndent]
    rw [indentLines_cons, List.append_assoc, unindent_indentation, List.cons_append, unindent,
      hrest, ih (isBreak c) hm]

theorem splitBlock_append {n : Nat} {line : List Char} (hline : ∀ c ∈ line, isBreak c = false)
    (cs : List Char) :
    splitBlock n (line ++ cs) = (line ++ (splitBlock n cs).1, (splitBlock n cs).2) := by
  induction line with
  | nil => rfl
  | cons c line ih =>
    have hc := hline c List.mem_cons_self
    have hcs := ih fun d hd => hline d (List.mem_cons_of_mem c hd)
    simp [splitBlock, hc, hcs]

/-- A block goes on with each further line of its text. -/
theorem blockEnds_indentLines (n : Nat) (c : Char) (cs rest : List Char) :
    blockEnds n (indentLines n true (c :: cs) ++ rest) = false := by
  rw [indentLines_cons]
  cases hc : isBreak c with
  | true => simp [blockEnds, lineIndent, firstIs, hc, indentation]
  | false =>
    have hindent : lineIndent n true (c :: cs) = n := by simp [lineIndent, firstIs, hc]
    rw [hindent, List.append_assoc, blockEnds, dropStart?_append]
    simp

/-- A block reaches up to a line that is indented less. -/
theorem splitBlock_indentLines {n : Nat} {rest : List Char} (hrest : Below n rest)
    (afterBreak : Bool) (cs : List Char) (hlast : lastIs isBreak cs = true) :
    splitBlock n (indentLines n afterBreak cs ++ rest) = (indentLines n afterBreak cs, rest) := by
  induction cs generalizing afterBreak with
  | nil => simp [lastIs] at hlast
  | cons c cs ih =>
    have hblank : ∀ d ∈ indentation (lineIndent n afterBreak (c :: cs)), isBreak d = false := by
      intro d hd
      rw [List.eq_of_mem_replicate hd]
      rfl
    rw [indentLines_cons, List.append_assoc, splitBlock_append hblank, List.cons_append, splitBlock]
    cases cs with
    | nil =>
      have hc : isBreak c = true := by simpa [lastIs] using hlast
      simp [indentLines, hc, hrest.blockEnds]
    | cons d cs =>
      have hgoesOn : (isBreak c && blockEnds n (indentLines n (isBreak c) (d :: cs) ++ rest))
          = false := by
        cases isBreak c with
        | true => exact blockEnds_indentLines n d cs rest
        | false => rfl
      rw [if_neg (by simp [hgoesOn]), ih (isBreak c) (by simpa [lastIs] using hlast)]

/-! ## Each way of writing is read back -/

/-- What stands behind the bar of a block is on one line. -/
theorem blockHints_ne (cs : List Char) : ∀ c ∈ blockHints cs, decide (c ≠ '\n') = true := by
  intro c hc
  unfold blockHints at hc
  grind

/-- A minus behind the bar of a block says that the text does not end with a line end. -/
theorem blockHints_contains (cs : List Char) :
    (blockHints cs).contains '-' = !lastIs isBreak cs := by
  rw [lastIs, ← List.head?_reverse]
  unfold blockHints
  rcases cs.reverse with _ | ⟨c, _ | ⟨d, ds⟩⟩
  · split <;> rfl
  · cases hc : isBreak c <;> split <;> simp [hc]
  · cases hc : isBreak c <;> cases hd : isBreak d <;> split <;> simp [hc, hd]

theorem indentLines_append_newline (n : Nat) (afterBreak : Bool) (cs : List Char) :
    indentLines n afterBreak cs ++ ['\n'] = indentLines n afterBreak (cs ++ ['\n']) := by
  induction cs generalizing afterBreak with
  | nil => cases afterBreak <;> rfl
  | cons c cs ih => simp [indentLines, ih]

/-- The text of a block with a last line end is read up to that. -/
theorem unindent_splitBlock {n : Nat} {cs rest : List Char} (hlast : lastIs isBreak cs = true)
    (hrest : Below n rest) :
    ∃ block, splitBlock n (indentLines n true cs ++ rest) = (block, rest)
      ∧ unindent n (lineIndent n true block) block = cs := by
  refine ⟨_, splitBlock_indentLines hrest true cs hlast, ?_⟩
  have hfirst := firstIs_indentLines n true cs (show firstIs isBreak [] = false from rfl)
  have hcs := unindent_indentLines (n := n) (m := 0) true cs (Nat.zero_le _)
  rw [indentation, List.replicate_zero, List.append_nil] at hcs
  rw [List.append_nil] at hfirst
  rwa [lineIndent, hfirst, ← lineIndent]

/-- A block is read as its text. -/
theorem readLiteral_block {n : Nat} (cs : List Char) {rest : List Char} (hrest : Below n rest) :
    readLiteral n (blockHints cs ++ '\n' :: (indentLines n true cs
      ++ (if lastIs isBreak cs then [] else ['\n']) ++ rest)) = some (cs, rest) := by
  have hhints := blockHints_ne cs
  rw [readLiteral, List.takeWhile_append_of_pos hhints, List.dropWhile_append_of_pos hhints,
    List.takeWhile_cons_of_neg (by decide), List.dropWhile_cons_of_neg (by decide),
    List.append_nil]
  simp only [blockHints_contains]
  cases hlast : lastIs isBreak cs with
  | true =>
    obtain ⟨block, hsplit, htext⟩ := unindent_splitBlock hlast hrest
    simp [hsplit, htext]
  | false =>
    have hnewline : lastIs isBreak (cs ++ ['\n']) = true := by simp [lastIs, isBreak]
    obtain ⟨block, hsplit, htext⟩ := unindent_splitBlock hnewline hrest
    rw [← indentLines_append_newline] at hsplit
    simp only [Bool.false_eq_true, if_false, hsplit, htext, Bool.not_false, if_true,
      List.dropLast_concat]

theorem readSingle_doubleQuote (c : Char) (rest : List Char) :
    readSingle (doubleQuote c ++ rest) = consRead c (readSingle rest) := by
  by_cases hc : c = apostrophe
  · simp [doubleQuote, readSingle, hc]
  · rw [doubleQuote, if_neg hc, List.singleton_append, readSingle.eq_def]
    simp [hc]

theorem flatMap_indentation (n : Nat) : (indentation n).flatMap doubleQuote = indentation n := by
  simp [indentation, doubleQuote, apostrophe, List.flatMap_replicate]

theorem indentLines_flatMap (n : Nat) (afterBreak : Bool) (cs : List Char) :
    indentLines n afterBreak (cs.flatMap doubleQuote)
      = (indentLines n afterBreak cs).flatMap doubleQuote := by
  induction cs generalizing afterBreak with
  | nil => rfl
  | cons c cs ih =>
    have hhead : ∀ ds, lineIndent n afterBreak (c :: ds) = lineIndent n afterBreak (c :: cs) :=
      fun _ => rfl
    rw [indentLines_cons, List.flatMap_append, flatMap_indentation, List.flatMap_cons,
      List.flatMap_cons]
    by_cases hc : c = apostrophe
    · have hbreak : isBreak c = false := by rw [hc]; rfl
      have hsecond : ∀ ds, indentation (lineIndent n false ds) = [] := fun _ => rfl
      simp [doubleQuote, ← hc, indentLines_cons, hhead, hbreak, hsecond, ih]
    · simp [doubleQuote, hc, indentLines_cons, hhead, ih]

/-- A text between single quotes is read as it was before its quotes and lines were changed. -/
theorem readSingle_quoted (n : Nat) (cs : List Char) {rest : List Char}
    (hrest : firstIs (fun c => c = apostrophe) rest = false) :
    ∃ quoted, readSingle (indentLines n false (cs.flatMap doubleQuote)
        ++ (if lastIs isBreak cs then indentation n else []) ++ apostrophe :: rest)
          = some (quoted, rest)
      ∧ unindent n 0 quoted = cs := by
  have hclose : readSingle (apostrophe :: rest) = some ([], rest) := by
    cases rest with
    | nil => simp [readSingle]
    | cons d rest =>
      have hd : d ≠ apostrophe := by simpa [firstIs] using hrest
      simp [readSingle, hd]
  have hlast : (if lastIs isBreak cs then indentation n else [])
      = indentation (if lastIs isBreak cs then n else 0) := by
    split <;> rfl
  rw [indentLines_flatMap, hlast, ← flatMap_indentation, ← List.flatMap_append]
  refine ⟨_, Text.read_flatMap readSingle_doubleQuote hclose _, ?_⟩
  have hcs := unindent_indentLines (n := n) false cs (Nat.le_of_eq rfl)
  rwa [endsLine_false] at hcs

/-- The letter of an escape tells its character, and is none that starts a longer escape. -/
theorem escapeLetters_swap : ∀ p ∈ escapeLetters,
    (escapeLetters.map Prod.swap).lookup p.2 = some p.1 ∧ p.2 ≠ 'x' ∧ p.2 ≠ 'u' := by decide

theorem readDouble_escape (c : Char) (rest : List Char) :
    readDouble (escape c ++ rest) = consRead c (readDouble rest) := by
  unfold escape
  cases hletter : escapeLetters.lookup c with
  | some letter =>
    obtain ⟨before, after, heq, -⟩ := List.lookup_eq_some_iff.mp hletter
    obtain ⟨hswap, hx, hu⟩ := escapeLetters_swap (c, letter) (by simp [heq])
    simp_all [readDouble]
  | none =>
    have hquote : c ≠ '"' := by
      rintro rfl
      simp [escapeLetters] at hletter
    have hslash : c ≠ '\\' := by
      rintro rfl
      simp [escapeLetters] at hletter
    dsimp only
    split
    case isTrue =>
      rw [List.singleton_append, readDouble]
      all_goals simp_all
    case isFalse hprintable =>
      split
      case isTrue hbyte =>
        have hread : natural? 16 (hexDigits .upper c.toNat 2) = some c.toNat :=
          natural?_hexDigits (Nat.lt_succ_of_le hbyte)
        simp [hexDigits] at hread
        simp [readDouble, hexDigits, hread]
      case isFalse =>
        have hlow : c.toNat < 0x10000 := by
          simp [isPrintable] at hprintable
          omega
        have hread : natural? 16 (hexDigits .upper c.toNat 4) = some c.toNat :=
          natural?_hexDigits hlow
        simp [hexDigits] at hread
        simp [readDouble, hexDigits, hread]

/-! ## Plain scalars -/

/-- What ends a plain scalar: the end of the line, or a colon and a gap. -/
def EndsPlain (rest : List Char) : Prop :=
  (∃ r, rest = '\n' :: r) ∨ ∃ r, rest = ':' :: r ∧ gapNext r = true

theorem splitPlain_of_ends {rest : List Char} (h : EndsPlain rest) :
    splitPlain rest = ([], rest) := by
  obtain ⟨r, rfl⟩ | ⟨r, rfl, hr⟩ := h
  · simp [splitPlain]
  · simp [splitPlain, hr]

theorem splitPlain_cons {c : Char} {cs rest : List Char} (hbreak : isBreak c = false)
    (hcolon : (c = ':' && gapNext cs) = false) (hcs : splitPlain (cs ++ rest) = (cs, rest)) :
    splitPlain (c :: (cs ++ rest)) = (c :: cs, rest) := by
  have hnewline : c ≠ '\n' := by
    rintro rfl
    exact absurd hbreak (by decide)
  have hnext : (c = ':' && gapNext (cs ++ rest)) = false := by
    cases cs with
    | nil => simp_all [gapNext]
    | cons d cs => exact hcolon
  simp [splitPlain, hnewline, hnext, hcs]

theorem splitPlain_append {afterGap : Bool} {cs rest : List Char}
    (hinner : hasInnerIndicator afterGap cs = false) (hbreak : ∀ c ∈ cs, isBreak c = false)
    (hrest : EndsPlain rest) : splitPlain (cs ++ rest) = (cs, rest) := by
  induction cs generalizing afterGap with
  | nil => exact splitPlain_of_ends hrest
  | cons c cs ih =>
    simp only [hasInnerIndicator, Bool.or_eq_false_iff] at hinner
    obtain ⟨⟨hcolon, -⟩, hinner⟩ := hinner
    exact splitPlain_cons (hbreak c List.mem_cons_self) hcolon
      (ih hinner fun d hd => hbreak d (List.mem_cons_of_mem c hd))

structure Plain (cs : List Char) : Prop where
  resolves : resolve cs = .text (.ofList cs)
  opens : opensLine cs = true
  /-- The text does not start with a mark of another way of writing. -/
  unmarked : firstIs isIndicator cs = false
  /-- The text does not start as an item of a list or as a key on lines of its own does. -/
  undashed : ∀ c r, cs = c :: r → c = '-' ∨ c = '?' → gapNext r = false
  /-- The text does not hold what ends it. -/
  splits : ∀ rest, EndsPlain rest → splitPlain (cs ++ rest) = (cs, rest)

theorem plain_of_style {cs : List Char} (h : Style.of cs = .plain) : Plain cs := by
  have hresolves : resolve cs = .text (.ofList cs) := by
    have hne : ∀ s ∈ ["true", "false", "[]", "\x7b\x7d"], cs ≠ s.toList := by
      rintro s hs rfl
      revert s
      decide +kernel
    simp only [List.forall_mem_cons] at hne
    rw [resolve, if_neg hne.1, if_neg hne.2.1, if_neg hne.2.2.1, if_neg hne.2.2.2.1]
  have hambiguous : isAmbiguous cs = false := by
    unfold Style.of at h
    grind
  have hallows : allowsPlain cs = true := by
    unfold Style.of at h
    grind
  cases cs with
  | nil => exact absurd hambiguous (by decide)
  | cons c cs =>
    simp only [allowsPlain, Bool.not_eq_true', Bool.or_eq_false_iff, looksLikeStructure] at hallows
    obtain ⟨⟨⟨⟨hspace, -⟩, hbreak⟩, ⟨⟨⟨hindicator, hgap⟩, -⟩, -⟩, hinner⟩, -⟩ := hallows
    have hbreak : ∀ d ∈ c :: cs, isBreak d = false := by simpa using hbreak
    have hc := hbreak c List.mem_cons_self
    refine ⟨hresolves, ?_, hindicator, ?_, fun rest hrest => ?_⟩
    · simp_all [opensLine, firstIs]
    · rintro d r heq hd
      obtain ⟨rfl, rfl⟩ := List.cons.inj heq
      grind
    · refine splitPlain_cons hc ?_ (splitPlain_append hinner
        (fun d hd => hbreak d (List.mem_cons_of_mem c hd)) hrest)
      grind

/-! ## A scalar is read back -/

/-- How a text is written, without the end of its last line, where it is no block. -/
structure Inline (n : Nat) (cs text : List Char) : Prop where
  scalarLine_eq : scalarLine n cs = text ++ ['\n']
  opens : opensLine text = true
  unbarred : ∀ rest, dropStart? ['|'] (text ++ rest) = none
  undashed : ∀ mark, mark = '-' ∨ mark = '?' →
    ∀ rest, dropStart? [mark, ' '] (text ++ rest) = none
  reads : ∀ rest, EndsPlain rest → readInline n (text ++ rest) = some (.text (.ofList cs), rest)

theorem inline_plain {n : Nat} {cs : List Char} (h : Style.of cs = .plain) : Inline n cs cs := by
  have hplain := plain_of_style h
  cases cs with
  | nil => exact absurd hplain.opens (by decide)
  | cons c cs =>
    have hindicator : isIndicator c = false := hplain.unmarked
    have hmark : c ≠ '|' ∧ c ≠ '"' ∧ c ≠ apostrophe := by
      refine ⟨?_, ?_, ?_⟩ <;> rintro rfl <;> exact absurd hindicator (by decide)
    refine ⟨by simp [scalarLine, h], hplain.opens, fun rest => ?_, ?_, fun rest hrest => ?_⟩
    · simp [dropStart?, hmark.1.symm]
    · intro mark hmark rest
      by_cases hc : mark = c
      · have hgap := hplain.undashed c cs rfl (hc ▸ hmark)
        cases cs with
        | nil => simp [gapNext] at hgap
        | cons d cs =>
          have hd : ' ' ≠ d := by
            rintro rfl
            simp [gapNext, isGap] at hgap
          simp [dropStart?, hd]
      · simp [dropStart?, hc]
    · rw [List.cons_append, readInline, if_neg hmark.1, if_neg hmark.2.1, if_neg hmark.2.2,
        ← List.cons_append, hplain.splits rest hrest, ← hplain.resolves]

theorem inline_single {n : Nat} {cs : List Char} (h : Style.of cs = .single) :
    Inline n cs (apostrophe :: (indentLines n false (cs.flatMap doubleQuote)
      ++ (if lastIs isBreak cs then indentation n else []) ++ [apostrophe])) := by
  refine ⟨by simp [scalarLine, h], rfl, fun rest => rfl, ?_, fun rest hrest => ?_⟩
  · rintro mark (rfl | rfl) rest <;> rfl
  · have hquote : firstIs (fun c => c = apostrophe) rest = false := by
      obtain ⟨r, rfl⟩ | ⟨r, rfl, -⟩ := hrest <;> rfl
    obtain ⟨quoted, hread, hcs⟩ := readSingle_quoted n cs hquote
    rw [List.cons_append, readInline, if_neg (by decide), if_neg (by decide), if_pos rfl,
      List.append_assoc _ _ rest, List.singleton_append, hread, ← hcs]
    rfl

theorem inline_double {n : Nat} {cs : List Char} (h : Style.of cs = .double) :
    Inline n cs ('"' :: (cs.flatMap escape ++ ['"'])) := by
  refine ⟨by simp [scalarLine, h], rfl, fun rest => rfl, ?_, fun rest _ => ?_⟩
  · rintro mark (rfl | rfl) rest <;> rfl
  · have hclose : readDouble ('"' :: rest) = some ([], rest) := rfl
    have hread := Text.read_flatMap readDouble_escape hclose cs
    simp [readInline, hread]

theorem exists_inline (n : Nat) {cs : List Char} (h : Style.of cs ≠ .literal) :
    ∃ text, Inline n cs text := by
  cases hstyle : Style.of cs with
  | plain => exact ⟨_, inline_plain hstyle⟩
  | single => exact ⟨_, inline_single hstyle⟩
  | double => exact ⟨_, inline_double hstyle⟩
  | literal => exact absurd hstyle h

/-- What is written for a text is read as that text. -/
theorem readLine_scalarLine {n : Nat} (cs : List Char) {rest : List Char} (hrest : Below n rest) :
    readLine n (scalarLine n cs ++ rest) = some (.text (.ofList cs), rest) := by
  by_cases h : Style.of cs = .literal
  · have hread := readLiteral_block cs hrest
    rw [List.append_assoc] at hread
    simp [scalarLine, h, readLine, dropStart?, hread]
  · obtain ⟨text, htext⟩ := exists_inline n h
    have hread := htext.reads ('\n' :: rest) (.inl ⟨rest, rfl⟩)
    simp [htext.scalarLine_eq, readLine, htext.unbarred, hread, dropStart?]

end Yaml
end GrammarText
