import GrammarText.Data.Yaml
import GrammarText.Proofs.Data.Yaml.Scalar
import GrammarText.Proofs.Grammar.Data

/-!
# Data is read back from YAML text

A value stands behind a dash, behind a key, or is the whole document, and its further lines are
those that are indented enough.  The items of a list may stand as deep as the keys around them: no
key is written so that it starts as an item does.  Each value is read back from its text
(`Yaml.readNode_node`), so a grammar is read back from its text, and two grammars never have one
text (`Grammar.ofYaml?_toYaml`).
-/

namespace GrammarText

namespace Yaml

open Text (dropStart? dropStart?_append)

/-! ## A reader -/

/-- Reads a key up to its colon, and tells whether its value stands on the same line. -/
def readKey (n : Nat) (cs : List Char) : Option (String × Bool × List Char) :=
  match dropStart? ['?', ' '] cs with
  | some cs => do
    let (d, cs) ← readLine (n + 2) cs
    return (← d.text?, false, ← dropStart? (indentation n ++ [':']) cs)
  | none => do
    let (d, cs) ← readInline n cs
    return (← d.text?, true, ← dropStart? [':'] cs)

def startsKey (n : Nat) (cs : List Char) : Bool :=
  (dropStart? ['?', ' '] cs).isSome || match readInline n cs with
    | some (_, ':' :: _) => true
    | _ => false

mutual

/-- Reads a value, of which at most so many parts lie within one another or behind one another. The
items or fields of the value are indented by `n`, the first of them stands where the text starts;
the further lines of a scalar are indented by `m`. -/
def readNode : Nat → (n m : Nat) → List Char → Option (Data × List Char)
  | 0, _, _, _ => none
  | fuel + 1, n, m, cs =>
    if (dropStart? ['-', ' '] cs).isSome then do
      let (ds, cs) ← readItems fuel n (indentation n ++ cs)
      return (.list ds, cs)
    else if startsKey m cs then do
      let (fs, cs) ← readFields fuel n (indentation n ++ cs)
      return (.record fs, cs)
    else readLine m cs

/-- Reads the value of a key that is indented by `n`, behind its colon on the same line. -/
def readValue : Nat → Nat → List Char → Option (Data × List Char)
  | 0, _, _ => none
  | fuel + 1, n, cs =>
    match cs with
    | ' ' :: cs => readLine (n + 2) cs
    | '\n' :: cs =>
      if (dropStart? (indentation (n + 2)) cs).isSome then do
        let (fs, cs) ← readFields fuel (n + 2) cs
        return (.record fs, cs)
      else do
        let (ds, cs) ← readItems fuel n cs
        return (.list ds, cs)
    | _ => none

def readItems : Nat → Nat → List Char → Option (List Data × List Char)
  | 0, _, _ => none
  | fuel + 1, n, cs =>
    match dropStart? (indentation n ++ ['-', ' ']) cs with
    | none => some ([], cs)
    | some cs => do
      let (d, cs) ← readNode fuel (n + 2) (n + 2) cs
      let (ds, cs) ← readItems fuel n cs
      return (d :: ds, cs)

def readFields : Nat → Nat → List Char → Option (List (String × Data) × List Char)
  | 0, _, _ => none
  | fuel + 1, n, cs =>
    match dropStart? (indentation n) cs with
    | some (c :: cs) => do
      let (key, simple, cs) ← readKey n (c :: cs)
      let (d, cs) ← (if simple then readValue fuel n cs
        else dropStart? [' '] cs >>= readNode fuel (n + 2) (n + 2))
      let (fs, cs) ← readFields fuel n cs
      return ((key, d) :: fs, cs)
    | _ => some ([], cs)

end

/-! ## What stands behind a mark -/

/-- What is written for a value where `readNode` reads it. -/
def node (n m : Nat) : Data → List Char
  | .bool b => boolText b ++ ['\n']
  | .text s => scalarLine m s.toList
  | .list [] => "[]\n".toList
  | .list ds => (items n ds).drop n
  | .record [] => "\x7b\x7d\n".toList
  | .record fs => (fields n fs).drop n

theorem drop_indentation (n : Nat) (cs : List Char) : (indentation n ++ cs).drop n = cs :=
  List.drop_left' List.length_replicate

theorem afterMark_eq (n : Nat) (d : Data) : afterMark n d = ' ' :: node (n + 2) (n + 2) d := by
  cases d with
  | bool b => rfl
  | text s => rfl
  | list ds =>
    cases ds with
    | nil => rfl
    | cons d ds => simp [afterMark, node, items, drop_indentation]
  | record fs =>
    cases fs with
    | nil => rfl
    | cons f fs => simp [afterMark, node, fields, drop_indentation]

theorem document_eq (d : Data) : document d = node 0 2 d := by
  cases d with
  | bool b => rfl
  | text s => rfl
  | list ds => cases ds <;> rfl
  | record fs => cases fs <;> rfl

theorem indentation_append_node_list (n m : Nat) (d : Data) (ds : List Data) :
    indentation n ++ node n m (.list (d :: ds)) = items n (d :: ds) := by
  simp [node, items, drop_indentation]

theorem indentation_append_node_record (n m : Nat) (f : String × Data)
    (fs : List (String × Data)) :
    indentation n ++ node n m (.record (f :: fs)) = fields n (f :: fs) := by
  simp [node, fields, drop_indentation]

theorem afterKey_list (n : Nat) (d : Data) (ds : List Data) :
    afterKey n (.list (d :: ds)) = '\n' :: items n (d :: ds) := by
  simp [afterKey, items]

theorem afterKey_record (n : Nat) (f : String × Data) (fs : List (String × Data)) :
    afterKey n (.record (f :: fs)) = '\n' :: fields (n + 2) (f :: fs) := by
  simp [afterKey, fields]

/-! ## Keys -/

theorem indentLines_of_no_break (n : Nat) {cs : List Char} (h : ∀ c ∈ cs, isBreak c = false) :
    indentLines n false cs = cs := by
  induction cs with
  | nil => rfl
  | cons c cs ih =>
    have hc := h c List.mem_cons_self
    simp [indentLines, hc, ih fun d hd => h d (List.mem_cons_of_mem c hd)]

theorem isBreak_of_isSimpleKey {cs : List Char} (h : isSimpleKey cs = true) :
    ∀ c ∈ cs, isBreak c = false := by
  simpa [isSimpleKey] using (Bool.and_eq_true_iff.mp h).2

theorem style_ne_literal {cs : List Char} (h : isSimpleKey cs = true) : Style.of cs ≠ .literal := by
  have hnewline : cs.contains '\n' = false := by
    rw [Bool.eq_false_iff]
    intro hmem
    exact absurd (isBreak_of_isSimpleKey h '\n' (List.contains_iff_mem.mp hmem)) (by decide)
  unfold Style.of
  grind

/-- A key on the line of its value is written in one way, however deep it stands. -/
theorem inlineScalar_eq (n : Nat) {cs : List Char} (h : isSimpleKey cs = true) :
    inlineScalar cs = (scalarLine n cs).dropLast := by
  have hbreak := isBreak_of_isSimpleKey h
  have hlines : ∀ k, indentLines k false (cs.flatMap doubleQuote) = cs.flatMap doubleQuote := by
    intro k
    rw [indentLines_flatMap, indentLines_of_no_break k hbreak]
  have hlast : lastIs isBreak cs = false := by
    cases hcs : cs.getLast? with
    | none => simp [lastIs, hcs]
    | some c => simp [lastIs, hcs, hbreak c (List.mem_of_getLast? hcs)]
  unfold inlineScalar scalarLine
  cases hstyle : Style.of cs with
  | literal => exact absurd hstyle (style_ne_literal h)
  | plain => rfl
  | single => simp [hlines, hlast]
  | double => rfl

theorem inline_inlineScalar (n : Nat) {cs : List Char} (h : isSimpleKey cs = true) :
    Inline n cs (inlineScalar cs) := by
  obtain ⟨text, htext⟩ := exists_inline n (style_ne_literal h)
  rwa [inlineScalar_eq n h, htext.scalarLine_eq, List.dropLast_concat]

theorem opensLine_append {line : List Char} (h : opensLine line = true) (cs : List Char) :
    opensLine (line ++ cs) = true := by
  cases line with
  | nil => cases h
  | cons c line => exact h

/-- What is written for a key is read as that key, and starts as nothing else does. -/
theorem readKey_keyLine (n m : Nat) (key : String) {rest : List Char}
    (hrest : gapNext rest = true) :
    readKey n (keyLine n key.toList ++ rest) = some (key, isSimpleKey key.toList, rest)
      ∧ startsKey m (keyLine n key.toList ++ rest) = true
      ∧ dropStart? ['-', ' '] (keyLine n key.toList ++ rest) = none
      ∧ opensLine (keyLine n key.toList ++ rest) = true := by
  cases hsimple : isSimpleKey key.toList with
  | true =>
    have hends : EndsPlain (':' :: rest) := .inr ⟨rest, rfl, hrest⟩
    have hline : keyLine n key.toList ++ rest = inlineScalar key.toList ++ ':' :: rest := by
      simp [keyLine, hsimple]
    have hn := inline_inlineScalar n hsimple
    have hm := inline_inlineScalar m hsimple
    rw [hline]
    refine ⟨?_, ?_, hn.undashed '-' (.inl rfl) _, opensLine_append hn.opens _⟩
    · simp [readKey, hn.undashed, hn.reads _ hends, Data.text?, dropStart?]
    · simp [startsKey, hm.undashed, hm.reads _ hends]
  | false =>
    have hbelow : Below (n + 2) (indentation n ++ ':' :: rest) :=
      .inr ⟨n, by omega, _, rfl, rfl⟩
    have hline : keyLine n key.toList ++ rest
        = '?' :: ' ' :: (scalarLine (n + 2) key.toList ++ (indentation n ++ ':' :: rest)) := by
      simp [keyLine, hsimple]
    have hread := readLine_scalarLine key.toList hbelow
    have hcolon : dropStart? (indentation n ++ [':']) (indentation n ++ ':' :: rest)
        = some rest := by
      simpa using dropStart?_append (indentation n ++ [':']) rest
    rw [hline]
    refine ⟨?_, rfl, rfl, rfl⟩
    simp [readKey, dropStart?, hread, Data.text?, hcolon]

theorem keyLine_length_pos (n : Nat) (cs : List Char) : 0 < (keyLine n cs).length := by
  unfold keyLine
  split <;> simp

theorem exists_cons_of_opensLine {line : List Char} (h : opensLine line = true) :
    ∃ c cs, line = c :: cs := by
  cases line with
  | nil => cases h
  | cons c cs => exact ⟨c, cs, rfl⟩

/-! ## Values on one line -/

def isScalar : Data → Bool
  | .bool _ | .text _ | .list [] | .record [] => true
  | _ => false

theorem afterKey_scalar (n : Nat) {d : Data} (h : isScalar d = true) :
    afterKey n d = ' ' :: node n (n + 2) d := by
  cases d with
  | bool b => rfl
  | text s => rfl
  | list ds =>
    cases ds with
    | nil => rfl
    | cons d ds => cases h
  | record fs =>
    cases fs with
    | nil => rfl
    | cons f fs => cases h

/-- What is written for a value without parts is read as that value, and starts as nothing else
does. -/
theorem readLine_scalar (n : Nat) {m : Nat} {d : Data} (h : isScalar d = true) {rest : List Char}
    (hrest : Below m rest) :
    readLine m (node n m d ++ rest) = some (d, rest)
      ∧ startsKey m (node n m d ++ rest) = false
      ∧ dropStart? ['-', ' '] (node n m d ++ rest) = none := by
  cases d with
  | bool b => cases b <;> exact ⟨rfl, rfl, rfl⟩
  | text s =>
    refine ⟨?_, ?_⟩
    · simpa [node] using readLine_scalarLine s.toList hrest
    · by_cases hstyle : Style.of s.toList = .literal
      · simp [node, scalarLine, hstyle, startsKey, readInline, dropStart?]
      · obtain ⟨text, htext⟩ := exists_inline m hstyle
        have hread := htext.reads ('\n' :: rest) (.inl ⟨rest, rfl⟩)
        simp [node, htext.scalarLine_eq, startsKey, htext.undashed, hread]
  | list ds =>
    cases ds with
    | nil => exact ⟨rfl, rfl, rfl⟩
    | cons d ds => cases h
  | record fs =>
    cases fs with
    | nil => exact ⟨rfl, rfl, rfl⟩
    | cons f fs => cases h

/-! ## What may stand behind items and fields -/

/-- Nothing, or a line that is indented by `n` at most and is no item that is indented so. -/
def EndsItems (n : Nat) (rest : List Char) : Prop :=
  Below (n + 1) rest ∧ dropStart? (indentation n ++ ['-', ' ']) rest = none

theorem dropStart?_append_left (ps qs cs : List Char) :
    dropStart? (ps ++ qs) cs = dropStart? ps cs >>= dropStart? qs := by
  induction ps generalizing cs with
  | nil => rfl
  | cons p ps ih =>
    cases cs with
    | nil => rfl
    | cons c cs =>
      rw [List.cons_append, dropStart?, dropStart?]
      split
      · exact ih cs
      · rfl

theorem Below.dropStart? {n : Nat} {rest : List Char} (h : Below n rest) :
    (rest = [] ∧ n = 0) ∨ Text.dropStart? (indentation n) rest = none := by
  obtain rfl | ⟨m, hm, line, rfl, hline⟩ := h
  · cases n with
    | zero => exact .inl ⟨rfl, rfl⟩
    | succ n => exact .inr rfl
  · exact .inr (dropStart?_indentation hm hline)

theorem items_cons (n : Nat) (d : Data) (ds : List Data) :
    items n (d :: ds) = indentation n ++ '-' :: ' ' :: (node (n + 2) (n + 2) d ++ items n ds) := by
  simp [items, afterMark_eq]

theorem below_items {n : Nat} {rest : List Char} (hrest : EndsItems n rest) (ds : List Data) :
    Below (n + 2) (items n ds ++ rest) := by
  cases ds with
  | nil => exact hrest.1.mono (by omega)
  | cons d ds =>
    rw [items_cons, List.append_assoc]
    exact .inr ⟨n, by omega, _, rfl, rfl⟩

def afterColon (n : Nat) (key : String) (d : Data) : List Char :=
  if isSimpleKey key.toList then afterKey n d else afterMark n d

theorem fields_cons (n : Nat) (key : String) (d : Data) (fs : List (String × Data)) :
    fields n ((key, d) :: fs)
      = indentation n ++ (keyLine n key.toList ++ (afterColon n key d ++ fields n fs)) := by
  simp [fields, afterColon]

/-- Behind the colon of every key is a gap. -/
theorem exists_afterColon_eq_cons (n : Nat) (key : String) (d : Data) :
    ∃ c cs, afterColon n key d = c :: cs ∧ isGap c = true := by
  unfold afterColon
  split
  · cases d with
    | bool b => exact ⟨_, _, rfl, rfl⟩
    | text s => exact ⟨_, _, rfl, rfl⟩
    | list ds => cases ds <;> exact ⟨_, _, rfl, rfl⟩
    | record fs => cases fs <;> exact ⟨_, _, rfl, rfl⟩
  · exact ⟨_, _, afterMark_eq n d, rfl⟩

theorem gapNext_afterColon (n : Nat) (key : String) (d : Data) (cs : List Char) :
    gapNext (afterColon n key d ++ cs) = true := by
  obtain ⟨c, ds, heq, hgap⟩ := exists_afterColon_eq_cons n key d
  rwa [heq]

theorem afterColon_length_pos (n : Nat) (key : String) (d : Data) :
    0 < (afterColon n key d).length := by
  obtain ⟨c, cs, heq, -⟩ := exists_afterColon_eq_cons n key d
  simp [heq]

theorem below_fields {n : Nat} {rest : List Char} (hrest : Below n rest)
    (fs : List (String × Data)) : Below (n + 1) (fields n fs ++ rest) := by
  cases fs with
  | nil => exact hrest.mono (by omega)
  | cons f fs =>
    obtain ⟨key, d⟩ := f
    have hgap := gapNext_afterColon n key d (fields n fs ++ rest)
    obtain ⟨-, -, -, hopens⟩ := readKey_keyLine n n key hgap
    refine .inr ⟨n, by omega, _, ?_, hopens⟩
    simp [fields_cons]

/-- No key is written so that it starts as an item does. -/
theorem endsItems_fields {n : Nat} {rest : List Char} (hrest : Below n rest)
    (fs : List (String × Data)) : EndsItems n (fields n fs ++ rest) := by
  refine ⟨below_fields hrest fs, ?_⟩
  rw [dropStart?_append_left]
  cases fs with
  | nil =>
    obtain ⟨rfl, rfl⟩ | hnone := hrest.dropStart?
    · rfl
    · rw [fields, List.nil_append, hnone]
      rfl
  | cons f fs =>
    obtain ⟨key, d⟩ := f
    have hgap := gapNext_afterColon n key d (fields n fs ++ rest)
    obtain ⟨-, -, hdash, -⟩ := readKey_keyLine n n key hgap
    rw [fields_cons, List.append_assoc, dropStart?_append]
    simpa using hdash

theorem Below.endsItems {n : Nat} {rest : List Char} (h : Below n rest) : EndsItems n rest :=
  endsItems_fields h []

theorem node_list (n m : Nat) (d : Data) (ds : List Data) :
    node n m (.list (d :: ds)) = '-' :: ' ' :: (node (n + 2) (n + 2) d ++ items n ds) := by
  rw [node, items_cons, drop_indentation]
  simp

theorem node_record (n m : Nat) (key : String) (d : Data) (fs : List (String × Data)) :
    node n m (.record ((key, d) :: fs))
      = keyLine n key.toList ++ (afterColon n key d ++ fields n fs) := by
  rw [node, fields_cons, drop_indentation]
  simp

/-! ## One step of the reader -/

section Steps

variable {fuel n m : Nat} {rest : List Char} {key : String} {d : Data} {ds : List Data}
  {f : String × Data} {fs : List (String × Data)}

theorem readNode_scalar (h : isScalar d = true) (hrest : Below m rest) :
    readNode (fuel + 1) n m (node n m d ++ rest) = some (d, rest) := by
  obtain ⟨hread, hkey, hdash⟩ := readLine_scalar n h hrest
  simp [readNode, hdash, hkey, hread]

/-- A list is read if its items are, the first of them as if it stood on a line of its own. -/
theorem readNode_list (h : readItems fuel n (items n (d :: ds) ++ rest) = some (d :: ds, rest)) :
    readNode (fuel + 1) n m (node n m (.list (d :: ds)) ++ rest)
      = some (.list (d :: ds), rest) := by
  have hdash : dropStart? ['-', ' '] (node n m (.list (d :: ds)) ++ rest)
      = some (node (n + 2) (n + 2) d ++ items n ds ++ rest) := by
    rw [node_list]
    rfl
  rw [← indentation_append_node_list n m, List.append_assoc] at h
  rw [readNode, hdash]
  simp [h]

/-- So is a record if its fields are. -/
theorem readNode_record
    (h : readFields fuel n (fields n (f :: fs) ++ rest) = some (f :: fs, rest)) :
    readNode (fuel + 1) n m (node n m (.record (f :: fs)) ++ rest)
      = some (.record (f :: fs), rest) := by
  obtain ⟨key, d⟩ := f
  have hgap := gapNext_afterColon n key d (fields n fs ++ rest)
  obtain ⟨-, hkey, hdash, -⟩ := readKey_keyLine n m key hgap
  have hnode : node n m (.record ((key, d) :: fs)) ++ rest
      = keyLine n key.toList ++ (afterColon n key d ++ (fields n fs ++ rest)) := by
    simp [node_record]
  rw [← indentation_append_node_record n m, List.append_assoc, hnode] at h
  rw [hnode, readNode, hdash, hkey]
  simp [h]

theorem readValue_scalar (h : isScalar d = true) (hrest : Below (n + 2) rest) :
    readValue (fuel + 1) n (afterKey n d ++ rest) = some (d, rest) := by
  obtain ⟨hread, -, -⟩ := readLine_scalar n h hrest
  rw [afterKey_scalar n h, List.cons_append, readValue]
  exact hread

theorem readValue_list (h : readItems fuel n (items n (d :: ds) ++ rest) = some (d :: ds, rest)) :
    readValue (fuel + 1) n (afterKey n (.list (d :: ds)) ++ rest)
      = some (.list (d :: ds), rest) := by
  have hindent : dropStart? (indentation (n + 2)) (items n (d :: ds) ++ rest) = none := by
    rw [items_cons, List.append_assoc]
    exact dropStart?_indentation (by omega) rfl
  rw [afterKey_list, List.cons_append, readValue]
  simp [hindent, h]

theorem readValue_record
    (h : readFields fuel (n + 2) (fields (n + 2) (f :: fs) ++ rest) = some (f :: fs, rest)) :
    readValue (fuel + 1) n (afterKey n (.record (f :: fs)) ++ rest)
      = some (.record (f :: fs), rest) := by
  have hindent : ∃ cs, dropStart? (indentation (n + 2)) (fields (n + 2) (f :: fs) ++ rest)
      = some cs := by
    rw [fields_cons, List.append_assoc]
    exact ⟨_, dropStart?_append _ _⟩
  obtain ⟨cs, hindent⟩ := hindent
  rw [afterKey_record, List.cons_append, readValue]
  simp [hindent, h]

theorem readItems_cons
    (hd : readNode fuel (n + 2) (n + 2) (node (n + 2) (n + 2) d ++ (items n ds ++ rest))
      = some (d, items n ds ++ rest))
    (hds : readItems fuel n (items n ds ++ rest) = some (ds, rest)) :
    readItems (fuel + 1) n (items n (d :: ds) ++ rest) = some (d :: ds, rest) := by
  have hitem : items n (d :: ds) ++ rest
      = indentation n ++ ['-', ' '] ++ (node (n + 2) (n + 2) d ++ (items n ds ++ rest)) := by
    simp [items_cons]
  rw [hitem, readItems, dropStart?_append]
  simp [hd, hds]

theorem readFields_nil (hrest : Below n rest) :
    readFields (fuel + 1) n (fields n [] ++ rest) = some ([], rest) := by
  obtain ⟨rfl, rfl⟩ | hnone := hrest.dropStart?
  · simp [readFields, fields, indentation, dropStart?]
  · simp [readFields, fields, hnone]

/-- A field is read if the value behind its colon is. -/
theorem readFields_cons
    (hd : (if isSimpleKey key.toList
        then readValue fuel n (afterColon n key d ++ (fields n fs ++ rest))
        else dropStart? [' '] (afterColon n key d ++ (fields n fs ++ rest))
          >>= readNode fuel (n + 2) (n + 2)) = some (d, fields n fs ++ rest))
    (hfs : readFields fuel n (fields n fs ++ rest) = some (fs, rest)) :
    readFields (fuel + 1) n (fields n ((key, d) :: fs) ++ rest) = some ((key, d) :: fs, rest) := by
  have hgap := gapNext_afterColon n key d (fields n fs ++ rest)
  obtain ⟨hkey, -, -, hopens⟩ := readKey_keyLine n n key hgap
  have hline : fields n ((key, d) :: fs) ++ rest = indentation n
      ++ (keyLine n key.toList ++ (afterColon n key d ++ (fields n fs ++ rest))) := by
    simp [fields_cons]
  obtain ⟨c, cs, hcons⟩ := exists_cons_of_opensLine hopens
  rw [hline, readFields, dropStart?_append, hcons]
  rw [hcons] at hkey
  simp only [hkey, Option.bind_eq_bind, Option.bind_some] at hd ⊢
  simp only [hd, hfs, Option.bind_some]
  rfl

end Steps

/-! ## Values are read back -/

-- A step is spent on each value and on each row of items or fields.  Each item and each field takes
-- two characters or more besides its indentation, so twice as many steps as characters suffice; the
-- indentation of a first item or field is not in the text of its value.

theorem length_node_list (n m : Nat) (d : Data) (ds : List Data) :
    2 ≤ (node n m (.list (d :: ds))).length
      ∧ n + (node n m (.list (d :: ds))).length = (items n (d :: ds)).length := by
  refine ⟨by simp [node_list], ?_⟩
  rw [← indentation_append_node_list n m]
  simp [indentation]

theorem length_node_record (n m : Nat) (f : String × Data) (fs : List (String × Data)) :
    0 < (node n m (.record (f :: fs))).length
      ∧ n + (node n m (.record (f :: fs))).length = (fields n (f :: fs)).length := by
  have hkeyLine := keyLine_length_pos n f.1.toList
  refine ⟨?_, ?_⟩
  · rw [node_record, List.length_append]
    omega
  · rw [← indentation_append_node_record n m]
    simp [indentation]

mutual

/-- A value is read back from its text, whatever less indented lines come behind it. -/
theorem readNode_node (fuel n m : Nat) (rest : List Char) (d : Data) (hnm : n ≤ m)
    (hrest : Below n rest) (hpos : 0 < fuel) (hfuel : 2 * (node n m d).length ≤ fuel) :
    readNode fuel n m (node n m d ++ rest) = some (d, rest) := by
  obtain ⟨fuel, rfl⟩ := Nat.exists_eq_add_one.mpr hpos
  match d with
  | .bool b => exact readNode_scalar rfl (hrest.mono hnm)
  | .text s => exact readNode_scalar rfl (hrest.mono hnm)
  | .list [] => exact readNode_scalar rfl (hrest.mono hnm)
  | .record [] => exact readNode_scalar rfl (hrest.mono hnm)
  | .list (d :: ds) =>
    obtain ⟨hlength, hitems⟩ := length_node_list n m d ds
    exact readNode_list
      (readItems_items fuel n rest (d :: ds) hrest.endsItems (by omega) (by omega))
  | .record (f :: fs) =>
    obtain ⟨hlength, hfields⟩ := length_node_record n m f fs
    exact readNode_record (readFields_fields fuel n rest (f :: fs) hrest (by omega) (by omega))

/-- So is a value that stands behind a key. -/
theorem readValue_afterKey (fuel n : Nat) (rest : List Char) (d : Data)
    (hrest : EndsItems n rest) (hpos : 0 < fuel) (hfuel : 2 * (afterKey n d).length ≤ fuel) :
    readValue fuel n (afterKey n d ++ rest) = some (d, rest) := by
  obtain ⟨fuel, rfl⟩ := Nat.exists_eq_add_one.mpr hpos
  have hbelow : Below (n + 2) rest := hrest.1.mono (by omega)
  match d with
  | .bool b => exact readValue_scalar rfl hbelow
  | .text s => exact readValue_scalar rfl hbelow
  | .list [] => exact readValue_scalar rfl hbelow
  | .record [] => exact readValue_scalar rfl hbelow
  | .list (d :: ds) =>
    rw [afterKey_list, List.length_cons] at hfuel
    exact readValue_list (readItems_items fuel n rest (d :: ds) hrest (by omega) (by omega))
  | .record (f :: fs) =>
    rw [afterKey_record, List.length_cons] at hfuel
    exact readValue_record
      (readFields_fields fuel (n + 2) rest (f :: fs) hbelow (by omega) (by omega))

theorem readItems_items (fuel n : Nat) (rest : List Char) (ds : List Data)
    (hrest : EndsItems n rest) (hpos : 0 < fuel)
    (hfuel : 2 * (items n ds).length ≤ fuel + 2 * n + 1) :
    readItems fuel n (items n ds ++ rest) = some (ds, rest) := by
  obtain ⟨fuel, rfl⟩ := Nat.exists_eq_add_one.mpr hpos
  match ds with
  | [] => simp [readItems, items, hrest.2]
  | d :: ds =>
    simp only [items_cons, List.length_append, List.length_cons, indentation,
      List.length_replicate] at hfuel
    have hd := readNode_node fuel (n + 2) (n + 2) (items n ds ++ rest) d (Nat.le_refl _)
      (below_items hrest ds) (by omega) (by omega)
    have hds := readItems_items fuel n rest ds hrest (by omega) (by omega)
    exact readItems_cons hd hds

theorem readFields_fields (fuel n : Nat) (rest : List Char) (fs : List (String × Data))
    (hrest : Below n rest) (hpos : 0 < fuel)
    (hfuel : 2 * (fields n fs).length ≤ fuel + 2 * n + 1) :
    readFields fuel n (fields n fs ++ rest) = some (fs, rest) := by
  obtain ⟨fuel, rfl⟩ := Nat.exists_eq_add_one.mpr hpos
  match fs with
  | [] => exact readFields_nil hrest
  | (key, d) :: fs =>
    have hcolon := afterColon_length_pos n key d
    have hkeyLine := keyLine_length_pos n key.toList
    simp only [fields_cons, List.length_append, indentation, List.length_replicate] at hfuel
    have hfs := readFields_fields fuel n rest fs hrest (by omega) (by omega)
    refine readFields_cons ?_ hfs
    cases hsimple : isSimpleKey key.toList with
    | true =>
      have hlength : 2 * (afterKey n d).length ≤ fuel := by
        simp only [afterColon, hsimple, if_true] at hfuel
        omega
      have hd := readValue_afterKey fuel n (fields n fs ++ rest) d (endsItems_fields hrest fs)
        (by omega) hlength
      simpa [afterColon, hsimple] using hd
    | false =>
      have hlength : 2 * (node (n + 2) (n + 2) d).length ≤ fuel := by
        simp [afterColon, hsimple, afterMark_eq] at hfuel
        omega
      have hd := readNode_node fuel (n + 2) (n + 2) (fields n fs ++ rest) d (Nat.le_refl _)
        ((below_fields hrest fs).mono (by omega)) (by omega) hlength
      simpa [afterColon, hsimple, afterMark_eq, dropStart?] using hd

end

def read? (s : String) : Option Data := do
  let (d, rest) ← readNode (2 * s.toList.length + 1) 0 2 s.toList
  if rest.isEmpty then some d else none

theorem read?_toYaml (d : Data) : read? d.toYaml = some d := by
  have hd := readNode_node (2 * (document d).length + 1) 0 2 [] d (Nat.zero_le 2) (.inl rfl)
    (by omega) (by rw [document_eq]; omega)
  rw [List.append_nil, ← document_eq] at hd
  rw [read?, Data.toYaml, String.toList_ofList, hd]
  rfl

end Yaml

def Grammar.ofYaml? (s : String) : Option Grammar := Yaml.read? s >>= Grammar.ofData?

/-- Every grammar is read back from its text, so no two grammars have the same text. Neither have
two values of any kind: wherever a text stands in a value, it is written as no other text, no truth
value and no part of what is around it. -/
theorem Grammar.ofYaml?_toYaml :
    (∀ g : Grammar, ofYaml? g.toData.toYaml = some g)
      ∧ (∀ g h : Grammar, g.toData.toYaml = h.toData.toYaml → g = h)
      ∧ ∀ d e : Data, d.toYaml = e.toYaml → d = e := by
  have hread : ∀ g : Grammar, ofYaml? g.toData.toYaml = some g := by
    intro g
    rw [ofYaml?, Yaml.read?_toYaml, Option.bind_eq_bind, Option.bind_some, ofData?_toData]
  refine ⟨hread, fun g h heq => injective_of_read hread heq, fun d e heq => ?_⟩
  exact injective_of_read Yaml.read?_toYaml heq

/-- Goals that look like an item and a truth value, and were added in either order, are of one
grammar, as its texts are one. -/
theorem Grammar.eq_of_toYaml_goals :
    (⟨.ofList [("A", Definition.alternatives [.prose "- b:\n c\n"])],
        .ofList ["- x", "true"], ∅⟩ : Grammar)
      = ⟨.ofList [("A", Definition.alternatives [.prose "- b:\n c\n"])],
        .ofList ["true", "- x"], ∅⟩ :=
  ofYaml?_toYaml.2.1 _ _ (by decide +kernel)

end GrammarText
