import GrammarText.Data.Json
import GrammarText.Proofs.Data.Numeral
import GrammarText.Proofs.Grammar.Data
import GrammarText.Proofs.Text.Quoted

/-!
# Data is read back from JSON text

A reader of JSON text (`Json.readValue`) passes over blanks and reads a value by the character that
it starts with.  It reads each value that was written, whatever comes behind it
(`Json.readValue_value`), so a grammar is read back from its text, and two grammars never have one
text (`Grammar.ofJson?_toJson`).
-/

namespace GrammarText

namespace Json

open Numeral (hexDigits natural? natural?_hexDigits)
open Text (consRead)

/-! ## A reader -/

def isBlank (c : Char) : Bool := c = ' ' || c = '\n' || c = '\r' || c = '\t'

/-- The character that a letter stands for behind a backslash. -/
def unescape? : Char → Option Char
  | '"' => some '"'
  | '\\' => some '\\'
  | '/' => some '/'
  | 'b' => some '\x08'
  | 'f' => some '\x0c'
  | 'n' => some '\n'
  | 'r' => some '\r'
  | 't' => some '\t'
  | _ => none

/-- Reads a text whose opening quote was read, up to its closing quote. -/
def readString : List Char → Option (List Char × List Char)
  | [] => none
  | '"' :: rest => some ([], rest)
  | '\\' :: 'u' :: a :: b :: c :: d :: rest => do
    let n ← natural? 16 [a, b, c, d]
    consRead (.ofNat n) (readString rest)
  | '\\' :: e :: rest => do consRead (← unescape? e) (readString rest)
  | c :: rest => consRead c (readString rest)

mutual

/-- Reads a value, of which at most `n` parts lie within one another or behind one another. -/
def readValue : Nat → List Char → Option (Data × List Char)
  | 0, _ => none
  | n + 1, cs =>
    match cs.dropWhile isBlank with
    | 't' :: 'r' :: 'u' :: 'e' :: rest => some (.bool true, rest)
    | 'f' :: 'a' :: 'l' :: 's' :: 'e' :: rest => some (.bool false, rest)
    | '"' :: rest => (readString rest).map fun (cs, rest) => (.text (.ofList cs), rest)
    | '[' :: rest =>
      match rest.dropWhile isBlank with
      | ']' :: rest => some (.list [], rest)
      | rest => do
        let (d, rest) ← readValue n rest
        let (ds, rest) ← readItems n rest
        return (.list (d :: ds), rest)
    | '\x7b' :: rest =>
      match rest.dropWhile isBlank with
      | '\x7d' :: rest => some (.record [], rest)
      | rest => do
        let (f, rest) ← readField n rest
        let (fs, rest) ← readFields n rest
        return (.record (f :: fs), rest)
    | _ => none

def readItems : Nat → List Char → Option (List Data × List Char)
  | 0, _ => none
  | n + 1, cs =>
    match cs.dropWhile isBlank with
    | ']' :: rest => some ([], rest)
    | ',' :: rest => do
      let (d, rest) ← readValue n rest
      let (ds, rest) ← readItems n rest
      return (d :: ds, rest)
    | _ => none

def readField : Nat → List Char → Option ((String × Data) × List Char)
  | 0, _ => none
  | n + 1, cs =>
    match cs.dropWhile isBlank with
    | '"' :: rest => do
      let (key, rest) ← readString rest
      match rest.dropWhile isBlank with
      | ':' :: rest => (readValue n rest).map fun (d, rest) => ((.ofList key, d), rest)
      | _ => none
    | _ => none

def readFields : Nat → List Char → Option (List (String × Data) × List Char)
  | 0, _ => none
  | n + 1, cs =>
    match cs.dropWhile isBlank with
    | '\x7d' :: rest => some ([], rest)
    | ',' :: rest => do
      let (f, rest) ← readField n rest
      let (fs, rest) ← readFields n rest
      return (f :: fs, rest)
    | _ => none

end

/-! ## Texts are read back -/

/-- What is written for a character is read as that character. -/
theorem readString_escape (c : Char) (rest : List Char) :
    readString (escape c ++ rest) = consRead c (readString rest) := by
  unfold escape
  split
  any_goals rfl
  case h_8 _ hquote hslash _ _ _ _ _ =>
    split
    case isTrue hlow =>
      have hread : natural? 16 (hexDigits .lower c.toNat 4) = some c.toNat :=
        natural?_hexDigits (Nat.lt_trans hlow (by decide))
      simp [hexDigits] at hread
      simp [readString, hexDigits, hread]
    case isFalse =>
      rw [List.singleton_append, readString]
      all_goals simp_all

/-- A text between quotes is read up to its closing quote. -/
theorem readString_string (s : String) (rest : List Char) :
    ∃ cs, string s ++ rest = '"' :: cs ∧ readString cs = some (s.toList, rest) :=
  ⟨s.toList.flatMap escape ++ '"' :: rest, by simp [string],
    Text.read_flatMap readString_escape rfl s.toList⟩

/-! ## Values are read back -/

/-- The blanks before an item are passed over. -/
theorem dropWhile_newline (depth : Nat) (cs : List Char) :
    (newline depth ++ cs).dropWhile isBlank = cs.dropWhile isBlank := by
  have hspaces : ∀ k, (List.replicate k ' ' ++ cs).dropWhile isBlank = cs.dropWhile isBlank := by
    intro k
    induction k with
    | zero => rfl
    | succ k ih => rw [List.replicate_succ, List.cons_append, List.dropWhile_cons_of_pos rfl, ih]
  rw [newline, List.cons_append, List.dropWhile_cons_of_pos rfl, hspaces]

/-- A value starts with neither a blank nor a bracket that closes a list. -/
theorem exists_value_eq_cons (depth : Nat) (d : Data) :
    ∃ c cs, value depth d = c :: cs ∧ isBlank c = false ∧ c ≠ ']' := by
  cases d with
  | bool b => cases b <;> exact ⟨_, _, rfl, rfl, by decide⟩
  | text s => exact ⟨_, _, rfl, rfl, by decide⟩
  | list ds => cases ds <;> exact ⟨_, _, rfl, rfl, by decide⟩
  | record fs => cases fs <;> exact ⟨_, _, rfl, rfl, by decide⟩

theorem readValue_newline (depth n : Nat) (cs : List Char) :
    readValue n (newline depth ++ cs) = readValue n cs := by
  cases n <;> simp only [readValue, dropWhile_newline]

theorem readValue_space (n : Nat) (cs : List Char) : readValue n (' ' :: cs) = readValue n cs := by
  cases n <;> simp only [readValue, List.dropWhile_cons_of_pos (show isBlank ' ' = true from rfl)]

theorem readField_newline (depth n : Nat) (cs : List Char) :
    readField n (newline depth ++ cs) = readField n cs := by
  cases n <;> simp only [readField, dropWhile_newline]

theorem readItems_bracket {n : Nat} (hn : 0 < n) (depth : Nat) (rest : List Char) :
    readItems n (newline depth ++ ']' :: rest) = some ([], rest) := by
  obtain ⟨n, rfl⟩ := Nat.exists_eq_add_one.mpr hn
  rw [readItems, dropWhile_newline]
  rfl

theorem readFields_brace {n : Nat} (hn : 0 < n) (depth : Nat) (rest : List Char) :
    readFields n (newline depth ++ '\x7d' :: rest) = some ([], rest) := by
  obtain ⟨n, rfl⟩ := Nat.exists_eq_add_one.mpr hn
  rw [readFields, dropWhile_newline]
  rfl

/-- The first item of a list stands behind the bracket that opens it. -/
theorem readValue_bracket (n depth : Nat) (d : Data) (rest : List Char) :
    readValue (n + 1) ('[' :: (newline (depth + 1) ++ (value (depth + 1) d ++ rest)))
      = (do
        let (d, rest) ← readValue n (value (depth + 1) d ++ rest)
        let (ds, rest) ← readItems n rest
        return (.list (d :: ds), rest)) := by
  obtain ⟨c, cs, hvalue, hblank, hclose⟩ := exists_value_eq_cons (depth + 1) d
  rw [readValue, List.dropWhile_cons_of_neg (by decide)]
  simp only [dropWhile_newline, hvalue, List.cons_append,
    List.dropWhile_cons_of_neg (show ¬ isBlank c = true by simp [hblank])]
  split
  case h_1 heq => exact absurd (List.cons.inj heq).1 hclose
  case h_2 => rfl

/-- The first field of a record stands behind the brace that opens it. -/
theorem readValue_brace (n depth : Nat) (key : String) (rest : List Char) :
    readValue (n + 1) ('\x7b' :: (newline (depth + 1) ++ (string key ++ rest)))
      = (do
        let (f, rest) ← readField n (string key ++ rest)
        let (fs, rest) ← readFields n rest
        return (.record (f :: fs), rest)) := by
  rw [readValue, List.dropWhile_cons_of_neg (by decide)]
  simp only [dropWhile_newline, string]
  rfl

/-- A field is read if its value is. -/
theorem readField_string {n : Nat} {key : String} {d : Data} {cs rest : List Char}
    (hd : readValue n cs = some (d, rest)) :
    readField (n + 1) (string key ++ ':' :: ' ' :: cs) = some ((key, d), rest) := by
  obtain ⟨text, heq, hread⟩ := readString_string key (':' :: ' ' :: cs)
  rw [readField, heq, List.dropWhile_cons_of_neg (by decide)]
  simp [hread, isBlank, readValue_space, hd]

mutual

/-- A value is read back from its text, whatever comes behind it. -/
theorem readValue_value (depth n : Nat) (rest : List Char) (d : Data)
    (hn : (value depth d).length ≤ n) :
    readValue n (value depth d ++ rest) = some (d, rest) := by
  obtain _ | n := n
  · obtain ⟨c, cs, hvalue, -⟩ := exists_value_eq_cons depth d
    simp [hvalue] at hn
  match d with
  | .bool true => rfl
  | .bool false => rfl
  | .text s =>
    obtain ⟨cs, heq, hread⟩ := readString_string s rest
    rw [value, heq, readValue, List.dropWhile_cons_of_neg (by decide)]
    simp [hread]
  | .list [] => rfl
  | .list (d :: ds) =>
    simp only [value, List.length_cons, List.length_append] at hn
    have hd := readValue_value (depth + 1) n
      (items (depth + 1) ds ++ (newline depth ++ ']' :: rest)) d (by omega)
    have hds := readItems_items (depth + 1) n depth rest ds (by omega)
    have happend : value depth (.list (d :: ds)) ++ rest
        = '[' :: (newline (depth + 1) ++ (value (depth + 1) d
          ++ (items (depth + 1) ds ++ (newline depth ++ ']' :: rest)))) := by
      simp [value]
    rw [happend, readValue_bracket, hd]
    simp [hds]
  | .record [] => rfl
  | .record ((key, d) :: fs) =>
    simp only [value, List.length_cons, List.length_append] at hn
    obtain _ | n := n
    · simp [newline] at hn
    have hd := readValue_value (depth + 1) n
      (fields (depth + 1) fs ++ (newline depth ++ '\x7d' :: rest)) d (by omega)
    have hfs := readFields_fields (depth + 1) (n + 1) depth rest fs (by omega)
    have happend : value depth (.record ((key, d) :: fs)) ++ rest
        = '\x7b' :: (newline (depth + 1) ++ (string key ++ ':' :: ' ' :: (value (depth + 1) d
          ++ (fields (depth + 1) fs ++ (newline depth ++ '\x7d' :: rest))))) := by
      simp [value]
    rw [happend, readValue_brace, readField_string hd]
    simp [hfs]

theorem readItems_items (depth n outer : Nat) (rest : List Char) (ds : List Data)
    (hn : (items depth ds).length < n) :
    readItems n (items depth ds ++ (newline outer ++ ']' :: rest)) = some (ds, rest) := by
  obtain _ | n := n
  · omega
  match ds with
  | [] => exact readItems_bracket (by omega) outer rest
  | d :: ds =>
    simp only [items, List.length_cons, List.length_append] at hn
    have hd := readValue_value depth n (items depth ds ++ (newline outer ++ ']' :: rest)) d
      (by omega)
    have hds := readItems_items depth n outer rest ds (by omega)
    have happend : items depth (d :: ds) ++ (newline outer ++ ']' :: rest)
        = ',' :: (newline depth ++ (value depth d
          ++ (items depth ds ++ (newline outer ++ ']' :: rest)))) := by
      simp [items]
    rw [happend, readItems, List.dropWhile_cons_of_neg (by decide)]
    simp [readValue_newline, hd, hds]

theorem readFields_fields (depth n outer : Nat) (rest : List Char) (fs : List (String × Data))
    (hn : (fields depth fs).length < n) :
    readFields n (fields depth fs ++ (newline outer ++ '\x7d' :: rest)) = some (fs, rest) := by
  obtain _ | n := n
  · omega
  match fs with
  | [] => exact readFields_brace (by omega) outer rest
  | (key, d) :: fs =>
    simp only [fields, List.length_cons, List.length_append] at hn
    obtain _ | n := n
    · simp [newline] at hn
    have hd := readValue_value depth n (fields depth fs ++ (newline outer ++ '\x7d' :: rest)) d
      (by omega)
    have hfs := readFields_fields depth (n + 1) outer rest fs (by omega)
    have happend : fields depth ((key, d) :: fs) ++ (newline outer ++ '\x7d' :: rest)
        = ',' :: (newline depth ++ (string key ++ ':' :: ' ' :: (value depth d
          ++ (fields depth fs ++ (newline outer ++ '\x7d' :: rest))))) := by
      simp [fields]
    rw [happend, readFields, List.dropWhile_cons_of_neg (by decide)]
    simp [readField_newline, readField_string hd, hfs]

end

/-- The data that a whole text is read as, with at most blanks behind it. -/
def read? (s : String) : Option Data := do
  let (d, rest) ← readValue s.toList.length s.toList
  if rest.all isBlank then some d else none

theorem read?_toJson (d : Data) : read? d.toJson = some d := by
  have hd := readValue_value 0 (value 0 d).length [] d (by omega)
  rw [List.append_nil] at hd
  rw [read?, Data.toJson, String.toList_ofList, hd]
  rfl

end Json

def Grammar.ofJson? (s : String) : Option Grammar := Json.read? s >>= Grammar.ofData?

/-- Every grammar is read back from its text, so no two grammars have the same text. -/
theorem Grammar.ofJson?_toJson :
    (∀ g : Grammar, ofJson? g.toData.toJson = some g)
      ∧ ∀ g h : Grammar, g.toData.toJson = h.toData.toJson → g = h := by
  have hread : ∀ g : Grammar, ofJson? g.toData.toJson = some g := by
    intro g
    rw [ofJson?, Json.read?_toJson, Option.bind_eq_bind, Option.bind_some, ofData?_toData]
  exact ⟨hread, fun g h heq => injective_of_read hread heq⟩

/-- Goals that were added in either order are of one grammar, as its texts are one. -/
theorem Grammar.eq_of_toJson_goals :
    (⟨∅, .ofList ["a\"\n", "\\u00e9"], ∅⟩ : Grammar)
      = ⟨∅, .ofList ["\\u00e9", "a\"\n"], ∅⟩ :=
  ofJson?_toJson.2 _ _ (by decide +kernel)

end GrammarText
