import GrammarText.Description.Printer
import GrammarText.Description.Reader
import GrammarText.Proofs.Text.Blanks

/-!
# Reading the lines of a description

Each item of a line is read back as what it was printed from (`Item.read_render`), and each line
goes onto the rule that it belongs to: a line that opens a rule (`RuleTable.readLine_opening`), a
line that continues the rule opened last (`RuleTable.readLine_alternative`), and a blank line.
-/

namespace GrammarText

/-! ## Items -/

/-- A matcher that a description has a name for: the class of all reserved words has none. -/
def Matcher.IsNamed (m : Matcher) : Prop := m ≠ .token .reserved

instance (m : Matcher) : Decidable m.IsNamed := inferInstanceAs (Decidable (m ≠ _))

/-- One test of some characters.  To decide the right side by itself could go through all
characters that there are. -/
theorem forall_mem_of_all {P : Char → Prop} [DecidablePred P] {cs : List Char}
    (h : cs.all (fun c => decide (P c)) = true) : ∀ c ∈ cs, P c :=
  fun c hc => of_decide_eq_true (List.all_eq_true.mp h c hc)

def IsItemChar (c : Char) : Prop := Text.isBlank c = false ∧ c ≠ ':'

instance (c : Char) : Decidable (IsItemChar c) := inferInstanceAs (Decidable (_ ∧ _))

namespace Matcher

theorem toList_render_word (w : Word) :
    (word w).render.toList = '"' :: (w.spelling.toList ++ ['"']) := by
  simp [render]

theorem isItemChar_of_mem_render (m : Matcher) : ∀ c ∈ m.render.toList, IsItemChar c := by
  cases m with
  | token k => cases k <;> exact forall_mem_of_all (by decide)
  | word w => cases w <;> exact forall_mem_of_all (by decide)
  | rule r => cases r <;> exact forall_mem_of_all (by decide)

/-- A matcher is printed with a last character that is no mark. -/
theorem exists_reverse_render (m : Matcher) :
    ∃ c body, m.render.toList.reverse = c :: body ∧ Quantifier.ofMark? c = none := by
  cases m with
  | token k => cases k <;> exact ⟨_, _, rfl, by decide⟩
  | word w =>
    rw [toList_render_word, List.reverse_cons, List.reverse_concat]
    exact ⟨'"', _, rfl, rfl⟩
  | rule r => cases r <;> exact ⟨_, _, rfl, by decide⟩

/-- A matcher is printed with a first character that is no ampersand. -/
theorem exists_render (m : Matcher) : ∃ c body, m.render.toList = c :: body ∧ c ≠ '&' := by
  cases m with
  | token k => cases k <;> exact ⟨_, _, rfl, by decide⟩
  | word w => exact ⟨'"', _, toList_render_word w, by decide⟩
  | rule r => cases r <;> exact ⟨_, _, rfl, by decide⟩

theorem read_render {m : Matcher} (h : m.IsNamed) (line : Nat) :
    Matcher.read line m.render.toList = .ok m := by
  cases m with
  | token k =>
    have hk : k ≠ .reserved := fun hk => h (congrArg token hk)
    have hplain : unquoteWord? k.symbol.toList = none ∧
        k.symbol.toList.all Char.isUpper = true := by
      cases k <;> decide
    simp [render, Matcher.read, hplain, Kind.ofSymbol?_symbol hk]
  | word w =>
    have hunquote : unquoteWord? (word w).render.toList = some w.spelling.toList := by
      have hdrop := Text.dropStart?_append ['"'] (w.spelling.toList ++ ['"'])
      rw [toList_render_word, unquoteWord?, ← List.singleton_append (l := w.spelling.toList ++ _),
        hdrop]
      exact Text.dropEnd?_append ['"'] _
    simp [Matcher.read, hunquote, Word.ofSpelling?_spelling]
  | rule r =>
    have hplain : unquoteWord? r.name.toList = none ∧ r.name.toList.all Char.isUpper = false := by
      cases r <;> decide
    simp [render, Matcher.read, hplain, Rule.ofName?_name]

end Matcher

def Quantifier.mark : Quantifier → List Char
  | .optional => ['?']
  | .star => ['*']
  | .plus => ['+']
  | .one | .peek => []

theorem splitMark_render (m : Matcher) {q : Quantifier} (hq : q ≠ .peek) :
    splitMark (m.render.toList ++ q.mark) = (m.render.toList, q) := by
  obtain ⟨c, body, hrender, hc⟩ := m.exists_reverse_render
  cases q with
  | one =>
    rw [Quantifier.mark, List.append_nil, splitMark, hrender]
    cases body <;> simp [hc]
  | optional | star | plus =>
    have hback : (c :: body).reverse = m.render.toList := by rw [← hrender, List.reverse_reverse]
    simp only [Quantifier.mark, splitMark, List.reverse_append, hrender]
    simpa [Quantifier.ofMark?] using hback
  | peek => exact absurd rfl hq

namespace Item

variable {i : Item}

theorem toList_render_of_ne (hq : i.quantifier ≠ .peek) :
    i.render.toList = i.matcher.render.toList ++ i.quantifier.mark := by
  obtain ⟨m, q⟩ := i
  cases q <;> simp_all [render, Quantifier.mark]

theorem toList_render_of_peek (hq : i.quantifier = .peek) :
    i.render.toList = '&' :: i.matcher.render.toList := by
  simp [render, hq]

/-- An item is read back from what it is printed as. -/
theorem read_render (h : i.matcher.IsNamed) (line : Nat) :
    Item.read line i.render.toList = .ok i := by
  obtain ⟨m, q⟩ := i
  by_cases hq : q = .peek
  · subst hq
    have hsplit : splitMark m.render.toList = (m.render.toList, .one) := by
      simpa [Quantifier.mark] using splitMark_render m (q := .one) (by decide)
    simp [toList_render_of_peek, Item.read, hsplit, Matcher.read_render h, bind, Except.bind, pure,
      Except.pure]
  · rw [toList_render_of_ne hq, Item.read]
    · simp [splitMark_render m hq, Matcher.read_render h, bind, Except.bind, pure, Except.pure]
    · intro cs hcs
      obtain ⟨c, body, hrender, hc⟩ := m.exists_render
      rw [hrender, List.cons_append] at hcs
      exact hc (List.cons.inj hcs).1

theorem isItemChar_of_mem_render (i : Item) : ∀ c ∈ i.render.toList, IsItemChar c := by
  by_cases hq : i.quantifier = .peek
  · rw [toList_render_of_peek hq, List.forall_mem_cons]
    exact ⟨by decide, i.matcher.isItemChar_of_mem_render⟩
  · rw [toList_render_of_ne hq, List.forall_mem_append]
    refine ⟨i.matcher.isItemChar_of_mem_render, ?_⟩
    cases i.quantifier <;> exact forall_mem_of_all (by decide)

theorem render_ne_nil (i : Item) : i.render.toList ≠ [] := by
  obtain ⟨c, body, hrender, -⟩ := i.matcher.exists_render
  by_cases hq : i.quantifier = .peek
  · simp [toList_render_of_peek hq]
  · simp [toList_render_of_ne hq, hrender]

end Item

/-- Items are read from a text of which the words are what they are printed as. -/
theorem readItems_of_words {items : List Item} {cs : List Char}
    (hitems : ∀ i ∈ items, i.matcher.IsNamed)
    (h : Text.words cs = items.map (·.render.toList)) (line : Nat) :
    readItems line cs = .ok items := by
  rw [readItems, h]
  clear h
  induction items with
  | nil => rfl
  | cons i items ih =>
    rw [List.forall_mem_cons] at hitems
    rw [List.map_cons, List.mapM_cons, Item.read_render hitems.1, ih hitems.2]
    rfl

/-! ## Lines -/

namespace RuleTable

variable {opened others : RuleTable} {r : Rule} {alternatives : List (List Item)}
  {items : List Item} {cs : List Char}

/-- A line without words is passed over. -/
theorem readLine_of_trim (h : Text.trim cs = []) (line : Nat) :
    opened.readLine line cs = .ok opened := by
  simp [readLine, h, pure, Except.pure]

/-- A line that opens a rule with the items behind its `::=`. -/
theorem readLine_opening {name body : List Char}
    (h : Text.trim cs = name ++ [':', ':', '='] ++ body) (hname : Text.trim name = r.name.toList)
    (hcolon : ':' ∉ name) (hitems : ∀ i ∈ items, i.matcher.IsNamed)
    (hbody : Text.words body = items.map (·.render.toList)) (hnew : opened.defines r = false)
    (line : Nat) : opened.readLine line cs = .ok ((r, [items]) :: opened) := by
  have hsplit : Text.splitFirst? [':', ':', '='] (Text.trim cs) = some (name, body) := by
    rw [h]
    exact Text.splitFirst?_append hcolon body
  have hempty : (Text.trim cs).isEmpty = false := by simp [h]
  simp [readLine, hsplit, hempty, hname, Rule.ofName?_name, hnew, readItems_of_words hitems hbody,
    bind, Except.bind, pure, Except.pure]

/-- A line that continues the rule opened last with the items behind its bar. -/
theorem readLine_alternative {body : List Char} (h : Text.trim cs = '|' :: body)
    (hcolon : ':' ∉ body) (hitems : ∀ i ∈ items, i.matcher.IsNamed)
    (hbody : Text.words body = items.map (·.render.toList)) (line : Nat) :
    RuleTable.readLine ((r, alternatives) :: others) line cs =
      .ok ((r, alternatives ++ [items]) :: others) := by
  have hsplit : Text.splitFirst? [':', ':', '='] ('|' :: body) = none :=
    Text.splitFirst?_eq_none (by simpa using hcolon)
  simp [readLine, h, hsplit, readItems_of_words hitems hbody, bind, Except.bind, pure, Except.pure]

end RuleTable

end GrammarText
