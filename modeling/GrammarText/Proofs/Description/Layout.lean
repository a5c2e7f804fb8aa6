import GrammarText.Proofs.Description.Reading

/-!
# Layout: a table is read back however it is written

A table can be written with blank lines, indentation and as many blanks between its items as one
likes (`RuleTable.IsWritten`).  A line does to the table read so far what it says and not how it is
written (`DescriptionLine.Written.readLine`), so the lines of a text do to it what they say one
after another (`LinesWritten.readLines`), and what the lines of a table say is the table
(`RuleTable.addLines?_lines`).  So every text that writes a table is read as that table
(`Description.read_written`).
-/

namespace GrammarText

/-! ## Written lines -/

/-- Blanks within a line.  A carriage return may be one of them, and so lines may end in one. -/
def IsGap (cs : List Char) : Prop := ∀ c ∈ cs, Text.isBlank c = true ∧ c ≠ '\n'

-- Any other instance could go through all characters that there are.
instance (cs : List Char) : Decidable (IsGap cs) := List.decidableBAll _ cs

/-- How items can be written: each as it is printed and with blanks behind it, of which there are
some where another item follows. -/
inductive ItemsWritten : List Item → List Char → Prop where
  | nil : ItemsWritten [] []
  | cons {i : Item} {items : List Item} {gap rest : List Char} (hgap : IsGap gap)
      (hapart : items ≠ [] → gap ≠ []) (hrest : ItemsWritten items rest) :
      ItemsWritten (i :: items) (i.render.toList ++ (gap ++ rest))

inductive DescriptionLine where
  /-- Nothing. -/
  | blank
  /-- That a rule is defined, with its first alternative. -/
  | opening (r : Rule) (items : List Item)
  /-- A further alternative of the rule opened last. -/
  | alternative (items : List Item)
  deriving DecidableEq, Repr

namespace DescriptionLine

def items : DescriptionLine → List Item
  | blank => []
  | opening _ items | alternative items => items

/-- How a line can be written: indented, and with blanks around its `::=` or behind its bar. -/
inductive Written : DescriptionLine → List Char → Prop where
  | blank {gap : List Char} (hgap : IsGap gap) : Written blank gap
  | opening {r : Rule} {items : List Item} {indent gap lead body : List Char}
      (hindent : IsGap indent) (hgap : IsGap gap) (hlead : IsGap lead)
      (hbody : ItemsWritten items body) :
      Written (opening r items)
        (indent ++ (r.name.toList ++ (gap ++ ([':', ':', '='] ++ (lead ++ body)))))
  | alternative {items : List Item} {indent lead body : List Char} (hindent : IsGap indent)
      (hlead : IsGap lead) (hbody : ItemsWritten items body) :
      Written (alternative items) (indent ++ '|' :: (lead ++ body))

/-- What a line does to the table read so far, in which the rule opened last comes first. -/
def addTo? (opened : RuleTable) : DescriptionLine → Option RuleTable
  | blank => some opened
  | opening r items => if opened.defines r then none else some ((r, [items]) :: opened)
  | alternative items =>
    match opened with
    | [] => none
    | (r, alternatives) :: others => some ((r, alternatives ++ [items]) :: others)

end DescriptionLine

/-- How lines can be written one after another.  The last one needs no end. -/
inductive LinesWritten : List DescriptionLine → List Char → Prop where
  | nil : LinesWritten [] []
  | last {l : DescriptionLine} {cs : List Char} (h : l.Written cs) : LinesWritten [l] cs
  | cons {l : DescriptionLine} {lines : List DescriptionLine} {cs rest : List Char}
      (h : l.Written cs) (hrest : LinesWritten lines rest) :
      LinesWritten (l :: lines) (cs ++ '\n' :: rest)

/-- What the lines of a rule say: the first of its alternatives opens it. -/
def ruleLines (r : Rule) : List (List Item) → List DescriptionLine
  | [] => []
  | first :: more => .opening r first :: more.map .alternative

namespace RuleTable

def addLines? (opened : RuleTable) (lines : List DescriptionLine) : Option RuleTable :=
  lines.foldlM (fun opened l => l.addTo? opened) opened

def lines (t : RuleTable) : List DescriptionLine := t.flatMap fun entry => ruleLines entry.1 entry.2

/-- The text says what the lines of the table say, with blank lines anywhere. -/
def IsWritten (t : RuleTable) (text : String) : Prop :=
  ∃ lines, LinesWritten lines text.toList ∧ lines.filter (· ≠ .blank) = t.lines

/-- A table that can be written: its rules are distinct, each has an alternative, and all that its
items ask for has a name. -/
structure Writable (t : RuleTable) : Prop where
  distinct : (t.map Prod.fst).Nodup
  hasAlternative : ∀ entry ∈ t, entry.2 ≠ []
  named : ∀ entry ∈ t, ∀ items ∈ entry.2, ∀ i ∈ items, i.matcher.IsNamed

end RuleTable

/-! ## What a written line is made of -/

theorem IsGap.isBlank {cs : List Char} (h : IsGap cs) : ∀ c ∈ cs, Text.isBlank c = true :=
  fun c hc => (h c hc).1

theorem IsGap.notMem {cs : List Char} (h : IsGap cs) : ':' ∉ cs ∧ '\n' ∉ cs := by
  refine ⟨fun hc => ?_, fun hc => (h _ hc).2 rfl⟩
  exact absurd (h _ hc).1 (by decide)

theorem Rule.isItemChar_of_mem_name (r : Rule) : ∀ c ∈ r.name.toList, IsItemChar c :=
  (Matcher.rule r).isItemChar_of_mem_render

theorem IsItemChar.ne {c : Char} (h : IsItemChar c) : c ≠ ':' ∧ c ≠ '\n' := by
  refine ⟨h.2, ?_⟩
  rintro rfl
  exact absurd h.1 (by decide)

/-- No colon and no line feed stands in what is made of characters of items. -/
theorem notMem_of_isItemChar {cs : List Char} (h : ∀ c ∈ cs, IsItemChar c) :
    ':' ∉ cs ∧ '\n' ∉ cs :=
  ⟨fun hc => (h _ hc).ne.1 rfl, fun hc => (h _ hc).ne.2 rfl⟩

namespace ItemsWritten

variable {items : List Item} {cs : List Char}

/-- However items are written, the words are what the items are printed as. -/
theorem words (h : ItemsWritten items cs) : Text.words cs = items.map (·.render.toList) := by
  induction h with
  | nil => rfl
  | @cons i items gap rest hgap hapart hrest ih =>
    have hitem : Text.words i.render.toList = [i.render.toList] :=
      Text.words_eq_singleton (fun c hc => (i.isItemChar_of_mem_render c hc).1) i.render_ne_nil
    cases gap with
    | nil =>
      -- Without a gap behind it this is the last item, and nothing stands behind it.
      obtain rfl : items = [] := Classical.byContradiction fun hne => hapart hne rfl
      cases hrest
      rw [List.append_nil, List.append_nil, hitem, List.map_singleton]
    | cons b gap =>
      have hblank := List.forall_mem_cons.mp hgap.isBlank
      rw [List.cons_append, Text.words_append_cons hblank.1, Text.words_blanks_append hblank.2,
        hitem, ih, List.map_cons, List.singleton_append]

/-- Nor do the blanks around them matter. -/
theorem words_trimEnd (h : ItemsWritten items cs) {lead : List Char} (hlead : IsGap lead) :
    Text.words (Text.trimEnd (lead ++ cs)) = items.map (·.render.toList) := by
  rw [Text.words_trimEnd, Text.words_blanks_append hlead.isBlank, h.words]

theorem notMem (h : ItemsWritten items cs) : ':' ∉ cs ∧ '\n' ∉ cs := by
  induction h with
  | nil => simp
  | @cons i items gap rest hgap _ _ ih =>
    have hitem := notMem_of_isItemChar i.isItemChar_of_mem_render
    simp [hitem, hgap.notMem, ih]

end ItemsWritten

/-- A written line is one line. -/
theorem DescriptionLine.Written.notMem {l : DescriptionLine} {cs : List Char} (h : l.Written cs) :
    '\n' ∉ cs := by
  cases h with
  | blank hgap => exact hgap.notMem.2
  | @opening r items indent gap lead body hindent hgap hlead hbody =>
    have hname := notMem_of_isItemChar r.isItemChar_of_mem_name
    simp [hindent.notMem, hname, hgap.notMem, hlead.notMem, hbody.notMem]
  | alternative hindent hlead hbody =>
    simp [hindent.notMem, hlead.notMem, hbody.notMem]

/-! ## Reading written lines -/

namespace RuleTable

variable {opened opened' : RuleTable} {cs ds : List Char} {n : Nat}

/-- The blanks around a line do not matter. -/
theorem readLine_congr (h : Text.trim cs = Text.trim ds) :
    opened.readLine n cs = opened.readLine n ds := by
  simp only [readLine, h]

end RuleTable

namespace DescriptionLine.Written

variable {l : DescriptionLine} {cs : List Char} {opened opened' : RuleTable} {n : Nat}

/-- A written line does to the table what it says. -/
theorem readLine (h : l.Written cs) (hadd : l.addTo? opened = some opened')
    (hitems : ∀ i ∈ l.items, i.matcher.IsNamed) : opened.readLine n cs = .ok opened' := by
  cases h with
  | blank hgap =>
    obtain rfl := Option.some.inj hadd
    exact RuleTable.readLine_of_trim (Text.trim_eq_nil hgap.isBlank) n
  | @opening r items indent gap lead body hindent hgap hlead hbody =>
    rw [addTo?, Option.ite_none_left_eq_some, Option.some.injEq] at hadd
    obtain ⟨hnew, rfl⟩ := hadd
    have hchars := r.isItemChar_of_mem_name
    have htrim :
        Text.trim (indent ++ (r.name.toList ++ (gap ++ ([':', ':', '='] ++ (lead ++ body))))) =
          r.name.toList ++ gap ++ [':', ':', '='] ++ Text.trimEnd (lead ++ body) := by
      -- A name starts with no blank and `=` is none, so trimming stops at them at the latest.
      obtain ⟨c, name, hname, -⟩ := (Matcher.rule r).exists_render
      rw [Matcher.render] at hname
      rw [hname, List.forall_mem_cons] at hchars
      have hend := Text.trimEnd_append_cons (c := '=') (by decide) (name ++ gap ++ [':', ':'])
        (lead ++ body)
      rw [Text.trim_append hindent.isBlank, hname, List.cons_append, Text.trim_cons hchars.1.1]
      simpa using hend
    have hname : Text.trim (r.name.toList ++ gap) = r.name.toList := by
      rw [Text.trim_append_blanks hgap.isBlank, Text.trim_eq_self fun c hc => (hchars c hc).1]
    have hcolon : ':' ∉ r.name.toList ++ gap := by
      simp [notMem_of_isItemChar hchars, hgap.notMem]
    exact RuleTable.readLine_opening htrim hname hcolon hitems (hbody.words_trimEnd hlead)
      (by simpa using hnew) n
  | @alternative items indent lead body hindent hlead hbody =>
    have htrim : Text.trim (indent ++ '|' :: (lead ++ body)) =
        '|' :: Text.trimEnd (lead ++ body) := by
      rw [Text.trim_append hindent.isBlank, Text.trim_cons (by decide)]
    have hcolon : ':' ∉ Text.trimEnd (lead ++ body) := fun h => by
      have := (Text.trimEnd_prefix _).subset h
      simp [hlead.notMem, hbody.notMem] at this
    cases opened with
    | nil => cases hadd
    | cons entry others =>
      obtain rfl := Option.some.inj hadd
      exact RuleTable.readLine_alternative htrim hcolon hitems (hbody.words_trimEnd hlead)
        n

end DescriptionLine.Written

namespace LinesWritten

variable {lines : List DescriptionLine} {cs : List Char} {opened t : RuleTable}

/-- Written lines do to the table what they say, one after another. -/
theorem readLines (h : LinesWritten lines cs)
    (hitems : ∀ l ∈ lines, ∀ i ∈ l.items, i.matcher.IsNamed)
    (hadd : opened.addLines? lines = some t) (n : Nat) :
    opened.readLines n (Text.lines cs) = .ok t := by
  induction h generalizing opened n with
  | nil =>
    obtain rfl := Option.some.inj hadd
    rfl
  | @last l cs h =>
    rw [RuleTable.addLines?, List.foldlM_cons, Option.bind_eq_bind,
      Option.bind_eq_some_iff] at hadd
    obtain ⟨after, hl, ht⟩ := hadd
    obtain rfl := Option.some.inj ht
    rw [List.forall_mem_singleton] at hitems
    cases cs with
    | nil =>
      -- An empty text has no line at all.
      have hblank : opened.readLine n [] = .ok opened := RuleTable.readLine_of_trim rfl n
      rw [h.readLine hl hitems, Except.ok.injEq] at hblank
      rw [Text.lines, RuleTable.readLines, hblank]
    | cons c cs =>
      rw [Text.lines_eq_singleton h.notMem (List.cons_ne_nil c cs), RuleTable.readLines,
        h.readLine hl hitems]
      rfl
  | @cons l lines cs rest h _ ih =>
    rw [RuleTable.addLines?, List.foldlM_cons, Option.bind_eq_bind,
      Option.bind_eq_some_iff] at hadd
    obtain ⟨after, hl, ht⟩ := hadd
    rw [List.forall_mem_cons] at hitems
    obtain ⟨cs', hlines, hcs⟩ := Text.exists_lines_append_cons h.notMem rest
    -- What the line loses with its end is a carriage return, which would be trimmed off as well.
    have htrim : Text.trim cs' = Text.trim cs := by
      rcases hcs with rfl | rfl
      · rfl
      · exact (Text.trim_append_blanks (List.forall_mem_singleton.mpr rfl) cs').symm
    rw [hlines, RuleTable.readLines, RuleTable.readLine_congr htrim, h.readLine hl hitems.1]
    exact ih hitems.2 ht (n + 1)

end LinesWritten

/-! ## What the lines of a table say -/

namespace RuleTable

variable {opened t : RuleTable} {r : Rule} {alternatives : List (List Item)}

theorem defines_iff_mem_map : opened.defines r = true ↔ r ∈ opened.map Prod.fst := by
  simp [defines]

/-- Blank lines do nothing. -/
theorem addLines?_filter (lines : List DescriptionLine) :
    opened.addLines? (lines.filter (· ≠ .blank)) = opened.addLines? lines := by
  rw [addLines?, List.foldlM_filter, addLines?]
  congr 1
  funext opened l
  cases l <;> rfl

/-- The lines of a rule say its alternatives. -/
theorem items_mem_of_mem_ruleLines {l : DescriptionLine} (h : l ∈ ruleLines r alternatives) :
    l.items ∈ alternatives := by
  cases alternatives with
  | nil => cases h
  | cons first more =>
    rw [ruleLines, List.mem_cons, List.mem_map] at h
    rcases h with rfl | ⟨items, hitems, rfl⟩
    · exact List.mem_cons_self
    · exact List.mem_cons_of_mem _ hitems

/-- The further alternatives of a rule all go onto it. -/
theorem addLines?_alternatives (more : List (List Item)) (others : RuleTable) :
    addLines? ((r, alternatives) :: others) (more.map .alternative) =
      some ((r, alternatives ++ more) :: others) := by
  induction more generalizing alternatives with
  | nil => simp [addLines?]
  | cons items more ih =>
    have hrest := @ih (alternatives ++ [items])
    rw [List.append_assoc, List.singleton_append] at hrest
    exact hrest

/-- The lines of a rule that is not defined so far define it. -/
theorem addLines?_ruleLines (hne : alternatives ≠ []) (hnew : r ∉ opened.map Prod.fst) :
    opened.addLines? (ruleLines r alternatives) = some ((r, alternatives) :: opened) := by
  cases alternatives with
  | nil => exact absurd rfl hne
  | cons first more =>
    have hfirst : (DescriptionLine.opening r first).addTo? opened =
        some ((r, [first]) :: opened) := by
      simp [DescriptionLine.addTo?, defines_iff_mem_map, hnew]
    rw [ruleLines, addLines?, List.foldlM_cons, hfirst]
    exact addLines?_alternatives more opened

/-- The lines of a table add its rules in order. -/
theorem addLines?_lines (hne : ∀ entry ∈ t, entry.2 ≠ [])
    (hdistinct : ((t.reverse ++ opened).map Prod.fst).Nodup) :
    opened.addLines? t.lines = some (t.reverse ++ opened) := by
  induction t generalizing opened with
  | nil => rfl
  | cons entry t ih =>
    obtain ⟨r, alternatives⟩ := entry
    rw [List.forall_mem_cons] at hne
    -- The rule is opened last, so from here on it comes first.
    rw [List.reverse_cons, List.append_assoc, List.singleton_append] at hdistinct ⊢
    have hnew : r ∉ opened.map Prod.fst := by
      rw [List.map_append, List.map_cons] at hdistinct
      exact (List.nodup_cons.mp (List.nodup_append.mp hdistinct).2.1).1
    rw [lines, List.flatMap_cons, addLines?, List.foldlM_append, ← addLines?,
      addLines?_ruleLines hne.1 hnew]
    exact ih hne.2 hdistinct

end RuleTable

/-! ## Reading written tables -/

namespace Description

variable {text : String} {t : RuleTable} {start : Rule}

/-- Lines that make a table are read as a description that starts at its first rule, unless they ask
for a rule that it does not define. -/
theorem read_of_readLines (hstart : (t.map Prod.fst).head? = some start)
    (h : RuleTable.readLines [] 1 (Text.lines text.toList) = .ok t.reverse) :
    Description.read text = match t.references.find? fun r => !t.defines r with
      | some r => .error (.missingRule r.name)
      | none => .ok ⟨start, t⟩ := by
  rw [Description.read, h]
  simp only [bind, Except.bind, List.reverse_reverse]
  cases t.references.find? fun r => !t.defines r with
  | some r => rfl
  | none =>
    cases t with
    | nil => cases hstart
    | cons entry others =>
      obtain rfl := Option.some.inj hstart
      rfl

/-- Lines that make a closed table are read as a description. -/
theorem read_of_closed (hstart : (t.map Prod.fst).head? = some start)
    (h : RuleTable.readLines [] 1 (Text.lines text.toList) = .ok t.reverse)
    (hclosed : ∀ r ∈ t.references, t.defines r = true) :
    Description.read text = .ok ⟨start, t⟩ := by
  have hnone : (t.references.find? fun r => !t.defines r) = none := by
    simpa [List.find?_eq_none] using hclosed
  rw [read_of_readLines hstart h, hnone]

end Description

namespace RuleTable

variable {t : RuleTable} {text : String}

/-- Whatever text writes a table, its lines are read as the table. -/
theorem IsWritten.readLines (h : t.IsWritten text) (ht : t.Writable) :
    RuleTable.readLines [] 1 (Text.lines text.toList) = .ok t.reverse := by
  obtain ⟨lines, hlines, hsame⟩ := h
  have hadd : addLines? [] lines = some t.reverse := by
    have hdistinct : ((t.reverse ++ []).map Prod.fst).Nodup := by
      rw [List.append_nil, List.map_reverse, (List.reverse_perm _).nodup_iff]
      exact ht.distinct
    rw [← addLines?_filter, hsame, addLines?_lines ht.hasAlternative hdistinct, List.append_nil]
  refine hlines.readLines (fun l hl i hi => ?_) hadd 1
  -- A line with items is not blank, and so it is one of the lines of the table.
  have hmem : l ∈ t.lines := by
    rw [← hsame, List.mem_filter]
    refine ⟨hl, decide_eq_true ?_⟩
    rintro rfl
    cases hi
  obtain ⟨entry, hentry, hrule⟩ := List.mem_flatMap.mp hmem
  exact ht.named entry hentry l.items (items_mem_of_mem_ruleLines hrule) i hi

end RuleTable

/-- A table of distinct rules, each of which has an alternative, is read back from whatever text
writes it: one line opens each rule, one more gives each further alternative, and blank lines,
indentation, blanks around the items and carriage returns are as one likes.  The first rule is the
start.  If the table asks for rules that it does not define, the text is refused for the first of
them in reading order. -/
theorem Description.read_written {t : RuleTable} {text : String} {start : Rule}
    (hstart : (t.map Prod.fst).head? = some start) (ht : t.Writable) (htext : t.IsWritten text) :
    ((∀ r ∈ t.references, r ∈ t.map Prod.fst) → Description.read text = .ok ⟨start, t⟩) ∧
    ∀ before r after, t.references = before ++ r :: after →
      (∀ s ∈ before, s ∈ t.map Prod.fst) → r ∉ t.map Prod.fst →
        Description.read text = .error (.missingRule r.name) := by
  have hlines := htext.readLines ht
  refine ⟨fun hclosed => read_of_closed hstart hlines fun r hr => ?_, fun before r after hrefs
    hbefore hr => ?_⟩
  · exact RuleTable.defines_iff_mem_map.mpr (hclosed r hr)
  · have hfirst : (t.references.find? fun r => !t.defines r) = some r := by
      rw [hrefs, List.find?_eq_some_iff_append]
      refine ⟨?_, before, after, rfl, ?_⟩
      · simpa [← RuleTable.defines_iff_mem_map] using hr
      · simpa [← RuleTable.defines_iff_mem_map] using hbefore
    rw [read_of_readLines hstart hlines, hfirst]

/-- The first text has carriage returns, blank lines, an empty alternative and a reserved word that
is itself a mark; in the second one a rule is missing. -/
theorem Description.read_written_two_texts :
    Description.read "\r\n  grammar ::=NT+  \"?\"?\r\n\t|\r\n\n |  &EOF block \nblock\t::= NL" =
      .ok ⟨.grammar, [
        (.grammar, [
          [⟨.token .nonterminal, .plus⟩, ⟨.word .question, .optional⟩],
          [],
          [⟨.token .eof, .peek⟩, ⟨.rule .block, .one⟩]]),
        (.block, [[⟨.token .newline, .one⟩]])]⟩ ∧
    Description.read "grammar ::= block EOF\n" = .error (.missingRule "block") := by
  constructor
  · have hfirst : (DescriptionLine.opening .grammar
        [⟨.token .nonterminal, .plus⟩, ⟨.word .question, .optional⟩]).Written
          "  grammar ::=NT+  \"?\"?\r".toList :=
      @DescriptionLine.Written.opening _ _ [' ', ' '] [' '] [] _ (by decide) (by decide) (by decide)
        (@ItemsWritten.cons _ _ [' ', ' '] _ (by decide) (by decide)
          (@ItemsWritten.cons _ _ ['\r'] _ (by decide) (by decide) .nil))
    have hempty : (DescriptionLine.alternative []).Written "\t|\r".toList :=
      @DescriptionLine.Written.alternative _ ['\t'] ['\r'] _ (by decide) (by decide) .nil
    have hthird : (DescriptionLine.alternative
        [⟨.token .eof, .peek⟩, ⟨.rule .block, .one⟩]).Written " |  &EOF block ".toList :=
      @DescriptionLine.Written.alternative _ [' '] [' ', ' '] _ (by decide) (by decide)
        (@ItemsWritten.cons _ _ [' '] _ (by decide) (by decide)
          (@ItemsWritten.cons _ _ [' '] _ (by decide) (by decide) .nil))
    have hlast : (DescriptionLine.opening .block [⟨.token .newline, .one⟩]).Written
        "block\t::= NL".toList :=
      @DescriptionLine.Written.opening _ _ [] ['\t'] [' '] _ (by decide) (by decide) (by decide)
        (@ItemsWritten.cons _ _ [] _ (by decide) (by decide) .nil)
    have hlines := LinesWritten.cons (.blank (by decide : IsGap ['\r'])) (.cons hfirst (.cons hempty
      (.cons (.blank (by decide : IsGap [])) (.cons hthird (.last hlast)))))
    exact (read_written rfl ⟨by decide, by decide, by decide⟩ ⟨_, hlines, rfl⟩).1 (by decide)
  · have hline : (DescriptionLine.opening .grammar
        [⟨.rule .block, .one⟩, ⟨.token .eof, .one⟩]).Written "grammar ::= block EOF".toList :=
      @DescriptionLine.Written.opening _ _ [] [' '] [' '] _ (by decide) (by decide) (by decide)
        (@ItemsWritten.cons _ _ [' '] _ (by decide) (by decide)
          (@ItemsWritten.cons _ _ [] _ (by decide) (by decide) .nil))
    exact (read_written (t := [(.grammar, [[⟨.rule .block, .one⟩, ⟨.token .eof, .one⟩]])]) rfl
      ⟨by decide, by decide, by decide⟩ ⟨_, .cons hline .nil, rfl⟩).2 [] .block [] rfl
      (by decide) (by decide)

end GrammarText
