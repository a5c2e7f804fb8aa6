import GrammarText.Proofs.Display.Spelling

/-!
# A grammar as a text

`Grammar.render` writes the definitions of a grammar one after another: for each a head with its
parameters, a line for each production, and a blank line.  The lines of productions are indented by
any separators.
-/

namespace GrammarText

/-! ## Writing definitions -/

def Definition.head (name : String) : Definition → String
  | alternatives _ => name ++ " :"
  | parameterized params _ => name ++ "[" ++ ", ".intercalate params ++ "] :"

def Definition.render (indent name : String) (d : Definition) : String :=
  d.head name ++ "\n" ++
    String.join (d.productions.map fun p => indent ++ p.display ++ "\n") ++ "\n"

def Grammar.render (indent : String) (g : Grammar) : String :=
  String.join (g.nonterminals.toList.map fun (name, d) => d.render indent name)

/-! ## What is written -/

def Definition.headLexemes (name : String) : Definition → List Lexeme
  | alternatives _ => [.nonterminal name]
  | parameterized params _ =>
    .call name :: .reserved .openBracket ::
      (separated [.reserved .comma] (params.map ([.nonterminal ·])) ++ [.reserved .closeBracket])

def Definition.lexemes (name : String) (d : Definition) : List Lexeme :=
  d.headLexemes name ++ .colons ":" :: .newline ::
    (d.productions.flatMap (·.lexemes ++ [.newline]) ++ [.newline])

theorem spells_indent {indent rest : List Char} {ms : List Lexeme}
    (h : ∀ c ∈ indent, isSeparator c = true) (hms : Spells rest ms) :
    Spells (indent ++ rest) ms := by
  induction indent with
  | nil => exact hms
  | cons c cs ih =>
    rw [List.forall_mem_cons] at h
    exact .separator h.1 (ih h.2)

/-- The colon that ends a head, and the end of its line. -/
theorem spells_colon {rest : List Char} {ms : List Lexeme} (hms : Spells rest ms) :
    Spells (' ' :: ':' :: '\n' :: rest) (.colons ":" :: .newline :: ms) :=
  spells_blank (.lexeme (stands_colon rest) (.lexeme (stands_newline rest) hms))

/-- The head of a definition, and the end of its line. -/
theorem spells_head {name : String} {d : Definition} (h : d.Fits Lexeme.Written name)
    {rest : List Char} {ms : List Lexeme} (hms : Spells rest ms) :
    Spells ((d.head name).toList ++ '\n' :: rest)
      (d.headLexemes name ++ .colons ":" :: .newline :: ms) := by
  have hcolon := spells_colon hms
  cases d with
  | alternatives ps =>
    have hname := spells_nonterminal h.2.2 (stops_cons (by simp)) hcolon
    simpa [Definition.head, Definition.headLexemes] using hname
  | parameterized params ps =>
    obtain ⟨hname, hne, hparams⟩ := h.2.2
    have hclose := spells_closeBracket hcolon
    have hlist : Prints (", ".intercalate (params.map id))
        (separated [.reserved .comma] (params.map ([.nonterminal ·]))) := by
      refine prints_intercalate ", " hne (fun p hp rest ms hrest hms => ?_) fun _ _ => spells_comma
      exact spells_nonterminal (hparams p hp) hrest hms
    rw [List.map_id] at hlist
    have hopen := spells_openBracket ?_ (hlist _ _ (stops_cons (by simp)) hclose)
    · simpa [Definition.head, Definition.headLexemes] using spells_call hname hopen
    · obtain ⟨p, ps, rfl⟩ := List.exists_cons_of_ne_nil hne
      obtain ⟨first, more, hp, -, hfirst⟩ := hparams p List.mem_cons_self
      rw [head?_intercalate (by rcases hfirst with ⟨c, rfl, -⟩ | rfl <;> simp [hp]), hp]
      rcases hfirst with ⟨c, rfl, hc⟩ | rfl
      · rintro _ ⟨⟩ rfl
        cases hc
      · rintro _ ⟨⟩
        decide

/-- The lines of productions. -/
theorem spells_lines {indent : String} (hindent : ∀ c ∈ indent.toList, isSeparator c = true)
    {ps : List Production} (h : ∀ p ∈ ps, p.Fits Lexeme.Written) (hline : ∀ p ∈ ps, p.OneLine)
    {rest : List Char} {ms : List Lexeme} (hms : Spells rest ms) :
    Spells ((String.join (ps.map fun p => indent ++ p.display ++ "\n")).toList ++ rest)
      (ps.flatMap (·.lexemes ++ [.newline]) ++ ms) := by
  induction ps with
  | nil => simpa using hms
  | cons p ps ih =>
    rw [List.forall_mem_cons] at h hline
    have := spells_indent hindent (spells_line h.1 hline.1 (ih h.2 hline.2))
    simpa using this

theorem spells_render {indent : String} (hindent : ∀ c ∈ indent.toList, isSeparator c = true)
    {ds : List (String × Definition)} (h : ∀ d ∈ ds, d.2.Fits Lexeme.Written d.1)
    (hline : ∀ d ∈ ds, ∀ p ∈ d.2.productions, p.OneLine) :
    Spells (String.join (ds.map fun (name, d) => d.render indent name)).toList
      (ds.flatMap fun (name, d) => d.lexemes name) := by
  induction ds with
  | nil => exact .done
  | cons d ds ih =>
    rw [List.forall_mem_cons] at h hline
    have hblank := Spells.lexeme (stands_newline _) (ih h.2 hline.2)
    have hlines := spells_lines hindent h.1.2.1 hline.1 hblank
    simpa [Definition.render, Definition.lexemes, Lexeme.text] using spells_head h.1 hlines

end GrammarText
