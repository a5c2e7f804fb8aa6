import GrammarText.Compile

/-!
The journal of a compilation: lines that say how far it has come. It is computed beside the result
and changes nothing in it. A compilation that fails leaves the lines written before the failure.
-/

namespace GrammarText

inductive Level where
  | warn
  | debug
  | trace
  deriving DecidableEq, Repr

/-- The rank of a level: less is more severe. -/
def Level.rank : Level → Nat
  | warn => 0
  | debug => 1
  | trace => 2

structure Entry where
  level : Level
  message : String
  deriving DecidableEq, Repr

def atLeast (level : Level) (entries : List Entry) : List Entry :=
  entries.filter fun e => e.level.rank ≤ level.rank

def Node.entry (n : Node) : Entry :=
  ⟨.trace, "reduce " ++ n.rule.name ++ "/" ++ toString n.alternative ++ " at "
    ++ toString n.start ++ ".." ++ toString n.stop⟩

/-- The lines for a phrase that a node was reduced to: one for a declaration. -/
def Phrase.entries : Phrase → List Entry
  | .declaration d => [⟨.trace, "reduced definition of " ++ d.name ++ " (" ++ d.separator ++ ")"⟩]
  | _ => []

/-- Reduction that keeps a journal beside what is gathered. -/
abbrev Journaling := ExceptT Diagnostic (StateM (Gathered × List Entry))

/-- Reduces like `Reduction.visitor`, and writes a line before each node and after each
declaration. -/
def Reduction.journalingVisitor : Visitor Journaling Phrase where
  token t := pure (.token t)
  absent := pure .absent
  repeated items := pure (.repeated items)
  node n children := fun (gathered, entries) =>
    let (result, gathered) := ((Reduction.node n).run' children).run.run gathered
    let entries := entries ++ [n.entry]
    match result with
    | .ok p => (.ok p, gathered, entries ++ p.entries)
    | .error e => (.error e, gathered, entries)

def Tree.reductionEntries (t : Tree) : List Entry :=
  ((t.visit Reduction.journalingVisitor).run.run (.none, [])).2.2

def Declaration.entries (d : Declaration) : List Entry :=
  if d.isParameterized then [⟨.debug, "storing parameterized definition of " ++ d.name⟩]
  else if d.separator ≠ ":" then
    [⟨.debug, d.name ++ " (" ++ d.separator ++ ") is recorded as a variable terminal only"⟩]
  else []

/-- The lines for a finished assembly: a warning for each goal that is not stored, and a count. -/
def Assembly.closingEntries (a : Assembly) (goals : Names) : List Entry :=
  ((goals.toList.filter fun g => g ∉ a.nonterminals).map fun g =>
    ⟨.warn, "goal " ++ Text.quoted g ++ " names no stored definition"⟩)
  ++ [⟨.debug, "assembled " ++ toString a.nonterminals.size ++ " nonterminals, "
    ++ toString a.variableTerminals.size ++ " variable terminals, "
    ++ toString a.usedAt.size ++ " terminal spellings"⟩]

def Assembly.entries (a : Assembly) (goals : Names) : List Declaration → List Entry
  | [] => if a.collision?.isSome then [] else a.closingEntries goals
  | d :: ds =>
    match a.add d with
    | .ok a => d.entries ++ Assembly.entries a goals ds
    | .error _ => []

def journalOf (text : String) (options : Options) : List Entry :=
  let step (message : String) : Entry := ⟨.debug, options.sourceName ++ ": " ++ message⟩
  match tokensOf text with
  | .error _ => []
  | .ok tokens =>
    step (toString tokens.length ++ " tokens") ::
    match Tree.ofTokens tokens with
    | .error _ => []
    | .ok tree =>
      step "syntax tree built" :: (tree.reductionEntries ++
        match tree.declarations with
        | .error _ => []
        | .ok ds =>
          step (toString ds.length ++ " definitions reduced")
            :: Assembly.empty.entries options.goals ds)

end GrammarText
