import GrammarText.Assembly
import GrammarText.Reduction
import GrammarText.Token.Scanner
import GrammarText.Tree.Parse

/-!
Compiling: from the text of a grammar to its value. A text is cut into tokens, the tokens are read
as a tree, the tree is reduced to declarations, and these are assembled.
-/

namespace GrammarText

def defaultFileName : String := "grammar.emug"

structure Options where
  /-- What the text is called in diagnostics. -/
  fileName : Option String
  goals : Names
  deriving DecidableEq

namespace Options

def new : Options := ⟨none, ∅⟩

def withFileName (o : Options) (name : String) : Options := { o with fileName := some name }

/-- The options with other goals in the place of the present ones. -/
def withGoals (o : Options) (goals : List String) : Options := { o with goals := .ofList goals }

def sourceName (o : Options) : String := o.fileName.getD defaultFileName

end Options

def treeOf (text : String) : Except Diagnostic Tree := do
  let tokens ← (tokensOf text).mapError .lexical
  (Tree.ofTokens tokens).mapError .parse

def declarationsOf (text : String) : Except Diagnostic (List Declaration) := do
  (← treeOf text).declarations

def compile (text : String) (options : Options) : Except Diagnostic Grammar := do
  let ds ← declarationsOf text
  (assemble ds options.goals).mapError .grammar

end GrammarText
