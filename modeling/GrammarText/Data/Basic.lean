/-!
Plain data: the few shapes that a data format needs to hold a grammar.
-/

namespace GrammarText

/-- A value of a data format. The fields of a record are in order and may have any names. -/
inductive Data where
  | bool (value : Bool)
  | text (value : String)
  | list (items : List Data)
  | record (fields : List (String × Data))
  deriving Repr, Inhabited

/-- A record that starts with a field for which of several shapes it has. -/
def Data.tagged (kind : String) (fields : List (String × Data)) : Data :=
  .record (("kind", .text kind) :: fields)

end GrammarText
