import ScriptSplice.Text.Basic
/-!
# Identifiers and normalized names

A generated name must be an identifier of the target language, whatever
bytes it is made from. `Text.isIdentifier` is the grammar, and
`Text.normalize` turns any text into a piece of a name.
-/

namespace ScriptSplice

namespace Text

/-- A letter or an underscore, then letters, digits and underscores. -/
def isIdentifier : Text → Bool
  | [] => false
  | b :: t => (Byte.isAlpha b || b == Byte.underscore) &&
      t.all fun c => Byte.isAlphanumeric c || c == Byte.underscore

/-- The longest stretches of letters and digits, in order. -/
def words (t : Text) : List Text :=
  (t.splitWhere fun b => !Byte.isAlphanumeric b).filter fun w => !w.isEmpty

/-- The words of a text in small letters, one underscore between two. -/
def normalize (t : Text) : Text :=
  List.intercalate [Byte.underscore] (t.words.map (·.map Byte.toLower))

end Text

end ScriptSplice
