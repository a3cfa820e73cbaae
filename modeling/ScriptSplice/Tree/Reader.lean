import ScriptSplice.Tree.Reader.Machine
/-!
# Reading trees

A text is one form, `(kind :field value ...)`. Values are a nested form,
a sequence of forms in brackets, a string, an integer, a floating point
number, `true`, `false` or `nil`.
-/

namespace ScriptSplice

namespace Reader

/-- The state after some bytes. -/
def run (located : Bool) (s : State) (text : Text) : State := text.foldl (step located) s

/-- Reading goes on from where the text before led. -/
theorem run_append (located : Bool) (s : State) (a b : Text) :
    run located s (a ++ b) = run located (run located s a) b := List.foldl_append

/-- What a state comes to when the text ends. -/
def State.result (s : State) : Except Error Node := finish s.place (settle s.place none s.mode)

end Reader

/-- The tree a text stands for. If `located`, every node has the place of
its opening parenthesis; otherwise none has a place. -/
def Node.parse (text : Text) (located : Bool) : Except Reader.Error Node :=
  (Reader.run located .initial text).result

end ScriptSplice
