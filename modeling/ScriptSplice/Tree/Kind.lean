import ScriptSplice.Text.Basic
/-!
# Node kinds

What a node of a syntax tree is: a piece of structure, an ordinary
argument of a command, or a piece of script. The name of a kind is what
the reader accepts, the printer writes and a message quotes.
-/

namespace ScriptSplice

/-- The kinds of nodes. -/
inductive Kind where
  -- structure
  | root
  | command
  | resourceLocation
  -- arguments of commands
  | word
  | number
  | boolean
  | string
  | coordinate
  | vector2
  | vector3
  | message
  | messageText
  | particle
  | dustParticleParameters
  | json
  | nbt
  | selector
  -- scripting
  | interpolation
  | argumentInterpolation
  | binary
  | unary
  | value
  | identifier
  | targetIdentifier
  | formatString
  | tuple
  | list
  | dict
  | dictItem
  | attributeOf
  | lookup
  | call
  | assignment
  | functionSignature
  | functionArgument
  | importedIdentifier
deriving DecidableEq, Repr, Inhabited

namespace Kind

/-- The name of a kind in the textual format. -/
def name : Kind → Text
  | root => ascii "root"
  | command => ascii "command"
  | resourceLocation => ascii "resource-location"
  | word => ascii "word"
  | number => ascii "number"
  | boolean => ascii "boolean"
  | string => ascii "string"
  | coordinate => ascii "coordinate"
  | vector2 => ascii "vector2"
  | vector3 => ascii "vector3"
  | message => ascii "message"
  | messageText => ascii "message-text"
  | particle => ascii "particle"
  | dustParticleParameters => ascii "dust-particle-parameters"
  | json => ascii "json"
  | nbt => ascii "nbt"
  | selector => ascii "selector"
  | interpolation => ascii "interpolation"
  | argumentInterpolation => ascii "argument-interpolation"
  | binary => ascii "binary"
  | unary => ascii "unary"
  | value => ascii "value"
  | identifier => ascii "identifier"
  | targetIdentifier => ascii "target-identifier"
  | formatString => ascii "format-string"
  | tuple => ascii "tuple"
  | list => ascii "list"
  | dict => ascii "dict"
  | dictItem => ascii "dict-item"
  | attributeOf => ascii "attribute"
  | lookup => ascii "lookup"
  | call => ascii "call"
  | assignment => ascii "assignment"
  | functionSignature => ascii "function-signature"
  | functionArgument => ascii "function-argument"
  | importedIdentifier => ascii "imported-identifier"

/-- Every kind, in the order of declaration. -/
def all : List Kind :=
  [root, command, resourceLocation, word, number, boolean, string, coordinate, vector2, vector3,
    message, messageText, particle, dustParticleParameters, json, nbt, selector, interpolation,
    argumentInterpolation, binary, unary, value, identifier, targetIdentifier, formatString,
    tuple, list, dict, dictItem, attributeOf, lookup, call, assignment, functionSignature,
    functionArgument, importedIdentifier]

/-- The kind with a given name. The reader also knows `bool`, which no
printer writes. -/
def ofName? (text : Text) : Option Kind :=
  if text = ascii "bool" then some boolean else all.find? fun k => k.name = text

/-- A kind is found under its own name. -/
theorem ofName?_name (k : Kind) : ofName? k.name = some k := by
  cases k <;> decide

end Kind

end ScriptSplice
