import ScriptSplice.Text.Name
/-!
# Helpers of the generated program

What the generated program may call. The runtime keeps its helpers under
keys; the head of a program binds each one that the program uses to a
local name, which is made from the key.
-/

namespace ScriptSplice

/-- The helpers. -/
inductive Helper where
  /-- A copy of a node with some fields replaced. -/
  | replace
  /-- A sequence of children. -/
  | children
  /-- What stands for an argument that was not given. -/
  | missing
  | getAttribute
  /-- A value made into a node by a converter. -/
  | interpolate (converter : Text)
  /-- A value made into a node as an argument parser says. -/
  | convert (parser : Text)
  /-- A value given the place of a node. -/
  | setLocation
  | importModule
  | fromModuleImport
deriving DecidableEq

namespace Helper

/-- The key a helper is found under. -/
def key : Helper → Text
  | replace => ascii "replace"
  | children => ascii "children"
  | missing => ascii "missing"
  | getAttribute => ascii "get_attribute"
  | interpolate converter => ascii "interpolate_" ++ converter
  | convert parser => ascii "convert:" ++ parser
  | setLocation => ascii "set_location"
  | importModule => ascii "import_module"
  | fromModuleImport => ascii "from_module_import"

/-- The name a program gives a helper. -/
def localName (stem : Text) (h : Helper) : Text :=
  stem ++ ascii "_helper_" ++ Text.normalize h.key

end Helper

/-! ## The other generated names -/

/-- The runtime. -/
def runtimeName (stem : Text) : Text := stem ++ ascii "_runtime"

/-- The commands collected so far. -/
def commandsName (stem : Text) : Text := runtimeName stem ++ ascii ".commands"

/-- The table of referenced nodes. -/
def refsName (stem : Text) : Text := stem ++ ascii "_refs"

/-- A fresh variable. -/
def variableName (stem : Text) (n : Nat) : Text := stem ++ ascii "_var" ++ Text.ofNat n

end ScriptSplice
