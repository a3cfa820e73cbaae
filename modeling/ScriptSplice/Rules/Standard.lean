import ScriptSplice.Rules.Expression
import ScriptSplice.Rules.Import
import ScriptSplice.Rules.Statement
/-!
# The standard rules and parsers

What a compiler knows before anything is added to it. A node that no
other rule is for is rebuilt around the parts that change. A root is
rebuilt too, and the commands in it get a scope of their own.
-/

namespace ScriptSplice

namespace Handler

variable {m : Type → Type} [Monad m] [MonadExceptOf Compile.Failure m] [MonadLiftT Drafting m]

/-- Rebuilds a node around the parts that change. -/
def rebuild (collection : Collection) : Handler m := fun _ n fields => do
  return (← Compile.rebuild collection n fields).map fun e => [e]

/-- The rules for what is neither a statement nor an expression. -/
def structureRules (m : Type → Type := Compile) [Monad m] [MonadExceptOf Compile.Failure m]
    [MonadLiftT Drafting m] : List (Rule (Handler m)) :=
  [forAny "generic" (rebuild .generic), forKind .root "root" (rebuild .rootCommand)]

end Handler

/-- The standard rules, in the order they are added. -/
def standardRules (m : Type → Type := Compile) [Monad m] [MonadExceptOf Compile.Failure m]
    [MonadLiftT Drafting m] [Compile.HasBlocks m] : List (Rule (Handler m)) :=
  Handler.structureRules m ++ Handler.statementRules m ++ Handler.importRules m ++
    Handler.expressionRules m

/-- The argument parsers that every runtime has a converter for. -/
def standardParsers : Parsers :=
  ["brigadier:bool",
    "brigadier:double",
    "brigadier:float",
    "brigadier:integer",
    "brigadier:long",
    "brigadier:string",
    "minecraft:angle",
    "minecraft:block_pos",
    "minecraft:block_predicate",
    "minecraft:block_state",
    "minecraft:color",
    "minecraft:column_pos",
    "minecraft:component",
    "minecraft:dimension",
    "minecraft:entity",
    "minecraft:entity_anchor",
    "minecraft:entity_summon",
    "minecraft:float_range",
    "minecraft:function",
    "minecraft:game_profile",
    "minecraft:int_range",
    "minecraft:item_enchantment",
    "minecraft:item_predicate",
    "minecraft:item_slot",
    "minecraft:item_stack",
    "minecraft:message",
    "minecraft:mob_effect",
    "minecraft:nbt_compound_tag",
    "minecraft:nbt_path",
    "minecraft:nbt_tag",
    "minecraft:objective",
    "minecraft:objective_criteria",
    "minecraft:operation",
    "minecraft:particle",
    "minecraft:resource_location",
    "minecraft:rotation",
    "minecraft:score_holder",
    "minecraft:scoreboard_slot",
    "minecraft:swizzle",
    "minecraft:team",
    "minecraft:time",
    "minecraft:uuid",
    "minecraft:vec2",
    "minecraft:vec3"].map ascii

end ScriptSplice
