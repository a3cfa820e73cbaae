import ScriptSplice.Proofs.Target.Unmarked
import ScriptSplice.Program.LineTable
/-!
# Programs over a vocabulary

A tree hands texts of its own to the program: names and operators, which
are written as they stand, and the names of fields. A vocabulary says what
these texts may be, and the programs over it are those that the rules can
write. `Blocks` are the lines of such a program, well nested: what opens a
block is followed by lines one level deeper, and no block is empty.
-/

namespace ScriptSplice

/-- What the texts taken over from a tree may be. -/
structure Vocabulary where
  /-- The bytes of names and operators. -/
  byte : UInt8 → Prop
  /-- Whether a name can be blank. -/
  blank : Prop
  /-- The names of fields. -/
  field : Text → Prop
  /-- An operator of two words has a blank between them. -/
  byte_space : byte 0x20

namespace Vocabulary

variable (V : Vocabulary)

/-- A text over the bytes of a vocabulary. -/
def Word (t : Text) : Prop := ∀ b ∈ t, V.byte b

/-- A name or operator of a tree. -/
def Name (t : Text) : Prop := V.Word t ∧ (isBlank t → V.blank)

end Vocabulary

variable {V : Vocabulary}

/-- Keywords are made of letters, with a blank between two words. -/
def Text.isKeyword (t : Text) : Bool :=
  !isBlank t && t.all fun b => Byte.isAlpha b || b == 0x20

/-- Expressions over a vocabulary. Parts of recipes are not among them, and
the name of a field stands only before its new value. -/
inductive Expr.Over (V : Vocabulary) : Expr → Prop
  | verbatim {t : Text} : V.Name t → Over V (.verbatim t)
  | ref (i : Nat) : Over V (.ref i)
  | slice (start stop : Nat) : Over V (.slice start stop)
  | var (n : Nat) : Over V (.var n)
  | commands : Over V .commands
  | apply (h : Helper) {args : List Expr} : (∀ e ∈ args, Over V e) → Over V (.apply h args)
  | replace {base : Expr} {fields : List (Text × Expr)} : Over V base →
      (∀ f ∈ fields, V.field f.1) → (∀ f ∈ fields, Over V f.2) →
      Over V (.apply .replace (base :: fields.map fun f => .keyword f.1 f.2))
  | bracketed (line : Option Int) {e : Expr} : Over V e → Over V (.bracketed line e)
  | literal (l : Leaf) : Over V (.literal l)
  | binary {left right : Expr} {operator : Text} : Over V left → V.Word operator →
      Over V right → Over V (.binary left operator right)
  | unary {operator : Text} {operand : Expr} : V.Word operator → Over V operand →
      Over V (.unary operator operand)
  | format (template : Text) {values : List Expr} : (∀ e ∈ values, Over V e) →
      Over V (.format template values)
  | tuple {items : List Expr} : (∀ e ∈ items, Over V e) → Over V (.tuple items)
  | list {items : List Expr} : (∀ e ∈ items, Over V e) → Over V (.list items)
  | dict {items : List Expr} : (∀ e ∈ items, Over V e) → Over V (.dict items)
  | entry {key value : Expr} : Over V key → Over V value → Over V (.entry key value)
  | lookup {base : Expr} {args : List Expr} : Over V base → (∀ e ∈ args, Over V e) →
      Over V (.lookup base args)
  | call {base : Expr} {args : List Expr} : Over V base → (∀ e ∈ args, Over V e) →
      Over V (.call base args)

/-- Statements over a vocabulary. -/
inductive Stmt.Over (V : Vocabulary) : Stmt → Prop
  | eval {e : Expr} : e.Over V → Over V (.eval e)
  | bind {name : Text} {value : Expr} : V.Name name → value.Over V → Over V (.bind name value)
  | output (n : Nat) {value : Expr} : value.Over V → Over V (.output n value)
  | append {e : Expr} : e.Over V → Over V (.append e)
  | extend {e : Expr} : e.Over V → Over V (.extend e)
  | extendBody {body : Expr} : body.Over V → Over V (.extendBody body)
  | pass : Over V .pass
  | control {keyword : Text} {operand : Option Expr} : keyword.isKeyword = true →
      (∀ e, operand = some e → e.Over V) → Over V (.control keyword operand)
  | branch {keyword : Text} {condition : Expr} : keyword.isKeyword = true → condition.Over V →
      Over V (.branch keyword condition)
  | otherwise : Over V .otherwise
  | loop {target iterable : Expr} : target.Over V → iterable.Over V →
      Over V (.loop target iterable)
  | define {name : Text} {parameters : List (Text × Bool)} : V.Name name →
      (∀ p ∈ parameters, V.Name p.1) → Over V (.define name parameters)
  | default {name : Text} : V.Name name → Over V (.default name)
  | scope (n : Nat) : Over V (.scope n)
  | importNative {path : Text} : V.Name path → Over V (.importNative path)
  | importNativeAs {path name : Text} : V.Name path → V.Name name →
      Over V (.importNativeAs path name)
  | fromNative {path : Text} {names : List Text} : V.Name path → (∀ t ∈ names, V.Name t) →
      Over V (.fromNative path names)
  | bindModule {name : Text} (target : Text) : V.Word name → Over V (.bindModule name target)
  | bindNames {names : List Text} (target : Text) : (∀ t ∈ names, V.Name t) →
      Over V (.bindNames names target)

theorem Stmt.Over.isMark {s : Stmt} (h : s.Over V) : s.isMark = false := by
  cases h <;> rfl

/-- **Well-nested lines** at a depth. A mark stands before a line. -/
inductive Blocks (V : Vocabulary) : Nat → List Line → Prop
  | nil {depth : Nat} : Blocks V depth []
  | mark {depth : Nat} (line : Int) {rest : List Line} : rest ≠ [] → Blocks V depth rest →
      Blocks V depth (⟨depth, .mark line⟩ :: rest)
  | line {depth : Nat} {s : Stmt} {rest : List Line} : s.Over V → s.isHeader = false →
      Blocks V depth rest → Blocks V depth (⟨depth, s⟩ :: rest)
  | block {depth : Nat} {s : Stmt} {body rest : List Line} : s.Over V → s.isHeader = true →
      body ≠ [] → Blocks V (depth + 1) body → Blocks V depth rest →
      Blocks V depth (⟨depth, s⟩ :: (body ++ rest))

namespace Blocks

variable {depth : Nat} {ls ms : List Line}

/-- A line on its own. -/
theorem single {s : Stmt} (hs : s.Over V) (hheader : s.isHeader = false) :
    Blocks V depth [⟨depth, s⟩] := .line hs hheader .nil

/-- Blocks behind one another are blocks. -/
theorem append (h : Blocks V depth ls) (h' : Blocks V depth ms) : Blocks V depth (ls ++ ms) := by
  induction h with
  | nil => exact h'
  | mark line hne _ ih => exact .mark line (by simp [hne]) (ih h')
  | line hs hheader _ ih => exact .line hs hheader (ih h')
  | block hs hheader hne hbody _ _ ih =>
    rw [List.cons_append, List.append_assoc]
    exact .block hs hheader hne hbody (ih h')

/-- Blocks one level deeper are blocks there. -/
theorem indent (h : Blocks V depth ls) : Blocks V (depth + 1) (ls.map Line.indent) := by
  induction h with
  | nil => exact .nil
  | mark line hne _ ih => exact .mark line (by simp [hne]) ih
  | line hs hheader _ ih => exact .line hs hheader ih
  | block hs hheader hne _ _ ihbody ih =>
    rw [List.map_cons, List.map_append]
    exact .block hs hheader (by simp [hne]) ihbody ih

/-- Lines of statements that open no block. -/
theorem of_stmts {stmts : List Stmt} (h : ∀ s ∈ stmts, s.Over V ∧ s.isHeader = false) :
    Blocks V depth (stmts.map (Line.mk depth)) := by
  induction stmts with
  | nil => exact .nil
  | cons s stmts ih =>
    obtain ⟨hs, hheader⟩ := h s List.mem_cons_self
    exact .line hs hheader (ih fun t ht => h t (List.mem_cons_of_mem _ ht))

/-- A header and its block. -/
theorem header {s : Stmt} (hs : s.Over V) (hheader : s.isHeader = true) (hne : ls ≠ [])
    (h : Blocks V (depth + 1) ls) : Blocks V depth (⟨depth, s⟩ :: ls) := by
  have hblock := Blocks.block hs hheader hne h .nil
  rwa [List.append_nil] at hblock

/-- The mark of a place, if it has one, before some lines. -/
theorem marked (place : Option Int) (hne : ls ≠ []) (h : Blocks V depth ls) :
    Blocks V depth ((place.map fun l => ⟨depth, .mark l⟩).toList ++ ls) := by
  cases place with
  | none => exact h
  | some line => exact .mark line hne h

/-- Every line is a mark or a statement over the vocabulary. -/
theorem isOver (h : Blocks V depth ls) : ∀ l ∈ Line.statements ls, l.stmt.Over V := by
  induction h with
  | nil => simp
  | mark line _ _ ih => exact ih
  | line hs _ _ ih =>
    rw [Line.statements_cons _ _ hs.isMark]
    exact List.forall_mem_cons.2 ⟨hs, ih⟩
  | block hs _ _ _ _ ihbody ih =>
    rw [Line.statements_cons _ _ hs.isMark, Line.statements_append]
    exact List.forall_mem_cons.2 ⟨hs, List.forall_mem_append.2 ⟨ihbody, ih⟩⟩

/-- **Where there are lines, one is not a mark.** So whether a block is
empty does not depend on its marks. -/
theorem statements_eq_nil (h : Blocks V depth ls) : Line.statements ls = [] ↔ ls = [] := by
  induction h with
  | nil => simp
  | mark line hne _ ih => simp [ih, hne]
  | line hs _ _ _ | block hs _ _ _ _ _ _ => simp [Line.statements_cons _ _ hs.isMark]

end Blocks

end ScriptSplice
