import ScriptSplice.Proofs.Rules.Twin
import ScriptSplice.Proofs.Target.FirstLine
/-!
# The lines of a compiled program are well nested

A program is made of blocks: a header stands before lines one level
deeper, and every block has a line. That holds of what compiling any node
writes (`Compiler.twin_part`); here it is read off the lines one by one. A
line begins with the blanks of its depth and with text that is not blank,
as long as the texts taken over from the tree are not blank either.
-/

namespace ScriptSplice

open Compile

/-- Texts on one line that are not blank. -/
def Vocabulary.oneLine : Vocabulary where
  byte b := b ≠ Byte.newline
  blank := False
  field _ := True
  byte_space := by decide

/-! ## Expressions and statements -/

namespace Vocabulary

variable {t : Text}

theorem newline_not_mem (h : oneLine.Word t) : Byte.newline ∉ t := fun hmem => h _ hmem rfl

theorem Name.begins (h : oneLine.Name t) : t.Begins :=
  .of_not_mem (newline_not_mem h.1) (Bool.eq_false_iff.2 h.2)

end Vocabulary

/-- A fixed word begins whatever follows. -/
theorem begins_word (s : String) (h : isBlank (ascii s).firstLine = false) (t : Text) :
    (ascii s ++ t).Begins := Text.Begins.append h t

section

variable {stem : Text} (hstem : stem.isIdentifier = true)

include hstem

/-- A generated name begins with the stem. -/
theorem begins_stem (t : Text) : (stem ++ t).Begins := (Text.Begins.of_isIdentifier hstem).append t

theorem Expr.Over.begins {e : Expr} (h : e.Over .oneLine) : (e.render stem).Begins := by
  induction h with
  | verbatim h => exact h.begins
  | ref => exact (((begins_stem hstem _).append _).append _).append _
  | slice => exact (((((begins_stem hstem _).append _).append _).append _).append _).append _
  | var => exact (begins_stem hstem _).append _
  | commands => exact (begins_stem hstem _).append _
  | apply | replace => exact ((((begins_stem hstem _).append _).append _).append _).append _
  | bracketed => exact ((begins_word "(" rfl _).append _).append _
  | tuple => exact (begins_word "(" rfl _).append _
  | list => exact (begins_word "[" rfl _).append _
  | dict => exact (begins_word "\x7b" rfl _).append _
  | literal l => exact .literal l
  | format template => exact ((Text.Begins.literal (.str template)).append _ |>.append _).append _
  | binary _ _ _ ih => exact (((ih.append _).append _).append _).append _
  | unary hoperator _ ih =>
    refine ih.prepend ?_
    rw [List.mem_append, not_or]
    exact ⟨Vocabulary.newline_not_mem hoperator, by decide⟩
  | entry _ _ ih => exact (ih.append _).append _
  | lookup _ _ ih | call _ _ ih => exact ((ih.append _).append _).append _

omit hstem in
theorem begins_keyword {t : Text} (h : t.isKeyword = true) : t.Begins := by
  simp only [Text.isKeyword, Bool.and_eq_true, Bool.not_eq_true', List.all_eq_true] at h
  refine .of_not_mem (fun hmem => ?_) h.1
  exact absurd (h.2 _ hmem) (by decide)

omit hstem in
theorem newline_not_mem_names {names : List Text} (h : ∀ t ∈ names, Vocabulary.oneLine.Name t) :
    Byte.newline ∉ Text.commaSeparated names := by
  intro hmem
  refine Text.forall_mem_intercalate (P := (· ≠ Byte.newline)) ?_ (fun t ht => (h t ht).1)
    _ hmem rfl
  rintro b hb rfl
  exact absurd hb (by decide)

theorem Stmt.Over.begins {s : Stmt} (h : s.Over .oneLine) : (s.render stem).Begins := by
  cases h with
  | eval he => exact he.begins hstem
  | bind hname _ => exact (hname.begins.append _).append _
  | output => exact (((begins_stem hstem _).append _).append _).append _
  | append | extend | extendBody =>
    exact ((((begins_stem hstem _).append _).append _).append _).append _
  | pass => exact begins_keyword rfl
  | @control keyword operand hkeyword _ =>
    cases operand with
    | none => exact begins_keyword hkeyword
    | some e => exact ((begins_keyword hkeyword).append _).append _
  | branch hkeyword _ => exact (((begins_keyword hkeyword).append _).append _).append _
  | otherwise => exact begins_word "else:" rfl []
  | loop => exact ((((begins_word "for " rfl _).append _).append _).append _)
  | define => exact ((((begins_word "def " rfl _).append _).append _).append _)
  | default => exact (((begins_word "if " rfl _).append _).append _)
  | scope => exact ((((begins_word "with " rfl _).append _).append _).append _)
  | importNative => exact begins_word "import " rfl _
  | importNativeAs => exact (((begins_word "import " rfl _).append _).append _)
  | fromNative => exact (((begins_word "from " rfl _).append _).append _)
  | @bindModule name target hname =>
    refine ((Text.Begins.prepend (t := name) (begins_word " = " rfl []) ?_).append _).append _
    exact Vocabulary.newline_not_mem hname
  | @bindNames names target hnames =>
    refine (Text.Begins.prepend (t := Text.commaSeparated names)
      (begins_word ", = " rfl []) ?_).append _
    exact newline_not_mem_names hnames

end

/-! ## Depths -/

/-- What may come after a line: behind a header there is a line one level
deeper, and behind any other none that is deeper. -/
def Line.Followed (l : Line) (after : List Line) : Prop :=
  if l.stmt.isHeader then ∃ next ∈ after.head?, next.depth = l.depth + 1
  else ∀ next ∈ after.head?, next.depth ≤ l.depth

/-- **Well-nested lines one by one**: the first line is at the depth, none
is above it, and what comes after each line may come there. -/
structure Line.Nested (depth : Nat) (ls : List Line) : Prop where
  head : ∀ l ∈ ls.head?, l.depth = depth
  floor : ∀ l ∈ ls, depth ≤ l.depth
  followed : ∀ l after, l :: after <:+ ls → l.Followed after

namespace Line.Nested

variable {depth : Nat} {ls ms : List Line}

/-- Lines that are not above what comes behind them. -/
theorem followed_append (h : ∀ l after, l :: after <:+ ls → l.Followed after)
    (h' : ∀ l after, l :: after <:+ ms → l.Followed after)
    (hdepth : ∀ l ∈ ls, ∀ next ∈ ms.head?, next.depth ≤ l.depth) :
    ∀ l after, l :: after <:+ ls ++ ms → l.Followed after := by
  induction ls with
  | nil => exact h'
  | cons k ls ih =>
    have hrest := ih (fun l after hl => h l after (hl.trans (List.suffix_cons k ls)))
      fun l hl => hdepth l (List.mem_cons_of_mem _ hl)
    intro l after hl
    rcases List.suffix_cons_iff.1 hl with heq | hl
    · obtain ⟨rfl, rfl⟩ := List.cons.inj heq
      have hl := h l ls (List.suffix_refl _)
      cases ls with
      | cons next ls => exact hl
      | nil =>
        -- a header has a line behind it among its own
        unfold Followed at hl ⊢
        by_cases hheader : l.stmt.isHeader
        · rw [if_pos hheader] at hl
          obtain ⟨next, hnext, -⟩ := hl
          cases hnext
        · rw [if_neg hheader]
          exact hdepth l List.mem_cons_self
    · exact hrest l after hl

end Line.Nested

/-- **Blocks are well nested.** -/
theorem Blocks.nested {V : Vocabulary} {depth : Nat} {ls : List Line} (h : Blocks V depth ls) :
    Line.Nested depth (Line.statements ls) := by
  induction h with
  | nil => exact ⟨by simp, by simp, by simp⟩
  | mark line _ _ ih => exact ih
  | @line depth s rest hs hheader _ ih =>
    rw [Line.statements_cons _ _ hs.isMark]
    refine ⟨by simp, List.forall_mem_cons.2 ⟨Nat.le_refl _, ih.floor⟩, fun l after hl => ?_⟩
    rcases List.suffix_cons_iff.1 hl with heq | hl
    · obtain ⟨rfl, rfl⟩ := List.cons.inj heq
      rw [Line.Followed, if_neg (by simp [hheader])]
      exact fun next hnext => (ih.head next hnext).le
    · exact ih.followed l after hl
  | @block depth s body rest hs hheader hne hbody _ ihbody ih =>
    rw [Line.statements_cons _ _ hs.isMark, Line.statements_append]
    have hbodyNe : Line.statements body ≠ [] := mt hbody.statements_eq_nil.1 hne
    refine ⟨by simp, ?_, fun l after hl => ?_⟩
    · refine List.forall_mem_cons.2
        ⟨Nat.le_refl _, List.forall_mem_append.2 ⟨fun l hl => ?_, ih.floor⟩⟩
      have hfloor := ihbody.floor l hl
      omega
    · rcases List.suffix_cons_iff.1 hl with heq | hl
      · obtain ⟨rfl, rfl⟩ := List.cons.inj heq
        obtain ⟨next, rest', hbodyEq⟩ := List.exists_cons_of_ne_nil hbodyNe
        rw [Line.Followed, if_pos hheader, hbodyEq]
        refine ⟨next, rfl, ihbody.head next ?_⟩
        rw [hbodyEq]
        rfl
      · refine Line.Nested.followed_append ihbody.followed ih.followed ?_ l after hl
        intro k hk next hnext
        have hfloor := ihbody.floor k hk
        have hhead := ih.head next hnext
        omega

/-! ## Programs -/

namespace Compiler

variable (o : Options) (parsers : Parsers)

/-- A tree without a program leaves no lines. -/
theorem lines_of_static {root : Node} {draft : Draft}
    (h : exec ((builtin o parsers).compileRoot root) .empty = (.ok none, draft)) :
    draft.lines = [] := by
  rw [exec_compileRoot] at h
  rcases hpart : exec ((builtin o parsers).part root).run .empty with
    ⟨_ | _ | _ | ⟨e, _ | _⟩, d⟩ <;> simp [hpart] at h
  have hstatic := (gives_part o parsers root _ _ _ hpart).eq_none_iff.1 rfl
  obtain ⟨events, hsilent⟩ := silent_part o parsers hstatic .empty
  rw [hpart, Prod.mk.injEq] at hsilent
  rw [← h, hsilent.2]
  rfl

/-- **The lines of a program are well nested**, and no block is empty. Let
the names and operators of a tree fit on one line and not be blank. Then
of the lines that it is compiled to, leaving out the marks, each is the
blanks of its depth and text that is not blank; the first one is at depth
zero; behind a header comes a line one level deeper, and behind any other
none that is deeper; and the last one binds the variable of the program,
at depth zero. Without a program there are no lines. -/
theorem well_nested (hstem : o.stem.isIdentifier = true) {root : Node}
    (hverbatims : ∀ m ∈ root.subtree, ∀ t ∈ m.verbatims, Byte.newline ∉ t ∧ isBlank t = false)
    {outcome : Option Nat} {draft : Draft}
    (hrun : (builtin o parsers).run root = (.ok outcome, draft)) :
    let lines := Line.statements draft.lines
    (∀ l ∈ lines, ∃ t : Text, t.Begins ∧
      l.render o.stem o.indent = Line.indentation o.indent l.depth ++ t) ∧
    (∀ l ∈ lines.head?, l.depth = 0) ∧
    (∀ before l after, lines = before ++ l :: after →
      if l.stmt.isHeader then ∃ next ∈ after.head?, next.depth = l.depth + 1
      else ∀ next ∈ after.head?, next.depth ≤ l.depth) ∧
    match outcome with
    | none => draft.lines = []
    | some n => ∃ before e, draft.lines = before ++ [⟨0, .output n e⟩] := by
  have hwithin : root.Within .oneLine := fun m hm =>
    { verbatims := fun t ht => ⟨fun b hb heq => (hverbatims m hm t ht).1 (heq ▸ hb),
        fun hblank => by simp [(hverbatims m hm t ht).2] at hblank⟩
      fields := fun _ _ => trivial }
  have htwin := twin_compileRoot o parsers hwithin
  have hexec : exec ((builtin o parsers).compileRoot root) .empty = (.ok outcome, draft) := hrun
  rw [hexec] at htwin
  generalize hy : exec ((builtin o parsers).compileRoot root.unlocated) .empty = y at htwin
  cases htwin with
  | @ok _ _ new _ _ hlines hblocks _ _ hQ =>
    have hnew : draft.lines = new := hlines
    rw [← hnew] at hblocks hQ
    have hnested := hblocks.nested
    refine ⟨fun l hl => ⟨l.stmt.render o.stem, (hblocks.isOver l hl).begins hstem, rfl⟩,
      hnested.head, fun before l after hsplit => ?_, ?_⟩
    · exact hnested.followed l after ⟨before, hsplit.symm⟩
    · cases outcome with
      | none => exact lines_of_static o parsers hexec
      | some n => exact hQ.2 n rfl

/-- A branch with a body of one command, read with its places. -/
theorem well_nested_branch :
    let condition : Node := ⟨.identifier, [⟨ascii "value", .leaf (.str (ascii "x"))⟩], ⟨1, 4⟩⟩
    let command (identifier : String) (arguments : List (Option Node)) (line : Int) : Node :=
      ⟨.command, [⟨ascii "identifier", .leaf (.str (ascii identifier))⟩,
        ⟨ascii "arguments", .children arguments⟩], ⟨line, 1⟩⟩
    let body : Node := ⟨.root, [⟨ascii "commands", .children [some (command "pass" [] 2)]⟩], ⟨2, 1⟩⟩
    let root : Node := ⟨.root,
      [⟨ascii "commands", .children [some (command "if:condition:body" [condition, body] 1)]⟩],
      ⟨1, 1⟩⟩
    let result := (builtin .standard []).run root
    result.1 = .ok (some 1) ∧ result.2.lines.length = 6 ∧
      (∀ l ∈ Line.statements result.2.lines, ∃ t : Text, t.Begins ∧
        l.render (ascii "_bolt") 4 = Line.indentation 4 l.depth ++ t) ∧
      (∀ before l after, Line.statements result.2.lines = before ++ l :: after →
        if l.stmt.isHeader then ∃ next ∈ after.head?, next.depth = l.depth + 1
        else ∀ next ∈ after.head?, next.depth ≤ l.depth) ∧
      ∃ before e, result.2.lines = before ++ [⟨0, .output 1 e⟩] := by
  intro condition command body root result
  have hok : result.1 = .ok (some 1) := by decide +kernel
  have hlength : result.2.lines.length = 6 := by decide +kernel
  have hrun : result = (.ok (some 1), result.2) := by rw [← hok]
  have hverbatims : ∀ m ∈ root.subtree, ∀ t ∈ m.verbatims,
      Byte.newline ∉ t ∧ isBlank t = false := by decide +kernel
  have hnested := well_nested .standard [] rfl hverbatims hrun
  exact ⟨hok, hlength, hnested.1, hnested.2.2.1, hnested.2.2.2⟩

end Compiler

end ScriptSplice
