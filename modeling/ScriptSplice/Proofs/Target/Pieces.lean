import ScriptSplice.Proofs.Target.Literals
import ScriptSplice.Proofs.Target.Naming
import ScriptSplice.Proofs.Target.Vocabulary
/-!
# What programs are put together from

The text of an expression or a statement is put together from names,
literals, texts of the tree and fixed words, one after the other and in
brackets. A relation between texts that allows all of this (`Text.Pieces`)
holds between what a program over a vocabulary is written as and what the
same program without its marks is written as.
-/

namespace ScriptSplice

/-- Bytes that do nothing to what stands around them: not line breaks,
quotes, backslashes, brackets or what begins a mark. -/
def Byte.isPlain (b : UInt8) : Bool := !(ascii "\n'\"\\()[]\x7b\x7d#").contains b

namespace Text

/-- **Ways of putting texts together** that a relation allows. -/
structure Pieces (V : Vocabulary) (P : Text → Text → Prop) : Prop where
  plain {t : Text} : t.all Byte.isPlain = true → P t t
  word {t : Text} : V.Word t → P t t
  field {t : Text} : V.field t → P t t
  literal (l : Leaf) : P l.literal l.literal
  append {t q u r : Text} : P t q → P u r → P (t ++ u) (q ++ r)
  /-- A mark stands behind an opening parenthesis and nowhere else. -/
  parentheses {t q : Text} (line : Option Int) : P t q →
    P (ascii "(" ++ lineMark line ++ t ++ ascii ")") (ascii "(" ++ q ++ ascii ")")
  brackets {t q : Text} : P t q → P (ascii "[" ++ t ++ ascii "]") (ascii "[" ++ q ++ ascii "]")
  braces {t q : Text} : P t q →
    P (ascii "\x7b" ++ t ++ ascii "\x7d") (ascii "\x7b" ++ q ++ ascii "\x7d")

end Text

/-! ## Plain texts -/

theorem Byte.isPlain_of_isWord {b : UInt8} (h : isWord b = true) : isPlain b = true := by
  have hall : ∀ b, isWord b = true → isPlain b = true := forall_of_ofNat (by decide +kernel)
  exact hall b h

theorem Byte.isPlain_of_isAtom {b : UInt8} (h : isAtom b = true) : isPlain b = true := by
  have hall : ∀ b, isAtom b = true → isPlain b = true := forall_of_ofNat (by decide +kernel)
  exact hall b h

theorem Byte.isPlain_of_isAlpha {b : UInt8} (h : (isAlpha b || b == 0x20) = true) :
    isPlain b = true := by
  have hall : ∀ b, (isAlpha b || b == 0x20) = true → isPlain b = true :=
    forall_of_ofNat (by decide +kernel)
  exact hall b h

theorem Text.isPlain_of_isName {x : Text} (h : x.isName = true) : x.all Byte.isPlain = true :=
  List.all_eq_true.2 fun b hb =>
    Byte.isPlain_of_isWord (List.all_eq_true.1 (all_isWord_of_isName h) b hb)

theorem Text.IsAtom.isPlain {t : Text} (h : IsAtom t) : t.all Byte.isPlain = true :=
  List.all_eq_true.2 fun b hb => Byte.isPlain_of_isAtom (List.all_eq_true.1 h.all b hb)

theorem Text.isPlain_of_isKeyword {t : Text} (h : t.isKeyword = true) :
    t.all Byte.isPlain = true := by
  rw [isKeyword, Bool.and_eq_true, List.all_eq_true] at h
  exact List.all_eq_true.2 fun b hb => Byte.isPlain_of_isAlpha (h.2 b hb)

namespace Text.Pieces

variable {V : Vocabulary} {P : Text → Text → Prop} (hP : Pieces V P) {t q u r : Text}

include hP

/-- A fixed word. -/
theorem fixed (s : String) (h : (ascii s).all Byte.isPlain = true) : P (ascii s) (ascii s) :=
  hP.plain h

theorem name {x : Text} (h : x.isName = true) : P x x := hP.plain (isPlain_of_isName h)

theorem ofNat (n : Nat) : P (Text.ofNat n) (Text.ofNat n) := hP.plain (isAtom_ofNat n).isPlain

/-- Something behind a name or an expression, in parentheses. -/
theorem call (h : P t q) (h' : P u r) :
    P (t ++ ascii "(" ++ u ++ ascii ")") (q ++ ascii "(" ++ r ++ ascii ")") := by
  have hcall := hP.append h (hP.parentheses none h')
  simpa only [lineMark, List.append_nil, List.append_assoc] using hcall

/-- The same in brackets. -/
theorem item (h : P t q) (h' : P u r) :
    P (t ++ ascii "[" ++ u ++ ascii "]") (q ++ ascii "[" ++ r ++ ascii "]") := by
  have hitem := hP.append h (hP.brackets h')
  simpa only [List.append_assoc] using hitem

/-- A call of a method. -/
theorem method (s : String) (hs : (ascii s).all Byte.isPlain = true) (h : P t q) (h' : P u r) :
    P (t ++ (ascii s ++ ascii "(") ++ u ++ ascii ")")
      (q ++ (ascii s ++ ascii "(") ++ r ++ ascii ")") := by
  have hcall := hP.call (hP.append h (hP.fixed s hs)) h'
  simpa only [List.append_assoc] using hcall

/-- Items between commas. -/
theorem commaSeparated {ι : Type} {f g : ι → Text} {l : List ι} (h : ∀ i ∈ l, P (f i) (g i)) :
    P (Text.commaSeparated (l.map f)) (Text.commaSeparated (l.map g)) := by
  induction l with
  | nil => exact hP.plain (t := []) rfl
  | cons i l ih =>
    have hi := h i List.mem_cons_self
    have hrest := ih fun j hj => h j (List.mem_cons_of_mem _ hj)
    cases l with
    | nil => simpa [Text.commaSeparated, List.intercalate_singleton] using hi
    | cons j l =>
      have hcomma := hP.append (hP.append hi (hP.fixed ", " rfl)) hrest
      simpa only [Text.commaSeparated, List.map_cons, List.intercalate_cons_cons] using hcomma

/-- Texts behind one another. -/
theorem flatMap {ι : Type} {f g : ι → Text} {l : List ι} (h : ∀ i ∈ l, P (f i) (g i)) :
    P (l.flatMap f) (l.flatMap g) := by
  induction l with
  | nil => exact hP.plain (t := []) rfl
  | cons i l ih =>
    rw [List.flatMap_cons, List.flatMap_cons]
    exact hP.append (h i List.mem_cons_self) (ih fun j hj => h j (List.mem_cons_of_mem _ hj))

theorem names {names : List Text} (h : ∀ t ∈ names, V.Name t) :
    P (Text.commaSeparated names) (Text.commaSeparated names) := by
  have hnames : P (Text.commaSeparated (names.map id)) (Text.commaSeparated (names.map id)) :=
    hP.commaSeparated fun t ht => hP.word (h t ht).1
  simpa using hnames

end Text.Pieces

section

variable {V : Vocabulary} {P : Text → Text → Prop} (hP : Text.Pieces V P) {stem : Text}
  (hstem : stem.isName = true)

include hP hstem

/-! ## Expressions -/

/-- **Expressions are put together.** -/
theorem Expr.Over.pieces {e : Expr} (h : e.Over V) :
    P (e.render stem) (e.unmarked.render stem) := by
  have hrefs := hP.name (isName_refsName hstem)
  have hhelper (helper : Helper) := hP.name (isName_localName hstem helper)
  induction h with
  | verbatim h => exact hP.word h.1
  | ref i => exact hP.item hrefs (hP.ofNat i)
  | slice start stop =>
    have hbounds := hP.append (hP.append (hP.ofNat start) (hP.fixed ":" rfl)) (hP.ofNat stop)
    have hslice := hP.item hrefs hbounds
    simpa only [render, unmarked, List.append_assoc] using hslice
  | var n => exact hP.name (isName_variableName hstem n)
  | commands => exact hP.append (hP.name (isName_runtimeName hstem)) (hP.fixed ".commands" rfl)
  | apply helper _ ih =>
    simp only [render, unmarked, renderAll_eq, unmarkedAll_eq, List.map_map]
    exact hP.call (hhelper helper) (hP.commaSeparated ih)
  | @replace base fields _ hfields _ ihbase ihfields =>
    have hargs : ∀ e ∈ base :: fields.map fun f => Expr.keyword f.1 f.2,
        P (e.render stem) (e.unmarked.render stem) := by
      refine List.forall_mem_cons.2 ⟨ihbase, fun e he => ?_⟩
      obtain ⟨f, hf, rfl⟩ := List.mem_map.1 he
      exact hP.append (hP.append (hP.field (hfields f hf)) (hP.fixed "=" rfl)) (ihfields f hf)
    simp only [render, unmarked, renderAll_eq, unmarkedAll_eq, List.map_map (l := base :: _)]
    exact hP.call (hhelper .replace) (hP.commaSeparated hargs)
  | bracketed line _ ih =>
    simp only [render, unmarked, lineMark, List.append_nil]
    exact hP.parentheses line ih
  | literal l => exact hP.literal l
  | binary _ hoperator _ ihleft ihright =>
    exact hP.append (hP.append (hP.append (hP.append ihleft (hP.fixed " " rfl))
      (hP.word hoperator)) (hP.fixed " " rfl)) ihright
  | unary hoperator _ ih =>
    exact hP.append (hP.append (hP.word hoperator) (hP.fixed " " rfl)) ih
  | format template _ ih =>
    simp only [render, unmarked, renderAll_eq, unmarkedAll_eq, List.map_map]
    exact hP.method ".format" rfl (hP.literal (.str template)) (hP.commaSeparated ih)
  | tuple _ ih =>
    simp only [render, unmarked, renderAll_eq, unmarkedAll_eq, List.map_map, List.flatMap_map]
    exact hP.parentheses none (hP.flatMap fun e he => hP.append (ih e he) (hP.fixed "," rfl))
  | list _ ih =>
    simp only [render, unmarked, renderAll_eq, unmarkedAll_eq, List.map_map]
    exact hP.brackets (hP.commaSeparated ih)
  | dict _ ih =>
    simp only [render, unmarked, renderAll_eq, unmarkedAll_eq, List.map_map]
    exact hP.braces (hP.commaSeparated ih)
  | entry _ _ ihkey ihvalue => exact hP.append (hP.append ihkey (hP.fixed ": " rfl)) ihvalue
  | lookup _ _ ihbase ih =>
    simp only [render, unmarked, renderAll_eq, unmarkedAll_eq, List.map_map]
    exact hP.item ihbase (hP.commaSeparated ih)
  | call _ _ ihbase ih =>
    simp only [render, unmarked, renderAll_eq, unmarkedAll_eq, List.map_map]
    exact hP.call ihbase (hP.commaSeparated ih)

/-! ## Statements -/

/-- **Statements are put together.** -/
theorem Stmt.Over.pieces {s : Stmt} (h : s.Over V) :
    P (s.render stem) (s.unmarked.render stem) := by
  have hruntime := hP.name (isName_runtimeName hstem)
  have hcommands : P (commandsName stem) (commandsName stem) :=
    hP.append hruntime (hP.fixed ".commands" rfl)
  have hmissing : P (Expr.render stem .missing) (Expr.render stem .missing) :=
    hP.name (isName_localName hstem .missing)
  have hexpr {e : Expr} (he : e.Over V) := he.pieces hP hstem
  cases h with
  | eval he => exact hexpr he
  | bind hname he =>
    exact hP.append (hP.append (hP.word hname.1) (hP.fixed " = " rfl)) (hexpr he)
  | output n he =>
    exact hP.append (hP.append (hP.name (isName_variableName hstem n)) (hP.fixed " = " rfl))
      (hexpr he)
  | append he => exact hP.method ".append" rfl hcommands (hexpr he)
  | extend he => exact hP.method ".extend" rfl hcommands (hexpr he)
  | extendBody he =>
    have hbody := hP.method ".extend" rfl hcommands
      (hP.append (hexpr he) (hP.fixed ".commands" rfl))
    simp only [List.append_assoc] at hbody
    simp only [render, unmarked, List.append_assoc]
    exact hbody
  | pass => exact hP.fixed "pass" rfl
  | @control keyword operand hkeyword hoperand =>
    have hword := hP.plain (Text.isPlain_of_isKeyword hkeyword)
    cases operand with
    | none => exact hword
    | some e => exact hP.append (hP.append hword (hP.fixed " " rfl)) (hexpr (hoperand e rfl))
  | branch hkeyword he =>
    exact hP.append (hP.append (hP.append (hP.plain (Text.isPlain_of_isKeyword hkeyword))
      (hP.fixed " " rfl)) (hexpr he)) (hP.fixed ":" rfl)
  | otherwise => exact hP.fixed "else:" rfl
  | loop htarget hiterable =>
    exact hP.append (hP.append (hP.append (hP.append (hP.fixed "for " rfl) (hexpr htarget))
      (hP.fixed " in " rfl)) (hexpr hiterable)) (hP.fixed ":" rfl)
  | @define name parameters hname hparameters =>
    have hdeclared : ∀ p ∈ parameters, P (Stmt.parameter stem p) (Stmt.parameter stem p) := by
      rintro ⟨x, optional⟩ hp
      have hx := hP.word (hparameters _ hp).1
      cases optional with
      | true => exact hP.append (hP.append hx (hP.fixed "=" rfl)) hmissing
      | false => exact hx
    have hhead := hP.call (hP.append (hP.fixed "def " rfl) (hP.word hname.1))
      (hP.commaSeparated hdeclared)
    have hdefine := hP.append hhead (hP.fixed ":" rfl)
    rw [List.append_assoc _ (ascii ")")] at hdefine
    exact hdefine
  | default hname =>
    exact hP.append (hP.append (hP.append (hP.append (hP.fixed "if " rfl) (hP.word hname.1))
      (hP.fixed " is " rfl)) hmissing) (hP.fixed ":" rfl)
  | scope n =>
    have hcall := hP.method ".scope" rfl (hP.append (hP.fixed "with " rfl) hruntime)
      (hP.fixed "" rfl)
    have hscope := hP.append (hP.append (hP.append hcall (hP.fixed " as " rfl))
      (hP.name (isName_variableName hstem n))) (hP.fixed ":" rfl)
    simp only [List.append_assoc] at hscope
    simp only [render, unmarked, List.append_assoc]
    exact hscope
  | importNative hpath => exact hP.append (hP.fixed "import " rfl) (hP.word hpath.1)
  | importNativeAs hpath hname =>
    exact hP.append (hP.append (hP.append (hP.fixed "import " rfl) (hP.word hpath.1))
      (hP.fixed " as " rfl)) (hP.word hname.1)
  | fromNative hpath hnames =>
    exact hP.append (hP.append (hP.append (hP.fixed "from " rfl) (hP.word hpath.1))
      (hP.fixed " import " rfl)) (hP.names hnames)
  | bindModule target hname =>
    have hcall : (Expr.apply .importModule [.literal (.str target)]).Over V :=
      .apply _ (List.forall_mem_singleton.2 (.literal _))
    exact hP.append (hP.append (hP.append (hP.word hname) (hP.fixed " = " rfl)) (hexpr hcall))
      (hP.fixed ".namespace" rfl)
  | @bindNames names target hnames =>
    have hcall : (Expr.apply .fromModuleImport
        (.literal (.str target) :: names.map fun name => .literal (.str name))).Over V := by
      refine .apply _ (List.forall_mem_cons.2 ⟨.literal _, fun e he => ?_⟩)
      obtain ⟨t, -, rfl⟩ := List.mem_map.1 he
      exact .literal _
    have hunmarked : (Expr.apply .fromModuleImport
        (.literal (.str target) :: names.map fun name => .literal (.str name))).unmarked =
        .apply .fromModuleImport
          (.literal (.str target) :: names.map fun name => .literal (.str name)) := by
      simp [Expr.unmarked, Expr.unmarkedAll_eq, Function.comp_def]
    have hlast := hexpr hcall
    rw [hunmarked] at hlast
    exact hP.append (hP.append (hP.names hnames) (hP.fixed ", = " rfl)) hlast

end

end ScriptSplice
