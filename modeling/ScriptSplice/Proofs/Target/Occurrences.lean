import Mathlib.Data.List.Basic
import ScriptSplice.Proofs.Target.Atoms
import ScriptSplice.Proofs.Target.Literals
import ScriptSplice.Proofs.Target.Vocabulary
/-!
# Where a text refers to nodes

The name of the table with a bracket behind it is followed by an index or
a slice. A text is sound (`Text.Sound`) if each of these is within the
table, wherever it occurs, except in string literals. The texts that a
program is put together from are separated by bytes that are no part of
names, so no name of the table comes about between two of them, and a
program is sound if its atoms are (`Stmt.Over.sound`).
-/

namespace ScriptSplice

/-- What a reference to nodes begins with. -/
def refsOpen (stem : Text) : Text := refsName stem ++ ascii "["

namespace Text

/-- Where a text within two others put together is: in the first, in the
second, or partly in both. -/
theorem append_eq_infix {a b u m v : Text} (h : a ++ b = u ++ m ++ v) :
    (∃ w, a = u ++ m ++ w ∧ v = w ++ b) ∨ (∃ w, u = a ++ w ∧ b = w ++ m ++ v) ∨
      ∃ x y, x ≠ [] ∧ y ≠ [] ∧ m = x ++ y ∧ x <:+ a ∧ y <+: b := by
  rw [List.append_assoc] at h
  rcases List.append_eq_append_iff.1 h with ⟨w, hu, hb⟩ | ⟨x, rfl, hx⟩
  · exact .inr (.inl ⟨w, hu, by rw [hb, List.append_assoc]⟩)
  rcases List.append_eq_append_iff.1 hx with ⟨w, rfl, hv⟩ | ⟨y, rfl, rfl⟩
  · exact .inl ⟨w, (List.append_assoc ..).symm, hv⟩
  by_cases hxn : x = []
  · exact .inr (.inl ⟨[], by simp [hxn], by simp [hxn]⟩)
  by_cases hyn : y = []
  · exact .inl ⟨[], by simp [hyn], by simp [hyn]⟩
  exact .inr (.inr ⟨x, y, hxn, hyn, rfl, List.suffix_append .., List.prefix_append ..⟩)

/-- A text is on one side of a byte that it does not have. -/
theorem infix_append_cons {a b m : Text} {c : UInt8} (hc : c ∉ m) (h : m <:+: a ++ c :: b) :
    m <:+: a ∨ m <:+: b := by
  obtain ⟨u, v, h⟩ := h
  rcases append_eq_infix h.symm with ⟨w, rfl, -⟩ | ⟨w, -, hw⟩ | ⟨x, y, -, hy, rfl, -, z, hz⟩
  · exact .inl ⟨u, w, rfl⟩
  · cases w with
    | cons d w => exact .inr ⟨w, v, (List.cons.inj hw).2.symm⟩
    | nil =>
      cases m with
      | nil => exact .inl List.nil_infix
      | cons d m => exact absurd ((List.cons.inj hw).1 ▸ List.mem_cons_self) hc
  · cases y with
    | nil => exact absurd rfl hy
    | cons d y => exact absurd (by simp [(List.cons.inj hz).1]) hc

/-- An index or a slice within a table of some length. -/
def Refers (n : Nat) (v : Text) : Prop :=
  (∃ i w, v = ofNat i ++ ascii "]" ++ w ∧ i < n) ∨
    ∃ i j w, v = ofNat i ++ ascii ":" ++ ofNat j ++ ascii "]" ++ w ∧ i < j ∧ j ≤ n

theorem Refers.append {n : Nat} {v : Text} (h : v.Refers n) (b : Text) : (v ++ b).Refers n := by
  rcases h with ⟨i, w, rfl, hi⟩ | ⟨i, j, w, rfl, hij, hj⟩
  · exact .inl ⟨i, w ++ b, by simp, hi⟩
  · exact .inr ⟨i, j, w ++ b, by simp, hij, hj⟩

/-- What stands between two texts is in the literal of a text of `Q`. -/
def InLiteral (Q : Text → Prop) (u m v : Text) : Prop :=
  ∃ q p x y s, Q q ∧ literal q = x ++ m ++ y ∧ u = p ++ x ∧ v = y ++ s

theorem InLiteral.append {Q : Text → Prop} {u m v : Text} (h : InLiteral Q u m v) (a b : Text) :
    InLiteral Q (a ++ u) m (v ++ b) := by
  obtain ⟨q, p, x, y, s, hq, hliteral, rfl, rfl⟩ := h
  exact ⟨q, a ++ p, x, y, s ++ b, hq, hliteral, by simp, by simp⟩

/-- **Sound texts.** Behind the name of the table there is an index or a
slice within it, except in literals of texts of `Q`. -/
def Sound (stem : Text) (n : Nat) (Q : Text → Prop) (t : Text) : Prop :=
  ∀ u v, t = u ++ refsOpen stem ++ v → v.Refers n ∨ InLiteral Q u (refsOpen stem) v

section

variable {stem : Text} {n : Nat} {Q : Text → Prop} {a b t : Text}

theorem Sound.of_not_within (h : ¬ refsOpen stem <:+: t) : Sound stem n Q t :=
  fun u v ht => absurd ⟨u, v, ht.symm⟩ h

/-- Without a bracket nothing is referred to. -/
theorem Sound.of_bracket_not_mem (h : 0x5b ∉ t) : Sound stem n Q t :=
  .of_not_within fun hinside => h (hinside.subset (by simp [refsOpen, ascii]))

/-- And without an underscore, neither. -/
theorem Sound.of_underscore_not_mem (h : Byte.underscore ∉ t) : Sound stem n Q t :=
  .of_not_within fun hinside =>
    h (hinside.subset (by simp [refsOpen, refsName, ascii, Byte.underscore]))

theorem Sound.nil : Sound stem n Q [] := .of_underscore_not_mem List.not_mem_nil

theorem Sound.word (h : ¬ refsName stem <:+: t) : Sound stem n Q t :=
  .of_not_within fun hinside => h ((List.prefix_append _ _).isInfix.trans hinside)

/-- A reference, if it is within the table. -/
theorem Sound.refsOpen_append {v : Text} (hv : v.Refers n) (hbracket : 0x5b ∉ v)
    (hrefs : 0x5b ∉ refsName stem) : Sound stem n Q (refsOpen stem ++ v) := by
  intro u w h
  simp only [refsOpen, List.append_assoc] at h
  rw [← List.append_assoc u] at h
  obtain ⟨-, -, rfl⟩ := (List.append_cons_inj_of_notMem hrefs hbracket).1 h
  exact .inl hv

theorem Sound.literal (h : Q t) : Sound stem n Q t.literal :=
  fun u v ht => .inr ⟨t, [], u, v, [], h, ht, rfl, by simp⟩

/-- **Sound texts put together**, where no name of the table comes about
between them. -/
theorem Sound.append_of (ha : Sound stem n Q a) (hb : Sound stem n Q b)
    (hspan : ∀ x y, x ≠ [] → y ≠ [] → refsOpen stem = x ++ y → x <:+ a → ¬ y <+: b) :
    Sound stem n Q (a ++ b) := by
  intro u v h
  rcases append_eq_infix h with ⟨w, hw, rfl⟩ | ⟨w, rfl, hw⟩ | ⟨x, y, hx, hy, hm, hxa, hyb⟩
  · have hlater := ha u w hw
    refine hlater.imp (·.append b) fun h => ?_
    simpa using h.append [] b
  · have hearlier := hb w v hw
    refine hearlier.imp_right fun h => ?_
    simpa using h.append a []
  · exact absurd hyb (hspan x y hx hy hm hxa)

variable (hname : stem.isName = true)

include hname

theorem isWord_refsName : ∀ c ∈ refsName stem, Byte.isWord c = true :=
  List.all_eq_true.1 (all_isWord_of_isName (isName_refsName hname))

/-- The bytes of what a reference begins with. -/
theorem isWord_of_mem_refsOpen {c : UInt8} (h : c ∈ refsOpen stem) :
    Byte.isWord c = true ∨ c = 0x5b := by
  rcases List.mem_append.1 h with h | h
  · exact .inl (isWord_refsName hname c h)
  · exact .inr (List.mem_singleton.1 h)

/-- The bracket stands only at its end. -/
theorem refsOpen_split {x y : Text} (hy : y ≠ []) (h : refsOpen stem = x ++ y) :
    (∀ c ∈ x, Byte.isWord c = true) ∧ (y.head? = some 0x5b → x = refsName stem) := by
  rw [refsOpen, List.append_eq_append_iff] at h
  rcases h with ⟨z, hx, hz⟩ | ⟨z, hname', rfl⟩
  · -- then the end is all of it
    obtain rfl : z = [] := by
      cases z with
      | nil => rfl
      | cons c z =>
        have hlength := congrArg List.length hz
        cases y with
        | nil => exact absurd rfl hy
        | cons d y => simp [ascii] at hlength
    rw [List.append_nil] at hx
    exact ⟨hx ▸ isWord_refsName hname, fun _ => hx⟩
  · refine ⟨fun c hc => isWord_refsName hname c (hname' ▸ List.mem_append_left _ hc),
      fun hhead => ?_⟩
    cases z with
    | nil => rw [hname', List.append_nil]
    | cons c z =>
      have hc : Byte.isWord c = true := isWord_refsName hname c (by simp [hname'])
      rw [List.cons_append, List.head?_cons, Option.some.injEq] at hhead
      rw [hhead] at hc
      exact absurd hc (by decide)

/-- Text that does not end in a name. -/
def endsApart (s : Text) : Bool :=
  s.getLast?.all (!Byte.isWord ·)

/-- Text that begins neither with a name nor with a bracket. -/
def beginsApart (s : Text) : Bool :=
  s.head?.all fun c => !Byte.isWord c && c != 0x5b

theorem Sound.append (ha : Sound stem n Q a) (hb : Sound stem n Q b)
    (hlast : a.endsApart = true) : Sound stem n Q (a ++ b) := by
  refine ha.append_of hb fun x y hx hy h hxa _ => ?_
  obtain ⟨z, c, rfl⟩ := (List.eq_nil_or_concat x).resolve_left hx
  have hc := (refsOpen_split hname hy h).1 c (by simp)
  obtain ⟨w, rfl⟩ := hxa
  have hapart := (Option.all_eq_true _ _).1 hlast c (by simp)
  rw [hc] at hapart
  cases hapart

theorem Sound.append_separate (ha : Sound stem n Q a) (hb : Sound stem n Q b)
    (hhead : b.beginsApart = true) : Sound stem n Q (a ++ b) := by
  refine ha.append_of hb fun x y hx hy h _ hyb => ?_
  cases y with
  | nil => exact hy rfl
  | cons c y =>
    have hc : c ∈ refsOpen stem := by simp [h]
    obtain ⟨w, rfl⟩ := hyb
    obtain ⟨hword, hbracket⟩ : Byte.isWord c = false ∧ c ≠ 0x5b := by
      simpa using (Option.all_eq_true _ _).1 hhead c rfl
    rcases isWord_of_mem_refsOpen hname hc with h | h
    · rw [h] at hword
      cases hword
    · exact hbracket h

/-- **Something looked up** in what is not the table. -/
theorem Sound.append_bracket (ha : Sound stem n Q a) (hb : Sound stem n Q b)
    (hsuffix : ¬ refsName stem <:+ a) : Sound stem n Q (a ++ (ascii "[" ++ b)) := by
  have hbracket : Sound stem n Q (ascii "[" ++ b) :=
    Sound.append hname (.of_underscore_not_mem (by decide)) hb rfl
  refine ha.append_of hbracket fun x y hx hy h hxa hyb => ?_
  cases y with
  | nil => exact hy rfl
  | cons c y =>
    obtain rfl : c = 0x5b := by
      obtain ⟨w, hw⟩ := hyb
      exact (List.cons.inj hw).1
    exact hsuffix ((refsOpen_split hname hy h).2 rfl ▸ hxa)

/-- Text that keeps what is behind it apart. -/
def leads (s : Text) : Bool :=
  s.endsApart && !s.contains Byte.underscore

/-- Text that keeps what is before it and what is behind it apart. -/
def separates (s : Text) : Bool :=
  s.head?.any (fun c => !Byte.isWord c && c != 0x5b) && s.leads

theorem Sound.behind (s : String) (hs : (ascii s).leads = true) (hb : Sound stem n Q b) :
    Sound stem n Q (ascii s ++ b) := by
  simp only [leads, Bool.and_eq_true, Bool.not_eq_true', List.contains_eq_mem,
    decide_eq_false_iff_not] at hs
  exact Sound.append hname (.of_underscore_not_mem hs.2) hb hs.1

theorem Sound.between (s : String) (hs : separates (ascii s) = true) (ha : Sound stem n Q a)
    (hb : Sound stem n Q b) : Sound stem n Q (a ++ (ascii s ++ b)) := by
  rw [separates, Bool.and_eq_true] at hs
  refine ha.append_separate hname (.behind hname s hs.2 hb) ?_
  obtain ⟨c, hc, hapart⟩ := (Option.any_eq_true _ _).1 hs.1
  rwa [beginsApart, List.head?_append, hc]

theorem Sound.before (s : String) (hs : separates (ascii s) = true) (ha : Sound stem n Q a) :
    Sound stem n Q (a ++ ascii s) := by
  have hbetween := ha.between hname s hs .nil
  rwa [List.append_nil] at hbetween

/-- Texts in a row, each with a separator behind it. -/
theorem Sound.flatMap (s : String) (hs : separates (ascii s) = true) {ts : List Text}
    (h : ∀ t ∈ ts, Sound stem n Q t) : Sound stem n Q (ts.flatMap (· ++ ascii s)) := by
  induction ts with
  | nil => exact .nil
  | cons t ts ih =>
    rw [List.forall_mem_cons] at h
    rw [List.flatMap_cons, List.append_assoc]
    exact h.1.between hname s hs (ih h.2)

/-- Texts in a row with a separator between any two. -/
theorem Sound.intercalate (s : String) (hs : separates (ascii s) = true) {ts : List Text}
    (h : ∀ t ∈ ts, Sound stem n Q t) : Sound stem n Q (List.intercalate (ascii s) ts) := by
  induction ts with
  | nil => exact .nil
  | cons t ts ih =>
    rw [List.forall_mem_cons] at h
    cases ts with
    | nil =>
      rw [List.intercalate_singleton]
      exact h.1
    | cons u us =>
      rw [List.intercalate_cons_cons, List.append_assoc]
      exact h.1.between hname s hs (ih h.2)

theorem Sound.commaSeparated {ts : List Text} (h : ∀ t ∈ ts, Sound stem n Q t) :
    Sound stem n Q (commaSeparated ts) :=
  .intercalate hname ", " rfl h

end

/-- A name refers to nothing by itself. -/
theorem Sound.all_isWord {stem t : Text} {n : Nat} {Q : Text → Prop}
    (h : t.all Byte.isWord = true) : Sound stem n Q t :=
  .of_bracket_not_mem fun hmem => absurd (List.all_eq_true.1 h _ hmem) (by decide)

/-! ## Ends -/

section

variable {stem t : Text} (hname : stem.isName = true)

theorem getLast?_refsName (stem : Text) : (refsName stem).getLast? = some 0x73 := by
  rw [refsName, List.getLast?_append]
  rfl

/-- The name of the table ends in a letter. -/
theorem not_suffix_of_getLast? (h : t.getLast? ≠ some 0x73) : ¬ refsName stem <:+ t := by
  rintro ⟨u, rfl⟩
  rw [List.getLast?_append, getLast?_refsName] at h
  exact h rfl

theorem not_suffix_of_underscore_not_mem (h : Byte.underscore ∉ t) : ¬ refsName stem <:+ t :=
  fun hsuffix => h (hsuffix.subset (by simp [refsName, ascii, Byte.underscore]))

theorem not_suffix_fixed (a : Text) (s : String)
    (h : (ascii s).getLast?.any (· != 0x73) = true) : ¬ refsName stem <:+ a ++ ascii s := by
  refine not_suffix_of_getLast? ?_
  obtain ⟨c, hc, hne⟩ := (Option.any_eq_true _ _).1 h
  rw [List.getLast?_append, hc]
  simpa using hne

/-- Nor does it end as some other names do. -/
theorem not_suffix_word (a : Text) (s : String) (hlength : 5 ≤ (ascii s).length)
    (h : ¬ ascii "_refs" <:+ ascii s) : ¬ refsName stem <:+ a ++ ascii s := by
  intro hsuffix
  have hend : ascii "_refs" <:+ a ++ ascii s := (List.suffix_append _ _).trans hsuffix
  exact h (List.suffix_of_suffix_length_le hend (List.suffix_append _ _) hlength)

include hname in
/-- Behind a blank only what is there matters. -/
theorem not_suffix_blank (a : Text) (h : ¬ refsName stem <:+ t) :
    ¬ refsName stem <:+ a ++ (ascii " " ++ t) := by
  rintro ⟨u, hu⟩
  have hblank : (0x20 : UInt8) ∉ refsName stem := fun hmem =>
    absurd (isWord_refsName hname _ hmem) (by decide)
  rw [← List.append_assoc] at hu
  rcases List.append_eq_append_iff.1 hu with ⟨w, hw, hrefs⟩ | ⟨w, -, ht⟩
  · rcases List.eq_nil_or_concat w with rfl | ⟨z, c, rfl⟩
    · exact h ⟨[], hrefs⟩
    · have hlast := congrArg List.getLast? hw
      simp only [List.getLast?_append, ascii] at hlast
      obtain rfl : 0x20 = c := by simpa using hlast
      exact hblank (by simp [hrefs])
  · exact h ⟨w, ht.symm⟩

end

end Text

/-! ## Programs -/

/-- An atom that refers to nothing beyond a table of some length. -/
def Atom.Fits (stem : Text) (n : Nat) (Q : Text → Prop) : Atom → Prop
  | ref i => i < n
  | slice i j => i < j ∧ j ≤ n
  | var _ => True
  | word t => ¬ refsName stem <:+: t
  | quoted t => Q t

/-- The calls that bring in modules of scripts. -/
theorem Expr.Over.importModule {V : Vocabulary} (target : Text) :
    (Expr.apply .importModule [.literal (.str target)]).Over V :=
  .apply _ (by simpa using .literal _)

theorem Expr.Over.fromModuleImport {V : Vocabulary} (names : List Text) (target : Text) :
    (Expr.apply .fromModuleImport
      (.literal (.str target) :: names.map fun name => .literal (.str name))).Over V := by
  refine .apply _ (List.forall_mem_cons.2 ⟨.literal _, ?_⟩)
  exact List.forall_mem_map.2 fun name _ => .literal _

theorem Expr.atoms_fromModuleImport (names : List Text) (target : Text) :
    (Expr.apply .fromModuleImport
      (.literal (.str target) :: names.map fun name => .literal (.str name))).atoms =
      .quoted target :: names.map .quoted := by
  simp [atoms, atomsAll_eq, List.flatMap_map, Leaf.quotes, ← List.map_eq_flatMap]

section

variable {stem : Text} (hname : stem.isName = true) {V : Vocabulary} {n : Nat} {Q : Text → Prop}

open Text (Sound)

include hname

theorem sound_localName (h : Helper) : Sound stem n Q (h.localName stem) :=
  .all_isWord (Text.all_isWord_of_isName (isName_localName hname h))

theorem sound_variableName (i : Nat) : Sound stem n Q (variableName stem i) :=
  .all_isWord (Text.all_isWord_of_isName (isName_variableName hname i))

theorem sound_commandsName : Sound stem n Q (commandsName stem) := by
  refine Sound.of_bracket_not_mem fun hmem => ?_
  rcases List.mem_append.1 hmem with hmem | hmem
  · have hword := Text.all_isWord_of_isName (isName_runtimeName hname)
    exact absurd (List.all_eq_true.1 hword _ hmem) (by decide)
  · exact absurd hmem (by decide)

omit hname in
/-- Only strings have underscores. -/
theorem Leaf.underscore_not_mem_literal (l : Leaf) :
    (∃ t, l = .str t) ∨ Byte.underscore ∉ l.literal := by
  have hatom {t : Text} (h : t.IsAtom) : Byte.underscore ∉ t := fun hmem =>
    absurd (List.all_eq_true.1 h.all _ hmem) (by decide)
  cases l with
  | str t => exact .inl ⟨t, rfl⟩
  | nil => exact .inr (by decide)
  | bool b => cases b <;> exact .inr (by decide)
  | int i => exact .inr (hatom (Text.isAtom_ofInt _))
  | float x =>
    refine .inr ?_
    rcases literalStyle.render_cases x with h | h
    · exact hatom h
    · simp only [List.mem_cons, List.not_mem_nil, or_false] at h
      rcases h with h | h | h | h <;> rw [literal, h] <;> decide

omit hname in
theorem Leaf.sound_literal (l : Leaf) (h : ∀ t ∈ l.quotes, Q t) : Sound stem n Q l.literal := by
  rcases l.underscore_not_mem_literal with ⟨t, rfl⟩ | hunderscore
  · exact .literal (h t (List.mem_singleton_self t))
  · exact .of_underscore_not_mem hunderscore

omit hname in
theorem Leaf.not_suffix_literal (l : Leaf) : ¬ refsName stem <:+ l.literal := by
  rcases l.underscore_not_mem_literal with ⟨t, rfl⟩ | hunderscore
  · refine Text.not_suffix_of_getLast? ?_
    rw [literal, Text.literal, List.getLast?_append]
    rcases t.quoteFor_cases with h | h <;> rw [h] <;> simp [Byte.quote, Byte.doubleQuote]
  · exact Text.not_suffix_of_underscore_not_mem hunderscore

omit hname in
theorem underscore_not_mem_lineMark (line : Option Int) :
    Byte.underscore ∉ ascii "(" ++ lineMark line := by
  cases line with
  | none => decide
  | some line =>
    have hnumber : (0x5f : UInt8) ∉ Text.ofInt line := fun hmem =>
      absurd (List.all_eq_true.1 (Text.isAtom_ofInt line).all _ hmem) (by decide)
    simp [lineMark, ascii, hnumber, Byte.underscore]

omit hname in
theorem endsApart_lineMark (line : Option Int) :
    Text.endsApart (ascii "(" ++ lineMark line) = true := by
  cases line with
  | none => rfl
  | some line =>
    rw [lineMark, ← List.append_assoc, Text.endsApart, List.getLast?_append]
    rfl

namespace Expr.Over

variable {e : Expr}

/-- An expression does not end in the name of the table. -/
theorem not_suffix (h : e.Over V) (hatoms : ∀ a ∈ e.atoms, a.Fits stem n Q) :
    ¬ refsName stem <:+ e.render stem := by
  induction h with
  | verbatim => exact fun hsuffix => hatoms _ List.mem_cons_self hsuffix.isInfix
  | ref | slice | apply | replace | bracketed | format | tuple | list | dict | lookup | call =>
    exact Text.not_suffix_fixed _ _ rfl
  | var i =>
    refine Text.not_suffix_of_getLast? fun hlast => ?_
    have hdigit : (0x73 : UInt8) ∈ Text.ofNat i := by
      rw [render, variableName, List.getLast?_append] at hlast
      cases hl : (Text.ofNat i).getLast? with
      | none => exact absurd (List.getLast?_eq_none_iff.1 hl) (Text.ofNat_ne_nil i)
      | some b =>
        rw [hl, Option.some_or] at hlast
        exact List.mem_of_getLast? (hlast ▸ hl)
    exact absurd (List.all_eq_true.1 (Text.isDigit_ofNat i) _ hdigit) (by decide)
  | commands => exact Text.not_suffix_word _ _ (by decide) (by decide)
  | literal l => exact l.not_suffix_literal
  | binary _ _ _ _ ih =>
    simp only [atoms, List.forall_mem_append, List.forall_mem_cons] at hatoms
    rw [render, List.append_assoc]
    exact Text.not_suffix_blank hname _ (ih hatoms.2.2)
  | unary _ _ ih =>
    rw [atoms, List.forall_mem_cons] at hatoms
    rw [render, List.append_assoc]
    exact Text.not_suffix_blank hname _ (ih hatoms.2)
  | @entry key value _ _ _ ih =>
    rw [atoms, List.forall_mem_append] at hatoms
    have hsplit : key.render stem ++ ascii ": " ++ value.render stem =
        key.render stem ++ ascii ":" ++ (ascii " " ++ value.render stem) := by
      simp [ascii]
    rw [render, hsplit]
    exact Text.not_suffix_blank hname _ (ih hatoms.2)

omit hname in
theorem sound_renderAll {es : List Expr}
    (hes : ∀ e ∈ es, (∀ a ∈ e.atoms, a.Fits stem n Q) → Sound stem n Q (e.render stem))
    (hatoms : ∀ a ∈ atomsAll es, a.Fits stem n Q) :
    ∀ t ∈ renderAll stem es, Sound stem n Q t := by
  intro t ht
  rw [renderAll_eq] at ht
  obtain ⟨e, he, rfl⟩ := List.mem_map.1 ht
  refine hes e he fun a ha => hatoms a ?_
  rw [atomsAll_eq]
  exact List.mem_flatMap_of_mem he ha

/-- **The text of an expression is sound** if its atoms fit. -/
theorem sound (h : e.Over V) (hatoms : ∀ a ∈ e.atoms, a.Fits stem n Q) :
    Sound stem n Q (e.render stem) := by
  have hbracket (i : Nat) : (0x5b : UInt8) ∉ Text.ofNat i := fun hmem =>
    absurd (List.all_eq_true.1 (Text.isDigit_ofNat i) _ hmem) (by decide)
  have hrefs : (0x5b : UInt8) ∉ refsName stem := fun hmem =>
    absurd (Text.isWord_refsName hname _ hmem) (by decide)
  induction h with
  | verbatim => exact .word (hatoms _ List.mem_cons_self)
  | ref i =>
    have hi : i < n := hatoms _ List.mem_cons_self
    have hopen := Sound.refsOpen_append (Q := Q) (n := n) (v := Text.ofNat i ++ ascii "]")
      (.inl ⟨i, [], by simp, hi⟩) (by simp [hbracket, ascii]) hrefs
    simpa only [render, refsOpen, List.append_assoc] using hopen
  | slice i j =>
    have hij : i < j ∧ j ≤ n := hatoms _ List.mem_cons_self
    have hopen := Sound.refsOpen_append (Q := Q) (n := n)
      (v := Text.ofNat i ++ ascii ":" ++ Text.ofNat j ++ ascii "]")
      (.inr ⟨i, j, [], by simp, hij⟩) (by simp [hbracket, ascii]) hrefs
    simpa only [render, refsOpen, List.append_assoc] using hopen
  | var => exact sound_variableName hname _
  | commands => exact sound_commandsName hname
  | apply h _ ih =>
    simp only [render, List.append_assoc]
    exact (sound_localName hname h).between hname "(" rfl
      (.before hname ")" rfl (.commaSeparated hname (sound_renderAll ih hatoms)))
  | @replace base fields _ _ _ ihb ihf =>
    simp only [render, List.append_assoc]
    refine (sound_localName hname .replace).between hname "(" rfl
      (.before hname ")" rfl (.commaSeparated hname (sound_renderAll ?_ hatoms)))
    refine List.forall_mem_cons.2 ⟨ihb, List.forall_mem_map.2 fun f hf hkeyword => ?_⟩
    rw [atoms, List.forall_mem_cons] at hkeyword
    simp only [render, List.append_assoc]
    exact (Sound.word hkeyword.1).between hname "=" rfl (ihf f hf hkeyword.2)
  | bracketed line _ ih =>
    have hmark : Sound stem n Q (ascii "(" ++ lineMark line) :=
      .of_underscore_not_mem (underscore_not_mem_lineMark line)
    exact .before hname ")" rfl (hmark.append hname (ih hatoms) (endsApart_lineMark line))
  | literal l => exact l.sound_literal fun t ht => hatoms _ (List.mem_map_of_mem ht)
  | binary _ _ _ ihl ihr =>
    simp only [atoms, List.forall_mem_append, List.forall_mem_cons] at hatoms
    simp only [render, List.append_assoc]
    exact (ihl hatoms.1).between hname " " rfl
      ((Sound.word hatoms.2.1).between hname " " rfl (ihr hatoms.2.2))
  | unary _ _ ih =>
    simp only [atoms, List.forall_mem_cons] at hatoms
    simp only [render, List.append_assoc]
    exact (Sound.word hatoms.1).between hname " " rfl (ih hatoms.2)
  | format template _ ih =>
    rw [atoms, List.forall_mem_cons] at hatoms
    simp only [render, List.append_assoc]
    exact (Sound.literal hatoms.1).between hname ".format(" rfl
      (.before hname ")" rfl (.commaSeparated hname (sound_renderAll ih hatoms.2)))
  | tuple _ ih =>
    simp only [render, List.append_assoc]
    exact .behind hname "(" rfl
      (.before hname ")" rfl (.flatMap hname "," rfl (sound_renderAll ih hatoms)))
  | list _ ih =>
    simp only [render, List.append_assoc]
    exact .behind hname "[" rfl
      (.before hname "]" rfl (.commaSeparated hname (sound_renderAll ih hatoms)))
  | dict _ ih =>
    simp only [render, List.append_assoc]
    exact .behind hname "\x7b" rfl
      (.before hname "\x7d" rfl (.commaSeparated hname (sound_renderAll ih hatoms)))
  | entry _ _ ihk ihv =>
    simp only [atoms, List.forall_mem_append] at hatoms
    simp only [render, List.append_assoc]
    exact (ihk hatoms.1).between hname ": " rfl (ihv hatoms.2)
  | lookup hbase _ ihb ih =>
    simp only [atoms, List.forall_mem_append] at hatoms
    simp only [render, List.append_assoc]
    exact (ihb hatoms.1).append_bracket hname
      (.before hname "]" rfl (.commaSeparated hname (sound_renderAll ih hatoms.2)))
      (hbase.not_suffix hname hatoms.1)
  | call _ _ ihb ih =>
    simp only [atoms, List.forall_mem_append] at hatoms
    simp only [render, List.append_assoc]
    exact (ihb hatoms.1).between hname "(" rfl
      (.before hname ")" rfl (.commaSeparated hname (sound_renderAll ih hatoms.2)))

end Expr.Over

namespace Stmt.Over

theorem sound_parameter {p : Text × Bool} (hp : ¬ refsName stem <:+: p.1) :
    Sound stem n Q (parameter stem p) := by
  obtain ⟨name, _ | _⟩ := p
  · exact .word hp
  · simp only [parameter, Expr.render, List.append_assoc]
    exact (Sound.word hp).between hname "=" rfl (sound_localName hname .missing)

omit hname in
theorem sound_words {ts : List Text} (hatoms : ∀ a ∈ ts.map Atom.word, a.Fits stem n Q) :
    ∀ t ∈ ts, Sound stem n Q t := fun _ ht => .word (hatoms _ (List.mem_map_of_mem ht))

/-- **The text of a statement is sound** if its atoms fit. -/
theorem sound {s : Stmt} (h : s.Over V) (hatoms : ∀ a ∈ s.atoms, a.Fits stem n Q) :
    Sound stem n Q (s.render stem) := by
  have hcommands : Sound stem n Q (commandsName stem) := sound_commandsName hname
  have hmissing : Sound stem n Q (Helper.localName stem .missing) := sound_localName hname _
  cases h with
  | eval he => exact he.sound hname hatoms
  | bind _ hvalue =>
    rw [atoms, List.forall_mem_cons] at hatoms
    simp only [render, List.append_assoc]
    exact (Sound.word hatoms.1).between hname " = " rfl (hvalue.sound hname hatoms.2)
  | output i hvalue =>
    rw [atoms, List.forall_mem_cons] at hatoms
    simp only [render, List.append_assoc]
    exact (sound_variableName hname i).between hname " = " rfl (hvalue.sound hname hatoms.2)
  | append he =>
    simp only [render, List.append_assoc]
    exact hcommands.between hname ".append(" rfl (.before hname ")" rfl (he.sound hname hatoms))
  | extend he =>
    simp only [render, List.append_assoc]
    exact hcommands.between hname ".extend(" rfl (.before hname ")" rfl (he.sound hname hatoms))
  | extendBody he =>
    simp only [render, List.append_assoc]
    exact hcommands.between hname ".extend(" rfl
      (.before hname ".commands)" rfl (he.sound hname hatoms))
  | pass => exact .of_underscore_not_mem (t := ascii "pass") (by decide)
  | otherwise => exact .of_underscore_not_mem (t := ascii "else:") (by decide)
  | @control keyword operand _ hoperand =>
    rw [atoms, List.forall_mem_cons] at hatoms
    cases operand with
    | none => exact .word hatoms.1
    | some e =>
      rw [Option.toList_some, List.flatMap_singleton] at hatoms
      simp only [render, List.append_assoc]
      exact (Sound.word hatoms.1).between hname " " rfl ((hoperand e rfl).sound hname hatoms.2)
  | branch _ hcondition =>
    rw [atoms, List.forall_mem_cons] at hatoms
    simp only [render, List.append_assoc]
    exact (Sound.word hatoms.1).between hname " " rfl
      (.before hname ":" rfl (hcondition.sound hname hatoms.2))
  | loop htarget hiterable =>
    rw [atoms, List.forall_mem_append] at hatoms
    simp only [render, List.append_assoc]
    exact .behind hname "for " rfl ((htarget.sound hname hatoms.1).between hname " in " rfl
      (.before hname ":" rfl (hiterable.sound hname hatoms.2)))
  | define _ _ =>
    rw [atoms, List.forall_mem_cons] at hatoms
    simp only [render, List.append_assoc]
    refine .behind hname "def " rfl ((Sound.word hatoms.1).between hname "(" rfl
      (.before hname "):" rfl (.commaSeparated hname (List.forall_mem_map.2 fun p hp => ?_))))
    exact sound_parameter hname (hatoms.2 _ (List.mem_map_of_mem hp))
  | default _ =>
    rw [atoms, List.forall_mem_singleton] at hatoms
    simp only [render, Expr.render, List.append_assoc]
    exact .behind hname "if " rfl ((Sound.word hatoms).between hname " is " rfl
      (.before hname ":" rfl hmissing))
  | scope i =>
    have hruntime : Sound stem n Q (runtimeName stem) :=
      .all_isWord (Text.all_isWord_of_isName (isName_runtimeName hname))
    simp only [render, List.append_assoc]
    exact .behind hname "with " rfl (hruntime.between hname ".scope() as " rfl
      (.before hname ":" rfl (sound_variableName hname i)))
  | importNative _ =>
    rw [atoms, List.forall_mem_singleton] at hatoms
    exact .behind hname "import " rfl (.word hatoms)
  | importNativeAs _ _ =>
    simp only [atoms, List.forall_mem_cons] at hatoms
    simp only [render, List.append_assoc]
    exact .behind hname "import " rfl
      ((Sound.word hatoms.1).between hname " as " rfl (.word hatoms.2.1))
  | fromNative _ _ =>
    rw [atoms, List.forall_mem_cons] at hatoms
    simp only [render, List.append_assoc]
    exact .behind hname "from " rfl ((Sound.word hatoms.1).between hname " import " rfl
      (.commaSeparated hname (sound_words hatoms.2)))
  | bindModule target _ =>
    rw [atoms, List.forall_mem_cons] at hatoms
    have hcall := (Expr.Over.importModule (V := V) target).sound hname hatoms.2
    simp only [render, List.append_assoc]
    exact (Sound.word hatoms.1).between hname " = " rfl
      (hcall.append_separate hname (.of_underscore_not_mem (by decide)) rfl)
  | @bindNames names target _ =>
    rw [atoms, List.forall_mem_append, ← Expr.atoms_fromModuleImport] at hatoms
    have hcall := (Expr.Over.fromModuleImport (V := V) names target).sound hname hatoms.2
    simp only [render, List.append_assoc]
    exact (Sound.commaSeparated hname (sound_words hatoms.1)).between hname ", = " rfl hcall

end Stmt.Over

end

end ScriptSplice
