import ScriptSplice.Proofs.Target.Layout
import ScriptSplice.Proofs.Target.Occurrences
/-!
# The references of a source

The source of a program refers to nothing beyond its table, if the atoms
of the program fit (`Program.sound_source`), and whatever its atoms refer to
can be read in the source (`Program.infix_source`): what was said of the
texts of its statements passes to their lines, and from there to the lines
that stay. The lines that do not stay are marks and blanks, without any
reference.
-/

namespace ScriptSplice

namespace Text

/-! ## Lines -/

/-- **Induction over the lines of a text.** -/
theorem lines_induction {motive : Text → Prop} (single : ∀ t, Byte.newline ∉ t → motive t)
    (append : ∀ t u, Byte.newline ∉ t → motive u → motive (t ++ Byte.newline :: u)) (t : Text) :
    motive t := by
  induction hlength : t.length using Nat.strongRecOn generalizing t with
  | ind k ih =>
    by_cases h : Byte.newline ∈ t
    · obtain ⟨first, rest, rfl, hfirst⟩ := List.eq_append_cons_of_mem h
      rw [List.length_append, List.length_cons] at hlength
      exact append first rest hfirst (ih rest.length (by omega) rest rfl)
    · exact single t h

/-- What is on one line of a text is within one of its lines. -/
theorem exists_infix_line {m t : Text} (hm : Byte.newline ∉ m) (h : m <:+: t) :
    ∃ l ∈ t.lines, m <:+: l := by
  induction t using lines_induction with
  | single t ht => exact ⟨t, by simp [lines_of_not_mem ht], h⟩
  | append t u ht ih =>
    rw [lines_append_newline ht]
    rcases infix_append_cons hm h with h | h
    · exact ⟨t, List.mem_cons_self, h⟩
    · obtain ⟨l, hl, hml⟩ := ih h
      exact ⟨l, List.mem_cons_of_mem _ hl, hml⟩

/-- What ends before a line break. -/
theorem of_append_newline {p v b w : Text} (hp : Byte.newline ∉ p)
    (h : v ++ Byte.newline :: b = p ++ w) : ∃ s, v = p ++ s := by
  rcases List.append_eq_append_iff.1 h with ⟨x, rfl, hx⟩ | ⟨x, rfl, -⟩
  · cases x with
    | nil => exact ⟨[], by simp⟩
    | cons c x => exact absurd (by simp [(List.cons.inj hx).1]) hp
  · exact ⟨x, rfl⟩

/-- What begins behind a line break. -/
theorem of_newline_append {a u p x : Text} (hx : Byte.newline ∉ x)
    (h : a ++ Byte.newline :: u = p ++ x) : ∃ s, u = s ++ x := by
  rcases List.append_eq_append_iff.1 h with ⟨y, rfl, hy⟩ | ⟨y, -, rfl⟩
  · cases y with
    | nil => exact absurd (by simp [← List.nil_append x ▸ hy]) hx
    | cons c y => exact ⟨y, (List.cons.inj hy).2⟩
  · exact absurd (by simp) hx

section

variable {stem : Text} {n : Nat} {Q : Text → Prop} {a b t v : Text}

theorem Refers.of_append_newline (h : (v ++ Byte.newline :: b).Refers n) : v.Refers n := by
  have hdigits (i : Nat) : Byte.newline ∉ ofNat i :=
    Byte.ne_newline_of_isAtom (isAtom_ofNat i).all
  rcases h with ⟨i, w, hw, hi⟩ | ⟨i, j, w, hw, hij⟩
  · obtain ⟨s, hs⟩ := Text.of_append_newline (by simp [hdigits, ascii]; decide) hw
    exact .inl ⟨i, s, hs, hi⟩
  · obtain ⟨s, hs⟩ := Text.of_append_newline (by simp [hdigits, ascii]; decide) hw
    exact .inr ⟨i, j, s, hs, hij⟩

/-- **The lines of a sound text are sound**: neither a reference nor a
literal is broken. -/
theorem Sound.of_append_newline (h : Sound stem n Q (a ++ Byte.newline :: b)) :
    Sound stem n Q a ∧ Sound stem n Q b := by
  have hliteral (q : Text) : Byte.newline ∉ q.literal := (Leaf.str q).newline_not_mem_literal
  refine ⟨fun u v ha => ?_, fun u v hb => ?_⟩
  · refine (h u (v ++ Byte.newline :: b) (by simp [ha])).imp Refers.of_append_newline ?_
    rintro ⟨q, p, x, y, s, hq, hx, rfl, hy⟩
    have hquoted := hliteral q
    rw [hx, List.mem_append] at hquoted
    obtain ⟨s, rfl⟩ := Text.of_append_newline (fun hmem => hquoted (.inr hmem)) hy
    exact ⟨q, p, x, y, s, hq, hx, rfl, rfl⟩
  · refine (h (a ++ Byte.newline :: u) v (by simp [hb])).imp_right ?_
    rintro ⟨q, p, x, y, s, hq, hx, hp, rfl⟩
    have hquoted := hliteral q
    rw [hx, List.mem_append, List.mem_append] at hquoted
    obtain ⟨p, rfl⟩ := Text.of_newline_append (fun hmem => hquoted (.inl (.inl hmem))) hp
    exact ⟨q, p, x, y, s, hq, hx, rfl, rfl⟩

theorem Sound.lines (h : Sound stem n Q t) : ∀ l ∈ t.lines, Sound stem n Q l := by
  induction t using lines_induction with
  | single t ht =>
    rw [lines_of_not_mem ht]
    exact List.forall_mem_singleton.2 h
  | append t u ht ih =>
    rw [lines_append_newline ht]
    have hparts := h.of_append_newline
    exact List.forall_mem_cons.2 ⟨hparts.1, ih hparts.2⟩

end

end Text

/-! ## What can be read -/

/-- An atom as it stands in the text. -/
def Atom.render (stem : Text) : Atom → Text
  | ref i => (Expr.ref i).render stem
  | slice start stop => (Expr.slice start stop).render stem
  | var n => variableName stem n
  | word t => t
  | quoted t => t.literal

section

variable {stem : Text} {V : Vocabulary} {a : Atom}

open List (infix_rfl infix_append_of_infix_left infix_append_of_infix_right)

theorem Text.infix_intercalate {separator m t : Text} {ts : List Text} (ht : t ∈ ts)
    (h : m <:+: t) : m <:+: List.intercalate separator ts := by
  induction ts with
  | nil => exact absurd ht List.not_mem_nil
  | cons u us ih =>
    cases us with
    | nil =>
      rw [List.intercalate_singleton]
      exact List.mem_singleton.1 ht ▸ h
    | cons v vs =>
      rw [List.intercalate_cons_cons]
      rcases List.mem_cons.1 ht with rfl | ht
      · exact infix_append_of_infix_left (infix_append_of_infix_left h)
      · exact infix_append_of_infix_right (ih ht)

theorem Expr.exists_infix_renderAll {es : List Expr}
    (hes : ∀ e ∈ es, a ∈ e.atoms → a.render stem <:+: e.render stem) (ha : a ∈ atomsAll es) :
    ∃ t ∈ renderAll stem es, a.render stem <:+: t := by
  rw [atomsAll_eq] at ha
  obtain ⟨e, he, ha⟩ := List.mem_flatMap.1 ha
  rw [renderAll_eq]
  exact ⟨e.render stem, List.mem_map_of_mem he, hes e he ha⟩

theorem Expr.infix_commaSeparated {es : List Expr}
    (hes : ∀ e ∈ es, a ∈ e.atoms → a.render stem <:+: e.render stem) (ha : a ∈ atomsAll es) :
    a.render stem <:+: Text.commaSeparated (renderAll stem es) := by
  obtain ⟨t, ht, h⟩ := exists_infix_renderAll hes ha
  exact Text.infix_intercalate ht h

attribute [local grind ←] List.infix_append_of_infix_left List.infix_append_of_infix_right
  Expr.infix_commaSeparated

/-- **The atoms of an expression stand in its text.** -/
theorem Expr.Over.atom_within {e : Expr} (h : e.Over V) (ha : a ∈ e.atoms) :
    a.render stem <:+: e.render stem := by
  induction h with
  | verbatim | ref | slice | var =>
    rw [List.mem_singleton.1 ha]
    exact infix_rfl
  | commands => exact absurd ha List.not_mem_nil
  | literal l =>
    cases l with
    | str t =>
      rw [List.mem_singleton.1 ha]
      exact infix_rfl
    | _ => exact absurd ha List.not_mem_nil
  | @replace base fields _ _ _ ihb ihf =>
    refine infix_append_of_infix_left (infix_append_of_infix_right (infix_commaSeparated ?_ ha))
    refine List.forall_mem_cons.2 ⟨ihb, List.forall_mem_map.2 fun f hf ha => ?_⟩
    rcases List.mem_cons.1 ha with rfl | ha
    · exact infix_append_of_infix_left (infix_append_of_infix_left infix_rfl)
    · exact infix_append_of_infix_right (ihf f hf ha)
  | tuple _ ih =>
    obtain ⟨t, ht, h⟩ := exists_infix_renderAll ih ha
    refine infix_append_of_infix_left (infix_append_of_infix_right ?_)
    rw [List.flatMap_def]
    exact (infix_append_of_infix_left h).trans (List.infix_of_mem_flatten (List.mem_map_of_mem ht))
  | _ =>
    simp only [atoms, List.mem_append, List.mem_cons] at ha
    simp only [render]
    grind [Atom.render]

/-- **The atoms of a statement stand in its text.** -/
theorem Stmt.Over.atom_within {s : Stmt} (h : s.Over V) (ha : a ∈ s.atoms) :
    a.render stem <:+: s.render stem := by
  cases h with
  | pass | otherwise => exact absurd ha List.not_mem_nil
  | @control keyword operand _ hoperand =>
    rcases List.mem_cons.1 ha with rfl | hoperands
    · cases operand with
      | none => exact infix_rfl
      | some e => exact infix_append_of_infix_left (infix_append_of_infix_left infix_rfl)
    · obtain ⟨e, he, hmem⟩ := List.mem_flatMap.1 hoperands
      obtain rfl := Option.mem_toList.1 he
      exact infix_append_of_infix_right ((hoperand e rfl).atom_within hmem)
  | define =>
    rcases List.mem_cons.1 ha with rfl | ha
    · simp only [render]
      grind [Atom.render]
    · obtain ⟨p, hp, rfl⟩ := List.mem_map.1 ha
      refine infix_append_of_infix_left (infix_append_of_infix_right ?_)
      refine Text.infix_intercalate (List.mem_map_of_mem hp) ?_
      obtain ⟨name, _ | _⟩ := p
      · exact infix_rfl
      · exact infix_append_of_infix_left (infix_append_of_infix_left infix_rfl)
  | fromNative =>
    rcases List.mem_cons.1 ha with rfl | ha
    · simp only [render]
      grind [Atom.render]
    · obtain ⟨t, ht, rfl⟩ := List.mem_map.1 ha
      exact infix_append_of_infix_right (Text.infix_intercalate ht infix_rfl)
  | bindModule target =>
    rcases List.mem_cons.1 ha with rfl | ha
    · simp only [render]
      grind [Atom.render]
    · have hcall : a.render stem <:+: Expr.render stem _ :=
        (Expr.Over.importModule (V := V) target).atom_within ha
      exact infix_append_of_infix_left (infix_append_of_infix_right hcall)
  | @bindNames names target =>
    rcases List.mem_append.1 ha with ha | ha
    · obtain ⟨t, ht, rfl⟩ := List.mem_map.1 ha
      refine infix_append_of_infix_left (infix_append_of_infix_left ?_)
      exact Text.infix_intercalate ht infix_rfl
    · rw [← Expr.atoms_fromModuleImport] at ha
      have hcall : a.render stem <:+: Expr.render stem _ :=
        (Expr.Over.fromModuleImport (V := V) names target).atom_within ha
      exact infix_append_of_infix_right hcall
  | _ =>
    simp only [atoms, List.mem_append, List.mem_cons] at ha
    simp only [render]
    grind [Atom.render, Expr.Over.atom_within]

end

/-- A line of a broken text that is a mark is one of a place. -/
theorem Text.Unfolds.eq_of_isMark {t q : Text} (h : Unfolds t q)
    (hhead : t.head? ≠ some Byte.hash) :
    ∀ l ∈ t.lines, isMark l = true → ∃ line, l = Byte.hash :: ofInt line := by
  induction h with
  | plain ht =>
    rw [lines_of_not_mem ht]
    refine List.forall_mem_singleton.2 fun hmark => absurd (eq_of_beq hmark) hhead
  | @mark p t q line hp hstays _ ih =>
    have hopen : Byte.newline ∉ p ++ ascii "(" := by
      rw [List.mem_append, not_or]
      exact ⟨hp, by decide⟩
    rw [lines_mark hopen]
    refine List.forall_mem_cons.2 ⟨fun hmark => ?_, List.forall_mem_cons.2
      ⟨fun _ => ⟨line, rfl⟩, ih hstays.head⟩⟩
    cases p with
    | nil => exact absurd hmark (by decide)
    | cons b p => exact absurd (eq_of_beq hmark) hhead

/-- So a line with a bracket stays. -/
theorem Text.Folds.isKept_of_mem {t q l : Text} (h : Folds t q) (hl : l ∈ t.lines)
    (hbracket : 0x5b ∈ l) : l.isKept = true := by
  have hblank : isBlank l = false :=
    Bool.eq_false_iff.2 fun hblank => absurd (List.all_eq_true.1 hblank _ hbracket) (by decide)
  have hmark : isMark l = false := by
    refine Bool.eq_false_iff.2 fun hmark => ?_
    obtain ⟨line, rfl⟩ := h.unfolds.eq_of_isMark h.head l hl hmark
    rcases List.mem_cons.1 hbracket with hhash | hmem
    · exact absurd hhash (by decide)
    · exact absurd (List.all_eq_true.1 (isAtom_ofInt line).all _ hmem) (by decide)
  rw [isKept, hmark, hblank]
  rfl

/-- A reference is on one line. -/
theorem Atom.Denotes.newline_not_mem_render {stem : Text} (hname : stem.isName = true) {a : Atom}
    {i : Nat} (h : a.Denotes i) : Byte.newline ∉ a.render stem := by
  have hline {e : Expr} (he : e.Over .markless) : Byte.newline ∉ e.unmarked.render stem :=
    (he.pieces Text.Folds.pieces hname).unfolds.newline_not_mem
  cases a with
  | ref j => exact hline (.ref j)
  | slice start stop => exact hline (.slice start stop)
  | _ => exact h.elim

theorem Atom.Denotes.bracket_mem_render (stem : Text) {a : Atom} {i : Nat} (h : a.Denotes i) :
    0x5b ∈ a.render stem := by
  cases a with
  | ref | slice => simp [render, Expr.render, ascii]
  | _ => exact h.elim

/-! ## Sources -/

section

variable {stem : Text} {V : Vocabulary} {n : Nat} {Q : Text → Prop} (hname : stem.isName = true)

open Text (Sound)

include hname

theorem Line.sound_render (width : Nat) {l : Line} (h : l.stmt.Over V)
    (hatoms : ∀ a ∈ l.stmt.atoms, a.Fits stem n Q) : Sound stem n Q (l.render stem width) := by
  have hblanks : Sound stem n Q (indentation width l.depth) :=
    .of_underscore_not_mem fun hmem => absurd (List.eq_of_mem_replicate hmem) (by decide)
  refine Sound.append hname hblanks (h.sound hname hatoms) ?_
  refine (Option.all_eq_true _ _).2 fun c hc => ?_
  rw [List.eq_of_mem_replicate (List.mem_of_getLast? hc)]
  rfl

omit hname in
/-- A mark refers to nothing. -/
theorem Line.sound_mark (width depth : Nat) (line : Int) :
    Sound stem n Q (Line.render stem width ⟨depth, .mark line⟩) := by
  refine .of_underscore_not_mem fun hmem => ?_
  rcases List.mem_append.1 hmem with hmem | hmem
  · exact absurd (List.eq_of_mem_replicate hmem) (by decide)
  · exact underscore_not_mem_lineMark (some line) (List.mem_append_right _ hmem)

end

namespace Program

variable {o : Options} {p : Program} {V : Vocabulary} {n : Nat} {Q : Text → Prop}

open Text (Sound)

section

variable (hname : o.stem.isName = true)

include hname

theorem sound_bindingLine (h : Helper) (hkey : Q h.key) :
    Sound o.stem n Q (bindingLine o h) := by
  have hruntime : Sound o.stem n Q (runtimeName o.stem) :=
    .all_isWord (Text.all_isWord_of_isName (isName_runtimeName hname))
  have hhelpers : Sound o.stem n Q (runtimeName o.stem ++ ascii ".helpers") :=
    hruntime.append_separate hname (.of_underscore_not_mem (by decide)) rfl
  have hentry := hhelpers.append_bracket hname
    (.before hname "]" rfl (.literal hkey)) (Text.not_suffix_word _ _ (by decide) (by decide))
  have hline := (sound_localName hname h).between hname " = " rfl hentry
  have hsplit : ascii ".helpers[" = ascii ".helpers" ++ ascii "[" := by decide
  simpa only [bindingLine, hsplit, List.append_assoc] using hline

theorem sound_tableLine (a : Assembly) : Sound o.stem n Q (a.tableLine (tableName o)) := by
  have hcolumn (entries : List Int) : Sound o.stem n Q (Assembly.column entries) := by
    simp only [Assembly.column, List.append_assoc]
    refine .behind hname "[" rfl (.before hname "]" rfl (.commaSeparated hname ?_))
    refine List.forall_mem_map.2 fun i _ => .of_underscore_not_mem fun hmem => ?_
    exact absurd (List.all_eq_true.1 (Text.isAtom_ofInt i).all _ hmem) (by decide)
  have htable : Sound o.stem n Q (tableName o) :=
    .all_isWord (by rw [tableName, List.all_append, Text.all_isWord_of_isName hname]; rfl)
  simp only [Assembly.tableLine, List.append_assoc]
  exact htable.between hname " = " rfl ((hcolumn _).between hname ", " rfl (hcolumn _))

end

variable (hstem : o.stem.isIdentifier = true)
  (hover : ∀ l ∈ Line.statements p.lines, l.stmt.Over V)
  (hatoms : ∀ a ∈ Line.atoms p.lines, a.Fits o.stem n Q) (hkeys : ∀ h ∈ p.helpers, Q h.key)

include hstem hover hatoms hkeys

/-- **A source refers to nothing beyond its table**, if the atoms of its
program fit. -/
theorem sound_source : Sound o.stem n Q (p.source o) := by
  have hname := Text.isName_of_isIdentifier hstem
  have hbody : ∀ t ∈ p.body o, Sound o.stem n Q t := by
    intro t ht
    obtain ⟨l, hl, ht⟩ := List.mem_flatMap.1 ht
    refine Sound.lines ?_ t (List.mem_filter.1 ht).1
    by_cases hmark : l.stmt.isMark
    · obtain ⟨depth, s⟩ := l
      cases s <;> cases hmark
      exact Line.sound_mark o.indent depth _
    · refine Line.sound_render hname o.indent (hover l ?_) fun a ha => hatoms a ?_
      · exact List.mem_filter.2 ⟨hl, by simp [hmark]⟩
      · exact List.mem_flatMap_of_mem hl ha
  rw [source_eq p hstem]
  refine .intercalate hname "\n" rfl (List.forall_mem_append.2 ⟨fun t ht => ?_, ?_⟩)
  · simp only [tableLines] at ht
    split at ht
    · rw [List.mem_singleton.1 ht]
      exact sound_tableLine hname _
    · exact absurd ht List.not_mem_nil
  · exact List.forall_mem_append.2
      ⟨List.forall_mem_map.2 fun h hh => sound_bindingLine hname h (hkeys h hh), hbody⟩

omit hover hatoms hkeys in
/-- **What a program refers to can be read in its source.** -/
theorem infix_source (hover : ∀ l ∈ Line.statements p.lines, l.stmt.Over .markless) {a : Atom}
    {i : Nat} (ha : a ∈ Line.atoms p.lines) (hdenotes : a.Denotes i) :
    a.render o.stem <:+: p.source o := by
  have hname := Text.isName_of_isIdentifier hstem
  obtain ⟨l, hl, hal⟩ := List.mem_flatMap.1 ha
  have hmark : l.stmt.isMark = false := by
    obtain ⟨depth, s⟩ := l
    cases s <;> first | rfl | exact absurd hal List.not_mem_nil
  have hstmt := hover l (List.mem_filter.2 ⟨hl, by simp [hmark]⟩)
  have hinside : a.render o.stem <:+: l.render o.stem o.indent :=
    List.infix_append_of_infix_right (hstmt.atom_within hal)
  obtain ⟨t, ht, hat⟩ := Text.exists_infix_line (hdenotes.newline_not_mem_render hname) hinside
  have hkept : t.isKept = true :=
    (Line.folds_render hname o.indent hstmt).isKept_of_mem ht
      (hat.subset (hdenotes.bracket_mem_render o.stem))
  have hbody : t ∈ p.body o := List.mem_flatMap.2 ⟨l, hl, List.mem_filter.2 ⟨ht, hkept⟩⟩
  rw [source_eq p hstem]
  exact Text.infix_intercalate (List.mem_append_right _ (List.mem_append_right _ hbody)) hat

end Program

end ScriptSplice
