import ScriptSplice.Proofs.Target.Naming
import ScriptSplice.Program.Stmt
/-!
# How programs are read

A text reads as a term if it has the same effect on a scanner wherever an
expression can begin: the cursor is behind the term, and all else is as
before (`Reads`). The laws below put larger texts together from smaller
ones, one for each construct. What stands in brackets is read item by item
(`Scanner.run_items`), since an item need not be an expression: an argument
can be given by name.
-/

namespace ScriptSplice

namespace Scanner

variable {r : Scanner}

theorem run_append (r : Scanner) (a b : Text) : r.run (a ++ b) = (r.run a).bind (·.run b) := by
  rw [run, List.foldlM_append]
  rfl

theorem run_cons (r : Scanner) (b : UInt8) (t : Text) :
    r.run (b :: t) = (r.step b).bind (·.run t) := by
  rw [run, List.foldlM_cons]
  rfl

@[simp] theorem run_nil (r : Scanner) : r.run [] = some r := rfl

/-- A text is read after what is before it. -/
theorem run_append_of_eq {a b : Text} {r' : Scanner} (h : r.run a = some r') :
    r.run (a ++ b) = r'.run b := by
  rw [run_append, h]
  rfl

/-! ## Words -/

theorem step_word {b : UInt8} (hb : Byte.isWord b = true) {c : Cursor}
    (hc : r.cursor.extend b = some c) : r.step b = some { r with cursor := c } := by
  unfold step
  cases hr : r.cursor with
  | quoted t => simp [hr, Cursor.extend] at hc
  | empty | word w | member e f | ended e =>
    rw [hr] at hc
    simp only [hb, if_true, hc, Option.map_some]

theorem run_word {w : Text} (hw : w.all Byte.isWord = true) (v : Text) (r : Scanner) :
    run { r with cursor := .word v } w = some { r with cursor := .word (v ++ w) } := by
  induction w generalizing v with
  | nil => simp
  | cons b w ih =>
    rw [List.all_cons, Bool.and_eq_true] at hw
    rw [run_cons, step_word hw.1 rfl, Option.bind_some, ih hw.2]
    simp

/-- Words can begin an expression. -/
theorem run_words {w : Text} (hw : w.all Byte.isWord = true) (hne : w ≠ [])
    (hr : r.cursor = .empty) : r.run w = some { r with cursor := .word w } := by
  obtain ⟨b, w, rfl⟩ := List.exists_cons_of_ne_nil hne
  rw [List.all_cons, Bool.and_eq_true] at hw
  have hstep : r.step b = some { r with cursor := .word [b] } :=
    step_word hw.1 (by rw [hr]; rfl)
  rw [run_cons, hstep, Option.bind_some, run_word hw.2]
  rfl

theorem run_member {w : Text} (hw : w.all Byte.isWord = true) (e : Term) (v : Text) (r : Scanner) :
    run { r with cursor := .member e v } w = some { r with cursor := .member e (v ++ w) } := by
  induction w generalizing v with
  | nil => simp
  | cons b w ih =>
    rw [List.all_cons, Bool.and_eq_true] at hw
    rw [run_cons, step_word hw.1 rfl, Option.bind_some, ih hw.2]
    simp

theorem run_quoted {w : Text} (hw : w.all Byte.isWord = true) (v : Text) (r : Scanner) :
    run { r with cursor := .quoted v } w = some { r with cursor := .quoted (v ++ w) } := by
  induction w generalizing v with
  | nil => simp
  | cons b w ih =>
    rw [List.all_cons, Bool.and_eq_true] at hw
    obtain ⟨hquote, hbackslash, hcontrol⟩ := Text.isWord_plain hw.1
    have hstep : step { r with cursor := .quoted v } b =
        some { r with cursor := .quoted (v ++ [b]) } := by
      simp [step, hquote, hbackslash, hcontrol]
    rw [run_cons, hstep, Option.bind_some, ih hw.2]
    simp

/-- A mark behind the end of an expression does what marks do. -/
theorem step_mark {b : UInt8} (hb : Byte.isWord b = false) {e : Term}
    (he : r.cursor.term? = some e) : r.step b = r.mark b := by
  unfold step
  cases hr : r.cursor with
  | quoted t => simp [hr, Cursor.term?] at he
  | empty => simp [hr, Cursor.term?] at he
  | word w | member e f | ended e => simp [hb]

theorem step_mark_empty {b : UInt8} (hb : Byte.isWord b = false) (hr : r.cursor = .empty) :
    r.step b = r.mark b := by
  simp [step, hr, hb]

/-- What has been read of an item can be followed by a mark. -/
theorem step_mark_of_items {b : UInt8} (hb : Byte.isWord b = false) {es : List Term}
    (hes : r.items? = some es) : r.step b = r.mark b := by
  obtain ⟨cursor, key, done, outer⟩ := r
  cases cursor with
  | quoted t => simp [items?, item?, Cursor.term?] at hes
  | empty | word w | member e f | ended e => simp [step, hb]

theorem items?_of_item? {e : Term} (he : r.item? = some e) : r.items? = some (r.done ++ [e]) := by
  unfold items?
  split
  · simp [item?, Cursor.term?] at he
  · rw [he]
    rfl

theorem term?_of_item? {e : Term} (he : r.item? = some e) : ∃ e', r.cursor.term? = some e' := by
  obtain ⟨e', he', -⟩ := Option.map_eq_some_iff.1 he
  exact ⟨e', he'⟩

/-- A comma ends an item. -/
theorem step_comma {e : Term} (he : r.item? = some e)
    {o : Opening × Option Text × List Term} {outer : List (Opening × Option Text × List Term)}
    (hr : r.outer = o :: outer) :
    r.step 0x2c = some { r with cursor := .empty, key := none, done := r.done ++ [e] } := by
  obtain ⟨e', he'⟩ := term?_of_item? he
  rw [step_mark rfl he']
  simp only [mark, hr, he, Option.map_some]

/-- A blank between items does nothing. -/
theorem step_blank (hr : r.cursor = .empty) : r.step 0x20 = some r := by
  obtain ⟨cursor, key, done, outer⟩ := r
  obtain rfl : cursor = .empty := hr
  rfl

theorem leave_eq {b : UInt8} {o : Opening} {key : Option Text} {done es : List Term}
    {outer : List (Opening × Option Text × List Term)} {e : Term}
    (hr : r.outer = (o, key, done) :: outer) (hes : r.items? = some es)
    (he : o.close b es = some e) : r.leave b = some ⟨.ended e, key, done, outer⟩ := by
  rw [leave, hr]
  simp only [hes, Option.bind_eq_bind, Option.bind_some, he]
  rfl

end Scanner

/-- **A text reads as a term** wherever an expression can begin. -/
def Reads (t : Text) (e : Term) : Prop :=
  ∀ r : Scanner, r.cursor = .empty →
    ∃ c, r.run t = some { r with cursor := c } ∧ c.term? = some e

/-- A text reads as an item of brackets of a sort; an argument of a call
can be given by name. -/
def ReadsItem (o : Opening) (t : Text) (e : Term) : Prop :=
  ∀ (r : Scanner) (key : Option Text) (done : List Term)
    (outer : List (Opening × Option Text × List Term)),
    r.cursor = .empty → r.key = none → r.outer = (o, key, done) :: outer →
    ∃ r', r.run t = some r' ∧ r'.item? = some e ∧ r'.done = r.done ∧ r'.outer = r.outer

theorem Reads.readsItem {t : Text} {e : Term} (h : Reads t e) (o : Opening) : ReadsItem o t e := by
  intro r key done outer hr hkey _
  obtain ⟨c, hrun, hc⟩ := h r hr
  exact ⟨_, hrun, by rw [Scanner.item?, hc, hkey]; rfl, rfl, rfl⟩

/-- An argument that is given by name. -/
theorem Reads.keyword {t f : Text} {e : Term} (hf : f.isName = true) (h : Reads t e)
    (g : Term) : ReadsItem (.call g) (f ++ ascii "=" ++ t) (.keyword f e) := by
  intro r key done outer hr hkey houter
  have hname := Scanner.run_words (Text.all_isWord_of_isName hf)
    (Text.ne_nil_of_isName hf) hr
  have hmark : Scanner.step { r with cursor := .word f } 0x3d =
      some { r with cursor := .empty, key := some f } := by
    have hend : (Cursor.word f).term? = some (.name f) := Term.ofWord_of_isName hf
    rw [Scanner.step_mark (r := { r with cursor := .word f }) rfl hend]
    simp only [Scanner.mark, hkey, houter, hf, if_true]
  obtain ⟨c, hrun, hc⟩ := h { r with cursor := .empty, key := some f } rfl
  refine ⟨{ r with cursor := c, key := some f }, ?_, ?_, rfl, rfl⟩
  · rw [List.append_assoc, Scanner.run_append_of_eq hname]
    change Scanner.run _ (0x3d :: t) = _
    rw [Scanner.run_cons, hmark, Option.bind_some, hrun]
  · rw [Scanner.item?, hc]
    rfl

namespace Scanner

/-- **The items of brackets**, read one after the other. -/
theorem run_items {o : Opening} (ps : List (Text × Term)) (hps : ∀ p ∈ ps, ReadsItem o p.1 p.2)
    {r : Scanner} {key : Option Text} {done : List Term}
    {outer : List (Opening × Option Text × List Term)} (hr : r.cursor = .empty)
    (hkey : r.key = none) (houter : r.outer = (o, key, done) :: outer)
    (hne : ps ≠ [] ∨ r.done = []) :
    ∃ r', r.run (Text.commaSeparated (ps.map (·.1))) = some r' ∧
      r'.items? = some (r.done ++ ps.map (·.2)) ∧ r'.outer = r.outer := by
  induction ps generalizing r with
  | nil =>
    -- there are no items, so nothing has been read since the bracket
    obtain ⟨cursor, k, before, around⟩ := r
    obtain rfl : cursor = .empty := hr
    obtain rfl : k = none := hkey
    obtain rfl : before = [] := hne.resolve_left fun h => h rfl
    exact ⟨_, rfl, rfl, rfl⟩
  | cons p ps ih =>
    rw [List.forall_mem_cons] at hps
    obtain ⟨r₁, hrun, hitem, hdone, houter₁⟩ := hps.1 r key done outer hr hkey houter
    cases ps with
    | nil =>
      refine ⟨r₁, ?_, ?_, houter₁⟩
      · simpa only [Text.commaSeparated, List.map_cons, List.map_nil,
          List.intercalate_singleton] using hrun
      · rw [items?_of_item? hitem, hdone]
        rfl
    | cons q qs =>
      -- the comma ends the item, and the blank behind it does nothing
      have hcomma := step_comma hitem (houter₁.trans houter)
      have hblank := step_blank
        (r := { r₁ with cursor := .empty, key := none, done := r₁.done ++ [p.2] }) rfl
      obtain ⟨r₂, hrest, hitems, houter₂⟩ :=
        ih hps.2 (r := { r₁ with cursor := .empty, key := none, done := r₁.done ++ [p.2] })
          rfl rfl (houter₁.trans houter) (Or.inl (List.cons_ne_nil _ _))
      refine ⟨r₂, ?_, ?_, houter₂.trans houter₁⟩
      · rw [List.map_cons, Text.commaSeparated, List.map_cons, List.intercalate_cons_cons,
          List.append_assoc, run_append_of_eq hrun]
        change run _ (0x2c :: 0x20 :: _) = _
        rw [run_cons, hcomma, Option.bind_some, run_cons, hblank, Option.bind_some]
        exact hrest
      · rw [hitems, hdone, List.append_assoc]
        rfl

/-- Brackets are read as what they are closed to. -/
theorem run_brackets {o : Opening} {b : UInt8} (hb : b = 0x29 ∨ b = 0x5d)
    (ps : List (Text × Term)) (hps : ∀ p ∈ ps, ReadsItem o p.1 p.2) {e : Term}
    (he : o.close b (ps.map (·.2)) = some e) (r : Scanner) :
    (r.enter o).run (Text.commaSeparated (ps.map (·.1)) ++ [b]) =
      some { r with cursor := .ended e } := by
  obtain ⟨r', hrun, hitems, houter⟩ := run_items ps hps (r := r.enter o) rfl rfl rfl (Or.inr rfl)
  rw [run_append_of_eq hrun, run_cons]
  have hword : Byte.isWord b = false := by rcases hb with rfl | rfl <;> rfl
  have hmark : r'.mark b = r'.leave b := by rcases hb with rfl | rfl <;> rfl
  rw [step_mark_of_items hword hitems, hmark, leave_eq houter hitems he]
  rfl

end Scanner

namespace Reads

open Scanner

/-- A name reads as itself. -/
theorem name {x : Text} (hx : x.isName = true) : Reads x (.name x) :=
  fun _ hr => ⟨.word x, run_words (Text.all_isWord_of_isName hx)
    (Text.ne_nil_of_isName hx) hr, Term.ofWord_of_isName hx⟩

/-- Digits read as a number. -/
theorem number (n : Nat) : Reads (Text.ofNat n) (.number n) := by
  have hdigits := Text.isDigit_ofNat n
  have hwords : (Text.ofNat n).all Byte.isWord = true :=
    List.all_eq_true.2 fun b hb => Text.isWord_of_isDigit (List.all_eq_true.1 hdigits b hb)
  have hnot : (Text.ofNat n).isName = false := Text.not_isName_of_digits hdigits
  refine fun r hr => ⟨.word (Text.ofNat n), run_words hwords (Text.ofNat_ne_nil n) hr, ?_⟩
  rw [Cursor.term?, Term.ofWord, hnot, hdigits, Text.digitsValue_ofNat]
  rfl

/-- Words in quotes read as a string. -/
theorem text {t : Text} (ht : t.all Byte.isWord = true) : Reads (Text.literal t) (.text t) := by
  intro r hr
  have hopen : r.step Byte.quote = some { r with cursor := .quoted [] } := by
    rw [step_mark_empty rfl hr]
    simp [mark, Byte.quote, hr]
  have hclose : step { r with cursor := .quoted t } Byte.quote =
      some { r with cursor := .ended (.text t) } := rfl
  refine ⟨.ended (.text t), ?_, rfl⟩
  rw [Text.literal_of_words ht, List.append_assoc, List.singleton_append, run_cons, hopen,
    Option.bind_some, run_append_of_eq (run_quoted ht [] r), List.nil_append, run_cons, hclose]
  rfl

/-- An attribute. -/
theorem member {t f : Text} {e : Term} (h : Reads t e) (hf : f.isName = true) :
    Reads (t ++ ascii "." ++ f) (.attribute e f) := by
  intro r hr
  obtain ⟨c, hrun, hc⟩ := h r hr
  refine ⟨.member e f, ?_, by rw [Cursor.term?, if_pos hf]⟩
  have hdot : step { r with cursor := c } 0x2e = some { r with cursor := .member e [] } := by
    rw [step_mark rfl hc]
    simp [mark, hc]
  rw [List.append_assoc, run_append_of_eq hrun]
  change run _ (0x2e :: f) = _
  rw [run_cons, hdot, Option.bind_some, run_member (Text.all_isWord_of_isName hf)]
  rfl

/-- Brackets behind an expression belong to it. -/
theorem bracket_behind {c : Cursor} {e : Term} (hc : c.term? = some e) (r : Scanner)
    (alone : Opening) (behind : Term → Opening) :
    bracket { r with cursor := c } alone behind = some (r.enter (behind e)) := by
  cases c with
  | empty => simp [Cursor.term?] at hc
  | word w | member _ _ | quoted _ | ended _ =>
    simp only [bracket, hc, Option.map_some]
    rfl

/-- What follows an opening bracket behind an expression is read in it. -/
theorem run_behind {t : Text} {e : Term} (h : Reads t e) {b : UInt8} (hb : Byte.isWord b = false)
    {alone : Opening} {behind : Term → Opening}
    (hmark : ∀ r : Scanner, r.mark b = r.bracket alone behind) {r : Scanner}
    (hr : r.cursor = .empty) (u : Text) : r.run (t ++ b :: u) = (r.enter (behind e)).run u := by
  obtain ⟨c, hrun, hc⟩ := h r hr
  rw [run_append_of_eq hrun, run_cons, step_mark hb hc, hmark, bracket_behind hc, Option.bind_some]

/-- A call. -/
theorem call {f : Text} {e : Term} (h : Reads f e) (ps : List (Text × Term))
    (hps : ∀ p ∈ ps, ReadsItem (.call e) p.1 p.2) :
    Reads (f ++ ascii "(" ++ Text.commaSeparated (ps.map (·.1)) ++ ascii ")")
      (.call e (ps.map (·.2))) := by
  intro r hr
  refine ⟨.ended (.call e (ps.map (·.2))), ?_, rfl⟩
  rw [List.append_assoc, List.append_assoc]
  change r.run (f ++ 0x28 :: (Text.commaSeparated (ps.map (·.1)) ++ [0x29])) = _
  rw [h.run_behind rfl (fun _ => rfl) hr]
  exact run_brackets (Or.inl rfl) ps hps rfl r

/-- A list. -/
theorem list (ps : List (Text × Term)) (hps : ∀ p ∈ ps, Reads p.1 p.2) :
    Reads (ascii "[" ++ Text.commaSeparated (ps.map (·.1)) ++ ascii "]")
      (.list (ps.map (·.2))) := by
  intro r hr
  refine ⟨.ended (.list (ps.map (·.2))), ?_, rfl⟩
  rw [List.append_assoc]
  change run _ (0x5b :: (Text.commaSeparated (ps.map (·.1)) ++ [0x5d])) = _
  have henter : r.step 0x5b = some (r.enter .list) := by
    rw [step_mark_empty rfl hr]
    simp [mark, bracket, hr]
  rw [run_cons, henter, Option.bind_some]
  exact run_brackets (Or.inr rfl) ps (fun p hp => (hps p hp).readsItem _) rfl r

/-- Parentheses around an expression. -/
theorem group {t : Text} {e : Term} (h : Reads t e) : Reads (ascii "(" ++ t ++ ascii ")") e := by
  intro r hr
  refine ⟨.ended e, ?_, rfl⟩
  rw [List.append_assoc]
  change run _ (0x28 :: (t ++ [0x29])) = _
  have henter : r.step 0x28 = some (r.enter .group) := by
    rw [step_mark_empty rfl hr]
    simp [mark, bracket, hr]
  rw [run_cons, henter, Option.bind_some]
  have hbrackets := run_brackets (o := .group) (Or.inl rfl) [(t, e)]
    (by simpa using h.readsItem _) rfl r
  simpa [Text.commaSeparated, List.intercalate_singleton] using hbrackets

/-- An item. -/
theorem item {t i : Text} {e j : Term} (h : Reads t e) (hi : Reads i j) :
    Reads (t ++ ascii "[" ++ i ++ ascii "]") (.item e j) := by
  intro r hr
  refine ⟨.ended (.item e j), ?_, rfl⟩
  rw [List.append_assoc, List.append_assoc]
  change r.run (t ++ 0x5b :: (i ++ [0x5d])) = _
  rw [h.run_behind rfl (fun _ => rfl) hr]
  have hbrackets := run_brackets (o := .item e) (Or.inr rfl) [(i, j)]
    (by simpa using hi.readsItem _) rfl r
  simpa [Text.commaSeparated, List.intercalate_singleton] using hbrackets

/-- A slice. -/
theorem slice {t i j : Text} {e a b : Term} (h : Reads t e) (hi : Reads i a) (hj : Reads j b) :
    Reads (t ++ ascii "[" ++ i ++ ascii ":" ++ j ++ ascii "]") (.slice e a b) := by
  intro r hr
  obtain ⟨c, hrun, hc⟩ := hi (r.enter (.item e)) rfl
  refine ⟨.ended (.slice e a b), ?_, rfl⟩
  simp only [List.append_assoc]
  change r.run (t ++ 0x5b :: (i ++ 0x3a :: (j ++ [0x5d]))) = _
  rw [h.run_behind rfl (fun _ => rfl) hr, run_append_of_eq hrun, run_cons, step_mark rfl hc]
  -- the colon turns the brackets of an item into those of a slice
  have hcolon : mark { r.enter (.item e) with cursor := c } 0x3a =
      some (r.enter (.slice e a)) := by
    simp only [mark, enter, hc, Option.map_some]
  rw [hcolon, Option.bind_some]
  have hbrackets := run_brackets (o := .slice e a) (Or.inr rfl) [(j, b)]
    (by simpa using hj.readsItem _) rfl r
  simpa [Text.commaSeparated, List.intercalate_singleton] using hbrackets

end Reads

end ScriptSplice
