import ScriptSplice.Tree.Printer
import ScriptSplice.Proofs.Tree.Floats
import ScriptSplice.Proofs.Tree.Legible
import ScriptSplice.Proofs.Tree.Unlocated
/-!
# Reading what was written

The machine comes through the printed form of a tree piece by piece. A
piece leads from frames and a mode to others wherever it stands in a text
(`Reader.Leads`), and a token is closed by the blank or parenthesis behind
it (`Reader.Closes`). There is one law for each construct, and by induction
the printed form of a legible tree is read as this tree but for what
becomes of its leaves (`Node.readBack`): nothing, unless they are floating
point numbers.
-/

namespace ScriptSplice

/-- Whether a leaf is written in full: floating point numbers are not. -/
def Leaf.isExact : Leaf → Bool
  | float _ => false
  | _ => true

/-! ## What is read back -/

/-- The value with its leaf replaced. -/
def Value.mapLeaf {ν : Type} (g : Leaf → Leaf) : Value ν → Value ν
  | leaf l => leaf (g l)
  | v => v

/-- The field with its leaf replaced. -/
def Field.mapLeaf {ν : Type} (g : Leaf → Leaf) (f : Field ν) : Field ν :=
  ⟨f.name, f.value.mapLeaf g⟩

/-- A tree that was printed and read, with `g` for what becomes of its
leaves. It has no places. -/
def Node.readBack (g : Leaf → Leaf) : Node → Node :=
  fold fun n fields => ⟨n.kind, List.map (Field.mapLeaf g) fields, .unknown⟩

theorem Node.readBack_eq (g : Leaf → Leaf) (n : Node) :
    n.readBack g =
      ⟨n.kind, List.map (fun f => (f.map (readBack g)).mapLeaf g) n.fields, .unknown⟩ := by
  rw [readBack, fold_eq, Fields.map, List.map_map]
  rfl

theorem Node.readBack_id (n : Node) : n.readBack id = n.unlocated := by
  have hid (f : Field Node) : f.mapLeaf id = f := by
    obtain ⟨name, v⟩ := f
    cases v <;> rfl
  induction n using Node.induction with
  | step n ih =>
    rw [readBack_eq, unlocated_eq]
    simp only [hid]
    rw [← Fields.map_congr ih]
    rfl

namespace Reader

/-! ## Pieces of text -/

/-- Reading a text leads from frames and a mode to others. -/
def Leads (t : Text) (x y : List Frame × Mode) : Prop :=
  ∀ place, ∃ place', run false ⟨place, false, x.1, x.2⟩ t = ⟨place', false, y.1, y.2⟩

/-- The bytes that stand behind a token in a printed text. -/
def isDelimiter (b : UInt8) : Bool := b == 0x20 || b == 0x29

/-- What is being read is a token, and a delimiter behind it closes it. -/
def Closes (mode : Mode) (form : OpenForm) : Prop :=
  ∀ place b, isDelimiter b = true → settle place (some b) mode = .fields form

namespace Leads

variable {t u : Text} {x y z : List Frame × Mode}

theorem nil (x : List Frame × Mode) : Leads [] x x := fun place => ⟨place, rfl⟩

theorem append (h : Leads t x y) (h' : Leads u y z) : Leads (t ++ u) x z := by
  intro place
  obtain ⟨place₁, h⟩ := h place
  obtain ⟨place₂, h'⟩ := h' place₁
  exact ⟨place₂, by rw [run_append, h, h']⟩

theorem cons {b : UInt8} (h : Leads [b] x y) (h' : Leads t y z) : Leads (b :: t) x z :=
  append h h'

/-- A byte that is used. -/
theorem byte {frames : List Frame} {mode : Mode} {b : UInt8}
    (hsettle : ∀ place, settle place (some b) mode = mode)
    (hbetween : mode.isBetween = true → isSeparator b = false ∧ (b == semicolon) = false)
    (h : ∀ place, consume false place frames b mode = y) : Leads [b] (frames, mode) y := by
  intro place
  refine ⟨advance place b, ?_⟩
  change step false ⟨place, false, frames, mode⟩ b = _
  unfold step
  simp only [hsettle, h, if_neg Bool.false_ne_true]
  cases hmode : mode.isBetween with
  | false => rfl
  | true =>
    obtain ⟨hseparator, hcomment⟩ := hbetween hmode
    simp [hseparator, hcomment]

end Leads

/-- A delimiter closes the token before it. -/
theorem step_closed {frames : List Frame} {mode : Mode} {form : OpenForm}
    (hclose : Closes mode form) {b : UInt8} (hb : isDelimiter b = true) (place : Location) :
    step false ⟨place, false, frames, mode⟩ b =
      step false ⟨place, false, frames, .fields form⟩ b := by
  have hfields : settle place (some b) (.fields form) = .fields form := rfl
  unfold step
  simp only [hclose place b hb, hfields]
  rfl

theorem Leads.closed {t : Text} {y : List Frame × Mode} {frames : List Frame} {mode : Mode}
    {form : OpenForm} (hclose : Closes mode form) {b : UInt8} (hb : isDelimiter b = true)
    (h : Leads (b :: t) (frames, .fields form) y) : Leads (b :: t) (frames, mode) y := by
  intro place
  obtain ⟨place', h⟩ := h place
  refine ⟨place', ?_⟩
  rw [← h]
  change run false (step false _ b) t = run false (step false _ b) t
  rw [step_closed hclose hb]

theorem closes_fields (form : OpenForm) : Closes (.fields form) form := fun _ _ _ => rfl

theorem isWordByte_of_isDelimiter {b : UInt8} (h : isDelimiter b = true) :
    isWordByte b = false := by
  simp only [isDelimiter, Bool.or_eq_true, beq_iff_eq] at h
  rcases h with rfl | rfl <;> decide

/-- What a word is made of separates nothing. -/
theorem between_of_isWordByte {b : UInt8} (h : isWordByte b = true) :
    isSeparator b = false ∧ (b == semicolon) = false := by
  have hall : ∀ b, isWordByte b = true → isSeparator b = false ∧ (b == semicolon) = false :=
    Byte.forall_of_ofNat (by decide +kernel)
  exact hall b h

/-! ## Words -/

section

variable {frames : List Frame} {form : OpenForm} {name : Text}

/-- The bytes of a word are taken in one by one. -/
theorem leads_word {mode : Text → Mode} (hbetween : ∀ acc, (mode acc).isBetween = false)
    (hsettle : ∀ place b acc, isWordByte b = true → settle place (some b) (mode acc) = mode acc)
    (hconsume : ∀ place b acc, consume false place frames b (mode acc) = (frames, mode (b :: acc)))
    {w : Text} (hw : w.all isWordByte = true) (acc : Text) :
    Leads w (frames, mode acc) (frames, mode (w.reverse ++ acc)) := by
  induction w generalizing acc with
  | nil => exact .nil _
  | cons b w ih =>
    rw [List.all_cons, Bool.and_eq_true] at hw
    have hbyte : Leads [b] (frames, mode acc) (frames, mode (b :: acc)) :=
      .byte (fun place => hsettle place b acc hw.1) (by simp [hbetween])
        fun place => hconsume place b acc
    have hrest := ih hw.2 (b :: acc)
    rw [List.reverse_cons, List.append_assoc]
    exact hbyte.cons hrest

/-- The kind of a form. -/
theorem leads_kind (k : Kind) :
    Leads k.name (frames, .head .unknown) (frames, .kind .unknown k.name.reverse) := by
  have hname : k.name.isFieldName = true := by cases k <;> decide
  cases hk : k.name with
  | nil =>
    rw [hk] at hname
    cases hname
  | cons b w =>
    rw [hk, Text.isFieldName, List.all_cons, Bool.and_eq_true, Bool.and_eq_true] at hname
    obtain ⟨-, hb, hw⟩ := hname
    have hbyte : Leads [b] (frames, .head .unknown) (frames, .kind .unknown [b]) :=
      .byte (fun _ => rfl) (fun _ => between_of_isWordByte hb) fun _ => by simp [consume, hb]
    have hrest := @leads_word frames (.kind .unknown) (fun _ => rfl)
      (fun _ _ _ h => by simp [settle, continues, h]) (fun _ _ _ => rfl) w hw [b]
    rw [List.reverse_cons]
    exact hbyte.cons hrest

theorem closes_kind (k : Kind) :
    Closes (.kind .unknown k.name.reverse) ⟨k.name, k, .unknown, []⟩ := by
  intro place b hb
  simp [settle, continues, isWordByte_of_isDelimiter hb, Kind.ofName?_name]

/-- The name of a field, the blanks around it included. -/
theorem leads_name (hname : name.isFieldName = true) :
    Leads (ascii " :" ++ name ++ ascii " ") (frames, .fields form) (frames, .value form name) := by
  rw [Text.isFieldName, Bool.and_eq_true, Bool.not_eq_true'] at hname
  have hcolon : Leads (ascii " :") (frames, .fields form) (frames, .name form []) :=
    fun _ => ⟨_, rfl⟩
  have hword := @leads_word frames (.name form) (fun _ => rfl)
    (fun _ _ _ h => by simp [settle, continues, h]) (fun _ _ _ => rfl) name hname.2 []
  have hsettle (place : Location) :
      settle place (some 0x20) (.name form (name.reverse ++ [])) = .value form name := by
    have hne : (name.reverse ++ []).isEmpty = false := by simpa using hname.1
    simp only [settle, hne]
    simp [continues, isWordByte_of_isDelimiter (b := 0x20) rfl]
  have hblank : Leads (ascii " ") (frames, .name form (name.reverse ++ []))
      (frames, .value form name) := by
    intro place
    refine ⟨advance place 0x20, ?_⟩
    change step false ⟨place, false, frames, .name form (name.reverse ++ [])⟩ 0x20 = _
    unfold step
    simp only [hsettle]
    rfl
  exact (hcolon.append hword).append hblank

/-! ## Leaves -/

/-- A text is read as the value of any field. -/
def ReadsValue (t : Text) (v : Value Node) : Prop :=
  ∀ frames form name, ∃ mode, Leads t (frames, .value form name) (frames, mode) ∧
    Closes mode (form.add name v)

/-- A word that stands for a leaf. -/
theorem closes_word {w : Text} {l : Leaf} (h : wordLeaf? w.reverse = some l) :
    Closes (.word form name w) (form.add name (.leaf l)) := by
  intro place b hb
  simp [settle, continues, isWordByte_of_isDelimiter hb, closeWord, h]

/-- The bytes of a number are taken in as long as they continue it. -/
theorem leads_after {part part' : NumberPart} {t : Text} (h : part.after t = some part')
    (acc : Text) : Leads t (frames, .number form name acc part)
      (frames, .number form name (t.reverse ++ acc) part') := by
  induction t generalizing part acc with
  | nil =>
    cases h
    exact .nil _
  | cons b t ih =>
    rw [NumberPart.after, List.foldlM_cons] at h
    obtain ⟨next, hnext, h⟩ := Option.bind_eq_some_iff.1 h
    have hbyte : Leads [b] (frames, .number form name acc part)
        (frames, .number form name (b :: acc) next) :=
      .byte (fun _ => by simp [settle, continues, hnext]) (fun h => by cases h)
        fun _ => by simp [consume, hnext]
    have hrest := ih h (b :: acc)
    rw [List.reverse_cons, List.append_assoc]
    exact hbyte.cons hrest

/-- The token of a number is read as a number. -/
theorem leads_token (frames : List Frame) (form : OpenForm) (name : Text) {t : Text}
    (ht : IsToken t) : ∃ part, Leads t (frames, .value form name)
      (frames, .number form name t.reverse part) := by
  rcases ht with ⟨d, t, part, rfl, hd, hafter⟩ | ⟨_, rfl, d, t, part, rfl, hd, hafter⟩
  · have hfirst : Leads [d] (frames, .value form name) (frames, .number form name [d] .whole) := by
      have hall : ∀ b, Byte.isDigit b = true → isWordByte b = true ∧ (b == 0x28) = false ∧
          (b == 0x5b) = false ∧ (b == Byte.doubleQuote) = false :=
        Byte.forall_of_ofNat (by decide +kernel)
      obtain ⟨hword, hopen, hbracket, hquote⟩ := hall d hd
      exact .byte (fun _ => rfl) (fun _ => between_of_isWordByte hword) fun _ => by
        simp [consume, startValue, hopen, hbracket, hquote, hd]
    rw [List.reverse_cons]
    exact ⟨part, hfirst.cons (leads_after hafter [d])⟩
  · have hsign : Leads [0x2d] (frames, .value form name)
        (frames, .number form name [0x2d] .sign) := fun _ => ⟨_, rfl⟩
    have hfirst : NumberPart.sign.after (d :: t) = some part := by
      rw [NumberPart.after, List.foldlM_cons, NumberPart.next, if_pos hd]
      exact hafter
    rw [List.reverse_cons]
    exact ⟨part, hsign.cons (leads_after hfirst [0x2d])⟩

/-- A delimiter closes a number. -/
theorem settle_number {part : NumberPart} {b : UInt8} (hb : isDelimiter b = true)
    (place : Location) (token : Text) :
    settle place (some b) (.number form name token part) =
      closeNumber place form name token.reverse := by
  have hnext : part.next b = none := by
    simp only [isDelimiter, Bool.or_eq_true, beq_iff_eq] at hb
    rcases hb with rfl | rfl <;> cases part <;> decide
  simp [settle, continues, hnext, isWordByte_of_isDelimiter hb]

/-- What can be read as a number is no sign alone. -/
theorem closeNumber_eq {t : Text} (ht : IsToken t) (place : Location) :
    closeNumber place form name t = match Numeral.leaf? t with
      | some l => .fields (form.add name (.leaf l))
      | none => .failed ⟨.invalidNumber t, place⟩ := by
  have hsign : t ≠ ascii "-" ∧ t ≠ ascii "+" := by
    rcases ht with ⟨d, u, part, rfl, hd, -⟩ | ⟨_, rfl, d, u, part, rfl, -, -⟩
    · constructor <;>
      · rintro h
        cases h
        exact absurd hd (by decide)
    · constructor <;> exact fun h => nomatch h
  cases hleaf : Numeral.leaf? t <;> simp [closeNumber, hsign, hleaf]

theorem readsValue_number {t : Text} {l : Leaf} (ht : IsToken t)
    (hl : Numeral.leaf? t = some l) : ReadsValue t (.leaf l) := by
  intro frames form name
  obtain ⟨part, hlead⟩ := leads_token frames form name ht
  refine ⟨_, hlead, fun place b hb => ?_⟩
  rw [settle_number hb, List.reverse_reverse, closeNumber_eq ht, hl]

/-- A byte of a string, escaped or not. -/
theorem leads_escapeByte (b : UInt8) (text : Text) :
    Leads (Leaf.escapeByte b) (frames, .string form name text)
      (frames, .string form name (b :: text)) := by
  have hbackslash : Leads [Byte.backslash] (frames, .string form name text)
      (frames, .escape form name text) := fun _ => ⟨_, rfl⟩
  have hescape {c : UInt8} (hc : unescape c = b) : Leads [c] (frames, .escape form name text)
      (frames, .string form name (b :: text)) :=
    .byte (fun _ => rfl) (fun h => by cases h) fun _ => by rw [consume, hc]
  unfold Leaf.escapeByte
  by_cases hspecial : (b == Byte.doubleQuote || b == Byte.backslash) = true
  · rw [if_pos hspecial]
    rw [Bool.or_eq_true, beq_iff_eq, beq_iff_eq] at hspecial
    exact hbackslash.cons (hescape (by rcases hspecial with rfl | rfl <;> rfl))
  · rw [if_neg hspecial]
    split
    · rename_i hb
      exact hbackslash.cons (hescape (beq_iff_eq.1 hb).symm)
    · split
      · rename_i hb
        exact hbackslash.cons (hescape (beq_iff_eq.1 hb).symm)
      · split
        · rename_i hb
          exact hbackslash.cons (hescape (beq_iff_eq.1 hb).symm)
        · rw [Bool.or_eq_true, not_or, Bool.not_eq_true, Bool.not_eq_true] at hspecial
          exact .byte (fun _ => rfl) (fun h => by cases h) fun _ => by
            simp [consume, hspecial.1, hspecial.2]

theorem readsValue_str (t : Text) : ReadsValue (Leaf.str t).print (.leaf (.str t)) := by
  intro frames form name
  have hbytes (u text : Text) : Leads (u.flatMap Leaf.escapeByte) (frames, .string form name text)
      (frames, .string form name (u.reverse ++ text)) := by
    induction u generalizing text with
    | nil => exact .nil _
    | cons b u ih =>
      rw [List.flatMap_cons, List.reverse_cons, List.append_assoc]
      exact (leads_escapeByte b text).append (ih (b :: text))
  have hopen : Leads [Byte.doubleQuote] (frames, .value form name)
      (frames, .string form name []) := fun _ => ⟨_, rfl⟩
  have hclose : Leads [Byte.doubleQuote] (frames, .string form name (t.reverse ++ []))
      (frames, .fields (form.add name (.leaf (.str t)))) := by
    refine .byte (fun _ => rfl) (fun h => by cases h) fun _ => ?_
    rw [consume, if_pos (by rfl), List.append_nil, List.reverse_reverse]
  exact ⟨_, (hopen.append (hbytes t [])).append hclose, closes_fields _⟩

theorem readsValue_leaf {l : Leaf} (h : l.isExact = true) : ReadsValue l.print (.leaf l) := by
  intro frames form name
  cases l with
  | nil => exact ⟨.word form name (ascii "nil").reverse, fun _ => ⟨_, rfl⟩, closes_word rfl⟩
  | bool b =>
    cases b with
    | true => exact ⟨.word form name (ascii "true").reverse, fun _ => ⟨_, rfl⟩, closes_word rfl⟩
    | false => exact ⟨.word form name (ascii "false").reverse, fun _ => ⟨_, rfl⟩, closes_word rfl⟩
  | int i =>
    exact readsValue_number (isToken_ofInt _) (Numeral.leaf?_ofInt i) frames form name
  | float x => cases h
  | str t => exact readsValue_str t frames form name

end

/-! ## Nodes -/

/-- A text is read as a node wherever a form can begin. -/
def ReadsNode (t : Text) (n : Node) : Prop :=
  ∀ x frames, Leads (ascii "(") x (frames, .head .unknown) → Leads t x (attach n frames)

variable {frames : List Frame} {form : OpenForm} {name : Text}

theorem ReadsNode.value {t : Text} {n : Node} (h : ReadsNode t n) :
    ReadsValue t (.child (some n)) := fun frames form name =>
  ⟨_, h _ (.child form name :: frames) fun _ => ⟨_, rfl⟩, closes_fields _⟩

/-- Nodes with a blank between them are the elements of a sequence. -/
theorem leads_elements {ps : List (Text × Node)} (hps : ∀ p ∈ ps, ReadsNode p.1 p.2)
    (elements : List (Option Node)) :
    Leads (List.intercalate (ascii " ") (ps.map (·.1))) (frames, .sequence form name elements)
      (frames, .sequence form name ((ps.map fun p => some p.2).reverse ++ elements)) := by
  induction ps generalizing elements with
  | nil => exact .nil _
  | cons p ps ih =>
    have hp : Leads p.1 (frames, .sequence form name elements)
        (frames, .sequence form name (some p.2 :: elements)) :=
      hps p List.mem_cons_self _ (.element form name elements :: frames) fun _ => ⟨_, rfl⟩
    have hrest := ih (fun q hq => hps q (List.mem_cons_of_mem _ hq)) (some p.2 :: elements)
    rw [List.map_cons, List.map_cons, List.reverse_cons, List.append_assoc]
    cases ps with
    | nil =>
      rw [List.map_nil, List.intercalate_singleton]
      exact hp
    | cons q ps =>
      have hblank (elements : List (Option Node)) : Leads (ascii " ")
          (frames, .sequence form name elements) (frames, .sequence form name elements) :=
        fun _ => ⟨_, rfl⟩
      rw [List.map_cons, List.intercalate_cons_cons]
      exact (hp.append (hblank _)).append hrest

theorem readsValue_children {ps : List (Text × Node)} (hps : ∀ p ∈ ps, ReadsNode p.1 p.2) :
    ReadsValue (ascii "[" ++ List.intercalate (ascii " ") (ps.map (·.1)) ++ ascii "]")
      (.children (ps.map fun p => some p.2)) := by
  intro frames form name
  have hopen : Leads (ascii "[") (frames, .value form name) (frames, .sequence form name []) :=
    fun _ => ⟨_, rfl⟩
  have hclose : Leads (ascii "]")
      (frames, .sequence form name ((ps.map fun p => some p.2).reverse ++ []))
      (frames, .fields (form.add name (.children (ps.map fun p => some p.2)))) := by
    refine .byte (fun _ => rfl) (fun _ => by decide) fun _ => ?_
    rw [consume, if_pos (by rfl), List.append_nil, List.reverse_reverse]
  exact ⟨_, (hopen.append (leads_elements hps [])).append hclose, closes_fields _⟩

/-- **The fields of a form**, up to the parenthesis that closes it. -/
theorem leads_fields {fields : Fields Node} {print : Node → Text}
    {result : Field Node → Value Node}
    (hfields : ∀ f ∈ fields, f.name.isFieldName = true ∧
      ReadsValue (f.value.map print).print (result f))
    {mode : Mode} (hclose : Closes mode form) :
    Leads ((Fields.map print fields).flatMap Field.print ++ ascii ")") (frames, mode)
      (attach ⟨form.kind, form.fields.reverse ++ List.map (fun f => ⟨f.name, result f⟩) fields,
        form.location⟩ frames) := by
  induction fields generalizing mode form with
  | nil =>
    have hend : Leads (ascii ")") (frames, .fields form) (attach form.node frames) :=
      .byte (fun _ => rfl) (fun _ => by decide) fun _ => rfl
    rw [Fields.map, List.map_nil, List.map_nil, List.append_nil]
    exact .closed hclose rfl hend
  | cons f fields ih =>
    rw [List.forall_mem_cons] at hfields
    obtain ⟨⟨hname, hvalue⟩, hfields⟩ := hfields
    obtain ⟨mode', hlead, hclose'⟩ := hvalue frames form f.name
    have hfield := ((leads_name hname).append hlead).append (ih hfields hclose')
    have hnode : (form.add f.name (result f)).fields.reverse ++
        List.map (fun f => ⟨f.name, result f⟩) fields =
        form.fields.reverse ++ List.map (fun f => ⟨f.name, result f⟩) (f :: fields) := by
      simp [OpenForm.add]
    rw [hnode] at hfield
    have htext : (Fields.map print (f :: fields)).flatMap Field.print ++ ascii ")" =
        ascii " :" ++ f.name ++ ascii " " ++ (f.value.map print).print ++
          ((Fields.map print fields).flatMap Field.print ++ ascii ")") := by
      simp [Fields.map, Field.print]
    rw [htext]
    exact .closed hclose rfl hfield

/-- A sequence in which no node is absent. -/
theorem exists_map_some {ν : Type} {cs : List (Option ν)} (h : cs.all Option.isSome = true) :
    ∃ ns : List ν, cs = ns.map some := by
  induction cs with
  | nil => exact ⟨[], rfl⟩
  | cons c cs ih =>
    rw [List.all_cons, Bool.and_eq_true] at h
    obtain ⟨m, rfl⟩ := Option.isSome_iff_exists.1 h.1
    obtain ⟨ns, rfl⟩ := ih h.2
    exact ⟨m :: ns, rfl⟩

section

/-! `g` is what becomes of a leaf of the class `p` that is printed and
read. -/

variable {p : Leaf → Bool} {g : Leaf → Leaf}
  (hleaf : ∀ l, p l = true → ReadsValue l.print (.leaf (g l)))

include hleaf

/-- **A value is read back** if its nodes are. -/
theorem readsValue_map {v : Value Node} (hwhole : v.isWhole p = true)
    (hread : ∀ m ∈ v.nodes, ReadsNode m.print (m.readBack g)) :
    ReadsValue (v.map Node.print).print ((v.map (Node.readBack g)).mapLeaf g) := by
  cases v with
  | leaf l => exact hleaf l hwhole
  | child c =>
    cases c with
    | none => cases hwhole
    | some m => exact (hread m (List.mem_singleton_self m)).value
  | children cs =>
    obtain ⟨ms, rfl⟩ := exists_map_some hwhole
    have hread' : ∀ q ∈ ms.map fun m => (m.print, m.readBack g), ReadsNode q.1 q.2 := by
      intro q hq
      obtain ⟨m, hm, rfl⟩ := List.mem_map.1 hq
      exact hread m (by simpa [Value.nodes] using hm)
    have hchildren := readsValue_children hread'
    simp only [List.map_map, Function.comp_def] at hchildren
    simpa only [Value.map, Value.mapLeaf, Value.print, List.map_map, Function.comp_def,
      Option.map_some, printAbsent] using hchildren

/-- **A legible tree is read back.** -/
theorem readsNode_print {n : Node} (h : n.Legible p) : ReadsNode n.print (n.readBack g) := by
  induction n using Node.induction with
  | step n ih =>
    rw [Node.legible_iff] at h
    have hfields : ∀ f ∈ n.fields, f.name.isFieldName = true ∧
        ReadsValue (f.value.map Node.print).print
          ((f.value.map (Node.readBack g)).mapLeaf g) := by
      intro f hf
      obtain ⟨hself, hnodes⟩ := h f hf
      rw [Field.isLegible, Bool.and_eq_true] at hself
      exact ⟨hself.1, readsValue_map hleaf hself.2 fun m hm =>
        ih m (Fields.mem_nodes hf hm) (hnodes m hm)⟩
    intro x frames hopen
    rw [Node.print_eq, Node.readBack_eq, List.append_assoc]
    exact (hopen.append (leads_kind n.kind)).append
      (leads_fields hfields (closes_kind n.kind))

end

end Reader

namespace Node

/-- **Reading undoes printing**, but for what becomes of leaves. -/
theorem parse_print_eq {p : Leaf → Bool} {g : Leaf → Leaf}
    (hleaf : ∀ l, p l = true → Reader.ReadsValue l.print (.leaf (g l))) {n : Node}
    (h : n.Legible p) : Node.parse n.print false = .ok (n.readBack g) := by
  have hopen : Reader.Leads (ascii "(") ([], .start) ([], .head .unknown) := fun _ => ⟨_, rfl⟩
  obtain ⟨place, hrun⟩ := Reader.readsNode_print hleaf h ([], .start) [] hopen ⟨1, 1⟩
  change (Reader.run false .initial n.print).result = _
  rw [Reader.State.initial, hrun]
  rfl

/-- **Reading undoes printing** where every leaf is written in full. -/
theorem parse_print {n : Node} (h : n.Legible Leaf.isExact) :
    Node.parse n.print false = .ok n.unlocated := by
  rw [← readBack_id]
  exact parse_print_eq (fun _ => Reader.readsValue_leaf) h

/-- A printed tree says nothing of places. -/
theorem print_unlocated (n : Node) : n.unlocated.print = n.print := by
  induction n using Node.induction with
  | step n ih =>
    rw [print_eq, print_eq, kind_unlocated, fields_unlocated, Fields.map_map]
    rw [Fields.map_congr (f := print ∘ unlocated) (g := print) ih]

/-- **The reader undoes the printer.** The printed form of a legible tree
without floating point numbers is read as this tree, with no places, and
is printed the same again. Conversely every tree that is read is legible,
and the floating point numbers in it are finite. -/
theorem reader_undoes_printer :
    (∀ n : Node, n.Legible Leaf.isExact →
      Node.parse n.print false = .ok n.unlocated ∧ n.unlocated.print = n.print) ∧
    ∀ (text : Text) (located : Bool) (n : Node), Node.parse text located = .ok n →
      n.Legible Leaf.isFinite :=
  ⟨fun n h => ⟨parse_print h, n.print_unlocated⟩, fun _ _ _ h => legible_of_parse h⟩

/-- The least integer, a string of bytes that are escaped and bytes that
are not, two fields of one name, and a number that is not an integer. -/
theorem reader_undoes_printer_extremes :
    let string : Node :=
      ⟨.string, [⟨ascii "value", .leaf (.str [0x00, 0x22, 0x5c, 0x0a, 0x3b, 0xff])⟩], ⟨7, 7⟩⟩
    let tree : Node := ⟨.command, [⟨ascii "a", .leaf (.int (-9223372036854775808))⟩,
      ⟨ascii "a", .child (some string)⟩, ⟨ascii "-1/?", .children [some string, some string]⟩],
      ⟨1, 1⟩⟩
    tree.Legible Leaf.isExact ∧ Node.parse tree.print false = .ok tree.unlocated ∧
      tree.unlocated.print = tree.print ∧
      ∃ n, Node.parse (ascii "(number :value -1.5e300)") true = .ok n ∧
        n.Legible Leaf.isFinite := by
  intro string tree
  have hlegible : tree.Legible Leaf.isExact := by decide +kernel
  have hread : (Node.parse (ascii "(number :value -1.5e300)") true).isOk = true := by
    decide +kernel
  refine ⟨hlegible, (reader_undoes_printer.1 tree hlegible).1,
    (reader_undoes_printer.1 tree hlegible).2, ?_⟩
  cases h : Node.parse (ascii "(number :value -1.5e300)") true with
  | error e =>
    rw [h] at hread
    cases hread
  | ok n => exact ⟨n, rfl, reader_undoes_printer.2 _ _ n h⟩

end Node

end ScriptSplice
