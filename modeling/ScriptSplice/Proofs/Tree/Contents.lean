import Mathlib.Data.List.Induction
import ScriptSplice.Proofs.Tree.Spacing
/-!
# What a text puts into a tree

A tree that was read holds its nodes and leaves in the order in which the
text has them: a node before its fields, a field before the next one
(`Node.contents`). The machine holds what it has read so far in this order
as well (`Reader.State.contents`), spread over the open forms, and every
byte only adds to the end: the leaf of the token that the byte closes, and
the node or string that it opens or closes itself
(`Reader.contents_step`). Counting what bytes add is how texts and trees
are compared.
-/

namespace ScriptSplice

/-! ## Contents of a tree -/

/-- A node, by its place, or a leaf. -/
inductive Content where
  | node (location : Location)
  | leaf (l : Leaf)

/-- The contents of an absent node are none. -/
def Content.ofOption (c : Option (List Content)) : List Content := c.getD []

/-- The contents of a value, from those of its nodes. -/
def Value.contents : Value (List Content) → List Content
  | .leaf l => [.leaf l]
  | .child c => Content.ofOption c
  | .children cs => cs.flatMap Content.ofOption

/-- The contents of fields, from those of their nodes. -/
def Fields.contents (fields : Fields (List Content)) : List Content :=
  fields.flatMap (·.value.contents)

namespace Node

/-- **The contents of a tree**, in the order of a text that it is read
from. -/
def contents : Node → List Content :=
  fold fun n fields => .node n.location :: Fields.contents fields

theorem contents_eq (n : Node) :
    n.contents = .node n.location :: Fields.contents (Fields.map contents n.fields) := by
  rw [contents, fold_eq]

end Node

namespace Reader

/-! ## Contents of a state -/

/-- The contents of the nodes read so far of a sequence, the last one first. -/
def elementContents (elements : List (Option Node)) : List Content :=
  elements.reverse.flatMap fun c => Content.ofOption (c.map Node.contents)

/-- The contents read so far of a form. -/
def OpenForm.contents (form : OpenForm) : List Content :=
  .node form.location :: Fields.contents (Fields.map Node.contents form.fields.reverse)

/-- The contents of the form of a frame. -/
def Frame.contents : Frame → List Content
  | .child form _ => form.contents
  | .element form _ elements => form.contents ++ elementContents elements

/-- The contents of the open forms, the innermost of which is first. -/
def outerContents : List Frame → List Content
  | [] => []
  | frame :: frames => outerContents frames ++ frame.contents

/-- The contents read so far, those of the open forms included. -/
def Mode.contents (outer : List Content) : Mode → List Content
  | .start => outer
  | .head location | .kind location _ => outer ++ [.node location]
  | .fields form | .name form _ | .value form _ | .string form _ _ | .escape form _ _
  | .number form _ _ _ | .word form _ _ => outer ++ form.contents
  | .sequence form _ elements => outer ++ (form.contents ++ elementContents elements)
  | .done node => node.contents
  | .failed _ => []

/-- **The contents read so far.** -/
def State.contents (s : State) : List Content := s.mode.contents (outerContents s.frames)

section

variable (form : OpenForm) (name : Text)

/-- A field adds the contents of its value. -/
theorem contents_add (v : Value Node) :
    (form.add name v).contents = form.contents ++ (v.map Node.contents).contents := by
  simp [OpenForm.contents, OpenForm.add, Fields.contents, Fields.map, Field.map]

/-- A finished form has the contents that were read of it. -/
theorem contents_node : form.node.contents = form.contents := Node.contents_eq _

@[simp] theorem elementContents_nil : elementContents [] = [] := rfl

theorem elementContents_cons (c : Option Node) (elements : List (Option Node)) :
    elementContents (c :: elements) =
      elementContents elements ++ Content.ofOption (c.map Node.contents) := by
  simp [elementContents]

/-- A finished sequence has the contents that were read of it. -/
theorem contents_children (elements : List (Option Node)) :
    ((Value.children elements.reverse).map Node.contents).contents = elementContents elements :=
  List.flatMap_map _ _ _

end

/-! ## Closing tokens -/

/-- The leaf whose token the next byte closes. A sign alone is the token of
no number. -/
def Mode.closedLeaf? (next : Option UInt8) : Mode → Option Leaf
  | .number _ _ token part =>
    if part = .sign ∨ continues next (fun b => (part.next b).isSome) then none
    else Numeral.leaf? token.reverse
  | .word _ _ token => if continues next isWordByte then none else wordLeaf? token.reverse
  | _ => none

/-- What holds of the token of a number and of the part it has come to, if
one is being read. -/
def Mode.Collecting (p : Text → NumberPart → Prop) : Mode → Prop
  | .number _ _ token part => p token part
  | _ => True

/-- A token is not empty, and more than a sign once it has left the part of
the sign. -/
def Numeric (token : Text) (part : NumberPart) : Prop :=
  token ≠ [] ∧ (part = .sign ↔ token = ascii "+" ∨ token = ascii "-")

section

variable (outer : List Content) (place : Location) (form : OpenForm) (name : Text)

theorem contents_closeWord (word : Text) :
    (closeWord place form name word).isFailed = true ∨
      (closeWord place form name word).contents outer =
        outer ++ form.contents ++ (wordLeaf? word).toList.map .leaf := by
  unfold closeWord
  cases wordLeaf? word with
  | none => exact .inl rfl
  | some l =>
    refine .inr ?_
    rw [Mode.contents, contents_add, List.append_assoc]
    rfl

/-- A sign alone is refused. -/
theorem isFailed_closeNumber_sign {token : Text} (h : token = ascii "+" ∨ token = ascii "-") :
    (closeNumber place form name token).isFailed = true := by
  rcases h with rfl | rfl <;> rfl

theorem contents_closeNumber {token : Text} (h : ¬(token = ascii "+" ∨ token = ascii "-")) :
    (closeNumber place form name token).isFailed = true ∨
      (closeNumber place form name token).contents outer =
        outer ++ form.contents ++ (Numeral.leaf? token).toList.map .leaf := by
  obtain ⟨hplus, hminus⟩ := not_or.1 h
  rw [closeNumber, if_neg hminus, if_neg hplus]
  cases Numeral.leaf? token with
  | none => exact .inl rfl
  | some l =>
    refine .inr ?_
    rw [Mode.contents, contents_add, List.append_assoc]
    rfl

/-- **Closing a token** adds the leaf that it stands for. -/
theorem contents_settle (next : Option UInt8) {mode : Mode}
    (hmode : mode.Collecting Numeric) :
    (settle place next mode).isFailed = true ∨
      (settle place next mode).contents outer =
        mode.contents outer ++ (mode.closedLeaf? next).toList.map .leaf := by
  have hnone (l : List Content) : l = l ++ (none : Option Leaf).toList.map .leaf :=
    (List.append_nil l).symm
  cases mode with
  | kind location token =>
    simp only [settle]
    split
    · exact .inr (hnone _)
    · split
      · exact .inr ((hnone _).trans (by rfl))
      · exact .inl rfl
  | name form field =>
    simp only [settle]
    split
    · exact .inr (hnone _)
    · split
      · exact .inl rfl
      · exact .inr (hnone _)
  | number form field token part =>
    have hreverse : (part = .sign) ↔ (token.reverse = ascii "+" ∨ token.reverse = ascii "-") := by
      rw [List.reverse_eq_iff, List.reverse_eq_iff]
      exact hmode.2
    simp only [settle, Mode.closedLeaf?]
    split
    · rename_i hcontinues
      rw [if_pos (.inr hcontinues)]
      exact .inr (hnone _)
    · rename_i hcontinues
      split
      · rename_i hsign
        rw [if_pos (.inl hsign.1)]
        exact .inr (hnone _)
      · by_cases hsign : part = .sign
        · exact .inl (isFailed_closeNumber_sign place form field (hreverse.1 hsign))
        · rw [if_neg (not_or.2 ⟨hsign, hcontinues⟩)]
          exact contents_closeNumber outer place form field (mt hreverse.2 hsign)
  | word form field token =>
    simp only [settle, Mode.closedLeaf?]
    split
    · exact .inr (hnone _)
    · exact contents_closeWord outer place form field token.reverse
  | _ => exact .inr (hnone _)

end

/-! ## Using bytes -/

section

variable (located : Bool) (place : Location) (frames : List Frame) (b : UInt8)

/-- The place that a node opened at `place` has. -/
def nodePlace : Location := if located then place else .unknown

/-- What a byte opens or closes itself: a node, or a string. -/
def Mode.gained : Mode → List Content
  | .start | .value _ _ | .sequence _ _ _ =>
    if b = 0x28 then [.node (nodePlace located place)] else []
  | .string _ _ text => if b = Byte.doubleQuote then [.leaf (.str text.reverse)] else []
  | _ => []

/-- A finished node adds its contents to those of the form around it. -/
theorem contents_attach (node : Node) :
    (attach node frames).2.contents (outerContents (attach node frames).1) =
      outerContents frames ++ node.contents := by
  match frames with
  | [] => rfl
  | .child form name :: frames =>
    simp only [attach, Mode.contents, contents_add, outerContents, Frame.contents,
      List.append_assoc]
    rfl
  | .element form name elements :: frames =>
    simp only [attach, Mode.contents, elementContents_cons, outerContents, Frame.contents,
      List.append_assoc]
    rfl

/-- **Using a byte** adds what it opens or closes. -/
theorem contents_consume (mode : Mode) :
    (consume located place frames b mode).2.isFailed = true ∨
      (consume located place frames b mode).2.contents
          (outerContents (consume located place frames b mode).1) =
        mode.contents (outerContents frames) ++ mode.gained located place b := by
  have hnone (l : List Content) : l = l ++ [] := (List.append_nil l).symm
  cases mode with
  | start =>
    simp only [consume, Mode.gained, beq_iff_eq]
    split
    · exact .inr rfl
    · exact .inl rfl
  | head location =>
    simp only [consume]
    split
    · exact .inr (hnone _)
    · exact .inl rfl
  | fields form =>
    simp only [consume]
    split
    · refine .inr ?_
      rw [contents_attach, contents_node]
      exact hnone _
    · split
      · exact .inr (hnone _)
      · exact .inl rfl
  | value form name =>
    by_cases hb : b = 0x28
    · subst hb
      exact .inr rfl
    · have hgained : (Mode.value form name).gained located place b = [] := if_neg hb
      have hopen : (b == 0x28) = false := beq_false_of_ne hb
      rw [hgained]
      simp only [consume, startValue, hopen]
      repeat' split
      all_goals first | exact .inl rfl | contradiction | exact .inr (by simp [Mode.contents])
  | sequence form name elements =>
    simp only [consume, Mode.gained]
    split
    · rename_i hb
      have hne : b ≠ 0x28 := by
        rw [beq_iff_eq.1 hb]
        decide
      rw [if_neg hne]
      refine .inr ?_
      rw [Mode.contents, contents_add, contents_children, List.append_nil, Mode.contents]
    · split
      · rename_i hb
        rw [if_pos (beq_iff_eq.1 hb)]
        exact .inr rfl
      · exact .inl rfl
  | string form name text =>
    simp only [consume, Mode.gained, beq_iff_eq]
    split
    · refine .inr ?_
      rw [Mode.contents, contents_add, Mode.contents, List.append_assoc]
      rfl
    · split <;> exact .inr (hnone _)
  | done node => exact .inl rfl
  | failed e => exact .inl rfl
  | _ => exact .inr (hnone _)

end

/-! ## Tokens of numbers -/

/-- What is a number once the token is closed was one that the byte
continues. -/
theorem settle_eq_number {place : Location} {b : UInt8} {mode : Mode} {form : OpenForm}
    {name token : Text} {part : NumberPart}
    (h : settle place (some b) mode = .number form name token part) :
    mode = .number form name token part ∧ (part.next b).isSome = true := by
  cases mode with
  | kind location word =>
    simp only [settle] at h
    repeat' split at h
    all_goals cases h
  | name form name =>
    simp only [settle] at h
    repeat' split at h
    all_goals cases h
  | number form name token part =>
    simp only [settle, closeNumber, closeWord] at h
    split at h
    · rename_i hcontinues
      cases h
      exact ⟨rfl, hcontinues⟩
    · repeat' split at h
      all_goals cases h
  | word form name word =>
    simp only [settle, closeWord] at h
    repeat' split at h
    all_goals cases h
  | _ => cases h

theorem NumberPart.next_ne_sign {part next : NumberPart} {b : UInt8} (h : part.next b = some next) :
    next ≠ .sign := by
  rintro rfl
  cases part <;> simp only [NumberPart.next] at h <;> repeat' split at h
  all_goals cases h

/-- What holds of the first byte of a number, and of a token with one byte
more that continues it. Tokens have their last byte first. -/
structure Grows (p : Text → NumberPart → Prop) : Prop where
  digit : ∀ {b}, Byte.isDigit b = true → p [b] .whole
  sign : ∀ {b}, b = 0x2b ∨ b = 0x2d → p [b] .sign
  next : ∀ {token part b part'}, p token part → part.next b = some part' → p (b :: token) part'

theorem grows_numeric : Grows Numeric where
  digit := by
    intro b hdigit
    refine ⟨List.cons_ne_nil _ _, iff_of_false (by decide) ?_⟩
    rintro (h | h) <;> cases h <;> exact absurd hdigit (by decide)
  sign := by
    rintro b (rfl | rfl) <;> exact ⟨List.cons_ne_nil _ _, iff_of_true rfl (by decide)⟩
  next := by
    intro token part b part' htoken hnext
    refine ⟨List.cons_ne_nil _ _, iff_of_false (NumberPart.next_ne_sign hnext) ?_⟩
    rintro (h | h) <;> exact htoken.1 (List.cons.inj h).2

section

variable {p : Text → NumberPart → Prop} (hp : Grows p)

include hp

/-- A token begins with its first digit or its sign. -/
theorem collecting_startValue (located : Bool) (place : Location) (form : OpenForm) (name : Text)
    (frames : List Frame) (b : UInt8) :
    (startValue located place form name frames b).2.Collecting p := by
  rw [startValue]
  split
  · trivial
  · split
    · trivial
    · split
      · trivial
      · split
        · rename_i hdigit
          exact hp.digit hdigit
        · split
          · rename_i hsign
            rw [Bool.or_eq_true, beq_iff_eq, beq_iff_eq] at hsign
            exact hp.sign hsign
          · split <;> trivial

theorem collecting_consume (located : Bool) (place : Location) (frames : List Frame) (b : UInt8)
    {mode : Mode} (hmode : mode.Collecting p)
    (hnext : ∀ form name token part, mode = .number form name token part →
      (part.next b).isSome = true) :
    (consume located place frames b mode).2.Collecting p := by
  cases mode with
  | start | head | sequence | string =>
    simp only [consume]
    repeat' split
    all_goals trivial
  | fields form =>
    simp only [consume]
    split
    · rcases frames with _ | ⟨_ | _, frames⟩ <;> trivial
    · split <;> trivial
  | value form name => exact collecting_startValue hp located place form name frames b
  | number form name token part =>
    obtain ⟨next, hnext⟩ := Option.isSome_iff_exists.1 (hnext _ _ _ _ rfl)
    simp only [consume, hnext, Option.getD_some]
    exact hp.next hmode hnext
  | _ => trivial

/-- **Every byte** leaves tokens of numbers as they have to be. -/
theorem collecting_step (located : Bool) {s : State} (hs : s.mode.Collecting p) (b : UInt8) :
    (step located s b).mode.Collecting p := by
  have hsettle : (settle s.place (some b) s.mode).Collecting p := by
    cases hmode : settle s.place (some b) s.mode with
    | number form name token part =>
      rw [(settle_eq_number hmode).1] at hs
      exact hs
    | _ => trivial
  unfold step
  split
  · exact hs
  · dsimp only
    split
    · exact hsettle
    · split
      · exact hsettle
      · exact collecting_consume hp located s.place s.frames b hsettle fun _ _ _ _ h =>
          (settle_eq_number h).2

theorem collecting_run (located : Bool) {s : State} (hs : s.mode.Collecting p) (text : Text) :
    (run located s text).mode.Collecting p := by
  induction text generalizing s with
  | nil => exact hs
  | cons b text ih => exact ih (collecting_step hp located hs b)

end

/-- All through a text no token is empty, and signs are signs. -/
theorem numeric_run (located : Bool) (text : Text) :
    (run located .initial text).mode.Collecting Numeric := by
  have hinitial : State.initial.mode.Collecting Numeric := trivial
  exact collecting_run grows_numeric located hinitial text

/-! ## Steps -/

/-- What a byte adds to the contents of a state: the leaf whose token it
closes, and what it opens or closes itself. -/
def State.added (located : Bool) (s : State) (b : UInt8) : List Content :=
  if s.comment then []
  else (s.mode.closedLeaf? (some b)).toList.map .leaf ++
    (settle s.place (some b) s.mode).gained located s.place b

/-- A separator opens and closes nothing, nor does a comment. -/
theorem gained_between {located : Bool} {place : Location} {b : UInt8} {mode : Mode}
    (hmode : mode.isBetween = true) (hb : isSeparator b = true ∨ (b == semicolon) = true) :
    mode.gained located place b = [] := by
  have hopen : b ≠ 0x28 := by
    rintro rfl
    rcases hb with hb | hb <;> exact absurd hb (by decide)
  cases mode with
  | start | value | sequence => exact if_neg hopen
  | string => cases hmode
  | _ => rfl

/-- **Every byte** adds to the contents, unless the machine fails. -/
theorem contents_step (located : Bool) {s : State} (hs : s.mode.Collecting Numeric) (b : UInt8) :
    (step located s b).mode.isFailed = true ∨
      (step located s b).contents = s.contents ++ s.added located b := by
  obtain ⟨place, comment, frames, mode⟩ := s
  cases comment with
  | true => exact .inr (List.append_nil _).symm
  | false =>
    have hsettle := contents_settle (outerContents frames) place (some b) hs
    have hconsume := contents_consume located place frames b (settle place (some b) mode)
    simp only [State.added, State.contents, Bool.false_eq_true, if_false]
    dsimp only at hsettle
    rcases hsettle with hfailed | hsettle
    · exact .inl (isFailed_step_of_settle hfailed)
    · rw [← List.append_assoc, ← hsettle]
      unfold step
      simp only [Bool.false_eq_true, if_false]
      split
      · rename_i hb
        rw [Bool.and_eq_true] at hb
        rw [gained_between hb.1 (.inl hb.2)]
        exact .inr (List.append_nil _).symm
      · split
        · rename_i hb
          rw [Bool.and_eq_true] at hb
          rw [gained_between hb.1 (.inr hb.2)]
          exact .inr (List.append_nil _).symm
        · exact hconsume

/-! ## A text byte by byte -/

/-- One byte more. -/
theorem run_concat (located : Bool) (s : State) (text : Text) (b : UInt8) :
    run located s (text ++ [b]) = step located (run located s text) b := List.foldl_append

/-- **What every byte carries on**, as long as the machine does not fail,
holds of a text and what is read of it. -/
theorem run_induction {located : Bool} {p : Text → State → Prop} (initial : p [] .initial)
    (next : ∀ text b, p text (run located .initial text) →
      (step located (run located .initial text) b).mode.isFailed = false →
      p (text ++ [b]) (step located (run located .initial text) b))
    (text : Text) :
    (run located .initial text).mode.isFailed = true ∨ p text (run located .initial text) := by
  induction text using List.reverseRecOn with
  | nil => exact .inr initial
  | append_singleton text b ih =>
    rw [run_concat]
    rcases ih with hfailed | ih
    · exact .inl (isFailed_step hfailed b)
    · cases hstep : (step located (run located .initial text) b).mode.isFailed with
      | true => exact .inl rfl
      | false => exact .inr (next text b ih hstep)

end Reader

/-- A text that is accepted has a tree. -/
theorem Node.exists_of_isOk {text : Text} {located : Bool}
    (h : (parse text located).isOk = true) : ∃ n, parse text located = .ok n := by
  cases hread : parse text located with
  | error e =>
    rw [hread] at h
    cases h
  | ok n => exact ⟨n, rfl⟩

/-- **A tree that was read** has the contents that were read, and the leaf
of a token that the end of the text closes. -/
theorem Node.contents_of_parse {text : Text} {located : Bool} {n : Node}
    (h : parse text located = .ok n) :
    (Reader.run located .initial text).mode.isFailed = false ∧
      n.contents = (Reader.run located .initial text).contents ++
        ((Reader.run located .initial text).mode.closedLeaf? none).toList.map .leaf := by
  have hdone := Reader.mode_of_finish h
  refine ⟨Bool.eq_false_iff.2 fun hfailed => ?_, ?_⟩
  · have hstill := Reader.isFailed_settle hfailed (Reader.run located .initial text).place none
    rw [hdone] at hstill
    cases hstill
  · have hsettle := Reader.contents_settle
      (Reader.outerContents (Reader.run located .initial text).frames)
      (Reader.run located .initial text).place none (Reader.numeric_run located text)
    rw [hdone] at hsettle
    exact hsettle.resolve_left Bool.false_ne_true

end ScriptSplice
