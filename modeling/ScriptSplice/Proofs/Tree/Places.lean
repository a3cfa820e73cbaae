import ScriptSplice.Tree.Reader
import ScriptSplice.Proofs.Tree.Unlocated
/-!
# Reading with and without places

The machine uses the places of nodes for nothing: at every moment the
state that reads without them is the state that reads with them,
unlocated. So a text is accepted with places if it is without, and the
trees are the same but for them.
-/

namespace ScriptSplice

namespace Reader

/-! ## States without places -/

/-- The form with every place unknown. -/
def OpenForm.unlocated (form : OpenForm) : OpenForm :=
  { form with location := .unknown, fields := Fields.map Node.unlocated form.fields }

/-- Elements with every place unknown. -/
def unlocatedAll (elements : List (Option Node)) : List (Option Node) :=
  elements.map (·.map Node.unlocated)

/-- The frame with every place unknown. -/
def Frame.unlocated : Frame → Frame
  | child form field => child form.unlocated field
  | element form field elements => element form.unlocated field (unlocatedAll elements)

/-- The mode with every place of a node unknown. -/
def Mode.unlocated : Mode → Mode
  | .start => .start
  | .head _ => .head .unknown
  | .kind _ token => .kind .unknown token
  | .fields form => .fields form.unlocated
  | .name form field => .name form.unlocated field
  | .value form field => .value form.unlocated field
  | .sequence form field elements => .sequence form.unlocated field (unlocatedAll elements)
  | .string form field token => .string form.unlocated field token
  | .escape form field token => .escape form.unlocated field token
  | .number form field token part => .number form.unlocated field token part
  | .word form field token => .word form.unlocated field token
  | .done node => .done node.unlocated
  | .failed e => .failed e

/-- Frames and a mode with every place of a node unknown. -/
def unlocatedAt (next : List Frame × Mode) : List Frame × Mode :=
  (next.1.map Frame.unlocated, next.2.unlocated)

/-- The state with every place of a node unknown. -/
def State.unlocated (s : State) : State :=
  { s with frames := s.frames.map Frame.unlocated, mode := s.mode.unlocated }

theorem OpenForm.node_unlocated (form : OpenForm) :
    form.unlocated.node = form.node.unlocated := by
  rw [Node.unlocated_eq]
  exact congrArg (fun fields => Node.mk form.kind fields .unknown) List.map_reverse.symm

@[simp] theorem Mode.isBetween_unlocated (mode : Mode) :
    mode.unlocated.isBetween = mode.isBetween := by
  cases mode <;> rfl

/-! ## Steps -/

section

variable (place : Location) (form : OpenForm) (field : Text)

theorem closeWord_unlocated (word : Text) :
    closeWord place form.unlocated field word = (closeWord place form field word).unlocated := by
  unfold closeWord
  split <;> rfl

theorem closeNumber_unlocated (token : Text) :
    closeNumber place form.unlocated field token =
      (closeNumber place form field token).unlocated := by
  unfold closeNumber
  split
  · exact closeWord_unlocated place form field token
  · split
    · rfl
    · split <;> rfl

theorem settle_unlocated (next : Option UInt8) (mode : Mode) :
    settle place next mode.unlocated = (settle place next mode).unlocated := by
  cases mode with
  | kind location word =>
    simp only [settle, Mode.unlocated]
    split
    · rfl
    · split <;> rfl
  | name form field =>
    simp only [settle, Mode.unlocated]
    split
    · rfl
    · split <;> rfl
  | number form field token part =>
    simp only [settle, Mode.unlocated]
    split
    · rfl
    · split
      · rfl
      · exact closeNumber_unlocated place form field _
  | word form field word =>
    simp only [settle, Mode.unlocated]
    split
    · rfl
    · exact closeWord_unlocated place form field _
  | _ => rfl

theorem attach_unlocated (node : Node) (frames : List Frame) :
    attach node.unlocated (frames.map Frame.unlocated) = unlocatedAt (attach node frames) := by
  match frames with
  | [] => rfl
  | .child form field :: frames => rfl
  | .element form field elements :: frames => rfl

variable (located : Bool) (frames : List Frame) (b : UInt8)

theorem startValue_unlocated :
    startValue false place form.unlocated field (frames.map Frame.unlocated) b =
      unlocatedAt (startValue located place form field frames b) := by
  unfold startValue
  by_cases hopen : (b == 0x28) = true
  · rw [if_pos hopen, if_pos hopen]
    rfl
  · rw [if_neg hopen, if_neg hopen]
    repeat' split
    all_goals rfl

theorem consume_unlocated (mode : Mode) :
    consume false place (frames.map Frame.unlocated) b mode.unlocated =
      unlocatedAt (consume located place frames b mode) := by
  cases mode with
  | start =>
    simp only [consume, Mode.unlocated]
    split <;> rfl
  | head location =>
    simp only [consume, Mode.unlocated]
    split <;> rfl
  | fields form =>
    simp only [consume, Mode.unlocated]
    split
    · rw [OpenForm.node_unlocated, attach_unlocated]
    · split <;> rfl
  | value form field => exact startValue_unlocated place form field located frames b
  | sequence form field elements =>
    simp only [consume, Mode.unlocated]
    split
    · have hreverse : (unlocatedAll elements).reverse = unlocatedAll elements.reverse :=
        List.map_reverse.symm
      rw [hreverse]
      rfl
    · split <;> rfl
  | string form field text =>
    simp only [consume, Mode.unlocated]
    split
    · rfl
    · split <;> rfl
  | _ => rfl

end

/-- **Each byte** leads from unlocated states to unlocated states. -/
theorem step_unlocated (located : Bool) (s : State) (b : UInt8) :
    step false s.unlocated b = (step located s b).unlocated := by
  have hsettle : settle s.unlocated.place (some b) s.unlocated.mode =
      (settle s.place (some b) s.mode).unlocated := settle_unlocated ..
  have hconsume := consume_unlocated s.place located s.frames b (settle s.place (some b) s.mode)
  unfold step
  by_cases hcomment : s.comment = true
  · have hcomment' : s.unlocated.comment = true := hcomment
    rw [if_pos hcomment, if_pos hcomment']
    rfl
  · have hcomment' : ¬s.unlocated.comment = true := hcomment
    rw [if_neg hcomment, if_neg hcomment']
    simp only [hsettle, Mode.isBetween_unlocated]
    split
    · rfl
    · split
      · rfl
      · exact congrArg (fun next => State.mk (advance s.place b) s.comment next.1 next.2) hconsume

theorem run_unlocated (located : Bool) (s : State) (text : Text) :
    run false s.unlocated text = (run located s text).unlocated := by
  induction text generalizing s with
  | nil => rfl
  | cons b text ih =>
    change run false (step false s.unlocated b) text = _
    rw [step_unlocated located, ih]
    rfl

theorem finish_unlocated (place : Location) (mode : Mode) :
    finish place mode.unlocated = (finish place mode).map Node.unlocated := by
  cases mode <;> rfl

end Reader

/-- **Reading without places** gives what reading with them gives,
unlocated, or the same refusal. -/
theorem Node.parse_false (text : Text) (located : Bool) :
    Node.parse text false = (Node.parse text located).map Node.unlocated := by
  have hrun := Reader.run_unlocated located .initial text
  change Reader.run false .initial text = _ at hrun
  rw [Node.parse, hrun, Reader.State.result]
  change Reader.finish _ (Reader.settle _ none (Reader.Mode.unlocated _)) = _
  rw [Reader.settle_unlocated, Reader.finish_unlocated]
  rfl

end ScriptSplice
