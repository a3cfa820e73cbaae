import ScriptSplice.Tree.Reader
import ScriptSplice.Proofs.Tree.Numerals
import ScriptSplice.Proofs.Tree.Subtree
/-!
# Trees that a text can stand for

In the textual format every field has a name, which is a word, and no node
is absent. A tree is legible if it is so throughout, with leaves of some
class. Whatever the machine reads is: its state holds only legible trees
and words (`Reader.State.Sound`), which every byte preserves. What it
reads as a floating point number is finite.
-/

namespace ScriptSplice

/-! ## Legible trees -/

/-- Whether a text is a word of the textual format, which a field can be
named by. -/
def Text.isFieldName (t : Text) : Bool := !t.isEmpty && t.all Reader.isWordByte

/-- Whether a leaf has a value: it is finite, if it is a floating point
number. -/
def Leaf.isFinite : Leaf → Bool
  | float x => x.isFinite
  | _ => true

/-- Whether no node of a value is absent, and its leaf is of a class. -/
def Value.isWhole {ν : Type} (p : Leaf → Bool) : Value ν → Bool
  | leaf l => p l
  | child c => c.isSome
  | children cs => cs.all Option.isSome

/-- Whether a field has a name and a whole value. -/
def Field.isLegible {ν : Type} (p : Leaf → Bool) (f : Field ν) : Bool :=
  f.name.isFieldName && f.value.isWhole p

/-- **Legible trees**, with leaves of a class. -/
def Node.Legible (p : Leaf → Bool) (n : Node) : Prop :=
  ∀ m ∈ n.subtree, ∀ f ∈ m.fields, f.isLegible p = true

instance (p : Leaf → Bool) (n : Node) : Decidable (n.Legible p) :=
  inferInstanceAs (Decidable (∀ m ∈ n.subtree, ∀ f ∈ m.fields, f.isLegible p = true))

/-- A legible field with legible nodes. -/
structure Field.Legible (p : Leaf → Bool) (f : Field Node) : Prop where
  self : f.isLegible p = true
  nodes : ∀ m ∈ f.value.nodes, m.Legible p

section

variable {p : Leaf → Bool} {n : Node}

/-- A tree is legible if its fields are. -/
theorem Node.legible_iff : n.Legible p ↔ ∀ f ∈ n.fields, f.Legible p := by
  refine ⟨fun h f hf => ⟨h n (mem_subtree_self n) f hf, fun m hm k hk => h k ?_⟩, fun h m hm => ?_⟩
  · exact mem_subtree.2 (Or.inr (mem_descendants.2 ⟨m, Fields.mem_nodes hf hm, hk⟩))
  · rcases mem_subtree.1 hm with rfl | hm
    · exact fun f hf => (h f hf).self
    · obtain ⟨k, hk, hm⟩ := mem_descendants.1 hm
      obtain ⟨f, hf, hk⟩ := List.mem_flatMap.1 hk
      exact (h f hf).nodes k hk m hm

end

/-! ## The state of the machine -/

namespace Reader

/-- Nodes that are there, and legible. -/
def Present (cs : List (Option Node)) : Prop := ∀ c ∈ cs, ∃ n, c = some n ∧ n.Legible Leaf.isFinite

/-- A form whose fields are legible. -/
def OpenForm.Sound (form : OpenForm) : Prop := ∀ f ∈ form.fields, f.Legible Leaf.isFinite

/-- A form whose fields are legible, and the name of one more. -/
structure OpenForm.Awaits (form : OpenForm) (name : Text) : Prop where
  sound : form.Sound
  name : name.isFieldName = true

/-- A frame of a legible form. -/
def Frame.Sound : Frame → Prop
  | .child form name => form.Awaits name
  | .element form name elements => form.Awaits name ∧ Present elements

/-- A mode that holds only legible trees, and words as the names of
fields. -/
def Mode.Sound : Mode → Prop
  | .fields form => form.Sound
  | .name form field => form.Sound ∧ field.all isWordByte = true
  | .value form field | .string form field _ | .escape form field _ | .number form field _ _
  | .word form field _ => form.Awaits field
  | .sequence form field elements => form.Awaits field ∧ Present elements
  | .done node => node.Legible Leaf.isFinite
  | .start | .head _ | .kind .. | .failed _ => True

/-- **The invariant of reading.** -/
structure State.Sound (s : State) : Prop where
  frames : ∀ f ∈ s.frames, f.Sound
  mode : s.mode.Sound

namespace OpenForm

variable {form : OpenForm} {name : Text}

/-- A leaf is read as the value of a field. -/
theorem Awaits.leaf (h : form.Awaits name) {l : Leaf} (hl : l.isFinite = true) :
    (form.add name (.leaf l)).Sound := by
  refine List.forall_mem_cons.2 ⟨⟨?_, by simp [Value.nodes]⟩, h.sound⟩
  rw [Field.isLegible, h.name, Value.isWhole, hl]
  rfl

/-- A node is read as the value of a field. -/
theorem Awaits.child (h : form.Awaits name) {n : Node} (hn : n.Legible Leaf.isFinite) :
    (form.add name (.child (some n))).Sound := by
  refine List.forall_mem_cons.2 ⟨⟨?_, List.forall_mem_singleton.2 hn⟩, h.sound⟩
  rw [Field.isLegible, h.name]
  rfl

/-- A sequence of nodes is read as the value of a field. -/
theorem Awaits.children (h : form.Awaits name) {elements : List (Option Node)}
    (helements : Present elements) : (form.add name (.children elements.reverse)).Sound := by
  refine List.forall_mem_cons.2 ⟨⟨?_, fun m hm => ?_⟩, h.sound⟩
  · rw [Field.isLegible, h.name, Value.isWhole, List.all_reverse, Bool.true_and, List.all_eq_true]
    intro c hc
    obtain ⟨n, rfl, -⟩ := helements c hc
    rfl
  · obtain ⟨n, heq, hn⟩ := helements (some m) (by simpa [Value.nodes] using hm)
    cases heq
    exact hn

/-- A finished form is a legible node. -/
theorem Sound.node (h : form.Sound) : form.node.Legible Leaf.isFinite :=
  Node.legible_iff.2 fun f hf => h f (List.mem_reverse.1 hf)

end OpenForm

/-! ## Closing tokens -/

section

variable {form : OpenForm} {name : Text}

theorem isFinite_of_wordLeaf? {word : Text} {l : Leaf} (h : wordLeaf? word = some l) :
    l.isFinite = true := by
  unfold wordLeaf? at h
  split at h
  · cases h
    rfl
  · split at h
    · cases h
      rfl
    · split at h <;> cases h
      rfl

theorem sound_closeWord (h : form.Awaits name) (place : Location) (word : Text) :
    (closeWord place form name word).Sound := by
  unfold closeWord
  split
  · rename_i l hl
    exact h.leaf (isFinite_of_wordLeaf? hl)
  · trivial

theorem sound_closeNumber (h : form.Awaits name) (place : Location) (token : Text) :
    (closeNumber place form name token).Sound := by
  unfold closeNumber
  split
  · exact sound_closeWord h place token
  · split
    · trivial
    · split
      · rename_i l hl
        refine h.leaf ?_
        cases l with
        | float x => exact Numeral.isFinite_of_leaf? hl
        | _ => rfl
      · trivial

theorem sound_settle {mode : Mode} (h : mode.Sound) (place : Location) (next : Option UInt8) :
    (settle place next mode).Sound := by
  cases mode with
  | kind location word =>
    simp only [settle]
    split
    · trivial
    · split
      · exact List.forall_mem_nil _
      · trivial
  | name form name =>
    simp only [settle]
    split
    · exact h
    · split
      · trivial
      · rename_i hne
        refine ⟨h.1, ?_⟩
        rw [Text.isFieldName, List.all_reverse, h.2]
        simpa using hne
  | number form name token part =>
    simp only [settle]
    split
    · exact h
    · split
      · exact h
      · exact sound_closeNumber h place _
  | word form name word =>
    simp only [settle]
    split
    · exact h
    · exact sound_closeWord h place _
  | _ => exact h

end

/-! ## Using bytes -/

section

variable {frames : List Frame} {form : OpenForm} {name : Text}

/-- A state with these frames and this mode is sound. -/
def SoundAt (next : List Frame × Mode) : Prop := (∀ f ∈ next.1, f.Sound) ∧ next.2.Sound

theorem sound_attach {node : Node} (h : node.Legible Leaf.isFinite)
    (hframes : ∀ f ∈ frames, f.Sound) : SoundAt (attach node frames) := by
  match frames with
  | [] => exact ⟨hframes, h⟩
  | .child form name :: frames =>
    rw [List.forall_mem_cons] at hframes
    exact ⟨hframes.2, hframes.1.child h⟩
  | .element form name elements :: frames =>
    rw [List.forall_mem_cons] at hframes
    exact ⟨hframes.2, hframes.1.1, List.forall_mem_cons.2 ⟨⟨node, rfl, h⟩, hframes.1.2⟩⟩

theorem sound_startValue (h : form.Awaits name) (hframes : ∀ f ∈ frames, f.Sound) (located : Bool)
    (place : Location) (b : UInt8) : SoundAt (startValue located place form name frames b) := by
  unfold startValue
  split
  · exact ⟨List.forall_mem_cons.2 ⟨h, hframes⟩, trivial⟩
  · split
    · exact ⟨hframes, h, List.forall_mem_nil _⟩
    · repeat' split
      all_goals first | exact ⟨hframes, h⟩ | exact ⟨hframes, trivial⟩

/-- **Using a byte** keeps the state sound. The mode has been settled, so
the name of a field goes on only with a byte of a word. -/
theorem sound_consume {mode : Mode} (h : mode.Sound) (hframes : ∀ f ∈ frames, f.Sound)
    (located : Bool) (place : Location) (b : UInt8)
    (hname : ∀ form name, mode = .name form name → isWordByte b = true) :
    SoundAt (consume located place frames b mode) := by
  cases mode with
  | start =>
    simp only [consume]
    split <;> exact ⟨hframes, trivial⟩
  | head location =>
    simp only [consume]
    split <;> exact ⟨hframes, trivial⟩
  | fields form =>
    simp only [consume]
    split
    · exact sound_attach h.node hframes
    · split
      · exact ⟨hframes, h, rfl⟩
      · exact ⟨hframes, trivial⟩
  | name form name =>
    refine ⟨hframes, h.1, ?_⟩
    rw [List.all_cons, hname form name rfl, h.2]
    rfl
  | value form name => exact sound_startValue h hframes located place b
  | sequence form name elements =>
    simp only [consume]
    split
    · exact ⟨hframes, h.1.children h.2⟩
    · split
      · exact ⟨List.forall_mem_cons.2 ⟨h, hframes⟩, trivial⟩
      · exact ⟨hframes, trivial⟩
  | string form name text =>
    simp only [consume]
    split
    · exact ⟨hframes, h.leaf rfl⟩
    · split <;> exact ⟨hframes, h⟩
  | escape form name text => exact ⟨hframes, h⟩
  | number form name token part => exact ⟨hframes, h⟩
  | word form name word => exact ⟨hframes, h⟩
  | kind | done | failed => exact ⟨hframes, trivial⟩

/-- The name of a field is not settled by a byte that continues it. -/
theorem isWordByte_of_settle {place : Location} {b : UInt8} {mode : Mode}
    (h : settle place (some b) mode = .name form name) : isWordByte b = true := by
  cases mode with
  | name form name =>
    simp only [settle] at h
    split at h
    · assumption
    · split at h <;> cases h
  | kind location word =>
    simp only [settle] at h
    split at h
    · cases h
    · split at h <;> cases h
  | number form name token part =>
    simp only [settle, closeNumber, closeWord] at h
    repeat' split at h
    all_goals cases h
  | word form name word =>
    simp only [settle, closeWord] at h
    repeat' split at h
    all_goals cases h
  | _ => cases h

end

/-- **Every byte keeps the state sound.** -/
theorem sound_step {s : State} (h : s.Sound) (located : Bool) (b : UInt8) :
    (step located s b).Sound := by
  have hsettle := sound_settle h.mode s.place (some b)
  unfold step
  split
  · exact ⟨h.frames, h.mode⟩
  · dsimp only
    split
    · exact ⟨h.frames, hsettle⟩
    · split
      · exact ⟨h.frames, hsettle⟩
      · have hconsume := sound_consume hsettle h.frames located s.place b
          fun _ _ heq => isWordByte_of_settle heq
        exact ⟨hconsume.1, hconsume.2⟩

theorem sound_run {s : State} (h : s.Sound) (located : Bool) (text : Text) :
    (run located s text).Sound := by
  induction text generalizing s with
  | nil => exact h
  | cons b text ih => exact ih (sound_step h located b)

/-- Only a finished form is the outcome of reading. -/
theorem mode_of_finish {place : Location} {mode : Mode} {n : Node}
    (h : finish place mode = .ok n) : mode = .done n := by
  cases mode with
  | done node =>
    cases h
    rfl
  | _ => cases h

end Reader

/-- **Whatever is read is legible**, and its floating point numbers are
finite. -/
theorem Node.legible_of_parse {text : Text} {located : Bool} {n : Node}
    (h : Node.parse text located = .ok n) : n.Legible Leaf.isFinite := by
  have hinitial : Reader.State.initial.Sound := ⟨List.forall_mem_nil _, trivial⟩
  have hrun := Reader.sound_run hinitial located text
  have hsettle := Reader.sound_settle hrun.mode (Reader.run located .initial text).place none
  rw [Reader.mode_of_finish h] at hsettle
  exact hsettle

end ScriptSplice
