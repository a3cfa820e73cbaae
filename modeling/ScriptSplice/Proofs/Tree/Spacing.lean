import ScriptSplice.Proofs.Target.Naming
import ScriptSplice.Proofs.Tree.Legible
/-!
# Runs of separators

Between two tokens it does not matter what separates them. A text is
respaced by writing one blank for every run of separators and comments
outside of strings (`Text.respaced`). The machine on a text and the
machine on the respaced text go in step (`Reader.InStep`): they hold the
same forms and the same mode, except that the first one may still be inside
of a run that the second one is done with. A quote that no value begins
with makes both fail, so the machine and the scan for strings agree on what
a string is as long as it matters. Hence a text is read as a tree exactly
if the respaced text is, and as the same one (`Node.parse_respaced`).
-/

namespace ScriptSplice

/-! ## Respacing -/

/-- Blank, tab, line feed, form feed, carriage return, vertical tab and
comma. -/
def separators : List UInt8 := [0x20, 0x09, 0x0a, 0x0c, 0x0d, 0x0b, 0x2c]

/-- Where a place in a text is, as far as its layout goes. -/
inductive Spacing where
  /-- Before the first token, in a token, or behind a string. -/
  | token
  /-- Behind a separator, or behind the line of a comment. -/
  | gap
  | comment
  | string
  /-- Behind a backslash in a string. -/
  | escape

namespace Spacing

/-- Whether a place is in a run of separators and comments. -/
def isRun : Spacing → Bool
  | gap | comment => true
  | token | string | escape => false

/-- The place behind a byte that is not in a string or comment. -/
def behind (b : UInt8) : Spacing :=
  if b ∈ separators then gap
  else if b = 0x3b then comment
  else if b = Byte.doubleQuote then string
  else token

/-- The place behind a byte. A comment ends with its line. -/
def next : Spacing → UInt8 → Spacing
  | token, b | gap, b => behind b
  | comment, b => if b = Byte.newline then gap else comment
  | string, b =>
    if b = Byte.doubleQuote then token else if b = Byte.backslash then escape else string
  | escape, _ => string

/-- What is written for a byte: one blank for the first of a run, nothing
for the others, and a byte outside of runs as it is. -/
def written (s : Spacing) (b : UInt8) : Text :=
  if (s.next b).isRun then (if s.isRun then [] else [0x20]) else [b]

/-- The rest of a text with every run of separators and comments replaced
by one blank. -/
def respace (s : Spacing) : Text → Text
  | [] => []
  | b :: t => s.written b ++ (s.next b).respace t

end Spacing

/-- **The text with every run of separators and comments replaced by one
blank**, except in strings. -/
def Text.respaced (t : Text) : Text := Spacing.token.respace t

/-- A text with a comment, a string with separators in it, and a line break. -/
example : Text.respaced (ascii "(word ;x\n\t:value \"a, ;b\"\n)") =
    ascii "(word :value \"a, ;b\" )" := by decide

namespace Reader

theorem isSeparator_iff (b : UInt8) : isSeparator b = true ↔ b ∈ separators := by
  have hall : ∀ b, isSeparator b = decide (b ∈ separators) :=
    Byte.forall_of_ofNat (by decide +kernel)
  rw [hall, decide_eq_true_iff]

theorem beq_semicolon_of_mem {b : UInt8} (h : b ∈ separators) : (b == semicolon) = false := by
  simp only [separators, List.mem_cons, List.not_mem_nil, or_false] at h
  rcases h with rfl | rfl | rfl | rfl | rfl | rfl | rfl <;> rfl

/-! ## What ends a token -/

/-- A byte that continues no token. -/
def Breaks (b : UInt8) : Prop := isWordByte b = false ∧ ∀ part : NumberPart, part.next b = none

/-- Separators, semicolons and quotes do. -/
theorem breaks_of_mem {b : UInt8} (h : b ∈ separators ∨ b = 0x3b ∨ b = Byte.doubleQuote) :
    Breaks b := by
  have hall : ∀ b, (b ∈ separators ∨ b = 0x3b ∨ b = Byte.doubleQuote) → isWordByte b = false ∧
      Byte.isDigit b = false ∧ b ≠ 0x2e ∧ b ≠ 0x2b ∧ b ≠ 0x2d ∧
        Numeral.isExponentLetter b = false := Byte.forall_of_ofNat (by decide +kernel)
  obtain ⟨hword, hdigit, hpoint, hplus, hminus, hletter⟩ := hall b h
  exact ⟨hword, fun part => by cases part <;> simp [NumberPart.next, *]⟩

namespace Mode

/-- In a string. -/
def isQuoted : Mode → Bool
  | string .. | escape .. => true
  | _ => false

/-- Whether the machine has failed. -/
def isFailed : Mode → Bool
  | failed _ => true
  | _ => false

/-- The same, but for what a failure says. -/
def Agrees (m m' : Mode) : Prop := m = m' ∨ (m.isFailed = true ∧ m'.isFailed = true)

theorem Agrees.refl (m : Mode) : m.Agrees m := .inl rfl

theorem Agrees.failed (e e' : Error) : (Mode.failed e).Agrees (.failed e') := .inr ⟨rfl, rfl⟩

/-- Between tokens, or failed: what a mode outside of strings is once its
token is closed. -/
def IsClosed (m : Mode) : Prop := m.isBetween = true ∨ m.isFailed = true

end Mode

section

variable (p q : Location) (form : OpenForm) (name : Text)

theorem closeWord_agrees (word : Text) :
    (closeWord p form name word).Agrees (closeWord q form name word) := by
  unfold closeWord
  cases wordLeaf? word with
  | some l => exact .refl _
  | none => exact .failed _ _

theorem isClosed_closeWord (word : Text) : (closeWord p form name word).IsClosed := by
  unfold closeWord
  cases wordLeaf? word with
  | some l => exact .inl rfl
  | none => exact .inr rfl

theorem closeNumber_agrees (token : Text) :
    (closeNumber p form name token).Agrees (closeNumber q form name token) := by
  unfold closeNumber
  split
  · exact closeWord_agrees p q form name token
  · split
    · exact .failed _ _
    · cases Numeral.leaf? token with
      | some l => exact .refl _
      | none => exact .failed _ _

theorem isClosed_closeNumber (token : Text) : (closeNumber p form name token).IsClosed := by
  unfold closeNumber
  split
  · exact isClosed_closeWord p form name token
  · split
    · exact .inr rfl
    · cases Numeral.leaf? token with
      | some l => exact .inl rfl
      | none => exact .inr rfl

/-- Where a token is closed matters only for what a failure says. -/
theorem settle_agrees (next : Option UInt8) (mode : Mode) :
    (settle p next mode).Agrees (settle q next mode) := by
  cases mode with
  | kind location word =>
    simp only [settle]
    split
    · exact .refl _
    · cases Kind.ofName? word.reverse with
      | some k => exact .refl _
      | none => exact .failed _ _
  | name form field =>
    simp only [settle]
    split
    · exact .refl _
    · split
      · exact .failed _ _
      · exact .refl _
  | number form field token part =>
    simp only [settle]
    split
    · exact .refl _
    · split
      · exact .refl _
      · exact closeNumber_agrees p q form field _
  | word form field word =>
    simp only [settle]
    split
    · exact .refl _
    · exact closeWord_agrees p q form field _
  | _ => exact .refl _

end

/-- **All bytes that continue no token** close it alike. -/
theorem settle_breaks {b c : UInt8} (hb : Breaks b) (hc : Breaks c) (p : Location)
    (mode : Mode) : settle p (some b) mode = settle p (some c) mode := by
  cases mode with
  | number form field token part =>
    simp only [settle, continues, Option.any_some, hb.1, hc.1, hb.2, hc.2]
  | _ => simp only [settle, continues, Option.any_some, hb.1, hc.1]

/-- Outside of strings they do close it. -/
theorem isClosed_settle {b : UInt8} (hb : Breaks b) {mode : Mode} (hmode : mode.isQuoted = false)
    (p : Location) : (settle p (some b) mode).IsClosed := by
  cases mode with
  | kind location word =>
    simp only [settle, continues, Option.any_some, hb.1]
    cases Kind.ofName? word.reverse with
    | some k => exact .inl rfl
    | none => exact .inr rfl
  | name form field =>
    simp only [settle, continues, Option.any_some, hb.1]
    cases field.isEmpty with
    | true => exact .inr rfl
    | false => exact .inl rfl
  | number form field token part =>
    simp only [settle, continues, Option.any_some, hb.1, hb.2, Option.isSome_none,
      Bool.false_eq_true, and_false, if_false]
    exact isClosed_closeNumber p form field _
  | word form field word =>
    simp only [settle, continues, Option.any_some, hb.1]
    exact isClosed_closeWord p form field _
  | string | escape => cases hmode
  | failed e => exact .inr rfl
  | _ => exact .inl rfl

/-- Between tokens there is no token to close. -/
theorem settle_between {mode : Mode} (hmode : mode.isBetween = true) (p : Location)
    (next : Option UInt8) : settle p next mode = mode := by
  cases mode <;> first | rfl | cases hmode

theorem Mode.IsClosed.isQuoted {m : Mode} (h : m.IsClosed) : m.isQuoted = false := by
  rcases h with h | h <;> cases m <;> first | rfl | cases h

/-- No token becomes a string by what follows it. -/
theorem isQuoted_settle {mode : Mode} (hmode : mode.isQuoted = false) (p : Location)
    (next : Option UInt8) : (settle p next mode).isQuoted = false := by
  cases mode with
  | kind location word =>
    simp only [settle]
    split
    · rfl
    · cases Kind.ofName? word.reverse <;> rfl
  | name form field =>
    simp only [settle]
    split
    · rfl
    · split <;> rfl
  | number form field token part =>
    simp only [settle]
    split
    · rfl
    · split
      · rfl
      · exact (isClosed_closeNumber p form field _).isQuoted
  | word form field word =>
    simp only [settle]
    split
    · rfl
    · exact (isClosed_closeWord p form field _).isQuoted
  | _ => exact hmode

/-! ## Using bytes -/

section

variable (p q : Location) (frames : List Frame) (b : UInt8)

/-- Without places of nodes, where a byte is used matters only for what a
failure says. -/
theorem consume_agrees (mode : Mode) :
    (consume false p frames b mode).1 = (consume false q frames b mode).1 ∧
      (consume false p frames b mode).2.Agrees (consume false q frames b mode).2 := by
  cases mode with
  | start | head location | fields form | sequence form name elements =>
    simp only [consume, Bool.false_eq_true, if_false]
    repeat' split
    all_goals exact ⟨rfl, by first | exact .refl _ | exact .failed _ _⟩
  | value form name =>
    simp only [consume, startValue, Bool.false_eq_true, if_false]
    repeat' split
    all_goals exact ⟨rfl, by first | exact .refl _ | exact .failed _ _⟩
  | done node => exact ⟨rfl, .failed _ _⟩
  | _ => exact ⟨rfl, .refl _⟩

/-- Only a quote begins a string. -/
theorem isQuoted_consume {mode : Mode} (hmode : mode.isQuoted = false)
    (hb : b ≠ Byte.doubleQuote) : (consume false p frames b mode).2.isQuoted = false := by
  cases mode with
  | start | head location | sequence form name elements =>
    simp only [consume]
    repeat' split
    all_goals rfl
  | fields form =>
    simp only [consume]
    split
    · rcases frames with _ | ⟨_ | _, frames⟩ <;> rfl
    · split <;> rfl
  | value form name =>
    have hquote : (b == Byte.doubleQuote) = false := beq_false_of_ne hb
    simp only [consume, startValue, hquote]
    repeat' split
    all_goals first | rfl | contradiction
  | string | escape => cases hmode
  | _ => rfl

/-- A quote begins a string where a value can begin, and nothing else. -/
theorem consume_quote {mode : Mode} (hmode : mode.IsClosed) :
    (consume false p frames Byte.doubleQuote mode).2.isFailed = true ∨
      ∃ form name, mode = .value form name := by
  rcases hmode with hmode | hmode <;> cases mode <;>
    first | exact .inr ⟨_, _, rfl⟩ | exact .inl rfl | cases hmode

end

/-- A machine that has failed has failed for good. -/
theorem isFailed_step {located : Bool} {s : State} (hs : s.mode.isFailed = true) (b : UInt8) :
    (step located s b).mode.isFailed = true := by
  obtain ⟨p, comment, frames, mode⟩ := s
  cases mode with
  | failed e => cases comment <;> rfl
  | _ => cases hs

theorem isFailed_run {s : State} (hs : s.mode.isFailed = true) (text : Text) :
    (run false s text).mode.isFailed = true := by
  induction text generalizing s with
  | nil => exact hs
  | cons b text ih => exact ih (isFailed_step hs b)

/-- A comment goes on to the end of its line. -/
theorem step_comment {b : UInt8} (hb : b ≠ Byte.newline) (p : Location) (frames : List Frame)
    (mode : Mode) : step false ⟨p, true, frames, mode⟩ b = ⟨advance p b, true, frames, mode⟩ := by
  have hgoes : (b != Byte.newline) = true := bne_iff_ne.2 hb
  rw [step, if_pos rfl, hgoes]

/-- A string goes on to its quote. -/
theorem step_string {b : UInt8} (hquote : b ≠ Byte.doubleQuote) (hbackslash : b ≠ Byte.backslash)
    (p : Location) (frames : List Frame) (form : OpenForm) (name text : Text) :
    step false ⟨p, false, frames, .string form name text⟩ b =
      ⟨advance p b, false, frames, .string form name (b :: text)⟩ := by
  simp only [step, settle, Mode.isBetween, Bool.false_and, Bool.false_eq_true, if_false, consume,
    beq_false_of_ne hquote, beq_false_of_ne hbackslash]

/-- The first byte of a run closes the token before it, and all of the run
is passed over. -/
theorem step_run {b : UInt8} (hb : b ∈ separators ∨ b = 0x3b) (p : Location)
    (frames : List Frame) {mode : Mode} (hmode : (settle p (some b) mode).isBetween = true) :
    step false ⟨p, false, frames, mode⟩ b =
      ⟨advance p b, b == semicolon, frames, settle p (some b) mode⟩ := by
  unfold step
  simp only [hmode, Bool.true_and, Bool.false_eq_true, if_false]
  rcases hb with hb | rfl
  · rw [if_pos ((isSeparator_iff b).2 hb), beq_semicolon_of_mem hb]
  · rfl

/-- Any other byte is used. -/
theorem step_used {located : Bool} {b : UInt8} (hseparator : b ∉ separators)
    (hsemicolon : b ≠ 0x3b) (p : Location) (frames : List Frame) (mode : Mode) :
    step located ⟨p, false, frames, mode⟩ b =
      ⟨advance p b, false, (consume located p frames b (settle p (some b) mode)).1,
        (consume located p frames b (settle p (some b) mode)).2⟩ := by
  have hs : isSeparator b = false :=
    Bool.eq_false_iff.2 fun h => hseparator ((isSeparator_iff b).1 h)
  have hc : (b == semicolon) = false := beq_false_of_ne hsemicolon
  unfold step
  simp only [hs, hc, Bool.and_false, Bool.false_eq_true, if_false]

/-! ## In step -/

/-- **Two machines in step**: the first one on a text, at a place of some
sort, and the second one on the respaced text. -/
inductive InStep : Spacing → State → State → Prop
  | token {p q : Location} {frames : List Frame} {mode : Mode} : mode.isQuoted = false →
      InStep .token ⟨p, false, frames, mode⟩ ⟨q, false, frames, mode⟩
  | gap {p q : Location} {frames : List Frame} {mode : Mode} : mode.isBetween = true →
      InStep .gap ⟨p, false, frames, mode⟩ ⟨q, false, frames, mode⟩
  | comment {p q : Location} {frames : List Frame} {mode : Mode} : mode.isBetween = true →
      InStep .comment ⟨p, true, frames, mode⟩ ⟨q, false, frames, mode⟩
  | string {p q : Location} {frames : List Frame} (form : OpenForm) (name text : Text) :
      InStep .string ⟨p, false, frames, .string form name text⟩
        ⟨q, false, frames, .string form name text⟩
  | escape {p q : Location} {frames : List Frame} (form : OpenForm) (name text : Text) :
      InStep .escape ⟨p, false, frames, .escape form name text⟩
        ⟨q, false, frames, .escape form name text⟩
  | failed (r : Spacing) {s t : State} : s.mode.isFailed = true → t.mode.isFailed = true →
      InStep r s t

section

variable {p q : Location} {frames : List Frame} {mode : Mode} {b : UInt8}

theorem Mode.Agrees.eq_of_isBetween {m m' : Mode} (h : m.Agrees m') (hm : m.isBetween = true) :
    m = m' := by
  rcases h with h | ⟨h, -⟩
  · exact h
  · cases m with
    | failed e => cases hm
    | _ => cases h

/-- Closing a token can fail, whatever byte closes it. -/
theorem isFailed_step_of_settle {located : Bool}
    (h : (settle p (some b) mode).isFailed = true) :
    (step located ⟨p, false, frames, mode⟩ b).mode.isFailed = true := by
  unfold step
  cases hm : settle p (some b) mode with
  | failed e => rfl
  | _ => rw [hm] at h; cases h

theorem isRun_behind (hb : b ∈ separators ∨ b = 0x3b) : (Spacing.behind b).isRun = true := by
  unfold Spacing.behind
  rcases hb with hb | rfl
  · rw [if_pos hb]
    rfl
  · rfl

theorem isRun_behind_of_not (hb : ¬(b ∈ separators ∨ b = 0x3b)) :
    (Spacing.behind b).isRun = false := by
  obtain ⟨hseparator, hsemicolon⟩ := not_or.1 hb
  unfold Spacing.behind
  rw [if_neg hseparator, if_neg hsemicolon]
  split <;> rfl

/-- The place of the first machine in a run. -/
theorem inStep_run (hb : b ∈ separators ∨ b = 0x3b) (hmode : mode.isBetween = true) :
    InStep (.behind b) ⟨p, b == semicolon, frames, mode⟩ ⟨q, false, frames, mode⟩ := by
  unfold Spacing.behind
  rcases hb with hb | rfl
  · rw [if_pos hb, beq_semicolon_of_mem hb]
    exact .gap hmode
  · exact .comment hmode

/-- **A run begins.** Its first byte and a blank close a token alike. -/
theorem inStep_open (hb : b ∈ separators ∨ b = 0x3b) (hmode : mode.isQuoted = false) :
    InStep (.behind b) (step false ⟨p, false, frames, mode⟩ b)
      (step false ⟨q, false, frames, mode⟩ 0x20) := by
  have hbreaks : Breaks b := breaks_of_mem (hb.imp_right .inl)
  have hblank : Breaks 0x20 := breaks_of_mem (.inl (by decide))
  have hagrees : (settle p (some b) mode).Agrees (settle q (some 0x20) mode) := by
    rw [settle_breaks hbreaks hblank]
    exact settle_agrees p q _ mode
  rcases isClosed_settle hbreaks hmode p with hbetween | hfailed
  · have heq := hagrees.eq_of_isBetween hbetween
    rw [step_run hb p frames hbetween, step_run (.inl (by decide)) q frames (heq ▸ hbetween), heq]
    exact inStep_run hb (heq ▸ hbetween)
  · have hfailed' : (settle q (some 0x20) mode).isFailed = true :=
      hagrees.elim (fun heq => heq ▸ hfailed) And.right
    exact .failed _ (isFailed_step_of_settle hfailed) (isFailed_step_of_settle hfailed')

/-- **A byte outside of runs, strings and comments** is used by both
machines. -/
theorem inStep_used (hseparator : b ∉ separators) (hsemicolon : b ≠ 0x3b)
    (hmode : mode.isQuoted = false) :
    InStep (.behind b) (step false ⟨p, false, frames, mode⟩ b)
      (step false ⟨q, false, frames, mode⟩ b) := by
  have hsettle := settle_agrees p q (some b) mode
  have hquoted := isQuoted_settle hmode p (some b)
  rcases hsettle with heq | ⟨hfailed, hfailed'⟩
  · obtain ⟨hframes, hconsume⟩ := consume_agrees p q frames b (settle p (some b) mode)
    rw [step_used hseparator hsemicolon, step_used hseparator hsemicolon, ← heq, ← hframes]
    rcases hconsume with hconsume | ⟨hfailed, hfailed'⟩
    · rw [← hconsume, Spacing.behind, if_neg hseparator, if_neg hsemicolon]
      split
      · rename_i hb
        subst hb
        have hbreaks : Breaks Byte.doubleQuote := breaks_of_mem (.inr (.inr rfl))
        rcases consume_quote p frames (isClosed_settle hbreaks hmode p) with
          hfailed | ⟨form, name, hvalue⟩
        · exact .failed _ hfailed hfailed
        · rw [hvalue]
          exact .string form name []
      · rename_i hb
        exact .token (isQuoted_consume p frames b hquoted hb)
    · exact .failed _ hfailed hfailed'
  · exact .failed _ (isFailed_step_of_settle hfailed) (isFailed_step_of_settle hfailed')

end

theorem isFailed_settle {mode : Mode} (hmode : mode.isFailed = true) (p : Location)
    (next : Option UInt8) : (settle p next mode).isFailed = true := by
  cases mode with
  | failed e => rfl
  | _ => cases hmode

theorem finish_eq_ok {p : Location} {m : Mode} {n : Node} : finish p m = .ok n ↔ m = .done n :=
  ⟨mode_of_finish, fun h => h ▸ rfl⟩

theorem Mode.ne_done_of_isFailed {m : Mode} (h : m.isFailed = true) (n : Node) : m ≠ .done n := by
  rintro rfl
  cases h

/-- Where a text ends matters only for what a failure says. -/
theorem finish_agrees {m m' : Mode} (h : m.Agrees m') (p q : Location) (n : Node) :
    finish p m = .ok n ↔ finish q m' = .ok n := by
  rw [finish_eq_ok, finish_eq_ok]
  rcases h with rfl | ⟨hm, hm'⟩
  · rfl
  · exact iff_of_false (Mode.ne_done_of_isFailed hm n) (Mode.ne_done_of_isFailed hm' n)

/-- In a run of separators and comments, of which the blank is written, only
the first machine goes on. -/
theorem InStep.run_goes_on {s t : State} {b : UInt8} {r : Spacing} (hrun : r.isRun = true)
    (hnext : (r.next b).isRun = true) (h : InStep (r.next b) (Reader.step false s b) t) :
    InStep (r.next b) (Reader.step false s b) (run false t (r.written b)) := by
  rw [Spacing.written, if_pos hnext, if_pos hrun]
  exact h

/-- What is not in a run is written as it is. -/
theorem InStep.copied {s t : State} {b : UInt8} {r : Spacing}
    (hnext : (r.next b).isRun = false)
    (h : InStep (r.next b) (Reader.step false s b) (Reader.step false t b)) :
    InStep (r.next b) (Reader.step false s b) (run false t (r.written b)) := by
  rw [Spacing.written, hnext]
  exact h

/-- **Machines in step stay in step**: one byte of the text, and what is
written for it. -/
theorem InStep.step {r : Spacing} {s t : State} (h : InStep r s t) (b : UInt8) :
    InStep (r.next b) (Reader.step false s b) (run false t (r.written b)) := by
  cases h with
  | token hmode =>
    by_cases hb : b ∈ separators ∨ b = 0x3b
    · have hwritten : Spacing.token.written b = [0x20] := by
        rw [Spacing.written, Spacing.next, isRun_behind hb]
        rfl
      rw [hwritten]
      exact inStep_open hb hmode
    · obtain ⟨hseparator, hsemicolon⟩ := not_or.1 hb
      exact .copied (isRun_behind_of_not hb) (inStep_used hseparator hsemicolon hmode)
  | @gap p q frames mode hmode =>
    by_cases hb : b ∈ separators ∨ b = 0x3b
    · refine .run_goes_on rfl (isRun_behind hb) ?_
      have hsettle : settle p (some b) mode = mode := settle_between hmode p _
      rw [step_run hb p frames (hsettle.symm ▸ hmode), hsettle]
      exact inStep_run hb hmode
    · obtain ⟨hseparator, hsemicolon⟩ := not_or.1 hb
      have hquoted : mode.isQuoted = false := Mode.IsClosed.isQuoted (.inl hmode)
      exact .copied (isRun_behind_of_not hb) (inStep_used hseparator hsemicolon hquoted)
  | comment hmode =>
    by_cases hb : b = Byte.newline
    · subst hb
      exact .run_goes_on rfl rfl (.gap hmode)
    · have hnext : Spacing.comment.next b = .comment := if_neg hb
      refine .run_goes_on rfl (by rw [hnext]; rfl) ?_
      rw [hnext, step_comment hb]
      exact .comment hmode
  | string form name text =>
    by_cases hquote : b = Byte.doubleQuote
    · subst hquote
      exact .copied rfl (.token rfl)
    · by_cases hbackslash : b = Byte.backslash
      · subst hbackslash
        exact .copied rfl (.escape form name text)
      · have hnext : Spacing.string.next b = .string := by
          rw [Spacing.next, if_neg hquote, if_neg hbackslash]
        refine .copied (by rw [hnext]; rfl) ?_
        rw [hnext, step_string hquote hbackslash, step_string hquote hbackslash]
        exact .string form name _
  | escape form name text => exact .copied rfl (.string form name _)
  | failed r hs ht => exact .failed _ (isFailed_step hs b) (isFailed_run ht _)

/-- **The run.** -/
theorem InStep.run {r : Spacing} {s t : State} (h : InStep r s t) (text : Text) :
    InStep (text.foldl Spacing.next r) (Reader.run false s text)
      (Reader.run false t (r.respace text)) := by
  induction text generalizing r s t with
  | nil => exact h
  | cons b text ih =>
    rw [Spacing.respace, run_append]
    exact ih (h.step b)

/-- What machines in step come to when their texts end. -/
theorem InStep.result {r : Spacing} {s t : State} (h : InStep r s t) (n : Node) :
    s.result = .ok n ↔ t.result = .ok n := by
  have hagrees : (settle s.place none s.mode).Agrees (settle t.place none t.mode) := by
    cases h with
    | failed r hs ht =>
      exact .inr ⟨isFailed_settle hs _ _, isFailed_settle ht _ _⟩
    | _ => exact settle_agrees _ _ _ _
  exact finish_agrees hagrees _ _ n

end Reader

/-- **The layout of a text does not matter.** A text is read as a tree
exactly if the text is that has one blank for every run of separators and
comments outside of strings, and as the same tree. -/
theorem Node.parse_respaced (text : Text) (n : Node) :
    parse text false = .ok n ↔ parse text.respaced false = .ok n := by
  have hinitial : Reader.InStep .token .initial .initial := .token rfl
  exact (hinitial.run text).result n

end ScriptSplice
