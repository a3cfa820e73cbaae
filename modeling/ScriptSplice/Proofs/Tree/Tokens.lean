import ScriptSplice.Proofs.Tree.Contents
import ScriptSplice.Proofs.Tree.Forms
/-!
# The tokens of numbers

The tokens of numbers in a text are those that the reading machine closes
(`Reader.numberTokens`). They stand in the text, in their order
(`Reader.inOrder_numberTokens`), and each has the form of a numeral, since
the machine follows this form byte by byte (`Reader.grows_formed`). A token
that is read as nothing makes reading fail (`Reader.parse_of_mem`).
-/

namespace ScriptSplice

namespace Reader

open Numeral

/-! ## Tokens have the form of numerals -/

/-- The part that a numeral has come to. -/
def formPart (f : Numeral.Form) : NumberPart :=
  match f.exponent with
  | some e => if e.sign = .absent ∧ e.digits = [] then .exponentLetter else .exponentDigits
  | none => if f.fraction.isSome then .fraction else if f.whole = [] then .sign else .whole

/-- A token with the form of a numeral that has come to a part. -/
def Formed (token : Text) (part : NumberPart) : Prop :=
  ∃ f : Numeral.Form, f.text = token.reverse ∧ formPart f = part

/-- A digit more. -/
theorem all_isDigit_append {t : Text} {b : UInt8} (ht : t.all Byte.isDigit = true)
    (hb : Byte.isDigit b = true) : (t ++ [b]).all Byte.isDigit = true := by
  rw [List.all_append, ht, List.all_cons, hb]
  rfl

/-- A letter more: the exponent begins. -/
theorem exists_letter {f : Numeral.Form} (hf : f.exponent = none) {b : UInt8}
    (hb : isExponentLetter b = true) :
    ∃ g : Numeral.Form, g.text = f.text ++ [b] ∧ formPart g = .exponentLetter := by
  have htext (capital : Bool) :
      Numeral.Form.text { f with exponent := some ⟨capital, .absent, [], rfl⟩ } =
        f.text ++ [if capital then 0x45 else 0x65] := by
    simp [Numeral.Form.text, Numeral.Form.unsigned, hf, Exponent.text, Exponent.letter, Sign.text]
  rw [isExponentLetter, Bool.or_eq_true, beq_iff_eq, beq_iff_eq] at hb
  rcases hb with rfl | rfl
  · exact ⟨_, htext false, rfl⟩
  · exact ⟨_, htext true, rfl⟩

/-- A byte more in an exponent: its sign, or a digit. -/
theorem exists_exponent {f : Numeral.Form} {e : Exponent} (hf : f.exponent = some e) {b : UInt8}
    {part : NumberPart} (hnext : (formPart f).next b = some part) :
    ∃ g : Numeral.Form, g.text = f.text ++ [b] ∧ formPart g = part := by
  obtain ⟨capital, sign, digits, hdigits⟩ := e
  have hdigit (hb : Byte.isDigit b = true) :
      ∃ g : Numeral.Form, g.text = f.text ++ [b] ∧ formPart g = .exponentDigits :=
    ⟨{ f with exponent := some ⟨capital, sign, digits ++ [b], all_isDigit_append hdigits hb⟩ },
      by simp [Numeral.Form.text, Numeral.Form.unsigned, hf, Exponent.text, Exponent.letter],
      by simp [formPart]⟩
  rw [formPart, hf] at hnext
  dsimp only at hnext
  split at hnext
  · rename_i hempty
    obtain ⟨rfl, rfl⟩ := hempty
    simp only [NumberPart.next, Bool.or_eq_true, beq_iff_eq, Option.ite_none_right_eq_some,
      Option.some.injEq] at hnext
    obtain ⟨(hb | rfl) | rfl, rfl⟩ := hnext
    · exact hdigit hb
    · exact ⟨{ f with exponent := some ⟨capital, .plus, [], rfl⟩ },
        by simp [Numeral.Form.text, Numeral.Form.unsigned, hf, Exponent.text, Exponent.letter,
          Sign.text, ascii], rfl⟩
    · exact ⟨{ f with exponent := some ⟨capital, .minus, [], rfl⟩ },
        by simp [Numeral.Form.text, Numeral.Form.unsigned, hf, Exponent.text, Exponent.letter,
          Sign.text, ascii], rfl⟩
  · simp only [NumberPart.next, Option.ite_none_right_eq_some, Option.some.injEq] at hnext
    obtain ⟨hb, rfl⟩ := hnext
    exact hdigit hb

/-- A byte more behind the point: a digit, or the letter of an exponent. -/
theorem exists_fraction {f : Numeral.Form} (hexponent : f.exponent = none) {t : Text}
    (hfraction : f.fraction = some t) {b : UInt8} {part : NumberPart}
    (hnext : NumberPart.fraction.next b = some part) :
    ∃ g : Numeral.Form, g.text = f.text ++ [b] ∧ formPart g = part := by
  have ht := f.isDigit_fraction t hfraction
  simp only [NumberPart.next] at hnext
  split at hnext
  · rename_i hb
    obtain rfl := Option.some.inj hnext
    refine ⟨{ f with
      fraction := some (t ++ [b])
      isDigit_fraction := fun u hu => ?_ }, ?_, ?_⟩
    · obtain rfl := Option.some.inj hu
      exact all_isDigit_append ht hb
    · simp [Numeral.Form.text, Numeral.Form.unsigned, hexponent, hfraction]
    · simp [formPart, hexponent]
  · obtain ⟨hb, heq⟩ := Option.ite_none_right_eq_some.1 hnext
    obtain rfl := Option.some.inj heq
    exact exists_letter hexponent hb

section

variable {f : Numeral.Form} (hexponent : f.exponent = none) (hfraction : f.fraction = none)
  {b : UInt8}

include hexponent hfraction

/-- A digit more before the point. -/
theorem exists_digit (hb : Byte.isDigit b = true) :
    ∃ g : Numeral.Form, g.text = f.text ++ [b] ∧ formPart g = .whole :=
  ⟨{ f with whole := f.whole ++ [b], isDigit_whole := all_isDigit_append f.isDigit_whole hb },
    by simp [Numeral.Form.text, Numeral.Form.unsigned, hexponent, hfraction],
    by simp [formPart, hexponent, hfraction]⟩

/-- The point. -/
theorem exists_point (hb : b = 0x2e) :
    ∃ g : Numeral.Form, g.text = f.text ++ [b] ∧ formPart g = .fraction := by
  refine ⟨{ f with fraction := some [], isDigit_fraction := fun u hu => ?_ }, ?_, ?_⟩
  · obtain rfl := Option.some.inj hu
    rfl
  · simp [Numeral.Form.text, Numeral.Form.unsigned, hexponent, hfraction, hb]
  · simp [formPart, hexponent]

/-- A byte more before the point. -/
theorem exists_whole {part : NumberPart} (hnext : (formPart f).next b = some part) :
    ∃ g : Numeral.Form, g.text = f.text ++ [b] ∧ formPart g = part := by
  rw [formPart, hexponent] at hnext
  dsimp only at hnext
  rw [hfraction, Option.isSome_none, if_neg Bool.false_ne_true] at hnext
  split at hnext
  -- behind the sign
  · simp only [NumberPart.next, beq_iff_eq] at hnext
    split at hnext
    · rename_i hb
      obtain rfl := Option.some.inj hnext
      exact exists_digit hexponent hfraction hb
    · obtain ⟨hb, heq⟩ := Option.ite_none_right_eq_some.1 hnext
      obtain rfl := Option.some.inj heq
      exact exists_point hexponent hfraction hb
  -- behind a digit
  · simp only [NumberPart.next, beq_iff_eq] at hnext
    split at hnext
    · rename_i hb
      obtain rfl := Option.some.inj hnext
      exact exists_digit hexponent hfraction hb
    · split at hnext
      · rename_i hb
        obtain rfl := Option.some.inj hnext
        exact exists_point hexponent hfraction hb
      · obtain ⟨hb, heq⟩ := Option.ite_none_right_eq_some.1 hnext
        obtain rfl := Option.some.inj heq
        exact exists_letter hexponent hb

end

/-- **A byte that a token continues with** continues the form. -/
theorem exists_next {f : Numeral.Form} {b : UInt8} {part : NumberPart}
    (hnext : (formPart f).next b = some part) :
    ∃ g : Numeral.Form, g.text = f.text ++ [b] ∧ formPart g = part := by
  cases hexponent : f.exponent with
  | some e => exact exists_exponent hexponent hnext
  | none =>
    cases hfraction : f.fraction with
    | some t =>
      rw [formPart, hexponent, hfraction] at hnext
      exact exists_fraction hexponent hfraction hnext
    | none => exact exists_whole hexponent hfraction hnext

/-- **The machine follows the form of numerals.** -/
theorem grows_formed : Grows Formed where
  digit := by
    intro b hb
    refine ⟨⟨.absent, [b], none, none, by simp [hb], fun t ht => by cases ht⟩, rfl, ?_⟩
    rfl
  sign := by
    rintro b (rfl | rfl)
    · exact ⟨⟨.plus, [], none, none, rfl, fun t ht => by cases ht⟩, rfl, rfl⟩
    · exact ⟨⟨.minus, [], none, none, rfl, fun t ht => by cases ht⟩, rfl, rfl⟩
  next := by
    rintro token part b part' ⟨f, htext, rfl⟩ hnext
    obtain ⟨g, hg, hpart⟩ := exists_next hnext
    exact ⟨g, by rw [hg, htext, List.reverse_cons], hpart⟩

/-! ## Tokens that are closed -/

/-- The token of a number that the next byte closes. A sign alone is none. -/
def Mode.closedToken? (next : Option UInt8) : Mode → Option Text
  | .number _ _ token part =>
    if part = .sign ∨ continues next (fun b => (part.next b).isSome) then none
    else some token.reverse
  | _ => none

/-- The token of a number that a byte closes, if it does. -/
def State.closed (s : State) (b : UInt8) : List Text :=
  if s.comment then [] else (s.mode.closedToken? (some b)).toList

/-- The tokens of numbers that the bytes of a text close. -/
def closedTokens (located : Bool) (s : State) : Text → List Text
  | [] => []
  | b :: t => s.closed b ++ closedTokens located (step located s b) t

/-- **The tokens of numbers in a text**: those that its bytes close, and the
one that its end closes. -/
def numberTokens (located : Bool) (text : Text) : List Text :=
  closedTokens located .initial text ++
    ((run located .initial text).mode.closedToken? none).toList

theorem closedTokens_concat (located : Bool) (s : State) (t : Text) (b : UInt8) :
    closedTokens located s (t ++ [b]) = closedTokens located s t ++ (run located s t).closed b := by
  induction t generalizing s with
  | nil => exact List.append_nil _
  | cons c t ih =>
    rw [List.cons_append, closedTokens, ih, closedTokens, List.append_assoc]
    rfl

/-- What holds of tokens in the making holds of those that are closed. -/
theorem exists_part_of_closedToken? {p : Text → NumberPart → Prop} {mode : Mode}
    (hmode : mode.Collecting p) {next : Option UInt8} {token : Text}
    (h : mode.closedToken? next = some token) : ∃ part ≠ .sign, p token.reverse part := by
  cases mode with
  | number form name word part =>
    obtain ⟨hopen, heq⟩ := Option.ite_none_left_eq_some.1 h
    obtain rfl := Option.some.inj heq
    refine ⟨part, fun hsign => hopen (.inl hsign), ?_⟩
    rw [List.reverse_reverse]
    exact hmode
  | _ => cases h

theorem exists_part_of_mem {p : Text → NumberPart → Prop} (hp : Grows p) {located : Bool}
    {text token : Text} (h : token ∈ numberTokens located text) :
    ∃ part ≠ .sign, p token.reverse part := by
  have hclosed {s : State} (hs : s.mode.Collecting p) (t : Text)
      (hmem : token ∈ closedTokens located s t) : ∃ part ≠ .sign, p token.reverse part := by
    induction t generalizing s with
    | nil => cases hmem
    | cons b t ih =>
      rcases List.mem_append.1 hmem with hmem | hmem
      · rw [State.closed] at hmem
        split at hmem
        · cases hmem
        · exact exists_part_of_closedToken? hs (Option.mem_toList.1 hmem)
      · exact ih (collecting_step hp located hs b) hmem
  have hinitial : State.initial.mode.Collecting p := trivial
  rcases List.mem_append.1 h with hmem | hmem
  · exact hclosed hinitial text hmem
  · exact exists_part_of_closedToken? (collecting_run hp located hinitial text)
      (Option.mem_toList.1 hmem)

/-- **Every token of a number has the form of a numeral.** -/
theorem exists_form {located : Bool} {text token : Text} (h : token ∈ numberTokens located text) :
    ∃ f : Numeral.Form, f.text = token := by
  obtain ⟨part, -, f, hf, -⟩ := exists_part_of_mem grows_formed h
  exact ⟨f, by rw [hf, List.reverse_reverse]⟩

/-! ## Where tokens stand -/

/-- **Tokens in a text**, in their order and apart from each other. -/
inductive InOrder : Text → List Text → Prop
  | nil (gap : Text) : InOrder gap []
  | snoc {text : Text} {tokens : List Text} (token gap : Text) :
      InOrder text tokens → InOrder (text ++ token ++ gap) (tokens ++ [token])

theorem InOrder.append {text : Text} {tokens : List Text} (h : InOrder text tokens) (u : Text) :
    InOrder (text ++ u) tokens := by
  cases h with
  | nil => exact .nil _
  | snoc token gap h =>
    rw [List.append_assoc]
    exact h.snoc token (gap ++ u)

/-- What follows may be a token, or it may not. -/
theorem InOrder.close {text token : Text} {tokens closed : List Text} (h : InOrder text tokens)
    (hclosed : closed = [] ∨ closed = [token]) : InOrder (text ++ token) (tokens ++ closed) := by
  rcases hclosed with rfl | rfl
  · rw [List.append_nil]
    exact h.append token
  · have hsnoc := h.snoc token []
    rwa [List.append_nil] at hsnoc

/-- The bytes of a number that have been read so far. -/
def Mode.pending : Mode → Text
  | .number _ _ token _ => token.reverse
  | _ => []

/-- A token that is closed has all the bytes that were read of it. -/
theorem Mode.closedToken?_cases (next : Option UInt8) (mode : Mode) :
    (mode.closedToken? next).toList = [] ∨ (mode.closedToken? next).toList = [mode.pending] := by
  cases mode with
  | number form name token part =>
    rw [closedToken?]
    split
    · exact .inl rfl
    · exact .inr rfl
  | _ => exact .inl rfl

/-- Comments are between tokens. -/
def State.CommentsBetween (s : State) : Prop := s.comment = true → s.mode.isBetween = true

theorem commentsBetween_step (located : Bool) {s : State} (hs : s.CommentsBetween) (b : UInt8) :
    (step located s b).CommentsBetween := by
  obtain ⟨place, comment, frames, mode⟩ := s
  cases comment with
  | true => exact fun _ => hs rfl
  | false =>
    unfold step
    simp only [Bool.false_eq_true, if_false]
    split
    · exact fun h => by cases h
    · split
      · rename_i hb
        exact fun _ => (Bool.and_eq_true_iff.1 hb).1
      · exact fun h => by cases h

theorem pending_between {mode : Mode} (hmode : mode.isBetween = true) : mode.pending = [] := by
  cases mode with
  | number => cases hmode
  | _ => rfl

/-- What is not in a number begins one with its next byte, or does not. -/
theorem pending_consume (located : Bool) (place : Location) (frames : List Frame) (b : UInt8)
    {mode : Mode} (hmode : mode.pending = []) :
    (consume located place frames b mode).2.pending = [] ∨
      (consume located place frames b mode).2.pending = [b] := by
  cases mode with
  | start | head | sequence | string =>
    simp only [consume]
    repeat' split
    all_goals exact .inl rfl
  | fields form =>
    simp only [consume]
    split
    · rcases frames with _ | ⟨_ | _, frames⟩ <;> exact .inl rfl
    · split <;> exact .inl rfl
  | value form name =>
    simp only [consume, startValue]
    repeat' split
    all_goals first | exact .inl rfl | exact .inr rfl
  | number form name token part =>
    obtain rfl : token = [] := List.reverse_eq_nil_iff.1 hmode
    exact .inr rfl
  | _ => exact .inl rfl

/-- **Every byte** continues the number being read, or closes its token and
may begin another one. -/
theorem pending_step (located : Bool) {s : State} (hs : s.CommentsBetween) (b : UInt8) :
    ((step located s b).mode.pending = s.mode.pending ++ [b] ∧ s.closed b = []) ∨
      (((step located s b).mode.pending = [] ∨ (step located s b).mode.pending = [b]) ∧
        (s.closed b = [] ∨ s.closed b = [s.mode.pending])) := by
  obtain ⟨place, comment, frames, mode⟩ := s
  cases comment with
  | true => exact .inr ⟨.inl (pending_between (hs rfl)), .inl rfl⟩
  | false =>
    have hclosed : State.closed ⟨place, false, frames, mode⟩ b = [] ∨
        State.closed ⟨place, false, frames, mode⟩ b = [mode.pending] :=
      mode.closedToken?_cases (some b)
    have hused (hpending : (settle place (some b) mode).pending = []) :
        (step located ⟨place, false, frames, mode⟩ b).mode.pending = [] ∨
          (step located ⟨place, false, frames, mode⟩ b).mode.pending = [b] := by
      unfold step
      simp only [Bool.false_eq_true, if_false]
      split
      · exact .inl hpending
      · split
        · exact .inl hpending
        · exact pending_consume located place frames b hpending
    cases hsettle : settle place (some b) mode with
    | number form name token part =>
      obtain ⟨rfl, hnext⟩ := settle_eq_number hsettle
      refine .inl ⟨?_, ?_⟩
      · simp only [step, Bool.false_eq_true, if_false, hsettle, Mode.isBetween, Bool.false_and,
          consume, Mode.pending, List.reverse_cons]
      · simp [State.closed, Mode.closedToken?, continues, hnext]
    | _ => exact .inr ⟨hused (by rw [hsettle]; rfl), hclosed⟩

/-- **The tokens so far stand in the text so far**, and behind them the
number being read. -/
theorem inOrder_run (located : Bool) (text : Text) :
    (run located .initial text).CommentsBetween ∧
      ∃ before, InOrder before (closedTokens located .initial text) ∧
        text = before ++ (run located .initial text).mode.pending := by
  induction text using List.reverseRecOn with
  | nil =>
    refine ⟨fun h => ?_, [], .nil [], rfl⟩
    cases h
  | append_singleton text b ih =>
    obtain ⟨hcomments, before, hbefore, htext⟩ := ih
    rw [run_concat, closedTokens_concat]
    refine ⟨commentsBetween_step located hcomments b, ?_⟩
    rcases pending_step located hcomments b with ⟨hpending, hclosed⟩ | ⟨hpending, hclosed⟩
    · rw [hpending, hclosed, List.append_nil]
      refine ⟨before, hbefore, ?_⟩
      rw [← List.append_assoc, ← htext]
    · have htokens := hbefore.close hclosed
      rw [← htext] at htokens
      rcases hpending with hpending | hpending
      · rw [hpending]
        exact ⟨text ++ [b], htokens.append [b], (List.append_nil _).symm⟩
      · rw [hpending]
        exact ⟨text, htokens, rfl⟩

/-- **The tokens of numbers stand in the text**, in their order. -/
theorem inOrder_numberTokens (located : Bool) (text : Text) :
    InOrder text (numberTokens located text) := by
  obtain ⟨-, before, hbefore, htext⟩ := inOrder_run located text
  have htokens := hbefore.close ((run located .initial text).mode.closedToken?_cases none)
  rwa [← htext] at htokens

/-! ## Refused tokens -/

/-- **A token that is read as nothing makes reading fail** when it is
closed. -/
theorem settle_closedToken? {mode : Mode} (hmode : mode.Collecting Numeric) {next : Option UInt8}
    {token : Text} (h : mode.closedToken? next = some token) (hleaf : leaf? token = none)
    (place : Location) : settle place next mode = .failed ⟨.invalidNumber token, place⟩ := by
  cases mode with
  | number form name word part =>
    obtain ⟨hopen, heq⟩ := Option.ite_none_left_eq_some.1 h
    obtain rfl := Option.some.inj heq
    obtain ⟨hsign, hcontinues⟩ := not_or.1 hopen
    obtain ⟨hplus, hminus⟩ := not_or.1 (mt hmode.2.2 hsign)
    have hplus : word.reverse ≠ ascii "+" := fun h => hplus (List.reverse_eq_iff.1 h)
    have hminus : word.reverse ≠ ascii "-" := fun h => hminus (List.reverse_eq_iff.1 h)
    rw [settle, if_neg hcontinues, if_neg fun h => hsign h.1, closeNumber, if_neg hminus,
      if_neg hplus, hleaf]
  | _ => cases h

/-- A failure stays the same. -/
theorem mode_run_failed (located : Bool) {s : State} {e : Error} (hs : s.mode = .failed e)
    (text : Text) : (run located s text).mode = .failed e := by
  have hstep {s : State} (hs : s.mode = .failed e) (b : UInt8) :
      (step located s b).mode = .failed e := by
    obtain ⟨place, comment, frames, mode⟩ := s
    obtain rfl := hs
    cases comment <;> rfl
  induction text generalizing s with
  | nil => exact hs
  | cons b text ih => exact ih (hstep hs b)

/-- A token that is read as nothing is the last one of a text. -/
theorem mode_run_of_mem {located : Bool} {s : State} (hs : s.mode.Collecting Numeric)
    {text token : Text} (h : token ∈ closedTokens located s text) (hleaf : leaf? token = none) :
    ∃ place, (run located s text).mode = .failed ⟨.invalidNumber token, place⟩ := by
  induction text generalizing s with
  | nil => cases h
  | cons b text ih =>
    rcases List.mem_append.1 h with hmem | hmem
    · refine ⟨s.place, mode_run_failed located ?_ text⟩
      obtain ⟨place, comment, frames, mode⟩ := s
      cases comment with
      | true => cases hmem
      | false =>
        have hsettle := settle_closedToken? hs (Option.mem_toList.1 hmem) hleaf place
        unfold step
        rw [if_neg Bool.false_ne_true]
        dsimp only
        rw [hsettle]
        rfl
    · exact ih (collecting_step grows_numeric located hs b) hmem

/-- **A text with a token that is read as nothing is refused** for it. -/
theorem parse_of_mem {located : Bool} {text token : Text} (h : token ∈ numberTokens located text)
    (hleaf : leaf? token = none) :
    ∃ place, Node.parse text located = .error ⟨.invalidNumber token, place⟩ := by
  have hnumeric := numeric_run located text
  have hinitial : State.initial.mode.Collecting Numeric := trivial
  rw [Node.parse, State.result]
  rcases List.mem_append.1 h with hmem | hmem
  · obtain ⟨place, hmode⟩ := mode_run_of_mem hinitial hmem hleaf
    rw [hmode]
    exact ⟨place, rfl⟩
  · rw [settle_closedToken? hnumeric (Option.mem_toList.1 hmem) hleaf]
    exact ⟨_, rfl⟩

end Reader

end ScriptSplice
