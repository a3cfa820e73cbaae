import Mathlib.Data.List.Forall2
import ScriptSplice.Proofs.Tree.Tokens
/-!
# The numbers of a text

A text that is accepted has a tree with the numbers that its tokens denote,
in order (`Node.parse_numbers`): a byte that closes a token adds the number
that the token is read as, and no other byte adds one
(`Reader.number?_added`). But a token may lack the digits of its exponent,
as `1e` does, and is accepted (`Node.parse_dangling_exponent`).
-/

namespace ScriptSplice

/-! ## The numbers of a tree -/

/-- A number. -/
def Content.number? : Content → Option Leaf
  | leaf (.int i) => some (.int i)
  | leaf (.float x) => some (.float x)
  | _ => none

/-- **The numbers of a tree**, in the order of a text that it is read
from. -/
def Node.numbers (n : Node) : List Leaf := n.contents.filterMap Content.number?

namespace Reader

open Numeral

theorem number?_of_leaf? {token : Text} {l : Leaf} (h : leaf? token = some l) :
    (Content.leaf l).number? = some l := by
  unfold leaf? at h
  dsimp only at h
  split at h
  · obtain ⟨d, -, hd⟩ := Option.bind_eq_some_iff.1 h
    obtain ⟨x, -, rfl⟩ := Option.map_eq_some_iff.1 hd
    rfl
  · split at h
    · cases h
    · split at h
      · obtain rfl := Option.some.inj (Option.ite_none_right_eq_some.1 h).2
        rfl
      · obtain rfl := Option.some.inj (Option.ite_none_right_eq_some.1 h).2
        rfl

/-- What a byte opens or closes itself is no number. -/
theorem number?_gained (located : Bool) (place : Location) (b : UInt8) (mode : Mode) :
    (mode.gained located place b).filterMap Content.number? = [] := by
  cases mode with
  | start | value | sequence | string =>
    rw [Mode.gained]
    split <;> rfl
  | _ => rfl

/-- The token of a number is closed as what it is read as. -/
theorem closedLeaf?_of_closedToken? {next : Option UInt8} {mode : Mode} {token : Text}
    (h : mode.closedToken? next = some token) : mode.closedLeaf? next = leaf? token := by
  cases mode with
  | number form name word part =>
    obtain ⟨hopen, heq⟩ := Option.ite_none_left_eq_some.1 h
    obtain rfl := Option.some.inj heq
    rw [Mode.closedLeaf?, if_neg hopen]
  | _ => cases h

/-- Where no token of a number is closed, no number is. -/
theorem number?_closedLeaf?_of_none {next : Option UInt8} {mode : Mode}
    (h : mode.closedToken? next = none) :
    ((mode.closedLeaf? next).toList.map Content.leaf).filterMap Content.number? = [] := by
  have hword (w : Text) :
      ((wordLeaf? w).toList.map Content.leaf).filterMap Content.number? = [] := by
    unfold wordLeaf?
    repeat' split
    all_goals rfl
  cases mode with
  | number form name word part =>
    rw [Mode.closedToken?] at h
    split at h
    · rename_i hopen
      rw [Mode.closedLeaf?, if_pos hopen]
      rfl
    · cases h
  | word form name word =>
    rw [Mode.closedLeaf?]
    split
    · rfl
    · exact hword _
  | _ => rfl

/-- **A token that is closed** gives the number it is read as, unless reading
fails. -/
theorem number?_closedLeaf? {place : Location} {next : Option UInt8} {mode : Mode}
    (hmode : mode.Collecting Numeric) (hsettle : (settle place next mode).isFailed = false) :
    (mode.closedToken? next).toList.map leaf? =
      (((mode.closedLeaf? next).toList.map Content.leaf).filterMap Content.number?).map some := by
  cases htoken : mode.closedToken? next with
  | none =>
    rw [number?_closedLeaf?_of_none htoken]
    rfl
  | some token =>
    cases hleaf : leaf? token with
    | none =>
      rw [settle_closedToken? hmode htoken hleaf] at hsettle
      cases hsettle
    | some l =>
      rw [closedLeaf?_of_closedToken? htoken, hleaf]
      simp [hleaf, number?_of_leaf? hleaf]

/-- **Every byte** adds the numbers that the tokens it closes are read as,
unless the machine fails. -/
theorem number?_added {located : Bool} {s : State} (hs : s.mode.Collecting Numeric) {b : UInt8}
    (hstep : (step located s b).mode.isFailed = false) :
    (s.closed b).map leaf? = ((s.added located b).filterMap Content.number?).map some := by
  obtain ⟨place, comment, frames, mode⟩ := s
  cases comment with
  | true => rfl
  | false =>
    have hsettle : (settle place (some b) mode).isFailed = false :=
      Bool.eq_false_iff.2 fun hfailed => by
        rw [isFailed_step_of_settle hfailed] at hstep
        cases hstep
    rw [State.closed, if_neg Bool.false_ne_true, State.added, if_neg Bool.false_ne_true,
      List.filterMap_append, number?_gained, List.append_nil]
    exact number?_closedLeaf? hs hsettle

/-- **The numbers read so far** are those that the tokens so far are read
as. -/
theorem numbers_run (located : Bool) (text : Text) :
    (run located .initial text).mode.isFailed = true ∨
      (closedTokens located .initial text).map leaf? =
        ((run located .initial text).contents.filterMap Content.number?).map some := by
  refine run_induction (p := fun t s => (closedTokens located .initial t).map leaf? =
    (s.contents.filterMap Content.number?).map some) rfl (fun text b ih hstep => ?_) text
  have hnumeric := numeric_run located text
  have hcontents := (contents_step located hnumeric b).resolve_left (by rw [hstep]; decide)
  rw [hcontents, closedTokens_concat, List.map_append, List.filterMap_append, List.map_append, ih,
    number?_added hnumeric hstep]

end Reader

namespace Node

open Numeral Reader

/-- **The numbers of a tree** are those that the tokens of its text are read
as. -/
theorem numbers_of_parse {text : Text} {located : Bool} {n : Node}
    (h : parse text located = .ok n) :
    (numberTokens located text).map Numeral.leaf? = n.numbers.map some := by
  obtain ⟨hread, hcontents⟩ := contents_of_parse h
  have hsettle : (settle (run located .initial text).place none
      (run located .initial text).mode).isFailed = false := by
    rw [mode_of_finish h]
    rfl
  have hclosed := number?_closedLeaf? (numeric_run located text) hsettle
  rcases numbers_run located text with hfailed | hrun
  · rw [hfailed] at hread
    cases hread
  · rw [numberTokens, List.map_append, hrun, hclosed, numbers, hcontents, List.filterMap_append,
      List.map_append]

/-- **Numbers are read from their tokens.** The tokens of numbers stand in
the text in order, and have the form of numerals. If the text is accepted,
the numbers of the tree are in order what the tokens denote, and each token
has a digit: one without a point or an exponent denotes its integer, another
one the nearest floating point number. A token without digits, or of an
integer out of range, makes reading fail. -/
theorem parse_numbers (text : Text) (located : Bool) :
    InOrder text (numberTokens located text) ∧
    (∀ token ∈ numberTokens located text, ∃ f : Numeral.Form, f.text = token) ∧
    (∀ n, parse text located = .ok n →
      List.Forall₂ (fun token l => ∀ f : Numeral.Form, f.text = token → f.digits ≠ [] ∧ f.Denotes l)
        (numberTokens located text) n.numbers) ∧
    (∀ token ∈ numberTokens located text, ∀ f : Numeral.Form, f.text = token →
      (f.digits = [] ∨ f.isFloat = false ∧
        (f.value < -9223372036854775808 ∨ 9223372036854775807 < f.value)) →
      ∃ place, parse text located = .error ⟨.invalidNumber token, place⟩) := by
  refine ⟨inOrder_numberTokens located text, fun token => exists_form, fun n h => ?_,
    fun token hmem f hf hrefused => ?_⟩
  · have hnumbers : List.Forall₂ (· = ·) ((numberTokens located text).map Numeral.leaf?)
        (n.numbers.map some) := by
      rw [List.forall₂_eq_eq_eq]
      exact numbers_of_parse h
    refine (List.forall₂_map_right_iff.1 (List.forall₂_map_left_iff.1 hnumbers)).imp ?_
    rintro token l hleaf f rfl
    exact f.denotes_of_leaf? hleaf
  · exact parse_of_mem hmem (hf ▸ f.leaf?_eq_none hrefused)

/-- Two numbers, of either sort. -/
theorem parse_numbers_two :
    ∃ n, parse (ascii "(vector2 :x -1.5e2 :y +7)") true = .ok n ∧ n.numbers.length = 2 := by
  have hread : (parse (ascii "(vector2 :x -1.5e2 :y +7)") true).isOk = true := by decide +kernel
  have htokens : numberTokens true (ascii "(vector2 :x -1.5e2 :y +7)") =
      [ascii "-1.5e2", ascii "+7"] := by
    decide +kernel
  obtain ⟨n, h⟩ := exists_of_isOk hread
  have hnumbers := (parse_numbers _ true).2.2.1 n h
  rw [htokens] at hnumbers
  exact ⟨n, h, hnumbers.length_eq.symm⟩

/-- **An exponent without digits is dropped**: a token that is no complete
numeral is accepted. -/
theorem parse_dangling_exponent :
    ∃ n, parse (ascii "(value :value 1e)") true = .ok n ∧
      numberTokens true (ascii "(value :value 1e)") = [ascii "1e"] ∧
      ∀ f : Numeral.Form, f.text = ascii "1e" → ¬f.IsComplete := by
  have hread : (parse (ascii "(value :value 1e)") true).isOk = true := by decide +kernel
  have hletter (f : Numeral.Form) (hf : f.text = ascii "1e") : ¬f.IsComplete := fun hcomplete =>
    absurd (f.not_letter_of_isComplete hcomplete 0x65 (by rw [hf]; rfl)) (by decide)
  obtain ⟨n, h⟩ := exists_of_isOk hread
  exact ⟨n, h, by decide +kernel, hletter⟩

end Node

end ScriptSplice
