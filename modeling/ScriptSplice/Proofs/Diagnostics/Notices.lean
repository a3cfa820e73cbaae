import ScriptSplice.Diagnostic
import ScriptSplice.Proofs.Diagnostics.Json
/-!
# Notices as JSON

Whatever a notice is made of, its JSON is one object, and reading that
gives the parts of the notice back. Each part stands between fixed text
that ends the token before it, so the tokens are those of the fixed text
with the parts in their places (`Notice.tokens?_json`).
-/

namespace ScriptSplice

/-- An object that says that there was no success and has one error, with
a code, a message, a hint and a place. -/
def Json.failure (code message hint : Text) (place : Location) : Json :=
  .object
    [(ascii "success", .bool false),
      (ascii "errors", .array [.object
        [(ascii "code", .string code), (ascii "message", .string message),
          (ascii "hint", .string hint), (ascii "line", .number place.line 0),
          (ascii "col", .number place.col 0)]])]

namespace Notice

variable (n : Notice)

open Json in
/-- **The tokens of a notice.** -/
theorem tokens?_json :
    tokens? n.json = some
      [.openObject, .value (.string (ascii "success")), .colon, .value (.bool false), .comma,
        .value (.string (ascii "errors")), .colon, .openArray, .openObject,
        .value (.string (ascii "code")), .colon, .value (.string n.code), .comma,
        .value (.string (ascii "message")), .colon, .value (.string n.message), .comma,
        .value (.string (ascii "hint")), .colon, .value (.string n.hint), .comma,
        .value (.string (ascii "line")), .colon, .value (.number n.location.line 0), .comma,
        .value (.string (ascii "col")), .colon, .value (.number n.location.col 0),
        .closeObject, .closeArray, .closeObject] := by
  have hstring (tokens : List Json.Token) (t u : Text) :
      scan ⟨tokens, .between⟩ (t.json ++ u) = scan ⟨.value (.string t) :: tokens, .between⟩ u := by
    rw [scan_append, scan_json, Option.bind_some]
  -- the fixed text before a string, behind any tokens
  have hcode (u : Text) : scan ⟨[], .between⟩
      (ascii "\x7b\"success\":false,\"errors\":[\x7b\"code\":" ++ u) =
      scan ⟨[.colon, .value (.string (ascii "code")), .openObject, .openArray, .colon,
        .value (.string (ascii "errors")), .comma, .value (.bool false), .colon,
        .value (.string (ascii "success")), .openObject], .between⟩ u := rfl
  have hmessage (tokens : List Json.Token) (u : Text) :
      scan ⟨tokens, .between⟩ (ascii ",\"message\":" ++ u) =
        scan ⟨.colon :: .value (.string (ascii "message")) :: .comma :: tokens, .between⟩ u := rfl
  have hhint (tokens : List Json.Token) (u : Text) :
      scan ⟨tokens, .between⟩ (ascii ",\"hint\":" ++ u) =
        scan ⟨.colon :: .value (.string (ascii "hint")) :: .comma :: tokens, .between⟩ u := rfl
  have hline (tokens : List Json.Token) (u : Text) :
      scan ⟨tokens, .between⟩ (ascii ",\"line\":" ++ u) =
        scan ⟨.colon :: .value (.string (ascii "line")) :: .comma :: tokens, .between⟩ u := rfl
  -- and behind an integer, which it ends
  have hcol (tokens : List Json.Token) (i : Int) (u : Text) :
      scan ⟨tokens, .between⟩ (Text.ofInt i ++ (ascii ",\"col\":" ++ u)) =
        scan ⟨.colon :: .value (.string (ascii "col")) :: .comma :: .value (.number i 0) :: tokens,
          .between⟩ u := scan_ofInt i rfl
  have hend (tokens : List Json.Token) (i : Int) :
      scan ⟨tokens, .between⟩ (Text.ofInt i ++ ascii "\x7d]\x7d") =
        some ⟨.closeObject :: .closeArray :: .closeObject :: .value (.number i 0) :: tokens,
          .between⟩ := scan_ofInt i rfl
  simp only [tokens?, json, List.append_assoc, hcode, hstring, hmessage, hhint, hline, hcol, hend]
  rfl

/-- The JSON of a notice has no control bytes. -/
theorem isControl_of_mem_json {b : UInt8} (h : b ∈ n.json) : Byte.isControl b = false := by
  have hint (i : Int) : ∀ b ∈ Text.ofInt i, Byte.isControl b = false := fun b hb =>
    Byte.isControl_of_isAtom (List.all_eq_true.1 (Text.isAtom_ofInt i).all b hb)
  simp only [json, List.mem_append] at h
  rcases h with (((((((((h | h) | h) | h) | h) | h) | h) | h) | h) | h) | h
  · exact Text.isControl_of_all (by decide) h
  · exact Json.isControl_of_mem_json h
  · exact Text.isControl_of_all (by decide) h
  · exact Json.isControl_of_mem_json h
  · exact Text.isControl_of_all (by decide) h
  · exact Json.isControl_of_mem_json h
  · exact Text.isControl_of_all (by decide) h
  · exact hint _ b h
  · exact Text.isControl_of_all (by decide) h
  · exact hint _ b h
  · exact Text.isControl_of_all (by decide) h

/-- The JSON of a notice is read back as its parts. -/
theorem ofText?_json :
    Json.ofText? n.json = some (.failure n.code n.message n.hint n.location) := by
  rw [Json.ofText?, n.tokens?_json]
  rfl

/-- **A notice is told faithfully.** Every text is read back from the JSON
string it is written as. The JSON of a notice has no control bytes, and is
one object, which says that there was no success and has one error, with
the code, the message as it is shown, the hint and the place of the
notice. So is that of a diagnostic. -/
theorem json_faithful :
    (∀ t : Text, Json.ofText? t.json = some (.string t)) ∧
    (∀ n : Notice, (∀ b ∈ n.json, 0x20 ≤ b ∧ b ≠ 0x7f) ∧
      Json.ofText? n.json = some (.failure n.code n.message n.hint n.location)) ∧
    ∀ d : Diagnostic, (∀ b ∈ d.json, 0x20 ≤ b ∧ b ≠ 0x7f) ∧
      Json.ofText? d.json = some (.failure d.code.text d.message d.hint d.location) := by
  have hnotice (n : Notice) : (∀ b ∈ n.json, 0x20 ≤ b ∧ b ≠ 0x7f) ∧
      Json.ofText? n.json = some (.failure n.code n.message n.hint n.location) :=
    ⟨fun b hb => by simpa [Byte.isControl] using n.isControl_of_mem_json hb, n.ofText?_json⟩
  refine ⟨fun t => ?_, hnotice, fun d => hnotice d.notice⟩
  rw [Json.ofText?, Json.tokens?, Json.scan_json]
  rfl

/-- A message with a quote, a backslash, a byte of no text and a byte that
would end it. -/
example :
    let n : Notice := ⟨ascii "E2004", [0x22, 0x5c, 0x01, 0xff, 0x00, 0x41], [], ⟨3, -1⟩⟩
    n.message = [0x22, 0x5c, 0x01, 0xff] ∧
      n.json = ascii "\x7b\"success\":false,\"errors\":[\x7b\"code\":\"E2004\",\"message\":\"" ++
        ascii "\\\"\\\\\\u0001" ++ [0xff] ++
        ascii "\",\"hint\":\"\",\"line\":3,\"col\":-1\x7d]\x7d" := by decide

end Notice

end ScriptSplice
