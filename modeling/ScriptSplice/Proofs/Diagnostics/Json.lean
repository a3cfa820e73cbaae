import Mathlib.Data.List.TakeWhile
import Mathlib.Tactic.SplitIfs
import ScriptSplice.Proofs.Target.FloatLiterals
import ScriptSplice.Proofs.Target.Quoted
import ScriptSplice.Text.Json
/-!
# Reading JSON

JSON is read here as its standard has it, over bytes: those from `0x80`
on can only stand in strings and stand for themselves there. A text is
scanned into tokens (`Json.tokens?`), and the tokens are put together into
one value (`Json.ofTokens?`). Everything the standard refuses is refused,
and so is half of a surrogate pair.

`Json.scan_json` says that a text written as a JSON string is scanned as
one token, which has that text; `Json.scan_ofInt` is the same for integers.
-/

namespace ScriptSplice

/-- No byte of a word is a control byte. -/
theorem Byte.isControl_of_isAtom {b : UInt8} (h : isAtom b = true) : isControl b = false := by
  have hall : ∀ b, isAtom b = true → isControl b = false := forall_of_ofNat (by decide +kernel)
  exact hall b h

/-- A text is looked through for control bytes. -/
theorem Text.isControl_of_all {t : Text} (ht : t.all (fun b => !Byte.isControl b) = true)
    {b : UInt8} (h : b ∈ t) : Byte.isControl b = false := by
  simpa using List.all_eq_true.1 ht b h

/-- A JSON value. -/
inductive Json where
  | null
  | bool (b : Bool)
  /-- The number `mantissa * 10 ^ exponent`. -/
  | number (mantissa exponent : Int)
  | string (t : Text)
  | array (items : List Json)
  /-- Values under names, in order. -/
  | object (members : List (Text × Json))

namespace Json

/-! ## Numbers and words -/

/-- The exponent behind the digits of a number: a letter, a sign and
digits, all of it to the end; zero if there is nothing. -/
def exponent? : Text → Option Int
  | [] => some 0
  | b :: t =>
    if Byte.toLower b != 0x65 then none
    else
      let (negative, digits) := match t with
        | 0x2d :: r => (true, r)
        | 0x2b :: r => (false, r)
        | _ => (false, t)
      if digits.isEmpty || !digits.all Byte.isDigit then none
      else some (if negative then -Text.digitsValue digits else Text.digitsValue digits)

/-- The number that a text without a sign is: digits, the first of them no
zero unless it is the only one; a fraction with a digit; an exponent. -/
def unsigned? (negative : Bool) (t : Text) : Option Json :=
  let whole := t.takeWhile Byte.isDigit
  let (fraction, rest, pointed) := match t.dropWhile Byte.isDigit with
    | 0x2e :: r => (r.takeWhile Byte.isDigit, r.dropWhile Byte.isDigit, true)
    | r => ([], r, false)
  if whole.isEmpty || (whole.head? == some 0x30 && whole != ascii "0") ||
      (pointed && fraction.isEmpty) then none
  else
    let mantissa : Int := Text.digitsValue (whole ++ fraction)
    (exponent? rest).map fun e =>
      number (if negative then -mantissa else mantissa) (e - fraction.length)

/-- The number that a text is. -/
def number? : Text → Option Json
  | 0x2d :: t => unsigned? true t
  | t => unsigned? false t

/-- The value that a text without quotes and brackets is. -/
def word? (t : Text) : Option Json :=
  if t = ascii "null" then some null
  else if t = ascii "true" then some (bool true)
  else if t = ascii "false" then some (bool false)
  else number? t

/-! ## Escapes -/

/-- The byte that a backslash and a byte behind it stand for. -/
def unescaped? (b : UInt8) : Option UInt8 :=
  if b = Byte.doubleQuote || b = Byte.backslash || b = 0x2f then some b
  else if b = 0x62 then some 0x08
  else if b = 0x66 then some 0x0c
  else if b = 0x6e then some 0x0a
  else if b = 0x72 then some 0x0d
  else if b = 0x74 then some 0x09
  else none

/-- The bytes of a character. -/
def encode (code : Nat) : Text := String.utf8EncodeChar (Char.ofNat code)

/-- The first half of a surrogate pair. -/
def isHigh (unit : Nat) : Bool := 0xd800 ≤ unit && unit < 0xdc00

/-- The second half of a surrogate pair. -/
def isLow (unit : Nat) : Bool := 0xdc00 ≤ unit && unit < 0xe000

/-! ## Tokens -/

/-- What a JSON text is made of, white space apart. -/
inductive Token where
  | openObject
  | closeObject
  | openArray
  | closeArray
  | colon
  | comma
  /-- A string, a number, or one of the three words. -/
  | value (v : Json)

/-- Where in a token a scan is. What was read of it stands last first. -/
inductive Mode where
  | between
  | word (read : Text)
  /-- In a string; `high` is the first half of a pair whose second half has
  to come next. -/
  | quoted (read : Text) (high : Option Nat)
  /-- Behind a backslash. -/
  | escape (read : Text) (high : Option Nat)
  /-- Behind some of the four digits of an escape. -/
  | digits (read : Text) (high : Option Nat) (count code : Nat)

/-- A scan under way: the tokens so far, last first. -/
structure Scan where
  tokens : List Token
  mode : Mode

namespace Scan

/-- A byte between tokens. -/
def start (tokens : List Token) (b : UInt8) : Option Scan :=
  if b = 0x20 || b = 0x09 || b = 0x0a || b = 0x0d then some ⟨tokens, .between⟩
  else if b = 0x7b then some ⟨.openObject :: tokens, .between⟩
  else if b = 0x7d then some ⟨.closeObject :: tokens, .between⟩
  else if b = 0x5b then some ⟨.openArray :: tokens, .between⟩
  else if b = 0x5d then some ⟨.closeArray :: tokens, .between⟩
  else if b = 0x3a then some ⟨.colon :: tokens, .between⟩
  else if b = 0x2c then some ⟨.comma :: tokens, .between⟩
  else if b = Byte.doubleQuote then some ⟨tokens, .quoted [] none⟩
  else if Byte.isAtom b then some ⟨tokens, .word [b]⟩
  else none

/-- The tokens when a word ends. -/
def endWord (tokens : List Token) (read : Text) : Option (List Token) :=
  (word? read.reverse).map fun v => .value v :: tokens

/-- The string when the last of the digits of an escape was read. -/
def endDigits (read : Text) (high : Option Nat) (unit : Nat) : Option Mode :=
  match high with
  | none =>
    if isHigh unit then some (.quoted read (some unit))
    else if isLow unit then none
    else some (.quoted ((encode unit).reverse ++ read) none)
  | some high =>
    if isLow unit then
      let code := 0x10000 + 0x400 * (high - 0xd800) + (unit - 0xdc00)
      some (.quoted ((encode code).reverse ++ read) none)
    else none

/-- A byte in a string. -/
def inQuotes (tokens : List Token) (read : Text) (high : Option Nat) (b : UInt8) : Option Scan :=
  if b = Byte.backslash then some ⟨tokens, .escape read high⟩
  else if high.isSome || b < 0x20 then none
  else if b = Byte.doubleQuote then some ⟨.value (.string read.reverse) :: tokens, .between⟩
  else some ⟨tokens, .quoted (b :: read) none⟩

/-- **One byte more.** -/
def step : Scan → UInt8 → Option Scan
  | ⟨tokens, .between⟩, b => start tokens b
  | ⟨tokens, .word read⟩, b =>
    if Byte.isAtom b then some ⟨tokens, .word (b :: read)⟩
    else (endWord tokens read).bind fun tokens => start tokens b
  | ⟨tokens, .quoted read high⟩, b => inQuotes tokens read high b
  | ⟨tokens, .escape read high⟩, b =>
    if b = 0x75 then some ⟨tokens, .digits read high 0 0⟩
    else if high.isSome then none
    else (unescaped? b).map fun c => ⟨tokens, .quoted (c :: read) none⟩
  | ⟨tokens, .digits read high count code⟩, b =>
    (Byte.hexValue? (Byte.toLower b)).bind fun v =>
      if count < 3 then some ⟨tokens, .digits read high (count + 1) (16 * code + v)⟩
      else (endDigits read high (16 * code + v)).map fun mode => ⟨tokens, mode⟩

/-- The tokens at the end of the text, which ends no string. -/
def finish : Scan → Option (List Token)
  | ⟨tokens, .between⟩ => some tokens.reverse
  | ⟨tokens, .word read⟩ => (endWord tokens read).map List.reverse
  | _ => none

end Scan

/-- Some bytes more. -/
def scan (s : Scan) (t : Text) : Option Scan := t.foldlM Scan.step s

/-- **The tokens of a text.** -/
def tokens? (t : Text) : Option (List Token) := (scan ⟨[], .between⟩ t).bind Scan.finish

/-! ## Values -/

/-- What is open around the present place. -/
inductive Frame where
  | array (items : List Json)
  /-- An object before the name of a member. -/
  | object (members : List (Text × Json))
  /-- An object before the value of a member. -/
  | member (members : List (Text × Json)) (name : Text)

/-- What may come next. -/
inductive Turn where
  | value
  /-- A value or the end of an array that has just been opened. -/
  | firstItem
  | name
  /-- A name or the end of an object that has just been opened. -/
  | firstName
  /-- The colon behind a name. -/
  | colon (name : Text)
  /-- What goes on behind a value. -/
  | behind (v : Json)

/-- Values under construction. -/
structure Builder where
  frames : List Frame
  turn : Turn

namespace Builder

/-- A token where a value has to come. -/
def value (frames : List Frame) : Token → Option Builder
  | .value v => some ⟨frames, .behind v⟩
  | .openArray => some ⟨.array [] :: frames, .firstItem⟩
  | .openObject => some ⟨.object [] :: frames, .firstName⟩
  | _ => none

/-- A token behind a value. -/
def behind (v : Json) : List Frame → Token → Option Builder
  | .array items :: frames, .comma => some ⟨.array (items ++ [v]) :: frames, .value⟩
  | .array items :: frames, .closeArray => some ⟨frames, .behind (.array (items ++ [v]))⟩
  | .member members name :: frames, .comma =>
    some ⟨.object (members ++ [(name, v)]) :: frames, .name⟩
  | .member members name :: frames, .closeObject =>
    some ⟨frames, .behind (.object (members ++ [(name, v)]))⟩
  | _, _ => none

/-- **One token more.** -/
def step : Builder → Token → Option Builder
  | ⟨frames, .value⟩, token => value frames token
  | ⟨.array _ :: frames, .firstItem⟩, .closeArray => some ⟨frames, .behind (.array [])⟩
  | ⟨frames, .firstItem⟩, token => value frames token
  | ⟨frames, .name⟩, .value (.string name) => some ⟨frames, .colon name⟩
  | ⟨frames, .firstName⟩, .value (.string name) => some ⟨frames, .colon name⟩
  | ⟨.object _ :: frames, .firstName⟩, .closeObject => some ⟨frames, .behind (.object [])⟩
  | ⟨.object members :: frames, .colon name⟩, .colon =>
    some ⟨.member members name :: frames, .value⟩
  | ⟨frames, .behind v⟩, token => behind v frames token
  | _, _ => none

/-- The one value that was built, with nothing left open. -/
def finish : Builder → Option Json
  | ⟨[], .behind v⟩ => some v
  | _ => none

end Builder

/-- **The value that some tokens make up.** -/
def ofTokens? (tokens : List Token) : Option Json :=
  (tokens.foldlM Builder.step ⟨[], .value⟩).bind Builder.finish

/-- **The value that a text is.** -/
def ofText? (t : Text) : Option Json := (tokens? t).bind ofTokens?

/-! ## How strings are scanned -/

variable {tokens : List Token} {read : Text} {t u : Text} {b c : UInt8}

theorem scan_append (s : Scan) (t u : Text) : scan s (t ++ u) = (scan s t).bind fun s => scan s u :=
  List.foldlM_append

theorem scan_cons (s : Scan) (b : UInt8) (t : Text) :
    scan s (b :: t) = (s.step b).bind fun s => scan s t := List.foldlM_cons

/-- **How a byte is written in a JSON string**: as itself, unless it is
the quote, a backslash or a control byte; as an escape of one byte; or as
an escape of four digits, of which the first two are zeros. -/
theorem jsonByte_forms (b : UInt8) :
    (Text.jsonByte b = [b] ∧ b ≠ Byte.doubleQuote ∧ b ≠ Byte.backslash ∧
      Byte.isControl b = false) ∨
    (∃ c, Text.jsonByte b = [Byte.backslash, c] ∧ unescaped? c = some b ∧
      Byte.isControl c = false) ∨
    Text.jsonByte b = ascii "\\u00" ++ Byte.hex b ∧ Byte.isControl b = true := by
  unfold Text.jsonByte
  split_ifs with hescaped hb hf hn hr ht hcontrol
  · have hb : b = Byte.doubleQuote ∨ b = Byte.backslash := by simpa using hescaped
    refine .inr (.inl ⟨b, rfl, ?_⟩)
    rcases hb with rfl | rfl <;> exact ⟨rfl, rfl⟩
  · exact .inr (.inl ⟨0x62, rfl, by rw [beq_iff_eq.1 hb]; rfl, rfl⟩)
  · exact .inr (.inl ⟨0x66, rfl, by rw [beq_iff_eq.1 hf]; rfl, rfl⟩)
  · exact .inr (.inl ⟨0x6e, rfl, by rw [beq_iff_eq.1 hn]; rfl, rfl⟩)
  · exact .inr (.inl ⟨0x72, rfl, by rw [beq_iff_eq.1 hr]; rfl, rfl⟩)
  · exact .inr (.inl ⟨0x74, rfl, by rw [beq_iff_eq.1 ht]; rfl, rfl⟩)
  · exact .inr (.inr ⟨rfl, hcontrol⟩)
  · have hb : b ≠ Byte.doubleQuote ∧ b ≠ Byte.backslash := by simpa using hescaped
    exact .inl ⟨rfl, hb.1, hb.2, eq_false_of_ne_true hcontrol⟩

/-- The bytes that announce an escape of one byte announce no digits. -/
theorem ne_of_unescaped? (h : unescaped? c = some b) : c ≠ 0x75 := by
  rintro rfl
  cases h

/-- One of the first three digits of an escape. -/
theorem step_digit {high : Option Nat} {count code v : Nat}
    (hv : Byte.hexValue? (Byte.toLower b) = some v) (hcount : count < 3) :
    Scan.step ⟨tokens, .digits read high count code⟩ b =
      some ⟨tokens, .digits read high (count + 1) (16 * code + v)⟩ := by
  simp only [Scan.step, hv, Option.bind_some, if_pos hcount]

/-- The last digit of an escape. -/
theorem step_lastDigit {high : Option Nat} {code v : Nat}
    (hv : Byte.hexValue? (Byte.toLower b) = some v) :
    Scan.step ⟨tokens, .digits read high 3 code⟩ b =
      (Scan.endDigits read high (16 * code + v)).map fun mode => ⟨tokens, mode⟩ := by
  simp only [Scan.step, hv, Option.bind_some, if_neg (Nat.lt_irrefl 3)]

/-- The last two digits of the escape of a control byte make up the byte. -/
theorem scan_hex (h : Byte.isControl b = true) :
    scan ⟨tokens, .digits read none 2 0⟩ (Byte.hex b) =
      some ⟨tokens, .quoted (b :: read) none⟩ := by
  have hdigits : ∀ b, Byte.isControl b = true →
      Byte.hexValue? (Byte.toLower (Byte.hexDigit (b.toNat / 16))) = some (b.toNat / 16) ∧
      Byte.hexValue? (Byte.toLower (Byte.hexDigit (b.toNat % 16))) = some (b.toNat % 16) ∧
      isHigh b.toNat = false ∧ isLow b.toNat = false ∧ encode b.toNat = [b] :=
    Byte.forall_of_ofNat (by decide +kernel)
  obtain ⟨hhigh, hlow, hnotHigh, hnotLow, hencode⟩ := hdigits b h
  have hunit : 16 * (16 * 0 + b.toNat / 16) + b.toNat % 16 = b.toNat := by omega
  have hend : Scan.endDigits read none b.toNat = some (.quoted (b :: read) none) := by
    simp [Scan.endDigits, hnotHigh, hnotLow, hencode]
  rw [Byte.hex, scan_cons, step_digit hhigh (by decide), Option.bind_some, scan_cons,
    step_lastDigit hlow, hunit, hend]
  rfl

/-- **A byte of a string** is read back. -/
theorem scan_jsonByte (b : UInt8) :
    scan ⟨tokens, .quoted read none⟩ (Text.jsonByte b) =
      some ⟨tokens, .quoted (b :: read) none⟩ := by
  obtain ⟨hform, hquote, hbackslash, hcontrol⟩ | ⟨c, hform, hc, -⟩ | ⟨hform, hcontrol⟩ :=
    jsonByte_forms b <;> rw [hform]
  · have hlow : ¬ b < 0x20 := by
      simp only [Byte.isControl, Bool.or_eq_false_iff, decide_eq_false_iff_not] at hcontrol
      exact hcontrol.1
    simp [scan, Scan.step, Scan.inQuotes, hquote, hbackslash, hlow]
  · have hu := ne_of_unescaped? hc
    simp [scan, Scan.step, Scan.inQuotes, hu, hc]
  · rw [scan_append]
    exact scan_hex hcontrol

/-- **A text written as a JSON string** is one token, which has that text. -/
theorem scan_json (t : Text) :
    scan ⟨tokens, .between⟩ t.json = some ⟨.value (.string t) :: tokens, .between⟩ := by
  have hbytes (u : Text) (read : Text) :
      scan ⟨tokens, .quoted read none⟩ (u.flatMap Text.jsonByte) =
        some ⟨tokens, .quoted (u.reverse ++ read) none⟩ := by
    induction u generalizing read with
    | nil => rfl
    | cons b u ih =>
      rw [List.flatMap_cons, scan_append, scan_jsonByte, Option.bind_some, ih,
        List.reverse_cons, List.append_assoc, List.singleton_append]
  have hopen : scan ⟨tokens, .between⟩ [Byte.doubleQuote] = some ⟨tokens, .quoted [] none⟩ := rfl
  have hclose (read : Text) : scan ⟨tokens, .quoted read none⟩ [Byte.doubleQuote] =
      some ⟨.value (.string read.reverse) :: tokens, .between⟩ := rfl
  rw [Text.json, scan_append, scan_append, hopen, Option.bind_some, hbytes, Option.bind_some,
    hclose, List.append_nil, List.reverse_reverse]

/-- A JSON string has no control bytes. -/
theorem isControl_of_mem_json (h : b ∈ t.json) : Byte.isControl b = false := by
  rw [Text.json, List.mem_append, List.mem_append, List.mem_singleton, List.mem_flatMap] at h
  rcases h with (rfl | ⟨c, -, h⟩) | rfl
  · rfl
  · obtain ⟨hform, -, -, hc⟩ | ⟨d, hform, -, hd⟩ | ⟨hform, -⟩ := jsonByte_forms c <;>
      rw [hform] at h
    · rwa [List.mem_singleton.1 h]
    · rw [List.mem_cons, List.mem_singleton] at h
      rcases h with rfl | rfl
      · rfl
      · exact hd
    · rcases List.mem_append.1 h with h | h
      · exact Text.isControl_of_all (by decide) h
      · exact Byte.isControl_of_isAtom (List.all_eq_true.1 (Byte.isAtom_hex c) b h)
  · rfl

/-! ## How integers are scanned -/

/-- A byte of a word between tokens begins a word. -/
theorem start_of_isAtom (h : Byte.isAtom b = true) :
    Scan.start tokens b = some ⟨tokens, .word [b]⟩ := by
  have hne : ∀ c, Byte.isAtom c = false → b ≠ c := fun c => Byte.ne_of_isAtom h
  simp only [Scan.start, hne 0x20 rfl, hne 0x09 rfl, hne 0x0a rfl, hne 0x0d rfl, hne 0x7b rfl,
    hne 0x7d rfl, hne 0x5b rfl, hne 0x5d rfl, hne 0x3a rfl, hne 0x2c rfl, hne Byte.doubleQuote rfl,
    h, decide_false, Bool.or_false, Bool.false_eq_true, if_false, if_true]

/-- The bytes of a word are gathered. -/
theorem scan_atoms (h : u.all Byte.isAtom = true) :
    scan ⟨tokens, .word read⟩ u = some ⟨tokens, .word (u.reverse ++ read)⟩ := by
  induction u generalizing read with
  | nil => rfl
  | cons b u ih =>
    rw [List.all_cons, Bool.and_eq_true] at h
    rw [scan_cons, Scan.step, if_pos h.1, Option.bind_some, ih h.2, List.reverse_cons,
      List.append_assoc, List.singleton_append]

/-- **A word** is the token that its bytes stand for, once a byte comes
that is of no word. -/
theorem scan_word {v : Json} (hu : Text.IsAtom u) (hv : word? u = some v)
    (hb : Byte.isAtom b = false) :
    scan ⟨tokens, .between⟩ (u ++ b :: t) = scan ⟨.value v :: tokens, .between⟩ (b :: t) := by
  obtain ⟨hne, hall⟩ := hu
  cases u with
  | nil => exact absurd rfl hne
  | cons c u =>
    rw [List.all_cons, Bool.and_eq_true] at hall
    have hgathered : scan ⟨tokens, .between⟩ (c :: u) =
        some ⟨tokens, .word (u.reverse ++ [c])⟩ := by
      rw [scan_cons, Scan.step, start_of_isAtom hall.1, Option.bind_some, scan_atoms hall.2]
    have hend : Scan.endWord tokens (u.reverse ++ [c]) = some (.value v :: tokens) := by
      rw [Scan.endWord, List.reverse_append, List.reverse_reverse, List.reverse_singleton,
        List.singleton_append, hv, Option.map_some]
    rw [scan_append, hgathered, Option.bind_some, scan_cons, Scan.step, if_neg (by simp [hb]), hend,
      Option.bind_some, scan_cons, Scan.step]

/-- The digits of a number are a JSON number. -/
theorem unsigned?_ofNat (negative : Bool) (n : Nat) :
    unsigned? negative (Text.ofNat n) = some (number (if negative then -n else n) 0) := by
  have hdigits : ∀ b ∈ Text.ofNat n, Byte.isDigit b = true :=
    List.all_eq_true.1 (Text.isDigit_ofNat n)
  have hwhole : (Text.ofNat n).takeWhile Byte.isDigit = Text.ofNat n :=
    List.takeWhile_eq_self_iff.2 hdigits
  have hrest : (Text.ofNat n).dropWhile Byte.isDigit = [] := List.dropWhile_eq_nil_iff.2 hdigits
  have hzero : ((Text.ofNat n).head? == some 0x30 && Text.ofNat n != ascii "0") = false := by
    by_cases hn : n = 0
    · rw [hn]
      rfl
    · rw [beq_false_of_ne (Text.head?_ofNat hn), Bool.false_and]
  simp [unsigned?, hwhole, hrest, hzero, Text.ofNat_ne_nil, Text.digitsValue_ofNat, exponent?]

/-- **An integer in decimal is a JSON number.** -/
theorem word?_ofInt (i : Int) : word? (Text.ofInt i) = some (number i 0) := by
  -- no word begins with a digit or a sign
  have hword (t : Text) (ht : ∀ b ∈ t.head?, Byte.isAlpha b = false) : word? t = number? t := by
    have hne (s : Text) (hs : s.head?.any Byte.isAlpha = true) : t ≠ s := by
      rintro rfl
      cases h : t.head? with
      | none => simp [h] at hs
      | some b => simp [h, ht b h] at hs
    rw [word?, if_neg (hne _ rfl), if_neg (hne _ rfl), if_neg (hne _ rfl)]
  have hdigit : ∀ b, Byte.isDigit b = true → Byte.isAlpha b = false ∧ b ≠ 0x2d :=
    Byte.forall_of_ofNat (by decide +kernel)
  cases i with
  | ofNat n =>
    have hhead : ∀ b ∈ (Text.ofNat n).head?, Byte.isDigit b = true := fun b hb =>
      List.all_eq_true.1 (Text.isDigit_ofNat n) b (List.mem_of_mem_head? hb)
    have hsign : number? (Text.ofNat n) = unsigned? false (Text.ofNat n) := by
      unfold number?
      split
      · rename_i heq
        exact absurd rfl (hdigit _ (hhead 0x2d (by rw [heq]; rfl))).2
      · rfl
    rw [Text.ofInt, hword _ fun b hb => (hdigit b (hhead b hb)).1, hsign, unsigned?_ofNat]
    rfl
  | negSucc n =>
    have hminus : ∀ b ∈ (Text.ofInt (.negSucc n)).head?, Byte.isAlpha b = false := by
      rintro b ⟨⟩
      rfl
    rw [hword _ hminus, Text.ofInt, number?, unsigned?_ofNat]
    rfl

/-- **An integer in decimal** is one token, once a byte comes that is of no
word. -/
theorem scan_ofInt (i : Int) (hb : Byte.isAtom b = false) :
    scan ⟨tokens, .between⟩ (Text.ofInt i ++ b :: t) =
      scan ⟨.value (.number i 0) :: tokens, .between⟩ (b :: t) :=
  scan_word (Text.isAtom_ofInt i) (word?_ofInt i) hb

end Json

end ScriptSplice
