import ScriptSplice.Proofs.Target.Naming
import ScriptSplice.Proofs.Target.Quoted
/-!
# Reading operators

The target language groups operators by how tightly they bind. A text is
cut into words, numbers, strings and brackets (`Token.all`), and a machine
goes through these from left to right (`Grouper.step`). It keeps what is
still open: brackets, and operators whose last operand is not complete. An
operator completes those before it that bind at least as tightly. What
groups from the right is the power, which completes nothing, not even the
sign before its left operand; and comparisons do not group at all, but
make chains. Whatever else the target language has besides these
expressions is not read.
-/

namespace ScriptSplice

/-! ## Operators -/

/-- The operators that stand before their operand. -/
inductive UnaryOperator where
  | plus | minus | invert | negation
deriving DecidableEq

/-- The operators that stand between their operands. -/
inductive BinaryOperator where
  | disjunction | conjunction
  | less | greater | lessEqual | greaterEqual | equal | notEqual
  | identical | notIdentical | member | notMember
  | bitOr | bitXor | bitAnd | shiftLeft | shiftRight
  | add | subtract | multiply | matrixMultiply | divide | floorDivide | modulo
  | power
deriving DecidableEq

namespace UnaryOperator

/-- The words of an operator. -/
def text : UnaryOperator → Text
  | plus => ascii "+"
  | minus => ascii "-"
  | invert => ascii "~"
  | negation => ascii "not"

/-- How tightly an operator binds. -/
def level : UnaryOperator → Nat
  | negation => 3
  | plus | minus | invert => 11

/-- The operator that a word is. -/
def ofText? (w : Text) : Option UnaryOperator :=
  [plus, minus, invert, negation].find? fun o => o.text == w

end UnaryOperator

namespace BinaryOperator

/-- The words of an operator, with a blank between two. -/
def text : BinaryOperator → Text
  | disjunction => ascii "or"
  | conjunction => ascii "and"
  | less => ascii "<"
  | greater => ascii ">"
  | lessEqual => ascii "<="
  | greaterEqual => ascii ">="
  | equal => ascii "=="
  | notEqual => ascii "!="
  | identical => ascii "is"
  | notIdentical => ascii "is not"
  | member => ascii "in"
  | notMember => ascii "not in"
  | bitOr => ascii "|"
  | bitXor => ascii "^"
  | bitAnd => ascii "&"
  | shiftLeft => ascii "<<"
  | shiftRight => ascii ">>"
  | add => ascii "+"
  | subtract => ascii "-"
  | multiply => ascii "*"
  | matrixMultiply => ascii "@"
  | divide => ascii "/"
  | floorDivide => ascii "//"
  | modulo => ascii "%"
  | power => ascii "**"

/-- How tightly an operator binds. -/
def level : BinaryOperator → Nat
  | disjunction => 1
  | conjunction => 2
  | less | greater | lessEqual | greaterEqual | equal | notEqual
  | identical | notIdentical | member | notMember => 4
  | bitOr => 5
  | bitXor => 6
  | bitAnd => 7
  | shiftLeft | shiftRight => 8
  | add | subtract => 9
  | multiply | matrixMultiply | divide | floorDivide | modulo => 10
  | power => 12

/-- How tightly an operator before it has to bind for this one to complete
it. Of the same level are the operators that group from the left. -/
def leftLevel : BinaryOperator → Nat
  | power => 13
  | o => if o.level = 4 then 5 else o.level

/-- The operators. -/
def all : List BinaryOperator :=
  [disjunction, conjunction, less, greater, lessEqual, greaterEqual, equal, notEqual, identical,
    notIdentical, member, notMember, bitOr, bitXor, bitAnd, shiftLeft, shiftRight, add, subtract,
    multiply, matrixMultiply, divide, floorDivide, modulo, power]

/-- The operator that a word is. -/
def ofText? (w : Text) : Option BinaryOperator := all.find? fun o => o.text == w

end BinaryOperator

/-! ## Tokens -/

/-- What an expression is written with. -/
inductive Token where
  /-- A name, a keyword, or an operator that is written with signs. -/
  | word (w : Text)
  | number (n : Nat)
  | text (t : Text)
  | opening
  | closing
deriving DecidableEq

namespace Token

/-- The operators that are written with signs, those of two signs first. -/
def signs : List Text :=
  ["**", "//", "<<", ">>", "<=", ">=", "==", "!=", "+", "-", "*", "/", "%", "@", "&", "|", "^",
    "~", "<", ">"].map ascii

/-- The token that letters and digits make. A number has no zeros in front. -/
def ofWord (w : Text) : Option Token :=
  if w.isName then some (word w)
  else if w.all Byte.isDigit ∧ Text.ofNat w.digitsValue = w then some (number w.digitsValue)
  else none

/-- The token that a text begins with, and what is behind it. A string
directly behind a word would be of another sort. -/
def next : Text → Option (Token × Text)
  | [] => none
  | b :: t =>
    if b = 0x28 then some (opening, t)
    else if b = 0x29 then some (closing, t)
    else if b = Byte.quote ∨ b = Byte.doubleQuote then
      (Text.readLiteral (b :: t)).map fun (s, rest) => (text s, rest)
    else if Byte.isWord b then
      let rest := (b :: t).dropWhile Byte.isWord
      if rest.head? = some Byte.quote ∨ rest.head? = some Byte.doubleQuote then none
      else (ofWord ((b :: t).takeWhile Byte.isWord)).map fun token => (token, rest)
    else (signs.find? (·.isPrefixOf (b :: t))).map fun s => (word s, (b :: t).drop s.length)

/-- The tokens of a text, of which some bytes belong to a token that has
been read. -/
def allFrom : Nat → Text → Option (List Token)
  | _, [] => some []
  | n + 1, _ :: t => allFrom n t
  | 0, b :: t =>
    if b = 0x20 then allFrom 0 t
    else do
      let (token, rest) ← next (b :: t)
      let tokens ← allFrom (t.length - rest.length) t
      return token :: tokens

/-- **The tokens of a text.** -/
def all (t : Text) : Option (List Token) := allFrom 0 t

end Token

/-! ## Grouping -/

/-- Expressions as they are grouped. Brackets are gone. -/
inductive Formula where
  /-- The constant that stands for nothing. -/
  | nothing
  | truth (b : Bool)
  | number (n : Nat)
  | text (t : Text)
  | name (x : Text)
  | unary (o : UnaryOperator) (e : Formula)
  | binary (left : Formula) (o : BinaryOperator) (right : Formula)
  /-- A comparison behind another one, whose last operand is the first one
  of this. -/
  | chained (front : Formula) (o : BinaryOperator) (right : Formula)
deriving DecidableEq

/-- The words that are no names. -/
def keywords : List Text :=
  ["False", "None", "True", "and", "as", "assert", "async", "await", "break", "class", "continue",
    "def", "del", "elif", "else", "except", "finally", "for", "from", "global", "if", "import",
    "in", "is", "lambda", "nonlocal", "not", "or", "pass", "raise", "return", "try", "while",
    "with", "yield"].map ascii

/-- The operand that a word is. -/
def Formula.ofWord? (w : Text) : Option Formula :=
  if w = ascii "None" then some .nothing
  else if w = ascii "True" then some (.truth true)
  else if w = ascii "False" then some (.truth false)
  else if w.isName && !keywords.contains w then some (.name w)
  else none

/-- What is open: a bracket, or an operator whose last operand is not
complete. -/
inductive Pending where
  | bracket
  | unary (o : UnaryOperator)
  | binary (left : Formula) (o : BinaryOperator)
  | chained (front : Formula) (o : BinaryOperator)
deriving DecidableEq

namespace Pending

/-- How tightly it binds what follows. -/
def level : Pending → Nat
  | bracket => 0
  | unary o => o.level
  | binary _ o | chained _ o => o.level

/-- What it becomes with its last operand. -/
def complete (e : Formula) : Pending → Formula
  | bracket => e
  | unary o => .unary o e
  | binary left o => .binary left o e
  | chained front o => .chained front o e

/-- Completes what binds at least as tightly as said. -/
def completeAll (level : Nat) (e : Formula) : List Pending → Formula × List Pending
  | [] => (e, [])
  | p :: ps => if level ≤ p.level then completeAll level (p.complete e) ps else (e, p :: ps)

/-- A negation binds less tightly than what it can stand in, unless it is
the second word of an operator. -/
def negate : List Pending → Option (List Pending)
  | binary left .identical :: ps => some (binary left .notIdentical :: ps)
  | chained front .identical :: ps => some (chained front .notIdentical :: ps)
  | p :: ps => if p.level ≤ 3 then some (unary .negation :: p :: ps) else none
  | [] => some [unary .negation]

end Pending

/-- Where the machine is, and what is open there, the innermost first. -/
inductive Grouper where
  /-- Before an operand. -/
  | before (ps : List Pending)
  /-- Behind an operand. -/
  | behind (e : Formula) (ps : List Pending)
  /-- Behind an operand and the first word of `not in`. -/
  | negated (e : Formula) (ps : List Pending)
deriving DecidableEq

namespace Grouper

/-- An operator behind an operand. -/
def operate (e : Formula) (ps : List Pending) (o : BinaryOperator) : Grouper :=
  match Pending.completeAll o.leftLevel e ps with
  | (e, []) => before [.binary e o]
  | (e, p :: ps) =>
    if o.level = 4 ∧ p.level = 4 then before (.chained (p.complete e) o :: ps)
    else before (.binary e o :: p :: ps)

/-- One token. -/
def step : Grouper → Token → Option Grouper
  | before ps, .opening => some (before (.bracket :: ps))
  | before ps, .number n => some (behind (.number n) ps)
  | before ps, .text t => some (behind (.text t) ps)
  | before ps, .word w =>
    match UnaryOperator.ofText? w with
    | some .negation => (Pending.negate ps).map before
    | some o => some (before (.unary o :: ps))
    | none => (Formula.ofWord? w).map fun e => behind e ps
  | behind e ps, .closing =>
    match Pending.completeAll 1 e ps with
    | (e, .bracket :: ps) => some (behind e ps)
    | _ => none
  | behind e ps, .word w =>
    if w = ascii "not" then some (negated e ps)
    else (BinaryOperator.ofText? w).map (operate e ps)
  | negated e ps, .word w => if w = ascii "in" then some (operate e ps .notMember) else none
  | _, _ => none

/-- What the machine comes to after some tokens. -/
def run (g : Grouper) (ts : List Token) : Option Grouper := ts.foldlM step g

end Grouper

/-- **Reading an expression** of operators. -/
def Formula.read (t : Text) : Option Formula := do
  let tokens ← Token.all t
  match ← Grouper.run (.before []) tokens with
  | .behind e ps =>
    match Pending.completeAll 1 e ps with
    | (e, []) => some e
    | _ => none
  | _ => none

/-- A sign binds less tightly than a power on its left. -/
example : Formula.read (ascii "-2 ** -x < y < not_z") =
    some (.chained (.binary (.unary .minus (.binary (.number 2) .power
      (.unary .minus (.name (ascii "x"))))) .less (.name (ascii "y"))) .less
        (.name (ascii "not_z"))) := by decide +kernel

/-! ## Tokens of larger texts -/

namespace Token

variable {t : Text} {ts : List Token}

theorem allFrom_eq (n : Nat) (t : Text) : allFrom n t = all (t.drop n) := by
  induction n generalizing t with
  | zero => rfl
  | succ n ih =>
    cases t with
    | nil => rfl
    | cons b t => exact ih t

theorem all_blank (t : Text) : all (0x20 :: t) = all t := rfl

/-- The first token, and those behind it. -/
theorem all_of_next {w rest : Text} {token : Token} (hw : ∃ b, w.head? = some b ∧ b ≠ 0x20)
    (h : next (w ++ rest) = some (token, rest)) :
    all (w ++ rest) = (all rest).map (token :: ·) := by
  obtain ⟨b, hb, hblank⟩ := hw
  obtain ⟨w, rfl⟩ : ∃ w', w = b :: w' := by
    cases w with
    | nil => cases hb
    | cons c w =>
      cases hb
      exact ⟨w, rfl⟩
  rw [List.cons_append] at h ⊢
  have hlength : (w ++ rest).length - rest.length = w.length := by
    rw [List.length_append, Nat.add_sub_cancel]
  rw [all, allFrom, if_neg hblank, h]
  simp only [Option.bind_eq_bind, Option.bind_some, hlength, allFrom_eq, List.drop_left]
  cases all rest <;> rfl

/-- What can be behind an operand: nothing, a blank or a closing bracket. -/
def Ends (rest : Text) : Prop := ∀ b ∈ rest.head?, b = 0x20 ∨ b = 0x29

/-- **A text is made of some tokens** wherever it ends. -/
def Lexes (t : Text) (ts : List Token) : Prop :=
  ∀ rest, Ends rest → all (t ++ rest) = (all rest).map (ts ++ ·)

theorem Lexes.all_eq (h : Lexes t ts) : all t = some ts := by
  have hrest := h [] fun b hb => nomatch hb
  have hnil : all [] = some [] := rfl
  rwa [List.append_nil, hnil, Option.map_some, List.append_nil] at hrest

theorem ends_blank (rest : Text) : Ends (0x20 :: rest) := by
  rintro b ⟨⟩
  exact .inl rfl

theorem ends_closing (rest : Text) : Ends (0x29 :: rest) := by
  rintro b ⟨⟩
  exact .inr rfl

/-- What ends an operand ends a word. -/
theorem takeWhile_of_ends {w rest : Text} (hw : w.all Byte.isWord = true) (hrest : Ends rest) :
    (w ++ rest).takeWhile Byte.isWord = w ∧ (w ++ rest).dropWhile Byte.isWord = rest := by
  have hall : ∀ b ∈ w, Byte.isWord b = true := List.all_eq_true.1 hw
  have hstop : rest.takeWhile Byte.isWord = [] ∧ rest.dropWhile Byte.isWord = rest := by
    cases rest with
    | nil => exact ⟨rfl, rfl⟩
    | cons b rest =>
      have hb : Byte.isWord b = false := by rcases hrest b rfl with rfl | rfl <;> rfl
      rw [List.takeWhile_cons, List.dropWhile_cons, hb]
      exact ⟨rfl, rfl⟩
  rw [List.takeWhile_append_of_pos hall, List.dropWhile_append_of_pos hall, hstop.1, hstop.2,
    List.append_nil]
  exact ⟨rfl, rfl⟩

/-- Letters and digits make one token. -/
theorem lexes_ofWord {w : Text} {token : Token} (hw : w.all Byte.isWord = true) (hne : w ≠ [])
    (htoken : ofWord w = some token) : Lexes w [token] := by
  intro rest hrest
  obtain ⟨b, w, rfl⟩ := List.exists_cons_of_ne_nil hne
  have hb : Byte.isWord b = true := (Bool.and_eq_true_iff.1 hw).1
  have hbyte : ∀ b, Byte.isWord b = true → b ≠ 0x20 ∧ b ≠ 0x28 ∧ b ≠ 0x29 ∧
      ¬(b = Byte.quote ∨ b = Byte.doubleQuote) := Byte.forall_of_ofNat (by decide +kernel)
  obtain ⟨hblank, hopening, hclosing, hquote⟩ := hbyte b hb
  obtain ⟨htake, hdrop⟩ := takeWhile_of_ends hw hrest
  have hplain : ¬(rest.head? = some Byte.quote ∨ rest.head? = some Byte.doubleQuote) := by
    rintro (h | h) <;> rcases hrest _ h with h | h <;> revert h <;> decide
  refine all_of_next ⟨b, rfl, hblank⟩ ?_
  rw [List.cons_append] at htake hdrop ⊢
  simp only [next, if_neg hopening, if_neg hclosing, if_neg hquote, if_pos hb, htake, hdrop,
    if_neg hplain, htoken, Option.map_some]

theorem lexes_name {x : Text} (hx : x.isName = true) : Lexes x [.word x] :=
  lexes_ofWord (Text.all_isWord_of_isName hx) (Text.ne_nil_of_isName hx) (if_pos hx)

theorem lexes_number (n : Nat) : Lexes (Text.ofNat n) [.number n] := by
  have hdigits := Text.isDigit_ofNat n
  have hword : (Text.ofNat n).all Byte.isWord = true :=
    List.all_eq_true.2 fun b hb => Text.isWord_of_isDigit (List.all_eq_true.1 hdigits b hb)
  have hname : (Text.ofNat n).isName = false := Text.not_isName_of_digits hdigits
  refine lexes_ofWord hword (Text.ofNat_ne_nil n) ?_
  rw [ofWord, hname, Text.digitsValue_ofNat, if_neg Bool.false_ne_true, if_pos ⟨hdigits, rfl⟩]

theorem lexes_text (t : Text) : Lexes t.literal [.text t] := by
  intro rest _
  obtain ⟨b, u, hliteral, hb⟩ :
      ∃ b u, t.literal = b :: u ∧ (b = Byte.quote ∨ b = Byte.doubleQuote) := by
    refine ⟨_, _, by rw [Text.literal, List.append_assoc, List.singleton_append], ?_⟩
    exact Text.quoteFor_cases t
  have hread := Text.readLiteral_literal t rest
  rw [hliteral, List.cons_append] at hread
  have hbyte : ∀ b, (b = Byte.quote ∨ b = Byte.doubleQuote) → b ≠ 0x20 ∧ b ≠ 0x28 ∧ b ≠ 0x29 := by
    rintro b (rfl | rfl) <;> decide
  obtain ⟨hblank, hopening, hclosing⟩ := hbyte b hb
  rw [hliteral]
  refine all_of_next ⟨b, rfl, hblank⟩ ?_
  simp only [List.cons_append, next, if_neg hopening, if_neg hclosing, if_pos hb, hread,
    Option.map_some]

/-- What is in brackets may be followed by anything. -/
theorem lexes_bracketed (h : Lexes t ts) :
    Lexes (ascii "(" ++ t ++ ascii ")") (opening :: ts ++ [closing]) := by
  intro rest _
  have hopening (u : Text) : all (ascii "(" ++ u) = (all u).map (opening :: ·) :=
    all_of_next ⟨_, rfl, by decide⟩ rfl
  have hclosing : all (ascii ")" ++ rest) = (all rest).map (closing :: ·) :=
    all_of_next ⟨_, rfl, by decide⟩ rfl
  have hinside := h (ascii ")" ++ rest) (ends_closing rest)
  rw [List.append_assoc, List.append_assoc, hopening, hinside, hclosing]
  simp [Function.comp_def]

/-- A minus sign before a number. -/
theorem all_minus (n : Nat) (rest : Text) :
    all (0x2d :: (Text.ofNat n ++ rest)) =
      (all (Text.ofNat n ++ rest)).map (.word (ascii "-") :: ·) :=
  all_of_next (w := [0x2d]) ⟨_, rfl, by decide⟩ rfl

/-- Words with a blank behind each. -/
theorem all_words {ws : List Text}
    (h : ∀ w ∈ ws, (∃ b, w.head? = some b ∧ b ≠ 0x20) ∧
      ∀ rest, next (w ++ 0x20 :: rest) = some (.word w, 0x20 :: rest)) (rest : Text) :
    all (ws.flatMap (· ++ ascii " ") ++ rest) = (all rest).map (ws.map .word ++ ·) := by
  induction ws with
  | nil => simp
  | cons w ws ih =>
    obtain ⟨hw, hnext⟩ := h w List.mem_cons_self
    have hrest := ih fun v hv => h v (List.mem_cons_of_mem _ hv)
    have hword (u : Text) : all (w ++ (ascii " " ++ u)) = (all u).map (.word w :: ·) :=
      all_of_next hw (hnext u)
    rw [List.flatMap_cons, List.append_assoc, List.append_assoc, hword, hrest]
    simp [Function.comp_def]

end Token

/-- An operator before its operand. -/
theorem UnaryOperator.all_text (o : UnaryOperator) (rest : Text) :
    Token.all (o.text ++ ascii " " ++ rest) = (Token.all rest).map ([.word o.text] ++ ·) := by
  have hword : ∀ w ∈ [o.text], (∃ b, w.head? = some b ∧ b ≠ 0x20) ∧
      ∀ rest, Token.next (w ++ 0x20 :: rest) = some (.word w, 0x20 :: rest) := by
    refine List.forall_mem_singleton.2 ?_
    cases o <;> exact ⟨⟨_, rfl, by decide⟩, fun rest => rfl⟩
  have h := Token.all_words hword rest
  rwa [List.flatMap_singleton] at h

theorem UnaryOperator.lexes (o : UnaryOperator) {t : Text} {ts : List Token}
    (h : Token.Lexes t ts) : Token.Lexes (o.text ++ ascii " " ++ t) (.word o.text :: ts) := by
  intro rest hrest
  rw [List.append_assoc, o.all_text, h rest hrest]
  simp [Function.comp_def]

namespace BinaryOperator

/-- The words of an operator, one by one. -/
def words : BinaryOperator → List Text
  | notIdentical => [ascii "is", ascii "not"]
  | notMember => [ascii "not", ascii "in"]
  | o => [o.text]

/-- The tokens of an operator. -/
def tokens (o : BinaryOperator) : List Token := o.words.map .word

/-- An operator between its operands. -/
theorem all_text (o : BinaryOperator) (rest : Text) :
    Token.all (ascii " " ++ o.text ++ ascii " " ++ rest) =
      (Token.all rest).map (o.tokens ++ ·) := by
  have htext : o.text ++ ascii " " = o.words.flatMap (· ++ ascii " ") := by cases o <;> rfl
  rw [List.append_assoc (ascii " "), htext, List.append_assoc]
  refine (Token.all_blank _).trans (Token.all_words (fun w hw => ?_) rest)
  cases o <;> simp only [words, List.mem_cons, List.not_mem_nil, or_false] at hw
  case notIdentical | notMember =>
    rcases hw with rfl | rfl <;> exact ⟨⟨_, rfl, by decide⟩, fun rest => rfl⟩
  all_goals
    subst hw
    exact ⟨⟨_, rfl, by decide⟩, fun rest => rfl⟩

theorem lexes (o : BinaryOperator) {t u : Text} {ts us : List Token} (h : Token.Lexes t ts)
    (h' : Token.Lexes u us) :
    Token.Lexes (t ++ ascii " " ++ o.text ++ ascii " " ++ u) (ts ++ o.tokens ++ us) := by
  intro rest hrest
  have hleft := h (ascii " " ++ o.text ++ ascii " " ++ (u ++ rest)) (Token.ends_blank _)
  have htext : t ++ ascii " " ++ o.text ++ ascii " " ++ u ++ rest =
      t ++ (ascii " " ++ o.text ++ ascii " " ++ (u ++ rest)) := by
    simp only [List.append_assoc]
  rw [htext, hleft, o.all_text, h' rest hrest]
  simp [Function.comp_def]

end BinaryOperator

/-! ## Operands -/

theorem Grouper.run_append (g : Grouper) (ts us : List Token) :
    g.run (ts ++ us) = (g.run ts).bind (·.run us) := by
  rw [run, List.foldlM_append]
  rfl

theorem Grouper.run_append_of_eq {g g' : Grouper} {ts : List Token} (h : g.run ts = some g')
    (us : List Token) : g.run (ts ++ us) = g'.run us := by
  rw [run_append, h, Option.bind_some]

/-- **What is read for an operand**: all of it, or what is behind a sign
that is still open. -/
inductive Operand where
  | closed (e : Formula)
  /-- Behind a minus sign. -/
  | signed (e : Formula)

namespace Operand

/-- What is read of it. -/
def front : Operand → Formula
  | closed e | signed e => e

/-- What is open before that. -/
def owed : Operand → List Pending
  | closed _ => []
  | signed _ => [.unary .minus]

/-- The operand when it is complete. -/
def whole : Operand → Formula
  | closed e => e
  | signed e => .unary .minus e

/-- **What an operator makes of two operands.** A power does not complete
the sign before its left operand. -/
def operate : Operand → BinaryOperator → Operand → Formula
  | signed e, .power, y => .unary .minus (.binary e .power y.whole)
  | x, o, y => .binary x.whole o y.whole

/-- Some tokens are read as an operand where one can begin. -/
def Reads (x : Operand) (ts : List Token) : Prop :=
  ∀ ps, Grouper.run (.before ps) ts = some (.behind x.front (x.owed ++ ps))

end Operand

/-! ### Steps -/

namespace BinaryOperator

theorem leftLevel_pos (o : BinaryOperator) : 0 < o.leftLevel := by cases o <;> decide

theorem level_pos (o : BinaryOperator) : 1 ≤ o.level := by cases o <;> decide

theorem leftLevel_le {o : BinaryOperator} (ho : o ≠ .power) : o.leftLevel ≤ 11 := by
  cases o <;> first | decide | exact absurd rfl ho

end BinaryOperator

theorem UnaryOperator.level_pos (o : UnaryOperator) : 1 ≤ o.level := by cases o <;> decide

namespace Grouper

variable {e : Formula} {ps qs : List Pending}

/-- An operator can begin what is in a bracket. -/
theorem step_unary (o : UnaryOperator) (ps : List Pending) :
    step (before (.bracket :: ps)) (.word o.text) =
      some (before (.unary o :: .bracket :: ps)) := by
  cases o <;> rfl

/-- The second word of an operator takes the place of the first. -/
theorem step_not (e : Formula) (ps : List Pending) :
    (operate e ps .identical).step (.word (ascii "not")) = some (operate e ps .notIdentical) := by
  have hlevel : BinaryOperator.identical.leftLevel = BinaryOperator.notIdentical.leftLevel := rfl
  unfold operate
  rw [hlevel]
  rcases Pending.completeAll BinaryOperator.notIdentical.leftLevel e ps with ⟨f, _ | ⟨q, qs⟩⟩
  · rfl
  · have hcomparison : BinaryOperator.identical.level = BinaryOperator.notIdentical.level := rfl
    simp only [hcomparison]
    split <;> rfl

/-- **The words of an operator** behind an operand. -/
theorem run_operator (o : BinaryOperator) (e : Formula) (ps : List Pending) :
    run (behind e ps) o.tokens = some (operate e ps o) := by
  cases o
  case notIdentical =>
    change (step (operate e ps .identical) (.word (ascii "not"))).bind _ = _
    rw [step_not]
    rfl
  all_goals rfl

theorem step_closing {f : Formula} (h : Pending.completeAll 1 e qs = (f, .bracket :: ps)) :
    step (behind e qs) .closing = some (behind f ps) := by
  rw [step, h]

end Grouper

/-! ### Reading operands -/

namespace Operand

variable {x y : Operand} {ts us : List Token}

/-- Any operator but the power completes a sign. -/
theorem completeAll_owed (x : Operand) {level : Nat} (hlevel : level ≤ 11) (ps : List Pending) :
    Pending.completeAll level x.front (x.owed ++ ps) = Pending.completeAll level x.whole ps := by
  cases x with
  | closed e => rfl
  | signed e => exact if_pos hlevel

/-- An operator in a bracket, behind its left operand. -/
theorem operate_front (x : Operand) (o : BinaryOperator) (ps : List Pending) :
    ∃ qs, Grouper.operate x.front (x.owed ++ .bracket :: ps) o = .before qs ∧
      ∀ y : Operand, Pending.completeAll 1 y.whole qs = (x.operate o y, .bracket :: ps) := by
  have hone := o.level_pos
  by_cases hpower : o = .power
  · subst hpower
    cases x with
    | closed e => exact ⟨_, rfl, fun y => rfl⟩
    | signed e => exact ⟨_, rfl, fun y => rfl⟩
  · have hbracket : Pending.completeAll o.leftLevel x.whole (.bracket :: ps) =
        (x.whole, .bracket :: ps) := if_neg (Nat.not_le.2 o.leftLevel_pos)
    have hoperate (y : Operand) : x.operate o y = .binary x.whole o y.whole := by
      cases x with
      | closed e => rfl
      | signed e => cases o <;> first | rfl | exact absurd rfl hpower
    refine ⟨.binary x.whole o :: .bracket :: ps, ?_, fun y => ?_⟩
    · have hlevel : ¬(o.level = 4 ∧ Pending.bracket.level = 4) := fun h => absurd h.2 (by decide)
      rw [Grouper.operate, completeAll_owed x (BinaryOperator.leftLevel_le hpower), hbracket]
      exact if_neg hlevel
    · rw [hoperate]
      exact if_pos hone

theorem reads_bracketed {qs : List Pending} {f : Formula} {ps : List Pending} (h : x.Reads ts)
    (hcomplete : Pending.completeAll 1 x.whole qs = (f, .bracket :: ps)) :
    Grouper.run (.before qs) (ts ++ [.closing]) = some (.behind f ps) := by
  have hstep := Grouper.step_closing ((completeAll_owed x (by decide) qs).trans hcomplete)
  rw [Grouper.run_append_of_eq (h qs), Grouper.run, List.foldlM_cons, hstep]
  rfl

/-- **An operator before its operand**, in brackets. -/
theorem reads_unary (o : UnaryOperator) (h : x.Reads ts) :
    (closed (.unary o x.whole)).Reads (.opening :: .word o.text :: ts ++ [.closing]) := by
  intro ps
  have hcomplete : Pending.completeAll 1 x.whole (.unary o :: .bracket :: ps) =
      (.unary o x.whole, .bracket :: ps) := if_pos o.level_pos
  have hrest := reads_bracketed h hcomplete
  have hstep := Grouper.step_unary o ps
  rw [Grouper.run] at hrest ⊢
  change (Grouper.step (.before (.bracket :: ps)) (.word o.text)).bind _ = _
  rw [hstep]
  exact hrest

/-- **An operator between two operands**, in brackets. -/
theorem reads_binary (o : BinaryOperator) (hx : x.Reads ts) (hy : y.Reads us) :
    (closed (x.operate o y)).Reads (.opening :: (ts ++ o.tokens ++ us) ++ [.closing]) := by
  intro ps
  obtain ⟨qs, hqs, hcomplete⟩ := x.operate_front o ps
  have hleft := Grouper.run_append_of_eq (hx (.bracket :: ps)) o.tokens
  rw [Grouper.run_operator, hqs] at hleft
  have hrest := reads_bracketed hy (hcomplete y)
  change Grouper.run (.before (.bracket :: ps)) (ts ++ o.tokens ++ us ++ [.closing]) = _
  rw [List.append_assoc, Grouper.run_append_of_eq hleft]
  exact hrest

theorem reads_number (n : Nat) : (closed (.number n)).Reads [.number n] := fun _ => rfl

theorem reads_minus (n : Nat) : (signed (.number n)).Reads [.word (ascii "-"), .number n] :=
  fun _ => rfl

theorem reads_text (t : Text) : (closed (.text t)).Reads [.text t] := fun _ => rfl

/-- A name in brackets. -/
theorem reads_name {w : Text} (hoperator : UnaryOperator.ofText? w = none) {e : Formula}
    (he : Formula.ofWord? w = some e) : (closed e).Reads [.word w] := by
  intro ps
  change (Grouper.step (.before ps) (.word w)).bind _ = _
  rw [Grouper.step, hoperator, he]
  rfl

/-- Brackets change nothing about what is closed. -/
theorem reads_group {e : Formula} (h : (closed e).Reads ts) :
    (closed e).Reads (.opening :: ts ++ [.closing]) := by
  intro ps
  have hcomplete : Pending.completeAll 1 (closed e).whole (.bracket :: ps) =
      (e, .bracket :: ps) := rfl
  have hread : Grouper.run (.before (.bracket :: ps)) (ts ++ [.closing]) = some (.behind e ps) :=
    reads_bracketed h hcomplete
  exact hread

/-- **What a text of operands is read as.** -/
theorem read_eq {t : Text} (hlexes : Token.Lexes t ts) (h : x.Reads ts) :
    Formula.read t = some x.whole := by
  have hcomplete : Pending.completeAll 1 x.front (x.owed ++ []) =
      Pending.completeAll 1 x.whole [] := completeAll_owed x (by decide) []
  rw [Formula.read, hlexes.all_eq, Option.bind_eq_bind, Option.bind_some, h []]
  simp only [Option.bind_eq_bind, Option.bind_some, hcomplete]
  rfl

end Operand

end ScriptSplice
