import ScriptSplice.Options
import ScriptSplice.Program.Source
import ScriptSplice.Proofs.Target.Normalizing
import ScriptSplice.Proofs.Target.Table
/-!
# Identifiers

An identifier is a letter or an underscore, and then letters, digits and
underscores, all of them those of ASCII (`Text.Identifier`). Whatever is in
the environment, the stem of the names is an identifier, and then so are
the names of a program, whatever bytes the converters and parsers that they
are made from have in theirs (`generated_names`). For that the key of a
helper is normalized.
-/

namespace ScriptSplice

namespace Text

/-- The bytes that an identifier can begin with. -/
def letters : Text := ascii "ABCDEFGHIJKLMNOPQRSTUVWXYZ_abcdefghijklmnopqrstuvwxyz"

/-- The digits. -/
def digits : Text := ascii "0123456789"

/-- **The grammar of identifiers.** -/
def Identifier (t : Text) : Prop :=
  ∃ b u, t = b :: u ∧ b ∈ letters ∧ ∀ c ∈ u, c ∈ letters ++ digits

variable {t u : Text}

theorem mem_letters_iff (b : UInt8) :
    b ∈ letters ↔ (Byte.isAlpha b || b == Byte.underscore) = true := by
  revert b
  exact Byte.forall_of_ofNat (by decide +kernel)

theorem mem_digits_iff (b : UInt8) : b ∈ digits ↔ Byte.isDigit b = true := by
  revert b
  exact Byte.forall_of_ofNat (by decide +kernel)

theorem mem_letters_digits_iff (b : UInt8) :
    b ∈ letters ++ digits ↔ Byte.isAlphanumeric b = true ∨ b = Byte.underscore := by
  rw [List.mem_append, mem_letters_iff, mem_digits_iff, Byte.isAlphanumeric]
  simp only [Bool.or_eq_true, beq_iff_eq]
  exact or_right_comm

/-- **The check accepts the identifiers** and nothing else. -/
theorem isIdentifier_iff : t.isIdentifier = true ↔ t.Identifier := by
  cases t with
  | nil => simp [isIdentifier, Identifier]
  | cons b t =>
    rw [isIdentifier, Bool.and_eq_true, List.all_eq_true, ← mem_letters_iff]
    constructor
    · rintro ⟨hb, ht⟩
      refine ⟨b, t, rfl, hb, fun c hc => ?_⟩
      rw [mem_letters_digits_iff]
      simpa using ht c hc
    · rintro ⟨_, _, ⟨⟩, hb, ht⟩
      refine ⟨hb, fun c hc => ?_⟩
      simpa using (mem_letters_digits_iff c).1 (ht c hc)

/-- An identifier stays one when letters, digits and underscores are put
behind it. -/
theorem Identifier.append (h : t.Identifier)
    (hu : ∀ c ∈ u, Byte.isAlphanumeric c = true ∨ c = Byte.underscore) :
    (t ++ u).Identifier := by
  obtain ⟨b, t, rfl, hb, ht⟩ := h
  refine ⟨b, t ++ u, rfl, hb, List.forall_mem_append.2 ⟨ht, fun c hc => ?_⟩⟩
  exact (mem_letters_digits_iff c).2 (hu c hc)

/-- What a name has behind the stem, if it is a word. -/
theorem Identifier.append_word (h : t.Identifier) (word : String)
    (hword : ((ascii word).all fun c => Byte.isAlphanumeric c || c == Byte.underscore) = true) :
    (t ++ ascii word).Identifier := by
  refine h.append fun c hc => ?_
  simpa using List.all_eq_true.1 hword c hc

end Text

/-! ## The names of a program -/

namespace Text.Identifier

variable {stem : Text} (h : stem.Identifier)

include h

theorem runtimeName : (runtimeName stem).Identifier := h.append_word "_runtime" rfl

theorem refsName : (refsName stem).Identifier := h.append_word "_refs" rfl

theorem variableName (n : Nat) : (variableName stem n).Identifier := by
  refine (h.append_word "_var" rfl).append fun c hc => .inl ?_
  rw [Byte.isAlphanumeric, List.all_eq_true.1 (Text.isDigit_ofNat n) c hc, Bool.or_true]

/-- The local name of a helper, whatever its key. -/
theorem localName (helper : Helper) : (helper.localName stem).Identifier :=
  (h.append_word "_helper_" rfl).append (Text.forall_mem_normalize helper.key)

end Text.Identifier

/-! ## The environment -/

namespace Environment

variable (env : Environment)

/-- **The stem is an identifier**, whatever the environment. -/
theorem identifier_stem : env.options.stem.Identifier := by
  rw [← Text.isIdentifier_iff, options]
  cases hasked : (env.value? (ascii "BOLT_PREFIX")).filter Text.isIdentifier with
  | none => rfl
  | some t => exact (Option.filter_eq_some_iff.1 hasked).2

/-- A width that is asked for is in range. -/
theorem range_of_width? {t : Text} {w : Nat} (h : width? t = some w) : 1 ≤ w ∧ w ≤ 16 := by
  unfold width? at h
  split at h
  · split at h
    · rename_i hwidth
      cases h
      rw [isWidth, Bool.and_eq_true, decide_eq_true_eq, decide_eq_true_eq] at hwidth
      omega
    · cases h
  · cases h

/-- **The width is in range**, whatever the environment. -/
theorem range_indent : 1 ≤ env.options.indent ∧ env.options.indent ≤ 16 := by
  have hstandard : 1 ≤ Options.standard.indent ∧ Options.standard.indent ≤ 16 := by decide
  rw [options]
  cases hasked : (env.value? (ascii "BOLT_INDENT_WIDTH")).bind width? with
  | none => exact hstandard
  | some w =>
    obtain ⟨t, -, ht⟩ := Option.bind_eq_some_iff.1 hasked
    exact range_of_width? ht

variable {env}

/-- An identifier that is asked for is the stem. -/
theorem stem_of_value? {t : Text} (h : env.value? (ascii "BOLT_PREFIX") = some t)
    (ht : t.Identifier) : env.options.stem = t := by
  rw [options, h, Option.filter_some_pos (Text.isIdentifier_iff.2 ht)]
  rfl

/-- A number in range that is asked for is the width. -/
theorem indent_of_value? {w : Nat}
    (h : env.value? (ascii "BOLT_INDENT_WIDTH") = some (Text.ofNat w))
    (hw : 1 ≤ w ∧ w ≤ 16) : env.options.indent = w := by
  have hwidth : isWidth w = true := by
    rw [isWidth, Bool.and_eq_true, decide_eq_true_eq, decide_eq_true_eq]
    omega
  have hread : Text.leadingInt (Text.ofNat w) = some ((w : Int), []) := Text.leadingInt_ofInt w
  have hwanted : width? (Text.ofNat w) = some w := by
    rw [width?, hread]
    exact if_pos hwidth
  rw [options, h]
  exact congrArg (Option.getD · Options.standard.indent) hwanted

end Environment

/-- **Generated names are identifiers.** Whatever the environment, the stem
is an identifier and the width of the indentation is from 1 to 16; and they
are what is asked for, if that is possible. With such a stem the names of
the runtime, of the table of references, of the line table, of all
variables and of all helpers are identifiers. A text is normalized to its
stretches of letters and digits in small letters, with one underscore
between two. That can be done in one pass, and doing it again changes
nothing. -/
theorem generated_names :
    (∀ env : Environment,
      env.options.stem.Identifier ∧ 1 ≤ env.options.indent ∧ env.options.indent ≤ 16 ∧
      (∀ t, env.value? (ascii "BOLT_PREFIX") = some t → t.Identifier → env.options.stem = t) ∧
      ∀ w, env.value? (ascii "BOLT_INDENT_WIDTH") = some (Text.ofNat w) → 1 ≤ w ∧ w ≤ 16 →
        env.options.indent = w) ∧
    (∀ o : Options, o.stem.Identifier →
      (runtimeName o.stem).Identifier ∧ (refsName o.stem).Identifier ∧
      (Program.tableName o).Identifier ∧ (∀ n, (variableName o.stem n).Identifier) ∧
      ∀ h : Helper, (h.localName o.stem).Identifier) ∧
    ∀ t : Text,
      (∃ ws, t.Stretches ws) ∧
      (∀ ws, t.Stretches ws →
        t.normalize = List.intercalate [Byte.underscore] (ws.map (·.map Byte.toLower))) ∧
      t.normalize = (t.foldl Text.Normalizer.step ⟨[], false⟩).written ∧
      t.normalize.normalize = t.normalize := by
  refine ⟨fun env => ?_, fun o h => ?_, fun t => ?_⟩
  · obtain ⟨hleast, hmost⟩ := env.range_indent
    exact ⟨env.identifier_stem, hleast, hmost, fun t => Environment.stem_of_value?,
      fun w => Environment.indent_of_value?⟩
  · exact ⟨h.runtimeName, h.refsName, h.append_word "_lineno" rfl, h.variableName, h.localName⟩
  · exact ⟨Text.Stretches.exists_stretches t, fun ws h => h.normalize_eq,
      Text.normalize_eq_foldl t, Text.normalize_normalize t⟩

/-- A stem and a width that are asked for, and the name of a parser with
separators, capitals, a byte of no alphabet and one that is zero. -/
theorem generated_names_asked :
    let env : Environment :=
      [(ascii "BOLT_PREFIX", ascii "_g3n"), (ascii "BOLT_INDENT_WIDTH", ascii "16")]
    let h : Helper := .convert (ascii "Brigadier::" ++ [0xff, 0x00] ++ ascii "INT-32_")
    Text.Identifier (ascii "_g3n") ∧ env.options.stem = ascii "_g3n" ∧ env.options.indent = 16 ∧
      h.localName env.options.stem = ascii "_g3n_helper_convert_brigadier_int_32" ∧
      (h.localName env.options.stem).Identifier ∧
      h.key.normalize = List.intercalate [Byte.underscore]
        [ascii "convert", ascii "brigadier", ascii "int", ascii "32"] := by
  intro env h
  have hasked : Text.Identifier (ascii "_g3n") := Text.isIdentifier_iff.1 rfl
  obtain ⟨henv, hnames, hnormal⟩ := generated_names
  obtain ⟨hstem, -, -, hprefix, hwidth⟩ := henv env
  have hwords : h.key.Stretches h.key.words := by
    obtain ⟨ws, hws⟩ := (hnormal h.key).1
    rwa [← hws.words_eq] at hws
  refine ⟨hasked, hprefix _ rfl hasked, hwidth 16 (by decide) (by decide), by decide +kernel,
    (hnames env.options hstem).2.2.2.2 h, ?_⟩
  rw [(hnormal h.key).2.1 _ hwords]
  decide +kernel

end ScriptSplice
