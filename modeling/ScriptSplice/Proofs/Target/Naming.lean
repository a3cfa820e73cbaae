import ScriptSplice.Program.Helper
import ScriptSplice.Program.Literal
import ScriptSplice.Proofs.Target.Term
/-!
# Generated names

The names of a program begin with the stem and go on with what they are
for, so that those of different things differ, and numbers are told apart
by their digits. A normalized text is made of words; behind a stem it
makes a name, and as a literal it needs no escapes.
-/

namespace ScriptSplice

/-- What holds of the first 256 numbers as bytes holds of every byte. -/
theorem Byte.forall_of_ofNat {P : UInt8 → Prop} (h : ∀ n, n < 256 → P (UInt8.ofNat n))
    (b : UInt8) : P b := by
  have hb := h b.toNat b.toNat_lt
  rwa [UInt8.ofNat_toNat] at hb

namespace Text

/-! ## Numbers -/

/-- The digit of a number under ten. -/
def digit (d : Nat) : UInt8 := UInt8.ofNat (Nat.digitChar d).toNat

theorem digit_spec : ∀ d, d < 10 → Byte.isDigit (digit d) = true ∧ (digit d).toNat - 0x30 = d := by
  decide

theorem ofNat_of_lt {n : Nat} (h : n < 10) : ofNat n = [digit n] := by
  rw [ofNat, Nat.toDigits_of_lt_base h]
  rfl

theorem ofNat_of_le {n : Nat} (h : 10 ≤ n) : ofNat n = ofNat (n / 10) ++ [digit (n % 10)] := by
  rw [ofNat, Nat.toDigits_of_base_le (by omega) h, List.map_append]
  rfl

theorem ofNat_ne_nil (n : Nat) : ofNat n ≠ [] := by
  rw [ofNat, Ne, List.map_eq_nil_iff]
  exact Nat.toDigits_ne_nil

theorem isDigit_ofNat (n : Nat) : (ofNat n).all Byte.isDigit = true := by
  induction n using Nat.strongRecOn with
  | ind n ih =>
    rcases Nat.lt_or_ge n 10 with h | h
    · rw [ofNat_of_lt h, List.all_cons, (digit_spec n h).1]
      rfl
    · rw [ofNat_of_le h, List.all_append, ih (n / 10) (by omega), List.all_cons,
        (digit_spec (n % 10) (by omega)).1]
      rfl

/-- **The digits of a number are read back as the number.** -/
theorem digitsValue_ofNat (n : Nat) : digitsValue (ofNat n) = n := by
  induction n using Nat.strongRecOn with
  | ind n ih =>
    rcases Nat.lt_or_ge n 10 with h | h
    · rw [ofNat_of_lt h, digitsValue, List.foldl_cons, (digit_spec n h).2]
      exact Nat.zero_add n
    -- the last digit is the remainder, and those before it are the quotient's
    · have hrest := ih (n / 10) (by omega)
      have hdigit := (digit_spec (n % 10) (by omega)).2
      rw [digitsValue] at hrest
      rw [ofNat_of_le h, digitsValue, List.foldl_append, hrest, List.foldl_cons, hdigit,
        List.foldl_nil]
      omega

theorem ofNat_injective {n m : Nat} (h : ofNat n = ofNat m) : n = m := by
  rw [← digitsValue_ofNat n, h, digitsValue_ofNat]

/-! ## Names -/

theorem isWord_of_isDigit {b : UInt8} (h : Byte.isDigit b = true) : Byte.isWord b = true := by
  simp [Byte.isWord, Byte.isAlphanumeric, h]

theorem all_isWord_of_isName {x : Text} (h : isName x = true) : x.all Byte.isWord = true := by
  cases x with
  | nil => rfl
  | cons b t =>
    rw [isName, Bool.and_eq_true, Bool.and_eq_true] at h
    rw [List.all_cons, h.1.2, h.2]
    rfl

theorem ne_nil_of_isName {x : Text} (h : isName x = true) : x ≠ [] := by
  rintro rfl
  simp [isName] at h

theorem not_isName_of_digits {t : Text} (h : t.all Byte.isDigit = true) : isName t = false := by
  cases t with
  | nil => rfl
  | cons b t =>
    rw [List.all_cons, Bool.and_eq_true] at h
    rw [isName, h.1]
    rfl

/-- An identifier is a name. -/
theorem isName_of_isIdentifier {x : Text} (h : isIdentifier x = true) : isName x = true := by
  cases x with
  | nil => simp [isIdentifier] at h
  | cons b t =>
    have hhead : ∀ b, (Byte.isAlpha b || b == Byte.underscore) = true →
        (!Byte.isDigit b && Byte.isWord b) = true := Byte.forall_of_ofNat (by decide +kernel)
    rw [isIdentifier, Bool.and_eq_true] at h
    rw [isName, hhead b h.1, Bool.true_and, List.all_eq_true]
    intro c hc
    rw [Byte.isWord, List.all_eq_true.1 h.2 c hc, Bool.true_or]

/-- A name stays one when words are put behind it. -/
theorem isName_append {x t : Text} (hx : isName x = true) (ht : t.all Byte.isWord = true) :
    isName (x ++ t) = true := by
  cases x with
  | nil => simp [isName] at hx
  | cons b x =>
    rw [isName, Bool.and_eq_true] at hx
    rw [List.cons_append, isName, List.all_append, hx.1, hx.2, ht]
    rfl

/-! ## Normalized texts -/

/-- No word byte has to be escaped in a literal. -/
theorem isWord_plain {b : UInt8} (h : Byte.isWord b = true) :
    b ≠ Byte.quote ∧ b ≠ Byte.backslash ∧ Byte.isControl b = false := by
  have hall : ∀ b, Byte.isWord b = true →
      b ≠ Byte.quote ∧ b ≠ Byte.backslash ∧ Byte.isControl b = false :=
    Byte.forall_of_ofNat (by decide +kernel)
  exact hall b h

theorem literalByte_of_isWord {b : UInt8} (h : Byte.isWord b = true) :
    literalByte Byte.quote b = [b] := by
  obtain ⟨hquote, hbackslash, hcontrol⟩ := isWord_plain h
  have hne : ∀ c, Byte.isControl c = true → (b == c) = false := fun c hc =>
    beq_false_of_ne fun heq => by simp [heq, hc] at hcontrol
  rw [literalByte, beq_false_of_ne hquote, beq_false_of_ne hbackslash, hne 0x0a rfl, hne 0x0d rfl,
    hne 0x09 rfl, hcontrol]
  rfl

/-- **The literal of a text of words** is the text in quotes. -/
theorem literal_of_words {t : Text} (h : t.all Byte.isWord = true) :
    literal t = [Byte.quote] ++ t ++ [Byte.quote] := by
  have hword : ∀ b ∈ t, Byte.isWord b = true := List.all_eq_true.1 h
  have hcontains : t.contains Byte.quote = false := by
    refine Bool.eq_false_iff.2 fun hmem => ?_
    exact (isWord_plain (hword _ (List.contains_iff_mem.1 hmem))).1 rfl
  have hflat : t.flatMap (literalByte Byte.quote) = t := by
    clear hcontains h
    induction t with
    | nil => rfl
    | cons b t ih =>
      rw [List.flatMap_cons, literalByte_of_isWord (hword b List.mem_cons_self),
        ih fun c hc => hword c (List.mem_cons_of_mem _ hc)]
      rfl
  rw [literal, quoteFor, hcontains, Bool.false_and]
  exact congrArg (fun u => [Byte.quote] ++ u ++ [Byte.quote]) hflat

/-- The pieces of a split have no byte of the class that splits. -/
theorem forall_mem_splitWhere (p : UInt8 → Bool) (t : Text) :
    ∀ w ∈ splitWhere p t, ∀ b ∈ w, p b = false := by
  induction t with
  | nil => simp [splitWhere]
  | cons c t ih =>
    rw [splitWhere]
    cases hc : p c with
    | true => simpa using ih
    | false =>
      rw [if_neg Bool.false_ne_true]
      cases hs : splitWhere p t with
      | nil => simp
      | cons w ws =>
        rw [hs, List.forall_mem_cons] at ih
        rw [List.modifyHead_cons, List.forall_mem_cons, List.forall_mem_cons]
        exact ⟨⟨hc, ih.1⟩, ih.2⟩

/-- Text without a byte of the class is one piece. -/
theorem splitWhere_of_forall {p : UInt8 → Bool} {w : Text} (hw : ∀ b ∈ w, p b = false) :
    splitWhere p w = [w] := by
  induction w with
  | nil => rfl
  | cons c w ih =>
    rw [splitWhere, hw c List.mem_cons_self, if_neg Bool.false_ne_true,
      ih fun b hb => hw b (List.mem_cons_of_mem _ hb)]
    rfl

/-- Text without a byte of the class is the first piece. -/
theorem splitWhere_append {p : UInt8 → Bool} {w : Text} (hw : ∀ b ∈ w, p b = false) {b : UInt8}
    (hb : p b = true) (t : Text) : splitWhere p (w ++ b :: t) = w :: splitWhere p t := by
  induction w with
  | nil => rw [List.nil_append, splitWhere, if_pos hb]
  | cons c w ih =>
    rw [List.cons_append, splitWhere, hw c List.mem_cons_self, if_neg Bool.false_ne_true,
      ih fun b hb => hw b (List.mem_cons_of_mem _ hb)]
    rfl

theorem isAlphanumeric_toLower {b : UInt8} (h : Byte.isAlphanumeric b = true) :
    Byte.isAlphanumeric (Byte.toLower b) = true := by
  have hall : ∀ b, Byte.isAlphanumeric b = true → Byte.isAlphanumeric (Byte.toLower b) = true :=
    Byte.forall_of_ofNat (by decide +kernel)
  exact hall b h

/-- What holds of the bytes of texts and of what separates them holds of
the bytes of all of it. -/
theorem forall_mem_intercalate {P : UInt8 → Prop} {separator : Text}
    (hseparator : ∀ b ∈ separator, P b) {ws : List Text} (hws : ∀ w ∈ ws, ∀ b ∈ w, P b) :
    ∀ b ∈ List.intercalate separator ws, P b := by
  induction ws with
  | nil => simp [List.intercalate_nil]
  | cons w ws ih =>
    cases ws with
    | nil => simpa [List.intercalate_singleton] using hws
    | cons v vs =>
      rw [List.forall_mem_cons] at hws
      rw [List.intercalate_cons_cons]
      intro b hb
      rcases List.mem_append.1 hb with hb | hb
      · rcases List.mem_append.1 hb with hb | hb
        · exact hws.1 b hb
        · exact hseparator b hb
      · exact ih hws.2 b hb

theorem all_isWord_normalize (t : Text) : (normalize t).all Byte.isWord = true := by
  have hwords : ∀ w ∈ t.words.map (·.map Byte.toLower), ∀ b ∈ w, Byte.isWord b = true := by
    intro w hw b hb
    obtain ⟨v, hv, rfl⟩ := List.mem_map.1 hw
    obtain ⟨c, hc, rfl⟩ := List.mem_map.1 hb
    have halnum := forall_mem_splitWhere _ t v (List.mem_filter.1 hv).1 c hc
    rw [Bool.not_eq_false'] at halnum
    rw [Byte.isWord, isAlphanumeric_toLower halnum, Bool.true_or, Bool.true_or]
  rw [normalize, List.all_eq_true]
  exact forall_mem_intercalate (List.all_eq_true.1 rfl) hwords

/-- Behind a word and an underscore, normalized text stays as it is. -/
theorem normalize_append {w c : Text} (hw : ∀ b ∈ w, Byte.isAlphanumeric b = true)
    (hlower : w.map Byte.toLower = w) (hne : w ≠ []) (hc : normalize c = c) (hcne : c ≠ []) :
    normalize (w ++ Byte.underscore :: c) = w ++ Byte.underscore :: c := by
  have hwords : words (w ++ Byte.underscore :: c) = w :: words c := by
    rw [words, splitWhere_append (fun b hb => by rw [hw b hb]; rfl) rfl, List.filter_cons_of_pos]
    · rfl
    · simpa using hne
  rw [normalize, hwords, List.map_cons, hlower]
  -- normalized text that is not empty has words to put behind the underscore
  cases hcs : c.words with
  | nil =>
    rw [normalize, hcs] at hc
    exact absurd hc.symm hcne
  | cons v vs =>
    rw [normalize, hcs] at hc
    rw [List.map_cons] at hc ⊢
    rw [List.intercalate_cons_cons, hc]
    simp

end Text

/-! ## Names -/

section Names

variable {stem : Text}

/-- A helper whose key is its own normal form. Its name ends in the key. -/
def Helper.Plain (h : Helper) : Prop := Text.normalize h.key = h.key

theorem Helper.plain_replace : Helper.replace.Plain := rfl

theorem Helper.plain_children : Helper.children.Plain := rfl

theorem Helper.plain_interpolate {c : Text} (hc : Text.normalize c = c) (hne : c ≠ []) :
    (Helper.interpolate c).Plain :=
  Text.normalize_append (w := ascii "interpolate") (List.all_eq_true.1 rfl) rfl (by decide) hc hne

theorem Helper.Plain.localName {h : Helper} (hh : h.Plain) (stem : Text) :
    h.localName stem = stem ++ ascii "_helper_" ++ h.key := by
  rw [Helper.localName, hh]

theorem Helper.Plain.isWord_key {h : Helper} (hh : h.Plain) : h.key.all Byte.isWord = true := by
  rw [← hh]
  exact Text.all_isWord_normalize _

/-- **Helpers with other keys have other names.** -/
theorem Helper.Plain.key_eq {h k : Helper} (hh : h.Plain) (hk : k.Plain)
    (hname : h.localName stem = k.localName stem) : h.key = k.key := by
  rw [hh.localName, hk.localName] at hname
  exact List.append_cancel_left hname

theorem variableName_injective {i j : Nat} (h : variableName stem i = variableName stem j) :
    i = j := Text.ofNat_injective (List.append_cancel_left h)

theorem localName_ne_variableName (h : Helper) (i : Nat) :
    h.localName stem ≠ variableName stem i := by
  rw [Helper.localName, variableName, List.append_assoc, List.append_assoc, Ne,
    List.append_cancel_left_eq]
  simp [ascii]

theorem refsName_ne_variableName (i : Nat) : refsName stem ≠ variableName stem i := by
  rw [refsName, variableName, List.append_assoc, Ne, List.append_cancel_left_eq]
  simp [ascii]

theorem runtimeName_ne_variableName (i : Nat) : runtimeName stem ≠ variableName stem i := by
  rw [runtimeName, variableName, List.append_assoc, Ne, List.append_cancel_left_eq]
  simp [ascii]

theorem refsName_ne_localName (h : Helper) : refsName stem ≠ h.localName stem := by
  rw [refsName, Helper.localName, List.append_assoc, Ne, List.append_cancel_left_eq]
  simp [ascii]

theorem runtimeName_ne_localName (h : Helper) : runtimeName stem ≠ h.localName stem := by
  rw [runtimeName, Helper.localName, List.append_assoc, Ne, List.append_cancel_left_eq]
  simp [ascii]

theorem runtimeName_ne_refsName : runtimeName stem ≠ refsName stem := by
  rw [runtimeName, refsName, Ne, List.append_cancel_left_eq]
  decide

variable (hstem : stem.isName = true)

include hstem

theorem isName_runtimeName : (runtimeName stem).isName = true :=
  Text.isName_append hstem (by decide)

theorem isName_refsName : (refsName stem).isName = true := Text.isName_append hstem (by decide)

theorem isName_variableName (i : Nat) : (variableName stem i).isName = true := by
  refine Text.isName_append (Text.isName_append hstem (by decide)) ?_
  refine List.all_eq_true.2 fun b hb => Text.isWord_of_isDigit ?_
  exact List.all_eq_true.1 (Text.isDigit_ofNat i) b hb

theorem isName_localName (h : Helper) : (h.localName stem).isName = true :=
  Text.isName_append (Text.isName_append hstem (by decide)) (Text.all_isWord_normalize _)

end Names

end ScriptSplice
