import ScriptSplice.Proofs.Target.Naming
/-!
# Normalizing

What a text is normalized to is told by its stretches of letters and
digits, none of which can be made longer (`Text.Stretches`). A text has one
list of them (`Text.Stretches.words_eq`); normalizing puts them together in
small letters with one underscore between two. What comes out has the same
stretches, so normalizing it again changes nothing
(`Text.normalize_normalize`), and one pass over the text is enough to write
it (`Text.normalize_eq_foldl`).
-/

namespace ScriptSplice

namespace Text

variable {t w : Text} {ws : List Text}

/-! ## Stretches -/

/-- **The stretches of a text**, in order: pieces of letters and digits
with anything else before, between and behind them. -/
inductive Stretches : Text → List Text → Prop
  | nil : Stretches [] []
  /-- A byte that is in no stretch. -/
  | gap {b : UInt8} {t : Text} {ws : List Text} : Byte.isAlphanumeric b = false →
      Stretches t ws → Stretches (b :: t) ws
  /-- A stretch ends only where it has to. -/
  | stretch {w t : Text} {ws : List Text} : w ≠ [] →
      (∀ b ∈ w, Byte.isAlphanumeric b = true) →
      (∀ b ∈ t.head?, Byte.isAlphanumeric b = false) →
      Stretches t ws → Stretches (w ++ t) (w :: ws)

namespace Stretches

/-- A letter or digit more makes the first stretch longer, or is one of its
own. -/
theorem cons (h : Stretches t ws) {b : UInt8} (hb : Byte.isAlphanumeric b = true) :
    ∃ vs, Stretches (b :: t) vs := by
  have hone : ∀ c ∈ [b], Byte.isAlphanumeric c = true := List.forall_mem_singleton.2 hb
  cases h with
  | nil => exact ⟨_, .stretch (w := [b]) (by simp) hone (by simp) .nil⟩
  | gap hc h => exact ⟨_, .stretch (w := [b]) (by simp) hone (by simpa using hc) (.gap hc h)⟩
  | stretch hne hw hnext h =>
    exact ⟨_, .stretch (List.cons_ne_nil b _) (List.forall_mem_cons.2 ⟨hb, hw⟩) hnext h⟩

/-- Every text has its stretches. -/
theorem exists_stretches (t : Text) : ∃ ws, Stretches t ws := by
  induction t with
  | nil => exact ⟨[], .nil⟩
  | cons b t ih =>
    obtain ⟨ws, h⟩ := ih
    cases hb : Byte.isAlphanumeric b with
    | false => exact ⟨ws, .gap hb h⟩
    | true => exact h.cons hb

/-- A byte that is in no stretch ends a piece of the split. -/
theorem words_gap {b : UInt8} (hb : Byte.isAlphanumeric b = false) (t : Text) :
    words (b :: t) = words t := by
  rw [words, splitWhere, if_pos (by rw [hb]; rfl)]
  rfl

/-- **A text has one list of stretches**, and these are its words. -/
theorem words_eq (h : Stretches t ws) : t.words = ws := by
  induction h with
  | nil => rfl
  | gap hb _ ih => rw [words_gap hb, ih]
  | @stretch w t ws hne hw hnext _ ih =>
    have hsplit : ∀ b ∈ w, (!Byte.isAlphanumeric b) = false := fun b hb => by rw [hw b hb]; rfl
    cases t with
    | nil =>
      rw [← ih, List.append_nil, words, splitWhere_of_forall hsplit,
        List.filter_cons_of_pos (by simpa using hne)]
      rfl
    | cons b t =>
      have hb := hnext b rfl
      rw [words_gap hb] at ih
      rw [words, splitWhere_append hsplit (by rw [hb]; rfl),
        List.filter_cons_of_pos (by simpa using hne), ← ih]
      rfl

/-- The stretches are of letters and digits, and not empty. -/
theorem forall_mem (h : Stretches t ws) :
    ∀ w ∈ ws, w ≠ [] ∧ ∀ b ∈ w, Byte.isAlphanumeric b = true := by
  induction h with
  | nil => exact List.forall_mem_nil _
  | gap _ _ ih => exact ih
  | stretch hne hw _ _ ih => exact List.forall_mem_cons.2 ⟨⟨hne, hw⟩, ih⟩

/-- **Stretches with underscores between them** are the stretches of the
whole. -/
theorem intercalate (h : ∀ w ∈ ws, w ≠ [] ∧ ∀ b ∈ w, Byte.isAlphanumeric b = true) :
    Stretches (List.intercalate [Byte.underscore] ws) ws := by
  induction ws with
  | nil => exact .nil
  | cons w ws ih =>
    rw [List.forall_mem_cons] at h
    obtain ⟨⟨hne, hw⟩, hrest⟩ := h
    cases ws with
    | nil =>
      have hlast := Stretches.stretch hne hw (by simp) .nil
      rw [List.append_nil] at hlast
      rwa [List.intercalate_singleton]
    | cons v vs =>
      rw [List.intercalate_cons_cons, List.append_assoc]
      exact .stretch hne hw (by simp [Byte.underscore, Byte.isAlphanumeric, Byte.isAlpha,
        Byte.isUpper, Byte.isDigit]) (.gap rfl (ih hrest))

/-- **What a text is normalized to.** -/
theorem normalize_eq (h : Stretches t ws) :
    t.normalize = List.intercalate [Byte.underscore] (ws.map (·.map Byte.toLower)) := by
  rw [normalize, h.words_eq]

end Stretches

/-! ## Normalizing again -/

theorem toLower_toLower (b : UInt8) : Byte.toLower (Byte.toLower b) = Byte.toLower b := by
  revert b
  exact Byte.forall_of_ofNat (by decide +kernel)

/-- Small letters are still letters. -/
theorem Stretches.lower (h : Stretches t ws) :
    ∀ w ∈ ws.map (·.map Byte.toLower), w ≠ [] ∧ ∀ b ∈ w, Byte.isAlphanumeric b = true := by
  intro w hw
  obtain ⟨v, hv, rfl⟩ := List.mem_map.1 hw
  obtain ⟨hne, halnum⟩ := h.forall_mem v hv
  refine ⟨by simpa using hne, fun b hb => ?_⟩
  obtain ⟨c, hc, rfl⟩ := List.mem_map.1 hb
  exact isAlphanumeric_toLower (halnum c hc)

/-- **A normalized text stays as it is.** -/
theorem normalize_normalize (t : Text) : t.normalize.normalize = t.normalize := by
  obtain ⟨ws, h⟩ := Stretches.exists_stretches t
  have hlower : (ws.map (·.map Byte.toLower)).map (·.map Byte.toLower) =
      ws.map (·.map Byte.toLower) := by
    simp only [List.map_map, Function.comp_def, toLower_toLower]
  have hnormal := Stretches.intercalate h.lower
  rw [← h.normalize_eq] at hnormal
  rw [hnormal.normalize_eq, hlower, ← h.normalize_eq]

/-- A normalized text is made of letters, digits and underscores. -/
theorem forall_mem_normalize (t : Text) :
    ∀ b ∈ t.normalize, Byte.isAlphanumeric b = true ∨ b = Byte.underscore := by
  obtain ⟨ws, h⟩ := Stretches.exists_stretches t
  rw [h.normalize_eq]
  refine forall_mem_intercalate ?_ fun w hw b hb => .inl ((h.lower w hw).2 b hb)
  exact List.forall_mem_singleton.2 (.inr rfl)

/-! ## One pass -/

/-- What has been written of a normalized text, and whether something that
is not written stands behind it. -/
structure Normalizer where
  written : Text
  pending : Bool

namespace Normalizer

/-- **One byte.** An underscore is written for what was left out, but only
once a letter or digit comes behind it, and not at the beginning. -/
def step (s : Normalizer) (b : UInt8) : Normalizer :=
  if Byte.isAlphanumeric b then
    ⟨(if s.pending && !s.written.isEmpty then s.written ++ [Byte.underscore] else s.written) ++
      [Byte.toLower b], false⟩
  else { s with pending := true }

variable {s : Normalizer}

/-- The rest of a stretch is written behind its beginning. -/
theorem foldl_step_stretch (hw : ∀ b ∈ w, Byte.isAlphanumeric b = true)
    (hpending : s.pending = false) :
    w.foldl step s = ⟨s.written ++ w.map Byte.toLower, false⟩ := by
  induction w generalizing s with
  | nil => rw [← hpending, List.map_nil, List.append_nil]; rfl
  | cons b w ih =>
    rw [List.forall_mem_cons] at hw
    have hstep : s.step b = ⟨s.written ++ [Byte.toLower b], false⟩ := by
      rw [step, if_pos hw.1, hpending]
      rfl
    rw [List.foldl_cons, hstep, ih hw.2 rfl, List.append_assoc]
    rfl

/-- What there is to put together: what has been written, if anything has,
and the stretches to come. -/
def items (s : Normalizer) (ws : List Text) : List Text :=
  (if s.written.isEmpty then [] else [s.written]) ++ ws.map (·.map Byte.toLower)

/-- **The invariant of a pass.** Behind what has been written come the
stretches of the rest, unless this begins in the middle of one. -/
theorem written_foldl_step (h : Stretches t ws)
    (hs : s.written = [] ∨ s.pending = true ∨ ∀ b ∈ t.head?, Byte.isAlphanumeric b = false) :
    (t.foldl step s).written = List.intercalate [Byte.underscore] (s.items ws) := by
  induction h generalizing s with
  | nil => cases hwritten : s.written <;> simp [items, hwritten]
  | gap hb _ ih =>
    rw [List.foldl_cons, step, if_neg (by simp [hb]), ih (.inr (.inl rfl))]
    rfl
  | @stretch w t ws hne hw hnext _ ih =>
    obtain ⟨b, w, rfl⟩ := List.exists_cons_of_ne_nil hne
    rw [List.forall_mem_cons] at hw
    have hpending : s.written = [] ∨ s.pending = true := by
      refine hs.imp_right fun hs => hs.resolve_right fun hhead => ?_
      rw [hhead b rfl] at hw
      exact absurd hw.1 Bool.false_ne_true
    rw [List.foldl_append, List.foldl_cons, step, if_pos hw.1,
      foldl_step_stretch hw.2 rfl, ih (.inr (.inr hnext))]
    cases hwritten : s.written with
    | nil => simp [items, hwritten]
    | cons c u =>
      have hp : s.pending = true := hpending.resolve_left (by simp [hwritten])
      cases ws <;> simp [items, hwritten, hp, List.intercalate_cons_cons]

end Normalizer

/-- **One pass normalizes a text.** -/
theorem normalize_eq_foldl (t : Text) :
    t.normalize = (t.foldl Normalizer.step ⟨[], false⟩).written := by
  obtain ⟨ws, h⟩ := Stretches.exists_stretches t
  rw [Normalizer.written_foldl_step h (.inl rfl), h.normalize_eq]
  rfl

end Text

end ScriptSplice
