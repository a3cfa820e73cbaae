import ScriptSplice.Proofs.Target.Pieces
/-!
# Brackets, strings and line breaks

A reader of the target language goes through a text byte by byte. It
knows which brackets are still open, and whether it is in a string or in a
comment. A text is tidy (`Text.Tidy`) if it closes what it opens, and ends
outside strings; and if every line break in it belongs to a mark right
behind an opening parenthesis, so that it stands in brackets and not in a
string.
-/

namespace ScriptSplice

/-! ## Going through a text -/

/-- What a byte of a program stands in. -/
inductive Region where
  | code
  | comment
  /-- A string that ends at this quote. -/
  | string (quote : UInt8)
  /-- Behind a backslash in a string. -/
  | escape (quote : UInt8)
deriving DecidableEq

/-- How far a reader of the target language has come. -/
structure Position where
  /-- What closes the brackets that are open, the innermost first. -/
  awaited : List UInt8
  region : Region
deriving DecidableEq

/-- What closes a bracket. -/
def Byte.closing? (b : UInt8) : Option UInt8 :=
  if b == 0x28 then some 0x29
  else if b == 0x5b then some 0x5d
  else if b == 0x7b then some 0x7d
  else none

/-- Whether a byte closes a bracket. -/
def Byte.isClosing (b : UInt8) : Bool := b == 0x29 || b == 0x5d || b == 0x7d

namespace Position

/-- Before the first byte. -/
def start : Position := ⟨[], .code⟩

/-- One byte. A bracket closes the innermost one that is open, and it has
to be of its sort; and a string does not go on over the end of a line. -/
def step (p : Position) (b : UInt8) : Option Position :=
  match p.region with
  | .code =>
    if b == Byte.quote || b == Byte.doubleQuote then some { p with region := .string b }
    else if b == Byte.hash then some { p with region := .comment }
    else match Byte.closing? b with
      | some c => some { p with awaited := c :: p.awaited }
      | none =>
        if Byte.isClosing b then
          match p.awaited with
          | c :: rest => if b == c then some { p with awaited := rest } else none
          | [] => none
        else some p
  | .comment => some (if b == Byte.newline then { p with region := .code } else p)
  | .string quote =>
    if b == Byte.newline then none
    else if b == quote then some { p with region := .code }
    else if b == Byte.backslash then some { p with region := .escape quote }
    else some p
  | .escape quote => if b == Byte.newline then none else some { p with region := .string quote }

/-- A whole text. -/
def run (p : Position) (t : Text) : Option Position := t.foldlM step p

/-- Whether a reader is in no string. -/
def isOutside (p : Position) : Bool := p.region == .code || p.region == .comment

theorem run_append (p : Position) (t u : Text) : p.run (t ++ u) = (p.run t).bind (·.run u) :=
  List.foldlM_append

theorem run_cons (p : Position) (b : UInt8) (t : Text) :
    p.run (b :: t) = (p.step b).bind (·.run t) := List.foldlM_cons

theorem run_append_of_eq {p q : Position} {t : Text} (h : p.run t = some q) (u : Text) :
    p.run (t ++ u) = q.run u := by
  rw [run_append, h, Option.bind_some]

/-- The position with more brackets open around it. -/
def inside (p : Position) (w : List UInt8) : Position := { p with awaited := p.awaited ++ w }

/-- Brackets further out do not matter. -/
theorem step_inside {p q : Position} {b : UInt8} (h : p.step b = some q) (w : List UInt8) :
    (p.inside w).step b = some (q.inside w) := by
  obtain ⟨awaited, region⟩ := p
  unfold step at h ⊢
  cases region with
  | code =>
    simp only [inside] at h ⊢
    split at h
    · cases h
      simp [*]
    · split at h
      · cases h
        simp [*]
      · split at h
        · cases h
          simp [*]
        · split at h
          · cases awaited with
            | nil => cases h
            | cons c rest =>
              dsimp only at h
              split at h
              · cases h
                simp [*]
              · cases h
          · cases h
            simp [*]
  | comment =>
    cases h
    simp only [inside]
    split <;> rfl
  | string quote =>
    simp only [inside] at h ⊢
    split at h
    · cases h
    · split at h
      · cases h
        simp [*]
      · split at h <;> cases h <;> simp [*]
  | escape quote =>
    simp only [inside] at h ⊢
    split at h
    · cases h
    · cases h
      simp [*]

theorem run_inside {p q : Position} {t : Text} (h : p.run t = some q) (w : List UInt8) :
    (p.inside w).run t = some (q.inside w) := by
  induction t generalizing p with
  | nil =>
    cases h
    rfl
  | cons b t ih =>
    rw [run_cons] at h
    obtain ⟨p', hstep, hrun⟩ := Option.bind_eq_some_iff.1 h
    rw [run_cons, step_inside hstep w, Option.bind_some, ih hrun]

/-! ## Plain texts and strings -/

theorem step_plain (w : List UInt8) {b : UInt8} (h : Byte.isPlain b = true) :
    step ⟨w, .code⟩ b = some ⟨w, .code⟩ := by
  have hall : ∀ b, Byte.isPlain b = true → (b == Byte.quote || b == Byte.doubleQuote) = false ∧
      (b == Byte.hash) = false ∧ Byte.closing? b = none ∧ Byte.isClosing b = false :=
    Byte.forall_of_ofNat (by decide +kernel)
  obtain ⟨hquote, hhash, hopening, hclosing⟩ := hall b h
  simp [step, hquote, hhash, hopening, hclosing]

/-- Plain bytes change nothing. -/
theorem run_plain (w : List UInt8) {t : Text} (h : t.all Byte.isPlain = true) :
    run ⟨w, .code⟩ t = some ⟨w, .code⟩ := by
  induction t with
  | nil => rfl
  | cons b t ih =>
    rw [List.all_cons, Bool.and_eq_true] at h
    rw [run_cons, step_plain w h.1, Option.bind_some, ih h.2]

variable {w : List UInt8} {quote : UInt8}

/-- A byte that stands for itself in a string. -/
theorem step_string {b : UInt8} (hnewline : b ≠ Byte.newline) (hquote : b ≠ quote)
    (hbackslash : b ≠ Byte.backslash) :
    step ⟨w, .string quote⟩ b = some ⟨w, .string quote⟩ := by
  simp [step, hnewline, hquote, hbackslash]

theorem run_atoms (hquote : Byte.isAtom quote = false) {t : Text} (h : t.all Byte.isAtom = true) :
    run ⟨w, .string quote⟩ t = some ⟨w, .string quote⟩ := by
  induction t with
  | nil => rfl
  | cons b t ih =>
    rw [List.all_cons, Bool.and_eq_true] at h
    rw [run_cons, step_string (Byte.ne_of_isAtom h.1 rfl) (Byte.ne_of_isAtom h.1 hquote)
      (Byte.ne_of_isAtom h.1 rfl), Option.bind_some, ih h.2]

/-- **A byte between quotes** does not end the string. -/
theorem run_literalByte (hcontrol : Byte.isControl quote = false)
    (hatom : Byte.isAtom quote = false) (hbackslash : Byte.backslash ≠ quote) (b : UInt8) :
    run ⟨w, .string quote⟩ (Text.literalByte quote b) = some ⟨w, .string quote⟩ := by
  have hprintable {c : UInt8} (hc : Byte.isControl c = false) : c ≠ Byte.newline := by
    rintro rfl
    cases hc
  rcases Text.literalByte_cases quote b hcontrol with ⟨c, t, h, hc, ht⟩ | ⟨h, hquote, hb, hc⟩
  · have hescape : step ⟨w, .string quote⟩ Byte.backslash = some ⟨w, .escape quote⟩ := by
      simp [step, hbackslash, (by decide : Byte.backslash ≠ Byte.newline)]
    have hescaped : step ⟨w, .escape quote⟩ c = some ⟨w, .string quote⟩ := by
      simp [step, hprintable hc]
    rw [h, run_cons, hescape, Option.bind_some, run_cons, hescaped, Option.bind_some,
      run_atoms hatom ht]
  · rw [h, run_cons, step_string (hprintable hc) hquote hb]
    rfl

/-- Any bytes between two quotes are one string. -/
theorem run_quoted (hquote : quote = Byte.quote ∨ quote = Byte.doubleQuote) (t : Text) :
    start.run ([quote] ++ t.flatMap (Text.literalByte quote) ++ [quote]) = some start := by
  have hfacts : Byte.isControl quote = false ∧ Byte.isAtom quote = false ∧
      Byte.backslash ≠ quote ∧ start.step quote = some ⟨[], .string quote⟩ ∧
      step ⟨[], .string quote⟩ quote = some start := by
    rcases hquote with rfl | rfl <;> decide
  obtain ⟨hcontrol, hatom, hbackslash, hopen, hclose⟩ := hfacts
  have hinner : run ⟨[], .string quote⟩ (t.flatMap (Text.literalByte quote)) =
      some ⟨[], .string quote⟩ := by
    induction t with
    | nil => rfl
    | cons b t ih =>
      rw [List.flatMap_cons, run_append_of_eq (run_literalByte hcontrol hatom hbackslash b), ih]
  rw [List.append_assoc, List.singleton_append, run_cons, hopen, Option.bind_some,
    run_append_of_eq hinner, run_cons, hclose]
  rfl

/-- **A string literal** is one string. -/
theorem run_literal (t : Text) : start.run t.literal = some start :=
  run_quoted t.quoteFor_cases t

/-- A comment goes on to the end of its line. -/
theorem run_comment {t : Text} (h : Byte.newline ∉ t) :
    run ⟨w, .comment⟩ t = some ⟨w, .comment⟩ := by
  induction t with
  | nil => rfl
  | cons b t ih =>
    rw [List.mem_cons, not_or] at h
    have hb : (b == Byte.newline) = false := beq_false_of_ne fun heq => h.1 heq.symm
    rw [run_cons, step, hb]
    exact ih h.2

end Position

/-! ## Tidy texts -/

namespace Text

/-- **A line break that does no harm**, between what is before it and what
is after it: some bracket is open there, and no string; and it is the first
or the second one of the mark of a line that is right behind an opening
parenthesis. -/
structure Break (before after : Text) : Prop where
  outside : ∃ p, Position.start.run before = some p ∧ p.awaited ≠ [] ∧ p.isOutside = true
  mark :
    (∃ opened line rest, before = opened ++ ascii "(" ∧
      Byte.newline :: after = lineMark (some line) ++ rest) ∨
    ∃ opened line, before ++ [Byte.newline] = opened ++ ascii "(" ++ lineMark (some line)

/-- A text that leaves brackets open, with line breaks that do no harm. -/
structure Leaves (t : Text) (w : List UInt8) : Prop where
  run : Position.start.run t = some ⟨w, .code⟩
  breaks : ∀ before after, t = before ++ Byte.newline :: after → Break before after

/-- **Tidy texts** leave nothing open. -/
abbrev Tidy (t : Text) : Prop := t.Leaves []

variable {t u before after : Text} {w v : List UInt8}

namespace Break

/-- What comes later does not matter. -/
theorem append (h : Break before after) (u : Text) : Break before (after ++ u) := by
  refine ⟨h.outside, ?_⟩
  obtain ⟨opened, line, rest, hbefore, hafter⟩ | hbefore := h.mark
  · refine Or.inl ⟨opened, line, rest ++ u, hbefore, ?_⟩
    rw [← List.cons_append, hafter, List.append_assoc]
  · exact Or.inr hbefore

/-- What is before does no harm if it ends outside strings. -/
theorem behind (h : Break before after) (ht : Position.start.run t = some ⟨w, .code⟩) :
    Break (t ++ before) after := by
  obtain ⟨p, hp, hawaited, houtside⟩ := h.outside
  refine ⟨⟨p.inside w, ?_, by simp [Position.inside, hawaited], houtside⟩, ?_⟩
  · rw [Position.run_append_of_eq ht]
    exact Position.run_inside hp w
  · obtain ⟨opened, line, rest, hbefore, hafter⟩ | ⟨opened, line, hbefore⟩ := h.mark
    · exact Or.inl ⟨t ++ opened, line, rest, by rw [hbefore, List.append_assoc], hafter⟩
    · refine Or.inr ⟨t ++ opened, line, ?_⟩
      rw [List.append_assoc, hbefore]
      simp only [List.append_assoc]

end Break

/-- A line break in two texts is in the first or in the second. -/
theorem break_append (h : t ++ u = before ++ Byte.newline :: after) :
    (∃ rest, t = before ++ Byte.newline :: rest ∧ after = rest ++ u) ∨
      ∃ rest, before = t ++ rest ∧ u = rest ++ Byte.newline :: after := by
  obtain ⟨rest, hbefore, hu⟩ | ⟨rest, ht, hafter⟩ := List.append_eq_append_iff.1 h
  · exact Or.inr ⟨rest, hbefore, hu⟩
  · cases rest with
    | nil => exact Or.inr ⟨[], by simpa using ht.symm, by simpa using hafter.symm⟩
    | cons b rest =>
      obtain ⟨rfl, rfl⟩ := List.cons.inj hafter
      exact Or.inl ⟨rest, ht, rfl⟩

/-- A line break that is the only one. -/
theorem break_unique (ht : Byte.newline ∉ t) (hu : Byte.newline ∉ u)
    (h : t ++ Byte.newline :: u = before ++ Byte.newline :: after) : t = before ∧ u = after := by
  obtain ⟨rest, hbefore, -⟩ | ⟨rest, rfl, hafter⟩ := break_append h
  · exact absurd (hbefore ▸ List.mem_append_right _ List.mem_cons_self) ht
  · cases rest with
    | nil => exact ⟨(List.append_nil t).symm, (List.cons.inj hafter).2⟩
    | cons b rest =>
      have hmem : Byte.newline ∈ u := by
        rw [(List.cons.inj hafter).2]
        exact List.mem_append_right _ List.mem_cons_self
      exact absurd hmem hu

namespace Leaves

/-- A text on one line. -/
theorem of_run (h : Position.start.run t = some ⟨w, .code⟩) (hnewline : Byte.newline ∉ t) :
    t.Leaves w :=
  ⟨h, fun _ _ heq => absurd (heq ▸ List.mem_append_right _ List.mem_cons_self) hnewline⟩

theorem append (h : t.Leaves w) (h' : u.Leaves v) : (t ++ u).Leaves (v ++ w) := by
  refine ⟨?_, fun before after heq => ?_⟩
  · rw [Position.run_append_of_eq h.run]
    exact Position.run_inside h'.run w
  · obtain ⟨rest, ht, rfl⟩ | ⟨rest, rfl, hu⟩ := break_append heq
    · exact (h.breaks before rest ht).append u
    · exact (h'.breaks rest after hu).behind h.run

/-- A text that closes what is open. -/
theorem close (h : t.Leaves w) (hu : Position.run ⟨w, .code⟩ u = some ⟨v, .code⟩)
    (hnewline : Byte.newline ∉ u) : (t ++ u).Leaves v := by
  refine ⟨by rw [Position.run_append_of_eq h.run, hu], fun before after heq => ?_⟩
  obtain ⟨rest, ht, rfl⟩ | ⟨rest, -, hrest⟩ := break_append heq
  · exact (h.breaks before rest ht).append u
  · exact absurd (hrest ▸ List.mem_append_right _ List.mem_cons_self) hnewline

/-- **A mark behind an opening parenthesis.** Its first line break is in
brackets, and its second one ends a comment in them. -/
theorem mark (line : Int) : (ascii "(" ++ lineMark (some line)).Leaves [0x29] := by
  have hnumber : Byte.newline ∉ ofInt line := Byte.ne_newline_of_isAtom (isAtom_ofInt line).all
  have hopen : Position.start.run (ascii "(\n#") = some ⟨[0x29], .comment⟩ := rfl
  have hline : Position.start.run (ascii "(\n#" ++ ofInt line) = some ⟨[0x29], .comment⟩ := by
    rw [Position.run_append_of_eq hopen, Position.run_comment hnumber]
  have hsplit : ascii "(" ++ lineMark (some line) = (ascii "(\n#" ++ ofInt line) ++ ascii "\n" := by
    simp only [lineMark, ← List.append_assoc]
    rfl
  refine ⟨by rw [hsplit, Position.run_append_of_eq hline]; rfl, fun before after heq => ?_⟩
  have hfirst : Break (ascii "(") (Byte.hash :: ofInt line ++ ascii "\n") := by
    refine ⟨⟨⟨[0x29], .code⟩, rfl, by simp, rfl⟩, Or.inl ⟨[], line, [], rfl, ?_⟩⟩
    rw [List.append_nil]
    rfl
  have hsecond : Break (ascii "(\n#" ++ ofInt line) [] := by
    refine ⟨⟨_, hline, by simp, rfl⟩, Or.inr ⟨[], line, ?_⟩⟩
    rw [List.nil_append, hsplit]
    rfl
  rw [hsplit] at heq
  obtain ⟨rest, ht, rfl⟩ | ⟨rest, rfl, hrest⟩ := break_append heq
  · have hnumbered : Byte.newline ∉ Byte.hash :: ofInt line := by
      rw [List.mem_cons, not_or]
      exact ⟨by decide, hnumber⟩
    obtain ⟨rfl, rfl⟩ := break_unique (t := ascii "(") (by decide) hnumbered ht
    exact hfirst
  · obtain ⟨rfl, rfl⟩ := break_unique (t := []) (u := []) (by simp) (by simp) hrest
    rw [List.append_nil]
    exact hsecond

end Leaves

end Text

/-- Texts that do nothing to what stands around them, and fields named by
words. -/
def Vocabulary.plain : Vocabulary where
  byte b := Byte.isPlain b = true
  blank := True
  field t := t.all Byte.isPlain = true
  byte_space := rfl

namespace Text

theorem Tidy.of_isPlain {t : Text} (h : t.all Byte.isPlain = true) : t.Tidy :=
  .of_run (Position.run_plain [] h) fun hmem => absurd (List.all_eq_true.1 h _ hmem) (by decide)

theorem Tidy.literal (l : Leaf) : l.literal.Tidy := by
  refine .of_run ?_ l.newline_not_mem_literal
  obtain h | h | ⟨t, h⟩ := l.literal_cases
  · exact Position.run_plain [] h.isPlain
  · simp only [List.mem_cons, List.not_mem_nil, or_false] at h
    rcases h with h | h | h | h <;> rw [h] <;> rfl
  · rw [h]
    exact Position.run_literal t

/-- **Programs over plain texts are tidy.** -/
theorem Tidy.pieces : Pieces .plain fun t _ => t.Tidy where
  plain := .of_isPlain
  word h := .of_isPlain (List.all_eq_true.2 h)
  field := .of_isPlain
  literal := .literal
  append h h' := h.append h'
  parentheses line h := by
    cases line with
    | none =>
      exact ((Leaves.of_run (t := ascii "(") rfl (by decide)).append h).close rfl (by decide)
    | some line => exact ((Leaves.mark line).append h).close rfl (by decide)
  brackets h := ((Leaves.of_run (t := ascii "[") rfl (by decide)).append h).close rfl (by decide)
  braces h := ((Leaves.of_run (t := ascii "\x7b") rfl (by decide)).append h).close rfl (by decide)

end Text

end ScriptSplice
