import Mathlib.Data.List.Induction
import ScriptSplice.Proofs.Tree.Contents
import ScriptSplice.Proofs.Tree.Places
/-!
# Where nodes are

A node has the place of the parenthesis that opens its form. The places
are counted here from the text alone: a line for every newline before a
byte, a column for every byte since (`Text.endPlace`), and the parentheses
that open forms are those outside of strings and comments
(`Text.openings`). The machine keeps its place byte by byte and finds the
same (`Reader.place_run`), and it opens a node at these parentheses and at
no other byte (`Reader.place?_added`), so the nodes of a tree, the root
first, have these places in order.
-/

namespace ScriptSplice

/-! ## Places in a text -/

namespace Location

/-- One place is before another in a text. -/
def Before (p q : Location) : Prop := p.line < q.line ∨ (p.line = q.line ∧ p.col < q.col)

theorem Before.trans {p q r : Location} (h : p.Before q) (h' : q.Before r) : p.Before r := by
  unfold Before at *
  omega

theorem before_advance (p : Location) (b : UInt8) : p.Before (Reader.advance p b) := by
  unfold Reader.advance Before
  split
  · exact .inl (Int.lt_succ p.line)
  · exact .inr ⟨rfl, Int.lt_succ p.col⟩

end Location

/-- Outside of strings and comments. -/
def Spacing.isCode : Spacing → Bool
  | token | gap => true
  | comment | string | escape => false

namespace Text

/-- Where the end of a text is, as far as its layout goes. -/
def spacing (t : Text) : Spacing := t.foldl Spacing.next .token

/-- The place of the byte behind a text. Line and column are counted from
one. -/
def endPlace (t : Text) : Location :=
  ⟨t.count Byte.newline + 1, (t.reverse.takeWhile (· != Byte.newline)).length + 1⟩

/-- Whether a byte is an opening parenthesis outside of strings and
comments. -/
def opensAt (t : Text) (i : Nat) : Bool := t[i]? == some 0x28 && (spacing (t.take i)).isCode

/-- **The places of the parentheses that open forms**, in order. -/
def openings (t : Text) : List Location :=
  ((List.range t.length).filter t.opensAt).map fun i => endPlace (t.take i)

theorem endPlace_append (t : Text) (b : UInt8) :
    endPlace (t ++ [b]) = Reader.advance t.endPlace b := by
  unfold endPlace Reader.advance
  by_cases hb : b = Byte.newline
  · subst hb
    simp
  · simp [hb]

theorem opensAt_append {t : Text} {i : Nat} (hi : i < t.length) (u : Text) :
    opensAt (t ++ u) i = opensAt t i := by
  rw [opensAt, opensAt, List.getElem?_append_left hi,
    List.take_append_of_le_length (Nat.le_of_lt hi)]

theorem openings_append (t : Text) (b : UInt8) :
    openings (t ++ [b]) =
      t.openings ++ if b = 0x28 ∧ t.spacing.isCode = true then [t.endPlace] else [] := by
  have hbefore : ∀ i ∈ List.range t.length, opensAt (t ++ [b]) i = opensAt t i :=
    fun i hi => opensAt_append (List.mem_range.1 hi) [b]
  have hplaces : ∀ i ∈ (List.range t.length).filter t.opensAt,
      endPlace ((t ++ [b]).take i) = endPlace (t.take i) := fun i hi => by
    rw [List.take_append_of_le_length (Nat.le_of_lt (List.mem_range.1 (List.mem_filter.1 hi).1))]
  have hlast : opensAt (t ++ [b]) t.length = (b == 0x28 && t.spacing.isCode) := by
    simp [opensAt]
  rw [openings, List.length_append, List.length_singleton, List.range_succ, List.filter_append,
    List.map_append, List.filter_congr hbefore, List.map_congr_left hplaces, ← openings]
  by_cases hb : b = 0x28 ∧ t.spacing.isCode = true
  · have hopens : opensAt (t ++ [b]) t.length = true := by rw [hlast, hb.1, hb.2]; rfl
    rw [if_pos hb, List.filter_cons_of_pos hopens]
    simp
  · rw [if_neg hb, List.filter_cons_of_neg (by simpa [hlast] using hb)]
    rfl

/-- **Later parentheses have later places.** -/
theorem openings_increasing (t : Text) :
    t.openings.Pairwise Location.Before ∧ ∀ p ∈ t.openings, p.Before t.endPlace := by
  induction t using List.reverseRecOn with
  | nil => exact ⟨.nil, List.forall_mem_nil _⟩
  | append_singleton t b ih =>
    obtain ⟨hpairs, hbefore⟩ := ih
    have hnext : (endPlace t).Before (endPlace (t ++ [b])) := by
      rw [endPlace_append]
      exact Location.before_advance _ b
    rw [openings_append]
    split
    · refine ⟨List.pairwise_append.2 ⟨hpairs, List.pairwise_singleton _ _, ?_⟩, ?_⟩
      · intro p hp q hq
        rw [List.mem_singleton.1 hq]
        exact hbefore p hp
      · intro p hp
        rcases List.mem_append.1 hp with hp | hp
        · exact (hbefore p hp).trans hnext
        · rw [List.mem_singleton.1 hp]
          exact hnext
    · rw [List.append_nil]
      exact ⟨hpairs, fun p hp => (hbefore p hp).trans hnext⟩

end Text

/-! ## The places of nodes -/

/-- The place of a node. -/
def Content.place? : Content → Option Location
  | node location => some location
  | leaf _ => none

namespace Node

/-- The places of the nodes of a tree, the root first. -/
def places (n : Node) : List Location := n.subtree.map (·.location)

theorem places_eq (n : Node) : n.places = n.location :: n.parts.flatMap places := by
  rw [places, subtree_eq, List.map_cons, descendants, List.map_flatMap]
  rfl

theorem length_places (n : Node) : n.places.length = n.size := by
  have hsum : ∀ l : List Nat, l.foldr (· + ·) 1 = l.sum + 1 := by
    intro l
    induction l with
    | nil => rfl
    | cons k l ih => rw [List.foldr_cons, ih, List.sum_cons, Nat.add_assoc]
  induction n using Node.induction with
  | step n ih =>
    rw [places_eq, List.length_cons, List.length_flatMap, size_eq, hsum, List.map_congr_left ih]

/-- The places among the contents of a value are those of its nodes. -/
theorem places_value {v : Value Node}
    (h : ∀ m ∈ v.nodes, m.contents.filterMap Content.place? = m.places) :
    (v.map contents).contents.filterMap Content.place? = v.nodes.flatMap places := by
  cases v with
  | leaf l => rfl
  | child c =>
    cases c with
    | none => rfl
    | some m => simpa [Value.map, Value.contents, Content.ofOption, Value.nodes] using h
  | children cs =>
    induction cs with
    | nil => rfl
    | cons c cs ih =>
      cases c with
      | none => exact ih h
      | some m =>
        have hm : m.contents.filterMap Content.place? = m.places := h m List.mem_cons_self
        have hcs := ih fun k hk => h k (List.mem_cons_of_mem m hk)
        simp_all [Value.map, Value.contents, Content.ofOption, Value.nodes]

/-- **The places among the contents of a tree** are those of its nodes. -/
theorem places_contents (n : Node) : n.contents.filterMap Content.place? = n.places := by
  induction n using Node.induction with
  | step n ih =>
    have hfields : ∀ f ∈ n.fields,
        (f.value.map contents).contents.filterMap Content.place? = f.value.nodes.flatMap places :=
      fun f hf => places_value fun m hm => ih m (Fields.mem_nodes hf hm)
    have hparts : (Fields.contents (Fields.map contents n.fields)).filterMap Content.place? =
        n.parts.flatMap places := by
      rw [parts, Fields.nodes, List.flatMap_assoc, Fields.contents, Fields.map, List.flatMap_map,
        List.filterMap_flatMap]
      exact congrArg List.flatten (List.map_congr_left hfields)
    rw [contents_eq, places_eq, ← hparts]
    rfl

end Node

namespace Reader

/-! ## The machine in a text -/

/-- The machine's place is counted byte by byte. -/
theorem place_run (located : Bool) (text : Text) :
    (run located .initial text).place = text.endPlace := by
  have hstep (s : State) (b : UInt8) : (step located s b).place = advance s.place b := by
    unfold step
    dsimp only
    repeat' split
    all_goals rfl
  induction text using List.reverseRecOn with
  | nil => rfl
  | append_singleton text b ih =>
    rw [run_concat, Text.endPlace_append, ← ih, hstep]

/-- Neither in a comment nor in a string. -/
def State.isCode (s : State) : Bool := !s.comment && !s.mode.isQuoted

/-- What machines in step know of strings and comments. -/
theorem InStep.isCode {r : Spacing} {s t : State} (h : InStep r s t) :
    s.mode.isFailed = true ∨ r.isCode = s.isCode := by
  cases h with
  | failed r hs ht => exact .inl hs
  | token hmode =>
    rw [State.isCode, hmode]
    exact .inr rfl
  | gap hmode =>
    rw [State.isCode, Mode.IsClosed.isQuoted (.inl hmode)]
    exact .inr rfl
  | comment | string | escape => exact .inr rfl

/-- **The machine knows strings and comments**, as long as it has not
failed. -/
theorem isCode_run (located : Bool) (text : Text) :
    (run located .initial text).mode.isFailed = true ∨
      text.spacing.isCode = (run located .initial text).isCode := by
  have hinitial : InStep .token .initial .initial := .token rfl
  have hrun : run false .initial text = (run located .initial text).unlocated :=
    run_unlocated located .initial text
  have hfailed (m : Mode) : m.unlocated.isFailed = m.isFailed := by cases m <;> rfl
  have hquoted (m : Mode) : m.unlocated.isQuoted = m.isQuoted := by cases m <;> rfl
  have hcode := (hinitial.run text).isCode
  rwa [hrun, State.isCode, State.unlocated, hfailed, hquoted] at hcode

/-! ## Where nodes are opened -/

/-- A parenthesis continues no token. -/
theorem breaks_open : Breaks 0x28 :=
  ⟨by decide, fun part => by cases part <;> rfl⟩

theorem place?_closedLeaf (l : Option Leaf) :
    (l.toList.map Content.leaf).filterMap Content.place? = [] := by
  cases l <;> rfl

/-- Only a parenthesis opens a node. -/
theorem place?_gained {located : Bool} {place : Location} {b : UInt8} (hb : b ≠ 0x28)
    (mode : Mode) : (mode.gained located place b).filterMap Content.place? = [] := by
  cases mode with
  | start | value | sequence => exact congrArg _ (if_neg hb)
  | string =>
    rw [Mode.gained]
    split <;> rfl
  | _ => rfl

/-- Where a parenthesis can be used between tokens, it opens a node. -/
theorem gained_open {located : Bool} {place : Location} {frames : List Frame} {mode : Mode}
    (hmode : mode.isBetween = true)
    (hused : (consume located place frames 0x28 mode).2.isFailed = false) :
    mode.gained located place 0x28 = [.node (nodePlace located place)] := by
  cases mode with
  | start | value | sequence => rfl
  | head | fields | done => cases hused
  | _ => cases hmode

/-- **What a byte adds**, unless the machine fails, is a node if the byte is
a parenthesis outside of strings and comments, and no node otherwise. -/
theorem place?_added {located : Bool} {s : State} {b : UInt8}
    (hstep : (step located s b).mode.isFailed = false) :
    (s.added located b).filterMap Content.place? =
      if b = 0x28 ∧ s.isCode = true then [nodePlace located s.place] else [] := by
  obtain ⟨place, comment, frames, mode⟩ := s
  cases comment with
  | true => rw [if_neg fun h => by cases h.2]; rfl
  | false =>
    rw [State.added, if_neg Bool.false_ne_true, List.filterMap_append, place?_closedLeaf,
      List.nil_append]
    by_cases hb : b = 0x28
    · subst hb
      cases hmode : mode.isQuoted with
      | true =>
        rw [if_neg fun h => by simp [State.isCode, hmode] at h]
        cases mode with
        | string | escape => rfl
        | _ => cases hmode
      | false =>
        rw [if_pos ⟨rfl, by simp [State.isCode, hmode]⟩]
        -- the parenthesis closes the token before it
        rcases isClosed_settle breaks_open hmode place with hbetween | hfailed
        · rw [step_used (b := 0x28) (by decide) (by decide)] at hstep
          rw [gained_open hbetween hstep]
          rfl
        · rw [isFailed_step_of_settle hfailed] at hstep
          cases hstep
    · rw [if_neg fun h => hb h.1]
      exact place?_gained hb _

/-- **The nodes read so far** are those of the parentheses so far. -/
theorem places_run (text : Text) :
    (run true .initial text).mode.isFailed = true ∨
      (run true .initial text).contents.filterMap Content.place? = text.openings := by
  refine run_induction (p := fun t s => s.contents.filterMap Content.place? = Text.openings t)
    rfl (fun text b ih hstep => ?_) text
  have hcode : (Text.spacing text).isCode = (run true .initial text).isCode := by
    rcases isCode_run true text with hfailed | hcode
    · rw [isFailed_step hfailed b] at hstep
      cases hstep
    · exact hcode
  have hcontents := (contents_step true (numeric_run true text) b).resolve_left
    (by rw [hstep]; decide)
  rw [hcontents, List.filterMap_append, ih, place?_added hstep, Text.openings_append, hcode,
    place_run]
  rfl

end Reader

namespace Node

/-- The nodes of a tree that was read are those of the parentheses. -/
theorem places_of_parse {text : Text} {n : Node} (h : parse text true = .ok n) :
    n.places = text.openings := by
  obtain ⟨hread, hcontents⟩ := contents_of_parse h
  rcases Reader.places_run text with hfailed | hrun
  · rw [hfailed] at hread
    cases hread
  · rw [← places_contents, hcontents, List.filterMap_append, hrun, Reader.place?_closedLeaf,
      List.append_nil]

/-- The nodes of an unlocated tree are those of the tree, unlocated. -/
theorem subtree_unlocated (n : Node) : n.unlocated.subtree = n.subtree.map unlocated := by
  induction n using Node.induction with
  | step n ih =>
    have hparts : n.unlocated.parts = n.parts.map unlocated := by
      rw [parts, fields_unlocated, Fields.nodes_map, parts]
    rw [subtree_eq, subtree_eq, descendants, hparts, List.flatMap_map, List.map_cons, descendants,
      List.map_flatMap]
    exact congrArg _ (congrArg List.flatten (List.map_congr_left ih))

/-- No node of an unlocated tree has a place. -/
theorem location_of_mem_unlocated {n m : Node} (h : m ∈ n.unlocated.subtree) :
    m.location = ⟨-1, -1⟩ := by
  rw [subtree_unlocated] at h
  obtain ⟨k, -, rfl⟩ := List.mem_map.1 h
  exact location_unlocated k

/-- **Nodes have the places of their parentheses.** A tree that was read
with places has as many nodes as the text has opening parentheses outside
of strings and comments, and its nodes, each before its parts, have the
places of these parentheses in order, so that they only increase. Without
places the same texts are read, and the same ones refused for the same
reasons, and the tree is the same one with no place for any node. -/
theorem parse_places (text : Text) :
    (∀ n, parse text true = .ok n →
      n.size = text.openings.length ∧
      n.subtree.map (·.location) = text.openings ∧
      (n.subtree.map (·.location)).Pairwise Location.Before ∧
      parse text false = .ok n.unlocated ∧
      ∀ m ∈ n.unlocated.subtree, m.location = ⟨-1, -1⟩) ∧
    (∀ e, parse text true = .error e ↔ parse text false = .error e) := by
  refine ⟨fun n h => ?_, fun e => ?_⟩
  · have hplaces : n.places = text.openings := places_of_parse h
    refine ⟨?_, hplaces, ?_, ?_, fun m hm => location_of_mem_unlocated hm⟩
    · rw [← length_places, hplaces]
    · change n.places.Pairwise _
      rw [hplaces]
      exact text.openings_increasing.1
    · rw [parse_false text true, h]
      rfl
  · rw [parse_false text true]
    cases parse text true with
    | ok n => exact iff_of_false (fun h => by cases h) (fun h => by cases h)
    | error e' => exact iff_of_eq rfl

/-- A text with parentheses in a comment and in a string that goes on to
the next line. -/
theorem parse_places_apart :
    ∃ n, parse (ascii "(vector2 ; (\n :x \"(\n\" :y (vector2))") true = .ok n ∧ n.size = 2 ∧
      n.subtree.map (·.location) = [⟨1, 1⟩, ⟨3, 6⟩] := by
  have hread : (parse (ascii "(vector2 ; (\n :x \"(\n\" :y (vector2))") true).isOk = true := by
    decide +kernel
  obtain ⟨n, h⟩ := exists_of_isOk hread
  obtain ⟨hsize, hplaces, -⟩ := (parse_places _).1 n h
  exact ⟨n, h, hsize.trans (by decide), hplaces.trans (by decide)⟩

end Node

end ScriptSplice
