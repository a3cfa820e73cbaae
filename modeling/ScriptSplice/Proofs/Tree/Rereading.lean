import ScriptSplice.Proofs.Tree.Equality
import ScriptSplice.Proofs.Tree.Places
import ScriptSplice.Proofs.Tree.Roundtrip
/-!
# What printing loses

A tree that was read and is printed has kept everything but digits. Its
printed form is read as the same tree with every floating point number
replaced by the one nearest to six digits of it (`Node.parse_print_readable`),
unless for one of them these digits are out of range: then the printed form
is refused, for the machine fails at this number and a machine that has
failed stays so (`Node.parse_print_unreadable`). So a tree comes back equal
exactly if every floating point number in it is one that six digits can
write.
-/

namespace ScriptSplice

namespace Leaf

/-- What becomes of a leaf that is printed and read, if it is read. -/
def reread : Leaf → Leaf
  | float x => float (x.reread?.getD x)
  | l => l

/-- Whether the printed form of a leaf is read. -/
def isReadable : Leaf → Bool
  | float x => x.isFinite && x.reread?.isSome
  | _ => true

end Leaf

namespace Reader

/-! ## Failing -/

/-- Reading a text from frames and a mode ends in a refusal. -/
def Fails (t : Text) (x : List Frame × Mode) : Prop :=
  ∀ place, ∃ place' frames e,
    run false ⟨place, false, x.1, x.2⟩ t = ⟨place', false, frames, .failed e⟩

/-- **A machine that has failed stays so.** -/
theorem run_failed (t : Text) (place : Location) (frames : List Frame) (e : Error) :
    ∃ place', run false ⟨place, false, frames, .failed e⟩ t =
      ⟨place', false, frames, .failed e⟩ := by
  induction t generalizing place with
  | nil => exact ⟨place, rfl⟩
  | cons b t ih => exact ih (advance place b)

section

variable {t u : Text} {x y : List Frame × Mode}

theorem Fails.append (h : Fails t x) : Fails (t ++ u) x := by
  intro place
  obtain ⟨place', frames, e, h⟩ := h place
  obtain ⟨place'', h'⟩ := run_failed u place' frames e
  exact ⟨place'', frames, e, by rw [run_append, h, h']⟩

theorem Leads.fails (h : Leads t x y) (h' : Fails u y) : Fails (t ++ u) x := by
  intro place
  obtain ⟨place', h⟩ := h place
  obtain ⟨place'', frames, e, h'⟩ := h' place'
  exact ⟨place'', frames, e, by rw [run_append, h, h']⟩

theorem Fails.closed {frames : List Frame} {mode : Mode} {form : OpenForm}
    (hclose : Closes mode form) {b : UInt8} (hb : isDelimiter b = true)
    (h : Fails (b :: t) (frames, .fields form)) : Fails (b :: t) (frames, mode) := by
  intro place
  obtain ⟨place', frames', e, h⟩ := h place
  refine ⟨place', frames', e, ?_⟩
  rw [← h]
  change run false (step false _ b) t = run false (step false _ b) t
  rw [step_closed hclose hb]

end

/-! ## Values that are refused -/

/-- A text is refused as the value of any field, with the delimiter behind
it. -/
def FailsValue (t : Text) : Prop :=
  ∀ frames form name b, isDelimiter b = true → Fails (t ++ [b]) (frames, .value form name)

/-- A text is refused wherever a form can begin. -/
def FailsNode (t : Text) : Prop :=
  ∀ x frames, Leads (ascii "(") x (frames, .head .unknown) → Fails t x

variable {frames : List Frame} {form : OpenForm} {name : Text}

/-- The token of a number that stands for no leaf. -/
theorem failsValue_number {t : Text} (ht : IsToken t) (hl : Numeral.leaf? t = none) :
    FailsValue t := by
  intro frames form name b hb
  obtain ⟨part, hlead⟩ := leads_token frames form name ht
  refine hlead.fails fun place => ⟨advance place b, frames, ⟨.invalidNumber t, place⟩, ?_⟩
  have hsettle := @settle_number form name part b hb place t.reverse
  rw [List.reverse_reverse, closeNumber_eq ht, hl] at hsettle
  change step false ⟨place, false, frames, _⟩ b = _
  unfold step
  simp only [hsettle]
  rfl

theorem FailsNode.value {t : Text} (h : FailsNode t) : FailsValue t :=
  fun frames form name _ _ => (h _ (.child form name :: frames) fun _ => ⟨_, rfl⟩).append

/-- Nodes with a blank between them, of which one is refused. -/
theorem fails_elements {ts : List Text} (hts : ∀ t ∈ ts, (∃ n, ReadsNode t n) ∨ FailsNode t)
    (hfail : ∃ t ∈ ts, FailsNode t) (elements : List (Option Node)) :
    Fails (List.intercalate (ascii " ") ts) (frames, .sequence form name elements) := by
  induction ts generalizing elements with
  | nil =>
    obtain ⟨t, ht, -⟩ := hfail
    cases ht
  | cons t ts ih =>
    by_cases hrefused : FailsNode t
    · have hfails : Fails t (frames, .sequence form name elements) :=
        hrefused _ (.element form name elements :: frames) fun _ => ⟨_, rfl⟩
      cases ts with
      | nil => rwa [List.intercalate_singleton]
      | cons u ts =>
        rw [List.intercalate_cons_cons, List.append_assoc]
        exact hfails.append
    · obtain ⟨u, hu, hfail⟩ := hfail
      have hmem : u ∈ ts := (List.mem_cons.1 hu).resolve_left fun h => hrefused (h ▸ hfail)
      obtain ⟨n, hread⟩ := (hts t List.mem_cons_self).resolve_right hrefused
      have hlead : Leads t (frames, .sequence form name elements)
          (frames, .sequence form name (some n :: elements)) :=
        hread _ (.element form name elements :: frames) fun _ => ⟨_, rfl⟩
      have hblank (elements : List (Option Node)) : Leads (ascii " ")
          (frames, .sequence form name elements) (frames, .sequence form name elements) :=
        fun _ => ⟨_, rfl⟩
      have hrest := ih (fun v hv => hts v (List.mem_cons_of_mem _ hv)) ⟨u, hmem, hfail⟩
        (some n :: elements)
      cases ts with
      | nil => cases hmem
      | cons v ts =>
        rw [List.intercalate_cons_cons]
        exact (hlead.append (hblank _)).fails hrest

theorem failsValue_children {ts : List Text}
    (hts : ∀ t ∈ ts, (∃ n, ReadsNode t n) ∨ FailsNode t) (hfail : ∃ t ∈ ts, FailsNode t) :
    FailsValue (ascii "[" ++ List.intercalate (ascii " ") ts ++ ascii "]") := by
  intro frames form name b _
  have hopen : Leads (ascii "[") (frames, .value form name) (frames, .sequence form name []) :=
    fun _ => ⟨_, rfl⟩
  exact (hopen.fails (fails_elements hts hfail [])).append.append

/-- The fields of a form begin with a delimiter. -/
theorem exists_delimiter (fields : Fields Text) :
    ∃ b u, fields.flatMap Field.print ++ ascii ")" = b :: u ∧ isDelimiter b = true := by
  cases fields with
  | nil => exact ⟨_, _, rfl, rfl⟩
  | cons f fields => exact ⟨_, _, rfl, rfl⟩

/-- **The fields of a form**, of which one has a value that is refused. -/
theorem fails_fields {fields : Fields Text}
    (hfields : ∀ f ∈ fields, f.name.isFieldName = true ∧
      ((∃ v, ReadsValue f.value.print v) ∨ FailsValue f.value.print))
    (hfail : ∃ f ∈ fields, FailsValue f.value.print) {mode : Mode} (hclose : Closes mode form) :
    Fails (fields.flatMap Field.print ++ ascii ")") (frames, mode) := by
  induction fields generalizing mode form with
  | nil =>
    obtain ⟨f, hf, -⟩ := hfail
    cases hf
  | cons f fields ih =>
    rw [List.forall_mem_cons] at hfields
    obtain ⟨⟨hname, hvalue⟩, hfields⟩ := hfields
    have hlead : Leads (ascii " :" ++ f.name ++ ascii " ") (frames, .fields form)
        (frames, .value form f.name) := leads_name hname
    have htext : (f :: fields).flatMap Field.print ++ ascii ")" =
        ascii " :" ++ f.name ++ ascii " " ++
          (f.value.print ++ (fields.flatMap Field.print ++ ascii ")")) := by
      simp [Field.print]
    rw [htext]
    refine .closed hclose rfl (hlead.fails ?_)
    by_cases hrefused : FailsValue f.value.print
    · obtain ⟨b, u, hrest, hb⟩ := exists_delimiter fields
      have hfails := hrefused frames form f.name b hb
      rw [hrest, ← List.singleton_append, ← List.append_assoc]
      exact hfails.append
    · obtain ⟨g, hg, hfail⟩ := hfail
      have hmem : g ∈ fields := (List.mem_cons.1 hg).resolve_left fun h => hrefused (h ▸ hfail)
      obtain ⟨v, hread⟩ := hvalue.resolve_right hrefused
      obtain ⟨mode', hlead', hclose'⟩ := hread frames form f.name
      exact hlead'.fails (ih hfields ⟨g, hmem, hfail⟩ hclose')

/-! ## Leaves -/

theorem readsValue_reread {l : Leaf} (h : l.isReadable = true) :
    ReadsValue l.print (.leaf l.reread) := by
  cases l with
  | float x =>
    rw [Leaf.isReadable, Bool.and_eq_true] at h
    obtain ⟨y, hy⟩ := Option.isSome_iff_exists.1 h.2
    have hleaf := Binary64.leaf?_render h.1
    rw [hy, Option.map_some] at hleaf
    rw [Leaf.reread, hy, Option.getD_some]
    exact readsValue_number (Binary64.isToken_render h.1) hleaf
  | _ => exact readsValue_leaf rfl

theorem failsValue_leaf {l : Leaf} (hfinite : l.isFinite = true) (h : l.isReadable = false) :
    FailsValue l.print := by
  cases l with
  | float x =>
    have hnone : x.reread? = none := by
      have hfinite : x.isFinite = true := hfinite
      rw [Leaf.isReadable, hfinite, Bool.true_and] at h
      exact Option.isNone_iff_eq_none.1 (Option.isSome_eq_false_iff.1 h)
    refine failsValue_number (Binary64.isToken_render hfinite) ?_
    change Numeral.leaf? (Leaf.floatStyle.render x) = none
    rw [Binary64.leaf?_render hfinite, hnone, Option.map_none]
  | _ => cases h

/-! ## Trees -/

/-- A finite tree is read back or refused. -/
theorem reads_or_fails {m : Node}
    (h : ¬m.Legible Leaf.isReadable → FailsNode m.print) :
    (∃ n, ReadsNode m.print n) ∨ FailsNode m.print := by
  by_cases hreadable : m.Legible Leaf.isReadable
  · exact .inl ⟨_, readsNode_print (fun _ => readsValue_reread) hreadable⟩
  · exact .inr (h hreadable)

/-- A field is refused if its leaf or one of its nodes is. -/
theorem failsValue_map {f : Field Node} (hfinite : f.Legible Leaf.isFinite)
    (h : ¬f.Legible Leaf.isReadable)
    (hnodes : ∀ m ∈ f.value.nodes, ¬m.Legible Leaf.isReadable → FailsNode m.print) :
    FailsValue (f.value.map Node.print).print := by
  obtain ⟨hself, -⟩ := hfinite
  obtain ⟨name, v⟩ := f
  rw [Field.isLegible, Bool.and_eq_true] at hself
  obtain ⟨hname, hwhole⟩ := hself
  have hlegible (hwhole : v.isWhole Leaf.isReadable = true)
      (hnodes : ∀ m ∈ v.nodes, m.Legible Leaf.isReadable) : False := by
    refine h ⟨?_, hnodes⟩
    rw [Field.isLegible, hwhole, Bool.and_true]
    exact hname
  cases v with
  | leaf l =>
    refine failsValue_leaf hwhole (eq_false_of_ne_true fun hreadable => ?_)
    exact hlegible hreadable fun m hm => absurd hm List.not_mem_nil
  | child c =>
    cases c with
    | none => cases hwhole
    | some m =>
      have hm : m ∈ (Value.child (some m)).nodes := List.mem_singleton_self m
      refine (hnodes m hm fun hreadable => hlegible rfl fun k hk => ?_).value
      rwa [List.mem_singleton.1 hk]
  | children cs =>
    obtain ⟨ms, rfl⟩ := exists_map_some hwhole
    have hmem {m : Node} (hm : m ∈ ms) : m ∈ (Value.children (ms.map some)).nodes := by
      simpa [Value.nodes] using hm
    obtain ⟨m, hm, hunreadable⟩ : ∃ m ∈ ms, ¬m.Legible Leaf.isReadable := by
      refine Classical.byContradiction fun hnone => hlegible hwhole fun m hm => ?_
      refine Classical.byContradiction fun hunreadable => hnone ⟨m, ?_, hunreadable⟩
      simpa [Value.nodes] using hm
    have hts : ∀ t ∈ ms.map Node.print, (∃ n, ReadsNode t n) ∨ FailsNode t := by
      intro t ht
      obtain ⟨k, hk, rfl⟩ := List.mem_map.1 ht
      exact reads_or_fails (hnodes k (hmem hk))
    have hchildren := failsValue_children hts
      ⟨m.print, List.mem_map_of_mem hm, hnodes m (hmem hm) hunreadable⟩
    simpa only [Value.map, Value.print, List.map_map, Function.comp_def, Option.map_some,
      printAbsent] using hchildren

/-- **A tree with a leaf that is not read is refused.** -/
theorem failsNode_print {n : Node} (hfinite : n.Legible Leaf.isFinite)
    (h : ¬n.Legible Leaf.isReadable) : FailsNode n.print := by
  induction n using Node.induction with
  | step n ih =>
    have hlegible := Node.legible_iff.1 hfinite
    have hvalue {f : Field Node} (hf : f ∈ n.fields) (hunreadable : ¬f.Legible Leaf.isReadable) :
        FailsValue (f.value.map Node.print).print :=
      failsValue_map (hlegible f hf) hunreadable fun m hm =>
        ih m (Fields.mem_nodes hf hm) ((hlegible f hf).nodes m hm)
    obtain ⟨f, hf, hunreadable⟩ : ∃ f ∈ n.fields, ¬f.Legible Leaf.isReadable := by
      refine Classical.byContradiction fun hnone => h (Node.legible_iff.2 fun f hf => ?_)
      exact Classical.byContradiction fun hunreadable => hnone ⟨f, hf, hunreadable⟩
    have hfields : ∀ g ∈ Fields.map Node.print n.fields, g.name.isFieldName = true ∧
        ((∃ v, ReadsValue g.value.print v) ∨ FailsValue g.value.print) := by
      intro g hg
      obtain ⟨k, hk, rfl⟩ := List.mem_map.1 hg
      have hself := (hlegible k hk).self
      rw [Field.isLegible, Bool.and_eq_true] at hself
      refine ⟨hself.1, ?_⟩
      by_cases hreadable : k.Legible Leaf.isReadable
      · have hwhole := hreadable.self
        rw [Field.isLegible, Bool.and_eq_true] at hwhole
        exact .inl ⟨_, readsValue_map (fun _ => readsValue_reread) hwhole.2 fun m hm =>
          readsNode_print (fun _ => readsValue_reread) (hreadable.nodes m hm)⟩
      · exact .inr (hvalue hk hreadable)
    have hfail : ∃ g ∈ Fields.map Node.print n.fields, FailsValue g.value.print :=
      ⟨f.map Node.print, List.mem_map_of_mem hf, hvalue hf hunreadable⟩
    intro x frames hopen
    rw [Node.print_eq, List.append_assoc]
    exact (hopen.append (leads_kind n.kind)).fails
      (fails_fields hfields hfail (closes_kind n.kind))

end Reader

namespace Node

/-- **A readable tree is read back** with its numbers rounded to six digits. -/
theorem parse_print_readable {n : Node} (h : n.Legible Leaf.isReadable) :
    Node.parse n.print false = .ok (n.readBack Leaf.reread) :=
  parse_print_eq (fun _ => Reader.readsValue_reread) h

/-- **Any other tree is refused.** -/
theorem parse_print_unreadable {n : Node} (hfinite : n.Legible Leaf.isFinite)
    (h : ¬n.Legible Leaf.isReadable) : ∃ e, Node.parse n.print false = .error e := by
  have hopen : Reader.Leads (ascii "(") ([], .start) ([], .head .unknown) := fun _ => ⟨_, rfl⟩
  obtain ⟨place, frames, e, hrun⟩ :=
    Reader.failsNode_print hfinite h ([], .start) [] hopen ⟨1, 1⟩
  refine ⟨e, ?_⟩
  change (Reader.run false .initial n.print).result = _
  rw [Reader.State.initial, hrun]
  rfl

end Node

/-! ## Equal after printing and reading -/

section

variable {r : Leaf → Leaf → Prop} {ν μ ξ : Type} {p : ν → μ → Prop}

theorem Option.rel_map {f : ξ → μ} {c : Option ν} {d : Option ξ} :
    Option.Rel p c (d.map f) ↔ Option.Rel (fun n m => p n (f m)) c d := by
  cases c <;> cases d <;> simp

theorem Option.rel_self {q : ν → ν → Prop} {c : Option ν} : Option.Rel q c c ↔ ∀ n ∈ c, q n n := by
  cases c <;> simp

theorem Value.alike_map {f : ξ → μ} {v : Value ν} {w : Value ξ} :
    v.Alike r p (w.map f) ↔ v.Alike r (fun n m => p n (f m)) w := by
  constructor
  · intro h
    cases w <;> cases h
    case leaf.leaf h => exact .leaf h
    case child.child h => exact .child (Option.rel_map.1 h)
    case children.children h =>
      refine .children ?_
      rw [List.forall₂_map_right_iff] at h
      exact h.imp fun _ _ => Option.rel_map.1
  · rintro (h | h | h)
    · exact .leaf h
    · exact .child (Option.rel_map.2 h)
    · refine .children ?_
      rw [List.forall₂_map_right_iff]
      exact h.imp fun _ _ => Option.rel_map.2

/-- A value is like itself with its leaf replaced if the leaf is like what
replaces it. -/
theorem Value.alike_mapLeaf {g : Leaf → Leaf} {q : ν → ν → Prop} {v : Value ν} :
    v.Alike r q (v.mapLeaf g) ↔ (∀ l ∈ v.leaf?, r l (g l)) ∧ ∀ n ∈ v.nodes, q n n := by
  cases v with
  | leaf l =>
    constructor
    · rintro ⟨h⟩
      refine ⟨?_, fun n hn => nomatch hn⟩
      rintro _ ⟨⟩
      exact h
    · rintro ⟨h, -⟩
      exact .leaf (h l rfl)
  | child c =>
    constructor
    · intro h
      cases h with
      | child h =>
        refine ⟨fun l hl => (nomatch hl), fun n hn => Option.rel_self.1 h n ?_⟩
        exact Option.mem_toList.1 hn
    · rintro ⟨-, h⟩
      exact .child (Option.rel_self.2 fun n hn => h n (Option.mem_toList.2 hn))
  | children cs =>
    constructor
    · intro h
      cases h with
      | children h =>
        refine ⟨fun l hl => (nomatch hl), fun n hn => ?_⟩
        obtain ⟨c, hc, hn⟩ := List.mem_filterMap.1 hn
        exact Option.rel_self.1 (List.forall₂_same.1 h c hc) n hn
    · rintro ⟨-, h⟩
      refine .children (List.forall₂_same.2 fun c hc => Option.rel_self.2 fun n hn => ?_)
      exact h n (List.mem_filterMap.2 ⟨c, hc, hn⟩)

end

namespace Node

variable {r : Leaf → Leaf → Prop} {n m : Node}

/-- Places make no difference where they do not count. -/
theorem alike_unlocated : n.Alike r false m.unlocated ↔ n.Alike r false m := by
  induction m using Node.induction generalizing n with
  | step m ih =>
    have hfield {f g : Field Node} (hg : g ∈ m.fields) :
        f.Alike r (Alike r false) (g.map unlocated) ↔ f.Alike r (Alike r false) g := by
      have hnodes {c d : Node} (hd : d ∈ g.value.nodes) :
          c.Alike r false d.unlocated ↔ c.Alike r false d := ih d (Fields.mem_nodes hg hd)
      rw [Field.alike_iff, Field.alike_iff, Field.name_map, Field.value_map, Value.alike_map]
      refine and_congr_right fun _ => ⟨fun h => ?_, fun h => ?_⟩
      · exact h.imp (fun _ _ _ _ h => h) fun c _ d hd => (hnodes hd).1
      · exact h.imp (fun _ _ _ _ h => h) fun c _ d hd => (hnodes hd).2
    rw [alike_iff, alike_iff, kind_unlocated, fields_unlocated, Fields.map,
      List.forall₂_map_right_iff]
    refine and_congr_right fun _ => ?_
    constructor
    · rintro ⟨-, h⟩
      exact ⟨fun h => absurd h Bool.false_ne_true, forall₂_imp h fun f _ g hg => (hfield hg).1⟩
    · rintro ⟨-, h⟩
      exact ⟨fun h => absurd h Bool.false_ne_true, forall₂_imp h fun f _ g hg => (hfield hg).2⟩

/-- **A tree is like what is read back of it** if each of its leaves is. -/
theorem alike_readBack {g : Leaf → Leaf} :
    n.Alike r false (n.readBack g) ↔ ∀ l ∈ n.leaves, r l (g l) := by
  induction n using Node.induction with
  | step n ih =>
    have hcomm (v : Value Node) : (v.map (readBack g)).mapLeaf g =
        (v.mapLeaf g).map (readBack g) := by
      cases v <;> rfl
    have hfield {f : Field Node} (hf : f ∈ n.fields) :
        f.Alike r (Alike r false) ((f.map (readBack g)).mapLeaf g) ↔
          (∀ l ∈ f.value.leaf?, r l (g l)) ∧ ∀ m ∈ f.value.nodes, ∀ l ∈ m.leaves, r l (g l) := by
      rw [Field.alike_iff, Field.mapLeaf, Field.value_map, hcomm, Value.alike_map,
        Value.alike_mapLeaf]
      have hnodes {m : Node} (hm : m ∈ f.value.nodes) := ih m (Fields.mem_nodes hf hm)
      constructor
      · rintro ⟨-, hleaf, h⟩
        exact ⟨hleaf, fun m hm => (hnodes hm).1 (h m hm)⟩
      · rintro ⟨hleaf, h⟩
        exact ⟨rfl, hleaf, fun m hm => (hnodes hm).2 (h m hm)⟩
    rw [alike_iff, readBack_eq, List.forall₂_map_right_iff, List.forall₂_same]
    constructor
    · rintro ⟨-, -, h⟩ l hl
      rcases mem_leaves_iff.1 hl with ⟨f, hf, hleaf⟩ | ⟨m, hm, hleaf⟩
      · exact ((hfield hf).1 (h f hf)).1 l hleaf
      · obtain ⟨f, hf, hm⟩ := List.mem_flatMap.1 hm
        exact ((hfield hf).1 (h f hf)).2 m hm l hleaf
    · intro h
      refine ⟨rfl, fun h => absurd h Bool.false_ne_true, fun f hf => ?_⟩
      refine (hfield hf).2 ⟨fun l hl => ?_, ?_⟩
      · exact h l (mem_leaves_of_mem_fields hf hl)
      · exact fun m hm l hl => h l (mem_leaves_of_mem_parts (Fields.mem_nodes hf hm) hl)

/-- A legible tree is legible with leaves of another class if all its leaves
are of this class. -/
theorem legible_iff_leaves {p q : Leaf → Bool} (h : n.Legible p) :
    n.Legible q ↔ ∀ l ∈ n.leaves, q l = true := by
  have hfield {k : Node} (hk : k ∈ n.subtree) {f : Field Node} (hf : f ∈ k.fields) :
      f.isLegible q = true ↔ ∀ l ∈ f.value.leaf?, q l = true := by
    have hself := h k hk f hf
    obtain ⟨name, v⟩ := f
    rw [Field.isLegible, Bool.and_eq_true] at hself
    rw [Field.isLegible, hself.1, Bool.true_and]
    have hwhole := hself.2
    cases v with
    | leaf l =>
      refine ⟨fun hq => ?_, fun hq => hq l rfl⟩
      rintro _ ⟨⟩
      exact hq
    | child c => exact ⟨fun _ l hl => absurd hl (Option.not_mem_none l), fun _ => hwhole⟩
    | children cs => exact ⟨fun _ l hl => absurd hl (Option.not_mem_none l), fun _ => hwhole⟩
  constructor
  · intro hq l hl
    obtain ⟨k, hk, hl⟩ := List.mem_flatMap.1 hl
    obtain ⟨f, hf, hl⟩ := List.mem_filterMap.1 hl
    exact (hfield hk hf).1 (hq k hk f hf) l hl
  · intro hq k hk f hf
    refine (hfield hk hf).2 fun l hl => hq l ?_
    exact List.mem_flatMap.2 ⟨k, hk, List.mem_filterMap.2 ⟨f, hf, hl⟩⟩

end Node

/-! ## The law -/

/-- The number nearest to a decimal has its sign. -/
theorem Decimal.negative_of_toBinary64? {negative : Bool} {d : Decimal} {x : Binary64}
    (h : d.toBinary64? negative = some x) : x.negative = negative := by
  unfold toBinary64? at h
  dsimp only at h
  split at h
  · cases h
    exact Binary64.negative_ofFields (twoTo_pos 63)
  · split at h
    · cases h
    · unfold Binary64.ofRatio? at h
      dsimp only at h
      split at h
      · cases h
      · cases h
        exact Binary64.negative_ofUnits ..

/-- A readable leaf is the same as what is read back exactly if it is not
changed. -/
theorem Leaf.same_reread_iff {l : Leaf} (h : l.isReadable = true) :
    l.same l.reread = true ↔ ∀ x, l = .float x → x.reread? = some x := by
  cases l with
  | float x =>
    rw [isReadable, Bool.and_eq_true] at h
    obtain ⟨y, hy⟩ := Option.isSome_iff_exists.1 h.2
    have hnan := ((Binary64.isFinite_iff x).1 h.1).1
    have hreread : (Leaf.float x).reread = .float y := by rw [reread, hy, Option.getD_some]
    rw [hreread]
    constructor
    · rintro hsame _ ⟨⟩
      have hnumber : x.sameNumber y = true := hsame
      simp only [Binary64.sameNumber, Bool.and_eq_true, Bool.or_eq_true, beq_iff_eq] at hnumber
      obtain ⟨-, rfl | ⟨⟨⟨-, hx⟩, -⟩, hyzero⟩⟩ := hnumber
      · exact hy
      · have hnegative := Decimal.negative_of_toBinary64? hy
        rw [hy, Binary64.eq_of_units hnegative (hyzero.trans hx.symm)]
    · intro hfixed
      have hxy := hfixed x rfl
      rw [hy] at hxy
      cases hxy
      change x.sameNumber x = true
      simp [Binary64.sameNumber, hnan]
  | int i =>
    exact ⟨fun _ x hx => absurd hx (by simp), fun _ => (same_iff ..).2 (.inl ⟨_, rfl, rfl⟩)⟩
  | _ => exact ⟨fun _ x hx => absurd hx (by simp), fun _ => (same_iff ..).2 (.inr ⟨rfl, rfl⟩)⟩

namespace Node

variable {n m : Node} {located : Bool}

/-- A finite tree is readable if the six digits of every floating point
number are in range. -/
theorem legible_isReadable_iff (hfinite : n.Legible Leaf.isFinite) :
    n.Legible Leaf.isReadable ↔ ∀ x, Leaf.float x ∈ n.leaves → x.reread?.isSome = true := by
  have hleaf := (legible_iff_leaves hfinite).1 hfinite
  rw [legible_iff_leaves hfinite]
  constructor
  · intro hl x hx
    have hreadable := hl _ hx
    rw [Leaf.isReadable, Bool.and_eq_true] at hreadable
    exact hreadable.2
  · intro hx l hl
    cases l with
    | float x =>
      have hxfinite : x.isFinite = true := hleaf _ hl
      rw [Leaf.isReadable, hxfinite, hx x hl]
      rfl
    | _ => rfl

theorem exists_parse_print (h : n.Legible Leaf.isReadable) (located : Bool) :
    ∃ m, Node.parse n.print located = .ok m := by
  have hfalse := parse_false n.print located
  rw [parse_print_readable h] at hfalse
  cases hm : Node.parse n.print located with
  | ok m => exact ⟨m, rfl⟩
  | error e =>
    rw [hm] at hfalse
    cases hfalse

/-- What is read of the printed form of a finite tree. -/
theorem unlocated_of_parse_print (hfinite : n.Legible Leaf.isFinite)
    (h : Node.parse n.print located = .ok m) :
    n.Legible Leaf.isReadable ∧ m.unlocated = n.readBack Leaf.reread := by
  have hfalse := parse_false n.print located
  rw [h] at hfalse
  by_cases hn : n.Legible Leaf.isReadable
  · rw [parse_print_readable hn] at hfalse
    exact ⟨hn, (Except.ok.inj hfalse).symm⟩
  · obtain ⟨e, he⟩ := parse_print_unreadable hfinite hn
    rw [he] at hfalse
    cases hfalse

/-- What is read is equal to the tree if no number was changed. -/
theorem same_of_parse_print (hfinite : n.Legible Leaf.isFinite)
    (h : Node.parse n.print located = .ok m) :
    n.same false m = true ↔ ∀ x, Leaf.float x ∈ n.leaves → x.reread? = some x := by
  obtain ⟨hreadable, hback⟩ := unlocated_of_parse_print hfinite h
  have hleaf := (legible_iff_leaves hfinite).1 hreadable
  rw [same_iff_alike, ← alike_unlocated, hback, alike_readBack]
  constructor
  · exact fun h x hx => (Leaf.same_reread_iff (hleaf _ hx)).1 (h _ hx) x rfl
  · exact fun h l hl => (Leaf.same_reread_iff (hleaf _ hl)).2 fun x hx => h x (hx ▸ hl)

end Node

/-- **What comes back of a tree that was read.** Its printed form is read if
every floating point number of it has its six digits in range, and what is
read is equal to it if every one of them is the number nearest to some
decimal of at most six digits. -/
theorem printing_law {text : Text} {located : Bool} {n : Node}
    (h : Node.parse text located = .ok n) (located' : Bool) :
    ((∃ m, Node.parse n.print located' = .ok m) ↔
      ∀ x, Leaf.float x ∈ n.leaves → x.reread?.isSome = true) ∧
    ((∃ m, Node.parse n.print located' = .ok m ∧ n.same false m = true) ↔
      ∀ x, Leaf.float x ∈ n.leaves →
        ∃ d : Decimal, d.digits < tenTo 6 ∧ d.toBinary64? x.negative = some x) := by
  have hfinite := Node.legible_of_parse h
  have hreadable := Node.legible_isReadable_iff hfinite
  simp only [← Binary64.reread?_eq_some_iff]
  refine ⟨⟨fun ⟨m, hm⟩ => ?_, fun hx => ?_⟩, ⟨fun ⟨m, hm, hequal⟩ => ?_, fun hx => ?_⟩⟩
  · exact hreadable.1 (Node.unlocated_of_parse_print hfinite hm).1
  · exact Node.exists_parse_print (hreadable.2 hx) located'
  · exact (Node.same_of_parse_print hfinite hm).1 hequal
  · have hsome : ∀ x, Leaf.float x ∈ n.leaves → x.reread?.isSome = true := fun x hmem => by
      rw [hx x hmem, Option.isSome_some]
    obtain ⟨m, hm⟩ := Node.exists_parse_print (hreadable.2 hsome) located'
    exact ⟨m, hm, (Node.same_of_parse_print hfinite hm).2 hx⟩

theorem exists_ok_of_any {ε α : Type} {r : Except ε α} {p : α → Bool}
    (h : r.toOption.any p = true) : ∃ a, r = .ok a ∧ p a = true := by
  cases r with
  | error e => cases h
  | ok a => exact ⟨a, rfl, h⟩

/-- Numbers of a few digits come back, however large or small. -/
theorem printing_law_few_digits :
    ∃ n m, Node.parse (ascii "(vector2 :x -0.1 :y 1.5e300)") true = .ok n ∧
      Node.parse n.print true = .ok m ∧ n.same false m = true := by
  have hread : ((Node.parse (ascii "(vector2 :x -0.1 :y 1.5e300)") true).toOption.any fun n =>
      n.leaves == [.float ⟨0xbfb999999999999a⟩, .float ⟨0x7e41eb2d66005835⟩]) = true := by
    decide +kernel
  obtain ⟨n, h, hleaves⟩ := exists_ok_of_any hread
  have hdigits : ∀ x, Leaf.float x ∈ n.leaves →
      ∃ d : Decimal, d.digits < tenTo 6 ∧ d.toBinary64? x.negative = some x := by
    intro x hx
    rw [beq_iff_eq.1 hleaves, List.mem_cons, List.mem_singleton, Leaf.float.injEq,
      Leaf.float.injEq] at hx
    rcases hx with rfl | rfl
    · exact ⟨⟨1, -1⟩, by decide, by decide +kernel⟩
    · exact ⟨⟨15, 299⟩, by decide, by decide +kernel⟩
  obtain ⟨m, hm⟩ := (printing_law h true).2.2 hdigits
  exact ⟨n, m, h, hm⟩

/-- **Printing loses digits.** A number of seven digits comes back as
another one, and the least number of full precision does not come back at
all: its six digits stand for one that is smaller. -/
theorem printing_loses_digits :
    (∃ n m, Node.parse (ascii "(value :value 1234567.0)") true = .ok n ∧
      Node.parse n.print true = .ok m ∧ n.same false m = false) ∧
    ∃ n, Node.parse (ascii "(value :value 2.2250738585072014e-308)") true = .ok n ∧
      ∀ m, Node.parse n.print true ≠ .ok m := by
  have hother : ((Node.parse (ascii "(value :value 1234567.0)") true).toOption.any fun n =>
      (Node.parse n.print true).toOption.any fun m => !n.same false m) = true := by
    decide +kernel
  have hrefused : ((Node.parse (ascii "(value :value 2.2250738585072014e-308)") true).toOption.any
      fun n => !(Node.parse n.print true).isOk) = true := by
    decide +kernel
  constructor
  · obtain ⟨n, h, hreread⟩ := exists_ok_of_any hother
    obtain ⟨m, hm, hsame⟩ := exists_ok_of_any hreread
    exact ⟨n, m, h, hm, by simpa using hsame⟩
  · obtain ⟨n, h, hnot⟩ := exists_ok_of_any hrefused
    refine ⟨n, h, fun m hm => ?_⟩
    rw [hm] at hnot
    cases hnot

end ScriptSplice
