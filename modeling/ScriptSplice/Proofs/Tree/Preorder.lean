import ScriptSplice.Proofs.Tree.Subtree
/-!
# Preorder

A node of a tree is found by its path from the root: at each step, the
number of a part among the nodes directly below. Paths are compared as
lists of numbers are, an ancestor's before those of what is below it; this
is the order in which a tree is gone through from the root, and each part
to its end before the next.

`Node.pruned` goes through a tree in this order and leaves out what is
below certain nodes. It lists the nodes that have none of these above them
(`Node.mem_pruned`), in the order of their paths (`Node.pairwise_pruned`).
-/

namespace ScriptSplice

/-- The way from the root to a node. -/
abbrev Path := List Nat

namespace Node

/-- **The node at the end of a path.** -/
def at? (n : Node) : Path → Option Node
  | [] => some n
  | i :: p => n.parts[i]?.bind (at? · p)

/-- A node is reached past nodes to stop at: no proper ancestor is one. -/
def Reached (stop : Node → Bool) (root : Node) (p : Path) (n : Node) : Prop :=
  root.at? p = some n ∧ ∀ q m, q <+: p → q ≠ p → root.at? q = some m → stop m = false

/-- The nodes of a tree with their paths, without those below a node to
stop at. -/
def pruned (stop : Node → Bool) : Node → List (Path × Node) :=
  fold fun n fields => ([], n) ::
    if stop n then []
    else (Fields.nodes fields).zipIdx.flatMap fun x => x.1.map fun y => (x.2 :: y.1, y.2)

variable {stop : Node → Bool} {n m : Node} {p : Path}

theorem pruned_eq (stop : Node → Bool) (n : Node) : n.pruned stop = ([], n) ::
    if stop n then []
    else n.parts.zipIdx.flatMap fun x => (x.1.pruned stop).map fun y => (x.2 :: y.1, y.2) := by
  rw [pruned, fold_eq, Fields.nodes_map, List.zipIdx_map, List.flatMap_map]
  rfl

/-! ## What is reached -/

theorem reached_nil : Reached stop n [] m ↔ m = n := by
  constructor
  · rintro ⟨h, -⟩
    exact (Option.some.inj h).symm
  · rintro rfl
    exact ⟨rfl, fun q _ hq hne => absurd (List.prefix_nil.1 hq) hne⟩

/-- What is below a part is reached past the node and within the part. -/
theorem reached_cons {i : Nat} : Reached stop n (i :: p) m ↔
    stop n = false ∧ ∃ k, n.parts[i]? = some k ∧ Reached stop k p m := by
  constructor
  · rintro ⟨h, hstop⟩
    obtain ⟨k, hk, hm⟩ := Option.bind_eq_some_iff.1 h
    refine ⟨hstop [] n List.nil_prefix nofun rfl, k, hk, hm, fun q m' hq hne hm' => ?_⟩
    refine hstop (i :: q) m' (List.cons_prefix_cons.2 ⟨rfl, hq⟩) (by simpa using hne) ?_
    rw [at?, hk, Option.bind_some, hm']
  · rintro ⟨hn, k, hk, hm, hstop⟩
    refine ⟨by rw [at?, hk, Option.bind_some, hm], fun q m' hq hne hm' => ?_⟩
    cases q with
    | nil => exact Option.some.inj hm' ▸ hn
    | cons j q =>
      obtain ⟨rfl, hqp⟩ := List.cons_prefix_cons.1 hq
      rw [at?, hk, Option.bind_some] at hm'
      exact hstop q m' hqp (by simpa using hne) hm'

/-- **What is left of a pruned tree** are the nodes that are reached. -/
theorem mem_pruned : (p, m) ∈ n.pruned stop ↔ Reached stop n p m := by
  induction p generalizing n with
  | nil =>
    rw [pruned_eq, reached_nil]
    cases stop n <;> simp
  | cons i p ih =>
    rw [pruned_eq, reached_cons]
    cases stop n with
    | true => simp
    | false =>
      constructor
      · intro h
        obtain ⟨⟨k, j⟩, hk, y, hy, heq⟩ : ∃ x ∈ n.parts.zipIdx, ∃ y ∈ x.1.pruned stop,
            (x.2 :: y.1, y.2) = (i :: p, m) := by simpa using h
        cases heq
        exact ⟨rfl, k, List.mem_zipIdx_iff_getElem?.1 hk, ih.1 hy⟩
      · rintro ⟨-, k, hk, hm⟩
        refine List.mem_cons_of_mem _ (List.mem_flatMap.2 ⟨(k, i), ?_, ?_⟩)
        · exact List.mem_zipIdx_iff_getElem?.2 hk
        · exact List.mem_map.2 ⟨(p, m), ih.2 hm, rfl⟩

/-! ## The order -/

private theorem zipIdx_increasing (l : List Node) (k : Nat) :
    (l.zipIdx k).Pairwise fun x y => x.2 < y.2 := by
  induction l generalizing k with
  | nil => exact .nil
  | cons a l ih =>
    exact List.pairwise_cons.2 ⟨fun y hy => List.le_snd_of_mem_zipIdx hy, ih (k + 1)⟩

/-- **A pruned tree is in preorder.** -/
theorem pairwise_pruned (stop : Node → Bool) (n : Node) :
    (n.pruned stop).Pairwise fun x y => x.1 < y.1 := by
  induction n using Node.induction with
  | step n ih =>
    rw [pruned_eq, List.pairwise_cons]
    constructor
    · -- every path below begins with a step
      intro y hy
      cases hstop : stop n with
      | true => simp [hstop] at hy
      | false =>
        obtain ⟨x, -, z, -, rfl⟩ : ∃ x ∈ n.parts.zipIdx, ∃ z ∈ x.1.pruned stop,
            (x.2 :: z.1, z.2) = y := by simpa [hstop] using hy
        exact List.nil_lt_cons _ _
    · cases stop n with
      | true => exact .nil
      | false =>
        refine List.pairwise_flatMap.2 ⟨fun x hx => ?_, (zipIdx_increasing _ 0).imp ?_⟩
        · have hpart : x.1 ∈ n.parts := List.mem_of_getElem? (List.mem_zipIdx_iff_getElem?.1 hx)
          rw [List.pairwise_map]
          exact (ih x.1 hpart).imp fun h => List.cons_lt_cons_iff.2 (.inr ⟨rfl, h⟩)
        · intro x y hxy u hu v hv
          obtain ⟨u, -, rfl⟩ := List.mem_map.1 hu
          obtain ⟨v, -, rfl⟩ := List.mem_map.1 hv
          exact List.cons_lt_cons_iff.2 (.inl hxy)

/-- The nodes of a pruned tree: the root, and those of its parts unless it
is one to stop at. -/
theorem map_snd_pruned (stop : Node → Bool) (n : Node) :
    (n.pruned stop).map Prod.snd =
      n :: if stop n then [] else n.parts.flatMap fun m => (m.pruned stop).map Prod.snd := by
  rw [pruned_eq, List.map_cons]
  cases stop n with
  | true => rfl
  | false =>
    have hparts : ∀ ms : List Node, ∀ k, ((ms.zipIdx k).flatMap fun x =>
        (x.1.pruned stop).map fun y => (x.2 :: y.1, y.2)).map Prod.snd =
          ms.flatMap fun m => (m.pruned stop).map Prod.snd := by
      intro ms k
      induction ms generalizing k with
      | nil => rfl
      | cons m ms ih =>
        rw [List.zipIdx_cons, List.flatMap_cons, List.flatMap_cons, List.map_append, ih,
          List.map_map]
        rfl
    exact congrArg (n :: ·) (hparts n.parts 0)

end Node

end ScriptSplice
