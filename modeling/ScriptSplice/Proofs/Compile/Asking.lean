import ScriptSplice.Proofs.Compile.Deeds
/-!
# Asking for the missing value

What stands for an argument that was not given is a helper, and a program
binds those helpers that were asked for. An action that ends well has asked
for it exactly if one of its deeds is to ask, or if a node that it compiles
has (`Compile.Does.asks`).
-/

namespace ScriptSplice

open Compile

variable {α β : Type}

namespace Compile

/-- **An action asks for the missing value**, if it ends well, exactly if
`P`: then its helper is in use by the end. -/
def Asks (P : Prop) (act : Compile α) : Prop :=
  ∀ d a d', exec act d = (.ok a, d') →
    (Helper.missing ∈ d'.helpers ↔ .missing ∈ d.helpers ∨ P)

namespace Asks

variable {P Q : Prop} {act : Compile α}

theorem congr (h : Asks P act) (hPQ : P ↔ Q) : Asks Q act := fun d a d' hrun => by
  rw [h d a d' hrun, hPQ]

theorem bind_of_ok {next : α → Compile β} (h : Asks P act)
    (hnext : ∀ a d d', exec act d = (.ok a, d') → Asks Q (next a)) :
    Asks (P ∨ Q) (act >>= next) := by
  intro d b d' hrun
  obtain ⟨a, d₁, hact, hrun⟩ := exec_bind_eq_ok hrun
  rw [hnext a d d₁ hact d₁ b d' hrun, h d a d₁ hact, or_assoc]

theorem inBlock (h : Asks P act) : Asks P (inBlock act) := by
  intro d a d' hrun
  rcases hact : exec act { d with depth := d.depth + 1 } with ⟨r, d₁⟩
  rw [exec_inBlock, hact] at hrun
  cases hrun
  exact h { d with depth := d.depth + 1 } a d₁ hact

theorem use (h : Helper) : Asks (h = .missing) (liftM (Drafting.use h)) := by
  intro d a d' hrun
  rw [exec_lift, Prod.mk.injEq] at hrun
  rw [← hrun.2, Drafting.mem_helpers_use, eq_comm (a := h)]

end Asks

/-- Only the children of a sequence ask for anything. -/
theorem Splice.Loop.asks {collection : Collection} {count : Nat}
    {children : List (Option Part × Nat)} {vs : List Visit} {s s' : Splice} {d d' : Draft}
    {P : Option Part → Prop} (h : Loop collection count s d children vs s' d')
    (hchildren : ∀ c ∈ children, Asks (P c.1) (runChild c.1)) :
    Helper.missing ∈ d'.helpers ↔ .missing ∈ d.helpers ∨ ∃ o ∈ children.map Prod.fst, P o := by
  induction h with
  | nil => simp
  | static hrun _ ih =>
    rw [ih fun c hc => hchildren c (List.mem_cons_of_mem _ hc),
      hchildren _ List.mem_cons_self _ _ _ hrun]
    simp [or_assoc]
  | @dynamic s s₂ s' d d₁ d₂ d' child i children vs es hrun hstep _ ih =>
    obtain ⟨lines, refs, events, hd₂⟩ := step_only hrun hstep
    have hhelpers : d₂.helpers = d₁.helpers := by rw [hd₂]
    rw [ih fun c hc => hchildren c (List.mem_cons_of_mem _ hc), hhelpers,
      hchildren _ List.mem_cons_self _ _ _ hrun]
    simp [or_assoc]

/-- Closing a sequence asks for nothing. -/
theorem Splice.mem_helpers_close (s : Splice) (d : Draft) :
    Helper.missing ∈ (s.close d).2.helpers ↔ .missing ∈ d.helpers := by
  have hchildren (e : Draft) : Helper.missing ∈ (Drafting.use .children e).2.helpers ↔
      .missing ∈ e.helpers := by
    rw [Drafting.mem_helpers_use]
    simp
  have hfill (c : Collector) (e : Draft) : (c.fillEmpty e).2.helpers = e.helpers := by
    change ((if e.size = c.start then Drafting.emit .pass else Pure.pure ()) e).2.helpers = _
    split <;> rfl
  cases hc : s.collector with
  | none =>
    simp only [close, hc]
    rfl
  | some c =>
    have hstatic : (c.addStatic s.pending d).2.helpers = d.helpers := by
      rw [Collector.addStatic_apply]
    rw [← hstatic]
    simp only [close, hc, Drafting.bind_apply, Drafting.pure_apply]
    generalize c.addStatic s.pending d = x
    unfold Collector.flush
    cases x.1.collection with
    | generic => exact hchildren _
    | command => rw [← hfill x.1 x.2]; rfl
    | rootCommand =>
      rw [← hfill x.1 x.2]
      exact hchildren _

/-- **A sequence asks** if one of its children does. -/
theorem asks_splice {c : Compiler} (collection : Collection) {children : List (Option Node)}
    {P : Node → Prop} (h : ∀ n, some n ∈ children → Asks (P n) (c.part n).run) :
    Asks (∃ n, some n ∈ children ∧ P n) (splice collection (children.map (·.map c.part))) := by
  intro d r d' hrun
  have hsplice := splice_visits collection (children.map (·.map c.part)) d
  rw [hrun] at hsplice
  obtain ⟨s, d₁, hclose, hloop⟩ := hsplice
  let Q (o : Option Part) : Prop := ∃ p, o = some p ∧ P p.node
  have hchildren : ∀ child ∈ (children.map (·.map c.part)).zipIdx,
      Asks (Q child.1) (runChild child.1) := by
    intro child hchild
    obtain ⟨m, hm, heq⟩ := List.mem_map.1 (List.fst_mem_of_mem_zipIdx hchild)
    rw [← heq]
    cases m with
    | none =>
      have hnone : ¬Q none := by simp [Q]
      rintro e _ _ ⟨⟩
      exact (or_iff_left hnone).symm
    | some n => simpa [Q, runChild] using h n hm
  have hQ : (∃ o ∈ children.map (·.map c.part), Q o) ↔ ∃ n, some n ∈ children ∧ P n := by
    constructor
    · rintro ⟨o, ho, p, rfl, hp⟩
      obtain ⟨m, hm, heq⟩ := List.mem_map.1 ho
      obtain ⟨n, rfl, rfl⟩ := Option.map_eq_some_iff.1 heq
      exact ⟨n, hm, by rwa [c.node_part] at hp⟩
    · rintro ⟨n, hn, hp⟩
      exact ⟨_, List.mem_map.2 ⟨some n, hn, rfl⟩, c.part n, rfl, by rwa [c.node_part]⟩
  have hhelpers : d'.helpers = (s.close d₁).2.helpers := by rw [hclose]
  rw [hhelpers, Splice.mem_helpers_close, hloop.asks hchildren, List.zipIdx_map_fst, hQ]

/-- **An action asks for the missing value** if one of its deeds is to ask,
or compiles a node that does. -/
theorem Does.asks {c : Compiler} {P : Prop} {xs : List Deed} {act : Compile α} (h : Does c P xs act)
    {Q : Node → Prop} (hnodes : ∀ x ∈ xs, ∀ n ∈ x.nodes, Asks (Q n) (c.part n).run) :
    Asks (.lack ∈ xs ∨ ∃ x ∈ xs, ∃ n ∈ x.nodes, Q n) act := by
  induction h with
  | pure | skip =>
    rintro d _ _ ⟨⟩
    simp [Deed.nodes]
  | throw => rintro d _ _ ⟨⟩
  | bind_of_ok _ _ ih ihnext =>
    rw [List.forall_mem_append] at hnodes
    refine ((ih hnodes.1).bind_of_ok fun a d d' hact => ihnext a d d' hact hnodes.2).congr ?_
    simp only [List.mem_append, or_and_right, exists_or]
    exact or_or_or_comm
  | inBlock _ ih => exact (ih hnodes).inBlock
  | emit | ref | note =>
    rintro d _ _ ⟨⟩
    simp [Deed.nodes]
  | use hne => exact (Asks.use _).congr (by simp [hne])
  | lack => exact (Asks.use _).congr (by simp)
  | run n => exact (hnodes _ List.mem_cons_self n List.mem_cons_self).congr (by simp [Deed.nodes])
  | splice collection children =>
    refine (asks_splice collection fun n hn =>
      hnodes _ List.mem_cons_self n (Deed.mem_nodes_splice.2 hn)).congr ?_
    simp [Deed.nodes]

end Compile

end ScriptSplice
