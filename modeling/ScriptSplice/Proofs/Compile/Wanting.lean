import ScriptSplice.Proofs.Compile.Deeds
/-!
# Failing for want of something

An action that compiles operands fails if one is not there. Of the ways in
which a compilation fails this one and the lack of a body are the only ones
that are not about something in the tree. So what is said of them here is
where they come from: an action fails for want of something only if it
lacks that itself, or if compiling one of its nodes does
(`Compile.Does.wants`).
-/

namespace ScriptSplice

open Compile

variable {α β γ : Type}

namespace Compile

/-- **An action fails for want of something** only if `P`. -/
def Wants (P : Prop) (act : Compile α) : Prop :=
  ∀ d f d', exec act d = (.error f, d') → f.cause.isAbsence = true → P

namespace Wants

variable {P : Prop} {act : Compile α}

theorem mono {Q : Prop} (h : Wants P act) (hPQ : P → Q) : Wants Q act :=
  fun d f d' hact habsent => hPQ (h d f d' hact habsent)

theorem pure (a : α) : Wants P (Pure.pure a : Compile α) := by
  rintro d _ _ ⟨⟩

theorem lift (act : Drafting α) : Wants P (liftM act : Compile α) := by
  intro d f d' hact
  rw [exec_lift] at hact
  cases hact

/-- The second action is only run if the first one ends well. -/
theorem bind_of_ok {next : α → Compile β} (h : Wants P act)
    (hnext : ∀ a d d', exec act d = (.ok a, d') → Wants P (next a)) : Wants P (act >>= next) := by
  intro d f d' hrun habsent
  rcases hact : exec act d with ⟨g | a, d₁⟩
  · rw [exec_bind_of_error hact] at hrun
    cases hrun
    exact h d f d' hact habsent
  · rw [exec_bind_of_ok hact] at hrun
    exact hnext a d d₁ hact d₁ f d' hrun habsent

theorem bind {next : α → Compile β} (h : Wants P act) (hnext : ∀ a, Wants P (next a)) :
    Wants P (act >>= next) := h.bind_of_ok fun a _ _ _ => hnext a

theorem inBlock (h : Wants P act) : Wants P (inBlock act) := by
  intro d f d' hrun habsent
  rcases hact : exec act { d with depth := d.depth + 1 } with ⟨r, d₁⟩
  rw [exec_inBlock, hact] at hrun
  cases hrun
  exact h { d with depth := d.depth + 1 } f d₁ hact habsent

theorem foldlM {f : β → γ → Compile β} (l : List γ) (h : ∀ x ∈ l, ∀ s, Wants P (f s x)) (s : β) :
    Wants P (l.foldlM f s) := by
  induction l generalizing s with
  | nil => exact .pure s
  | cons x l ih =>
    rw [List.foldlM_cons]
    exact (h x List.mem_cons_self s).bind fun s' =>
      ih (fun y hy => h y (List.mem_cons_of_mem _ hy)) s'

end Wants

/-- **A sequence wants** what its children do. -/
theorem wants_splice {P : Prop} (collection : Collection) {parts : List (Option Part)}
    (h : ∀ p, some p ∈ parts → Wants P p.run) : Wants P (splice collection parts) := by
  refine (Wants.lift get).bind fun d => (Wants.foldlM _ ?_ _).bind fun s => .lift _
  rintro ⟨_ | p, i⟩ hp s
  · exact .pure _
  · refine (h p (List.fst_mem_of_mem_zipIdx hp)).bind fun r => ?_
    cases r with
    | none => exact .pure _
    | some es => exact (Wants.lift _).bind fun c => .lift _

/-- **An action wants** what it lacks itself and what compiling its nodes
wants. -/
theorem Does.wants {c : Compiler} {P Q : Prop} {xs : List Deed} {act : Compile α}
    (h : Does c P xs act) (hPQ : P → Q)
    (hnodes : ∀ x ∈ xs, ∀ n ∈ x.nodes, Wants Q (c.part n).run) : Wants Q act := by
  induction h with
  | pure | skip => exact .pure _
  | throw deeds habsent =>
    rintro d _ _ ⟨⟩ h
    exact hPQ (habsent h)
  | bind_of_ok _ _ ih ihnext =>
    rw [List.forall_mem_append] at hnodes
    exact (ih hnodes.1).bind_of_ok fun a d d' hact => ihnext a d d' hact hnodes.2
  | inBlock _ ih => exact (ih hnodes).inBlock
  | emit | ref | use | lack | note => exact .lift _
  | run n => exact hnodes _ List.mem_cons_self n List.mem_cons_self
  | splice collection children =>
    refine wants_splice collection fun p hp => ?_
    obtain ⟨n, hn, rfl⟩ := exists_of_mem_parts hp
    exact hnodes _ List.mem_cons_self n (Deed.mem_nodes_splice.2 hn)

end Compile

end ScriptSplice
