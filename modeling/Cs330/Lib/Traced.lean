/-
  Cs330.Lib.Traced — machines that move the contents of a memory, and do not look at them.

  `Moves M ok φ β`: another memory `φ → β` can be put in the place of a state's (`withMem`),
  and an event that meets `ok` does the same with it: each cell afterwards has the contents of
  one before (`source`). So a run says which cell of its first state a cell of its last has the
  contents of (`trace`, `run_mem`). What a cell holds does not depend on what a set of cells
  held at the start if and only if that cell is not in the set (`same_iff`).
-/
import Cs330.Lib.Machine
import Mathlib.Logic.Function.Basic

namespace Cs330.Lib.Machine

variable {σ ε φ β : Type}

structure Moves (M : Machine σ ε) (ok : σ → ε → Prop) (φ β : Type) where
  mem : σ → φ → β
  withMem : σ → (φ → β) → σ
  source : σ → ε → φ → φ
  mem_withMem : ∀ s m, mem (withMem s m) = m
  withMem_mem : ∀ s, withMem s (mem s) = s
  ok_withMem : ∀ s m e, ok (withMem s m) e ↔ ok s e
  step_withMem : ∀ s m e, ok s e → M.step (withMem s m) e = (M.step s e).map fun t => withMem t (m ∘ source s e)

namespace Moves

variable {M : Machine σ ε} {ok : σ → ε → Prop} (V : Moves M ok φ β) {s t u : σ} {es : List ε}

/-- The cell at the start whose contents a cell has after the events. -/
def trace : σ → List ε → φ → φ
  | _, [] => id
  | s, e :: es =>
    match M.step s e with
    | none => id
    | some t => V.source s e ∘ trace t es

theorem run_withMem (h : M.Run ok s es t) (m : φ → β) : M.Run ok (V.withMem s m) es (V.withMem t (m ∘ V.trace s es)) := by
  induction h generalizing m with
  | nil s => exact .nil _
  | @cons s t u e es ho he _ ih =>
    have htrace : V.trace s (e :: es) = V.source s e ∘ V.trace t es := by
      simp only [trace, he]
    have hstep : M.step (V.withMem s m) e = some (V.withMem t (m ∘ V.source s e)) := by
      rw [V.step_withMem s m e ho, he]
      rfl
    rw [htrace, ← Function.comp_assoc]
    exact .cons ((V.ok_withMem s m e).mpr ho) hstep (ih _)

/-- The memory at the end of a run. -/
theorem run_mem (h : M.Run ok s es t) : V.mem t = V.mem s ∘ V.trace s es := by
  have hrun := V.run_withMem h (V.mem s)
  rw [V.withMem_mem] at hrun
  rw [h.det hrun, V.mem_withMem]

/-- A cell is the same after all runs that start alike off `D`, or has its contents from `D`. -/
theorem same_iff [Nontrivial β] (h : M.Run ok s es t) (D : Set φ) (c : φ) :
    (∀ m, (∀ d, d ∉ D → m d = V.mem s d) → ∀ u, M.Run ok (V.withMem s m) es u → V.mem u c = V.mem t c) ↔
      V.trace s es c ∉ D := by
  classical
  have ht := V.run_mem h
  constructor
  · intro hsame hin
    obtain ⟨b, hb⟩ := exists_ne (V.mem s (V.trace s es c))
    have hrun := V.run_withMem h (Function.update (V.mem s) (V.trace s es c) b)
    have hoff : ∀ d, d ∉ D → Function.update (V.mem s) (V.trace s es c) b d = V.mem s d := by
      intro d hd
      apply Function.update_of_ne
      rintro rfl
      exact hd hin
    have hc := hsame _ hoff _ hrun
    rw [V.mem_withMem, ht, Function.comp_apply, Function.comp_apply, Function.update_self] at hc
    exact hb hc
  · intro hno m hoff u hu
    rw [hu.det (V.run_withMem h m), V.mem_withMem, ht]
    exact hoff _ hno

end Moves

end Cs330.Lib.Machine
