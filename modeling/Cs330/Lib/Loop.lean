/-
  Cs330.Lib.Loop — while loops.

  `body s` is the state after one round from `s`, `none` where the loop's condition fails.
  `Leaves body n s t`: from `s` the loop is left in `t` after exactly `n` rounds. `run`
  takes at most `fuel` rounds; with the rounds the loop needs, or more, it ends where the
  loop does (`Leaves.run_eq`). A variant that every round lowers bounds the rounds and an
  invariant holds where the loop is left (`leaves_of_variant`).
-/
import Mathlib.Data.Set.Card

namespace Cs330.Lib.Loop

variable {σ : Type} (body : σ → Option σ)

inductive Leaves : Nat → σ → σ → Prop
  | exit {s : σ} : body s = none → Leaves 0 s s
  | round {n : Nat} {s t u : σ} : body s = some t → Leaves n t u → Leaves (n + 1) s u

def run : Nat → σ → σ
  | 0, s => s
  | fuel + 1, s =>
    match body s with
    | none => s
    | some t => run fuel t

variable {body} {n fuel : Nat} {s t : σ}

theorem run_exit (h : body s = none) : run body fuel s = s := by
  cases fuel with
  | zero => rfl
  | succ fuel => rw [run, h]

theorem run_round (h : body s = some t) : run body (fuel + 1) s = run body fuel t := by rw [run, h]

/-- More fuel than rounds changes nothing. -/
theorem Leaves.run_eq (h : Leaves body n s t) (hf : n ≤ fuel) : run body fuel s = t := by
  induction h generalizing fuel with
  | exit hs => exact run_exit hs
  | round hs _ ih =>
    obtain ⟨k, rfl⟩ := Nat.exists_eq_succ_of_ne_zero (show fuel ≠ 0 by omega)
    rw [run_round hs]
    exact ih (by omega)

/-- What every round keeps holds where the loop is left. -/
theorem Leaves.inv (h : Leaves body n s t) (I : σ → Prop) (hstep : ∀ s t, I s → body s = some t → I t) (hs : I s) : I t := by
  induction h with
  | exit _ => exact hs
  | round hb _ ih => exact ih (hstep _ _ hs hb)

/-- A loop with a variant is left, after as many rounds as the variant says at most. -/
theorem leaves_of_variant (V : σ → Nat) (I : σ → Prop) (hstep : ∀ s t, I s → body s = some t → I t ∧ V t < V s) (hs : I s) :
    ∃ n t, n ≤ V s ∧ Leaves body n s t ∧ I t := by
  generalize hv : V s = v
  induction v using Nat.strong_induction_on generalizing s with
  | _ v ih =>
    cases hb : body s with
    | none => exact ⟨0, s, Nat.zero_le v, .exit hb, hs⟩
    | some t =>
      obtain ⟨ht, hlt⟩ := hstep s t hs hb
      obtain ⟨n, u, hn, hl, hu⟩ := ih (V t) (hv ▸ hlt) ht rfl
      exact ⟨n + 1, u, by omega, .round hb hl, hu⟩

end Cs330.Lib.Loop
