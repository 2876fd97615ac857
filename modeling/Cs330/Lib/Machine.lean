/-
  Cs330.Lib.Machine — machines that take one event at a time, and their runs.

  A step may be refused (`none`). `Run M ok s es s'` is a run over the events `es` every
  one of which meets `ok` in the state it is taken in; `Reach M ok` holds of the states
  such runs visit from an initial state. `Reach.inv` is the invariant rule (holds at the
  start, kept by every step).
-/
import Mathlib.Data.Set.Card

namespace Cs330.Lib

structure Machine (σ ε : Type) where
  init : σ → Prop
  step : σ → ε → Option σ

namespace Machine

variable {σ ε : Type} (M : Machine σ ε)

/-- Every event is allowed. -/
def any : σ → ε → Prop := fun _ _ => True

inductive Run (ok : σ → ε → Prop) : σ → List ε → σ → Prop
  | nil (s : σ) : Run ok s [] s
  | cons {s t u : σ} {e : ε} {es : List ε} : ok s e → M.step s e = some t → Run ok t es u → Run ok s (e :: es) u

inductive Reach (ok : σ → ε → Prop) : σ → Prop
  | init {s : σ} : M.init s → Reach ok s
  | step {s t : σ} {e : ε} : Reach ok s → ok s e → M.step s e = some t → Reach ok t

variable {M} {ok : σ → ε → Prop}

theorem Reach.inv (I : σ → Prop) (h0 : ∀ s, M.init s → I s)
    (hs : ∀ s e t, I s → ok s e → M.step s e = some t → I t) {s : σ} (h : M.Reach ok s) : I s := by
  induction h with
  | init hi => exact h0 _ hi
  | step _ ho he ih => exact hs _ _ _ ih ho he

theorem Run.reach {s t : σ} {es : List ε} (hr : M.Run ok s es t) (h : M.Reach ok s) : M.Reach ok t := by
  induction hr with
  | nil => exact h
  | cons ho he _ ih => exact ih (.step h ho he)

theorem Run.inv (I : σ → Prop) (hs : ∀ s e t, I s → ok s e → M.step s e = some t → I t) {s t : σ} {es : List ε}
    (hr : M.Run ok s es t) (hi : I s) : I t := by
  induction hr with
  | nil => exact hi
  | cons ho he _ ih => exact ih (hs _ _ _ hi ho he)

theorem Run.mono {ok' : σ → ε → Prop} (hok : ∀ s e, ok s e → ok' s e) {s t : σ} {es : List ε} (h : M.Run ok s es t) :
    M.Run ok' s es t := by
  induction h with
  | nil s => exact .nil s
  | cons ho he _ ih => exact .cons (hok _ _ ho) he ih

/-- The events decide where a run ends. -/
theorem Run.det {s t u : σ} {es : List ε} (h1 : M.Run ok s es t) (h2 : M.Run ok s es u) : t = u := by
  induction h1 with
  | nil => cases h2; rfl
  | cons _ he _ ih =>
    cases h2 with
    | cons _ he' h2 =>
      rw [he] at he'
      cases he'
      exact ih h2

theorem Run.append {s t u : σ} {es fs : List ε} (h1 : M.Run ok s es t) (h2 : M.Run ok t fs u) :
    M.Run ok s (es ++ fs) u := by
  induction h1 with
  | nil => exact h2
  | cons ho he _ ih => exact .cons ho he (ih h2)

/-- An invariant that depends on what the events so far have cost, while that is below `N`. -/
theorem Run.tally {I : σ → Nat → Prop} {cost : ε → Nat} {N : Nat}
    (hs : ∀ s e t n, I s n → n + cost e < N → ok s e → M.step s e = some t → I t (n + cost e))
    {s t : σ} {es : List ε} (hr : M.Run ok s es t) {n : Nat} (hi : I s n) (hn : n + (es.map cost).sum < N) :
    I t (n + (es.map cost).sum) := by
  induction hr generalizing n with
  | nil => exact hi
  | cons ho he _ ih =>
    rw [List.map_cons, List.sum_cons, ← Nat.add_assoc] at hn ⊢
    exact ih (hs _ _ _ _ hi (Nat.lt_of_le_of_lt (Nat.le_add_right _ _) hn) ho he) hn

/-- What the events of a run cost is paid from the potential at its start and what they give. -/
theorem Run.amortized {I : σ → Prop} (φ : σ → Nat) (cost gain : ε → Nat)
    (hs : ∀ s e t, I s → ok s e → M.step s e = some t → I t ∧ φ t + cost e ≤ φ s + gain e)
    {s t : σ} {es : List ε} (hr : M.Run ok s es t) (hi : I s) :
    I t ∧ φ t + (es.map cost).sum ≤ φ s + (es.map gain).sum := by
  induction hr with
  | nil => exact ⟨hi, Nat.le_refl _⟩
  | cons ho he _ ih =>
    obtain ⟨ht, hle⟩ := hs _ _ _ hi ho he
    obtain ⟨hu, hrest⟩ := ih ht
    simp only [List.map_cons, List.sum_cons]
    exact ⟨hu, by omega⟩

/-- What the steps of a run are worth, each in the state it is taken in. -/
def worth (M : Machine σ ε) (f : σ → ε → Nat) (s : σ) : List ε → Nat
  | [] => 0
  | e :: es => f s e + (M.step s e).elim 0 fun t => M.worth f t es

theorem worth_mul (n : Nat) (f : σ → ε → Nat) (s : σ) (es : List ε) :
    M.worth (fun s e => n * f s e) s es = n * M.worth f s es := by
  induction es generalizing s with
  | nil => rfl
  | cons e es ih =>
    simp only [worth, Nat.mul_add]
    cases M.step s e with
    | none => rfl
    | some t => exact congrArg (n * f s e + ·) (ih t)

/-- A balance that every step keeps: what is there at the end and has been spent was there at the start or was earned. -/
theorem Run.balance {I : σ → Prop} (φ : σ → Nat) (spent earned : σ → ε → Nat)
    (hs : ∀ s e t, I s → ok s e → M.step s e = some t → I t ∧ φ t + spent s e = φ s + earned s e)
    {s t : σ} {es : List ε} (hr : M.Run ok s es t) (hi : I s) :
    I t ∧ φ t + M.worth spent s es = φ s + M.worth earned s es := by
  induction hr with
  | nil => exact ⟨hi, rfl⟩
  | cons ho he _ ih =>
    obtain ⟨ht, heq⟩ := hs _ _ _ hi ho he
    obtain ⟨hu, hrest⟩ := ih ht
    simp only [worth, he, Option.elim_some]
    exact ⟨hu, by omega⟩

/-- What one machine does, less the steps of its own, is a run of another. -/
theorem Run.project {τ δ : Type} {N : Machine τ δ} {ok' : τ → δ → Prop} {I : σ → Prop} (f : σ → τ) (g : ε → Option δ)
    (hs : ∀ s e t, I s → ok s e → M.step s e = some t → I t ∧
      ((g e = none ∧ f t = f s) ∨ ∃ d, g e = some d ∧ ok' (f s) d ∧ N.step (f s) d = some (f t)))
    {s t : σ} {es : List ε} (hr : M.Run ok s es t) (hi : I s) : I t ∧ N.Run ok' (f s) (es.filterMap g) (f t) := by
  induction hr with
  | nil => exact ⟨hi, .nil _⟩
  | cons ho he _ ih =>
    obtain ⟨ht, hstep⟩ := hs _ _ _ hi ho he
    obtain ⟨hu, hrest⟩ := ih ht
    refine ⟨hu, ?_⟩
    rcases hstep with ⟨hg, hf⟩ | ⟨d, hg, hd, hf⟩
    · rw [List.filterMap_cons_none hg, ← hf]
      exact hrest
    · rw [List.filterMap_cons_some hg]
      exact .cons hd hf hrest

/-- A run comes to a state of a kind, or is one of events that do not lead there. -/
theorem Run.until (Q : σ → Prop) {s t : σ} {es : List ε} (hr : M.Run any s es t) :
    (∃ fs gs u, es = fs ++ gs ∧ M.Run any s fs u ∧ Q u) ∨ M.Run (fun s e => ∀ u, M.step s e = some u → ¬ Q u) s es t := by
  induction hr with
  | nil s => exact .inr (.nil s)
  | @cons s u _ e es _ he _ ih =>
    by_cases hu : Q u
    · exact .inl ⟨[e], es, u, rfl, .cons trivial he (.nil u), hu⟩
    · rcases ih with ⟨fs, gs, v, rfl, hv, hq⟩ | hr
      · exact .inl ⟨e :: fs, gs, v, rfl, .cons trivial he hv, hq⟩
      · refine .inr (.cons (fun v hv => ?_) he hr)
        rwa [← Option.some.inj (he.symm.trans hv)]

/-- A run to a state of a kind, when every other state has one on to a smaller state. -/
theorem drain {I Q : σ → Prop} (φ : σ → Nat) (hs : ∀ s, I s → Q s ∨ ∃ es t, M.Run ok s es t ∧ I t ∧ φ t < φ s) {s : σ}
    (hi : I s) : ∃ es t, M.Run ok s es t ∧ I t ∧ Q t := by
  induction hn : φ s using Nat.strong_induction_on generalizing s with
  | _ n ih =>
    rcases hs s hi with hq | ⟨es, t, hrun, ht, hlt⟩
    · exact ⟨[], s, .nil s, hi, hq⟩
    · obtain ⟨fs, u, hrest, hu⟩ := ih _ (hn ▸ hlt) ht rfl
      exact ⟨es ++ fs, u, hrun.append hrest, hu⟩

/-- The state some events lead to, if every one can be taken. -/
def exec (M : Machine σ ε) (s : σ) : List ε → Option σ
  | [] => some s
  | e :: es => (M.step s e).bind fun t => M.exec t es

theorem exec_run_of {s t : σ} {es : List ε} (h : M.exec s es = some t) (hok : ∀ e ∈ es, ∀ s, ok s e) : M.Run ok s es t := by
  induction es generalizing s with
  | nil => cases h; exact .nil _
  | cons e es ih =>
    obtain ⟨u, hu, ht⟩ := Option.bind_eq_some_iff.mp h
    exact .cons (hok e List.mem_cons_self s) hu (ih ht fun e he => hok e (List.mem_cons_of_mem _ he))

theorem exec_run {s t : σ} {es : List ε} (h : M.exec s es = some t) : M.Run any s es t := exec_run_of h fun _ _ _ => trivial

end Machine

end Cs330.Lib
