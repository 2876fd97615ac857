/-
  Cs330.Lib.Total — a quantity summed over indices 0..n-1.

  `total_update` says what the sum becomes when one index gets a new value; the others
  bound a summand by the sum, and find the only index that can have one.
-/
import Mathlib.Algebra.BigOperators.Group.Finset.Piecewise
import Mathlib.Algebra.Order.BigOperators.Group.Finset

namespace Cs330.Lib

open Finset Function

variable {α : Type} {n : Nat}

def total (n : Nat) (f : Nat → Nat) : Nat := ∑ i ∈ range n, f i

theorem total_update {i : Nat} (hi : i < n) (g : α → Nat) (f : Nat → α) (a : α) :
    total n (fun j => g (update f i a j)) + g (f i) = total n (fun j => g (f j)) + g a := by
  have hmem : i ∈ range n := mem_range.mpr hi
  have hcomp : (fun j => g (update f i a j)) = update (fun j => g (f j)) i (g a) := comp_update g f i a
  unfold total
  rw [hcomp, sum_update_of_mem hmem, ← add_sum_erase _ _ hmem, sdiff_singleton_eq_erase]
  omega

theorem total_change {i : Nat} (hi : i < n) {f g : Nat → Nat} (h : ∀ j, j ≠ i → g j = f j) : total n g + f i = total n f + g i := by
  have hg : g = update f i (g i) := by
    funext j
    by_cases hj : j = i
    · rw [hj, update_self]
    · rw [update_of_ne hj, h j hj]
  rw [hg, update_self]
  exact total_update hi id f (g i)

theorem le_total {i : Nat} (hi : i < n) (f : Nat → Nat) : f i ≤ total n f :=
  single_le_sum (fun _ _ => Nat.zero_le _) (mem_range.mpr hi)

theorem add_le_total {i j : Nat} (hi : i < n) (hj : j < n) (hne : i ≠ j) (f : Nat → Nat) : f i + f j ≤ total n f := by
  unfold total
  rw [← add_sum_erase _ _ (mem_range.mpr hi)]
  refine Nat.add_le_add_left ?_ _
  exact single_le_sum (f := f) (fun _ _ => Nat.zero_le _) (mem_erase.mpr ⟨Ne.symm hne, mem_range.mpr hj⟩)

/-- At most one index counts, and it counts once. -/
theorem total_le_one {f : Nat → Nat} (h1 : ∀ i < n, f i ≤ 1) (h : ∀ i < n, ∀ j < n, 0 < f i → 0 < f j → i = j) :
    total n f ≤ 1 := by
  by_cases hz : ∃ i ∈ range n, 0 < f i
  · obtain ⟨i, hi, hpos⟩ := hz
    have hin := mem_range.mp hi
    have hrest : ∀ j ∈ range n, j ≠ i → f j = 0 := by
      intro j hj hne
      by_contra hj0
      exact hne (h j (mem_range.mp hj) i hin (Nat.pos_of_ne_zero hj0) hpos)
    exact (sum_eq_single_of_mem i hi hrest).trans_le (h1 i hin)
  · have hz : ∀ i ∈ range n, f i = 0 := fun i hi => Nat.eq_zero_of_not_pos fun hp => hz ⟨i, hi, hp⟩
    exact (sum_eq_zero hz).trans_le (Nat.zero_le 1)

theorem exists_of_total_pos {f : Nat → Nat} (h : 0 < total n f) : ∃ i < n, 0 < f i := by
  by_contra hne
  have hz : ∀ i ∈ range n, f i = 0 := fun i hi => Nat.eq_zero_of_not_pos fun hp => hne ⟨i, mem_range.mp hi, hp⟩
  have hzero : total n f = 0 := sum_eq_zero hz
  omega

theorem total_zero (n : Nat) : total n (fun _ => 0) = 0 := sum_const_zero

theorem total_le {f g : Nat → Nat} (h : ∀ i < n, f i ≤ g i) : total n f ≤ total n g :=
  sum_le_sum fun i hi => h i (mem_range.mp hi)

theorem total_add (f g : Nat → Nat) : total n (fun i => f i + g i) = total n f + total n g := sum_add_distrib

theorem total_const (n c : Nat) : total n (fun _ => c) = n * c := by
  unfold total
  rw [sum_const_nat fun _ _ => rfl, card_range]

theorem total_one (n : Nat) : total n (fun _ => 1) = n := (card_eq_sum_ones (range n)).symm.trans (card_range n)

end Cs330.Lib
