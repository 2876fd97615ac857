/-
  Cs330.Lib.Ring — walks around a ring of `n` positions.

  `pos n home j` is where a walk that starts at `home` stands after `j` steps. Every
  position is met exactly once in `n` steps (`exists_pos`, `pos_inj`), and step `n` is
  back at `home` (`pos_full`). `firstStop` is the first step at which a predicate holds,
  `none` when the walk goes all the way round.
-/
import Mathlib.Data.Nat.ModEq
import Mathlib.Data.List.Range

namespace Cs330.Lib.Ring

def pos (n home j : Nat) : Nat := (home + j) % n

section
variable {n home : Nat}

theorem pos_lt (hn : 0 < n) (j : Nat) : pos n home j < n := Nat.mod_lt _ hn

theorem pos_zero (h : home < n) : pos n home 0 = home := Nat.mod_eq_of_lt h

theorem pos_full (h : home < n) : pos n home n = home := by
  simp only [pos, Nat.add_mod_right]
  exact Nat.mod_eq_of_lt h

theorem pos_succ (j : Nat) : (pos n home j + 1) % n = pos n home (j + 1) := by
  simp only [pos, Nat.mod_add_mod, Nat.add_assoc]

theorem pos_inj {j k : Nat} (hj : j < n) (hk : k < n) (h : pos n home j = pos n home k) : j = k := by
  have hm : j ≡ k [MOD n] := Nat.ModEq.add_left_cancel' home h
  rwa [Nat.ModEq, Nat.mod_eq_of_lt hj, Nat.mod_eq_of_lt hk] at hm

theorem exists_pos {i : Nat} (hi : i < n) (h : home < n) : ∃ j < n, pos n home j = i := by
  by_cases hle : home ≤ i
  · refine ⟨i - home, by omega, ?_⟩
    rw [pos, show home + (i - home) = i by omega, Nat.mod_eq_of_lt hi]
  · refine ⟨i + n - home, by omega, ?_⟩
    rw [pos, show home + (i + n - home) = i + n by omega, Nat.add_mod_right, Nat.mod_eq_of_lt hi]

/-- Between the first step and the last the walk is away from `home`. -/
theorem pos_ne_home (h : home < n) {j : Nat} (h0 : 0 < j) (hj : j < n) : pos n home j ≠ home := by
  intro he
  have : j = 0 := pos_inj hj (by omega) (by rw [he, pos_zero h])
  omega

end

/-! ## The first stop of a walk -/

def firstStop (stop : Nat → Bool) (n home : Nat) : Option Nat :=
  (List.range n).find? fun j => stop (pos n home j)

section
variable {stop : Nat → Bool} {n home : Nat}

theorem firstStop_some {j : Nat} :
    firstStop stop n home = some j ↔
      j < n ∧ stop (pos n home j) = true ∧ ∀ k < j, stop (pos n home k) = false := by
  simp only [firstStop, List.find?_range_eq_some, Bool.not_eq_true', List.mem_range]
  constructor
  · intro h; exact ⟨h.2.1, h.1, h.2.2⟩
  · intro h; exact ⟨h.2.1, h.1, h.2.2⟩

theorem firstStop_none (h : home < n) :
    firstStop stop n home = none ↔ ∀ i < n, stop i = false := by
  simp only [firstStop, List.find?_eq_none, List.mem_range, Bool.not_eq_true]
  constructor
  · intro hall i hi
    obtain ⟨j, hj, rfl⟩ := exists_pos hi h
    exact hall j hj
  · exact fun hall j _ => hall _ (pos_lt (by omega) j)

end

end Cs330.Lib.Ring
