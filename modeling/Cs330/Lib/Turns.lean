/-
  Cs330.Lib.Turns — taking turns on a ring of `n` positions.

  The next turn is that of the first position, from `home` on, that is ready; the one after
  it is looked for behind that. `ahead n home p` is how many positions lie between `home`
  and `p`. While `p` is ready every turn that is not its own brings it nearer
  (`turn_closer`), so at most `n - 1` others come before it.
-/
import Cs330.Lib.Ring

namespace Cs330.Lib.Ring

def ahead (n home p : Nat) : Nat := (p + n - home % n) % n

section
variable {n home p j : Nat} {ready : Nat → Bool}

theorem ahead_lt (home p : Nat) (hn : 0 < n) : ahead n home p < n := Nat.mod_lt _ hn

theorem pos_ahead (hp : p < n) : pos n home (ahead n home p) = p := by
  have hlt : home % n < n := Nat.mod_lt home (Nat.zero_lt_of_lt hp)
  unfold pos ahead
  rw [Nat.add_mod_mod, ← Nat.mod_add_mod, show home % n + (p + n - home % n) = p + n by omega, Nat.add_mod_right]
  exact Nat.mod_eq_of_lt hp

theorem ahead_eq (hp : p < n) (hj : j < n) (h : pos n home j = p) : ahead n home p = j :=
  pos_inj (ahead_lt home p (Nat.zero_lt_of_lt hp)) hj ((pos_ahead hp).trans h.symm)

theorem pos_pos_succ (j k : Nat) : pos n (pos n home j + 1) k = pos n home (j + 1 + k) := by
  unfold pos
  rw [Nat.add_assoc, Nat.mod_add_mod]
  congr 1
  omega

/-- Behind position `j` of the walk. -/
theorem ahead_behind (hp : p < n) (hj : j < ahead n home p) :
    ahead n (pos n home j + 1) p = ahead n home p - (j + 1) := by
  have hlt : ahead n home p < n := ahead_lt home p (Nat.zero_lt_of_lt hp)
  refine ahead_eq hp (by omega) ?_
  rw [pos_pos_succ, show j + 1 + (ahead n home p - (j + 1)) = ahead n home p by omega]
  exact pos_ahead hp

/-- Somebody is met, at `p` at the latest. -/
theorem firstStop_le (home : Nat) (hp : p < n) (hready : ready p = true) : ∃ j ≤ ahead n home p, firstStop ready n home = some j := by
  cases h : firstStop ready n home with
  | none =>
    have hno := List.find?_eq_none.mp h _ (List.mem_range.mpr (ahead_lt home p (Nat.zero_lt_of_lt hp)))
    rw [pos_ahead hp] at hno
    exact absurd hready hno
  | some j =>
    refine ⟨j, ?_, rfl⟩
    by_contra hlt
    have hbefore := (firstStop_some.mp h).2.2 _ (Nat.lt_of_not_le hlt)
    rw [pos_ahead hp, hready] at hbefore
    cases hbefore

/-- A turn is that of `p`, or `p` is nearer at the next one. -/
theorem turn_closer (hp : p < n) (hready : ready p = true) (h : firstStop ready n home = some j) :
    pos n home j = p ∨ ahead n (pos n home j + 1) p < ahead n home p := by
  obtain ⟨i, hi, hfirst⟩ := firstStop_le home hp hready
  obtain rfl := Option.some.inj (h.symm.trans hfirst)
  rcases Nat.lt_or_eq_of_le hi with hlt | heq
  · rw [ahead_behind hp hlt]
    exact .inr (by omega)
  · rw [heq]
    exact .inl (pos_ahead hp)

end

end Cs330.Lib.Ring
