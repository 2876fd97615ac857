/-
  Cs330.Lib.Bitmap — bits kept in an array of 32-bit words.

  `bit w i` is bit i % 32 of word i / 32, `clears w n` the first n positions that are
  clear. A word is full when none of its bits is (`full_iff`); writing one bit of a word
  changes one bit of the map (`bit_put`).
-/
import Mathlib.Algebra.Order.BigOperators.Group.Finset

namespace Cs330.Lib.Bitmap

open Function

abbrev Words := Nat → BitVec 32

def bit (w : Words) (i : Nat) : Bool := (w (i / 32)).getLsbD (i % 32)

def clears (w : Words) (n : Nat) : Finset Nat := (Finset.range n).filter fun i => bit w i = false

theorem mem_clears {w : Words} {n i : Nat} : i ∈ clears w n ↔ i < n ∧ bit w i = false := by
  unfold clears
  rw [Finset.mem_filter, Finset.mem_range]

theorem full_iff (x : BitVec 32) : x = 0xffffffff#32 ↔ ∀ j < 32, x.getLsbD j = true := by
  have hall : (0xffffffff#32 : BitVec 32) = BitVec.allOnes 32 := by decide
  rw [hall]
  refine ⟨fun e j hj => ?_, fun h => BitVec.eq_of_getLsbD_eq fun j hj => ?_⟩
  · rw [e, BitVec.getLsbD_allOnes]
    exact decide_eq_true hj
  · rw [h j hj, BitVec.getLsbD_allOnes]
    exact (decide_eq_true hj).symm

theorem bit_word (w : Words) (pos : Nat) {j : Nat} (hj : j < 32) : bit w (32 * pos + j) = (w pos).getLsbD j := by
  unfold bit
  rw [show (32 * pos + j) / 32 = pos by omega, show (32 * pos + j) % 32 = j by omega]

theorem word_full_iff (w : Words) (pos : Nat) :
    w pos = 0xffffffff#32 ↔ ∀ i, 32 * pos ≤ i → i < 32 * (pos + 1) → bit w i = true := by
  rw [full_iff]
  refine ⟨fun h i hle hlt => ?_, fun h j hj => ?_⟩
  · obtain ⟨j, rfl⟩ := Nat.exists_eq_add_of_le hle
    rw [bit_word w pos (by omega)]
    exact h j (by omega)
  · rw [← bit_word w pos hj]
    exact h _ (by omega) (by omega)

/-- A word that differs from the old one in one bit at most. -/
theorem bit_put {w : Words} {i : Nat} {x : BitVec 32} {b : Bool}
    (hx : ∀ j < 32, x.getLsbD j = if j = i % 32 then b else (w (i / 32)).getLsbD j) (k : Nat) :
    bit (update w (i / 32) x) k = if k = i then b else bit w k := by
  unfold bit
  by_cases e : k / 32 = i / 32
  · rw [e, update_self, hx _ (by omega)]
    by_cases ek : k = i
    · rw [if_pos (by rw [ek]), if_pos ek]
    · rw [if_neg (by omega), if_neg ek]
  · rw [update_of_ne e, if_neg (by rintro rfl; exact e rfl)]

section
variable {w w' : Words} {n i : Nat}

theorem clears_set (hi : i < n) (hc : bit w i = false) (h : ∀ k, bit w' k = if k = i then true else bit w k) :
    (clears w' n).card + 1 = (clears w n).card := by
  have he : clears w' n = (clears w n).erase i := by
    ext k
    rw [Finset.mem_erase, mem_clears, mem_clears, h]
    by_cases e : k = i
    · rw [if_pos e]
      exact iff_of_false (fun hk => nomatch hk.2) fun hk => hk.1 e
    · rw [if_neg e, and_iff_right e]
  rw [he]
  exact Finset.card_erase_add_one (mem_clears.mpr ⟨hi, hc⟩)

theorem clears_clear (hi : i < n) (hs : bit w i = true) (h : ∀ k, bit w' k = if k = i then false else bit w k) :
    (clears w' n).card = (clears w n).card + 1 := by
  have hback : ∀ k, bit w k = if k = i then true else bit w' k := fun k => by
    by_cases e : k = i
    · rw [if_pos e, e, hs]
    · rw [if_neg e, h, if_neg e]
  exact (clears_set hi (by rw [h, if_pos rfl]) hback).symm

theorem clears_mono (h : ∀ k < n, bit w' k = true → bit w k = true) : (clears w n).card ≤ (clears w' n).card := by
  refine Finset.card_le_card fun k hk => ?_
  obtain ⟨hlt, hc⟩ := mem_clears.mp hk
  refine mem_clears.mpr ⟨hlt, ?_⟩
  cases hb : bit w' k with
  | false => rfl
  | true =>
    rw [h k hlt hb] at hc
    cases hc

theorem clears_congr (h : ∀ k < n, bit w' k = bit w k) : (clears w' n).card = (clears w n).card :=
  Nat.le_antisymm (clears_mono fun k hk hb => (h k hk).symm ▸ hb) (clears_mono fun k hk hb => h k hk ▸ hb)

end

end Cs330.Lib.Bitmap
