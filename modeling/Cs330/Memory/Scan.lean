/-
  Cs330.Memory.Scan — the page get_free_page finds.

  The scan goes over the words from last_free_pos to size >> 8, an eighth of the bitmap,
  and then over the bits of word 0. It finds a clear bit exactly when there is one at
  these places or at position 32, which it takes when all bits of word 0 are set
  (`index_clear_iff`).
-/
import Cs330.Memory.PageList

namespace Cs330.Memory

open Lib Lib.CInt Lib.Bitmap Function

/-! ## One bit of a word -/

theorem lowBit_eq (x : BitVec 32) (pos : Nat) : (x >>> pos) &&& 1#32 = if x.getLsbD pos then 1#32 else 0#32 := by
  refine BitVec.eq_of_getLsbD_eq fun j hj => ?_
  rw [BitVec.getLsbD_and, BitVec.getLsbD_ushiftRight, BitVec.getLsbD_one]
  by_cases e : j = 0
  · subst e
    cases x.getLsbD pos <;> simp
  · cases x.getLsbD pos <;> simp [e]

theorem isSet_eq (x : BitVec 32) (pos : Nat) : isSet x pos = x.getLsbD pos := by
  unfold isSet
  rw [lowBit_eq]
  cases x.getLsbD pos <;> decide

theorem setBit_getLsbD (x : BitVec 32) (pos : Nat) {j : Nat} (hj : j < 32) :
    (setBit x pos).getLsbD j = if j = pos then true else x.getLsbD j := by
  unfold setBit
  rw [BitVec.getLsbD_or, BitVec.getLsbD_shiftLeft, BitVec.getLsbD_one]
  by_cases e : j = pos
  · rw [if_pos e, e]
    simp [e ▸ hj]
  · rw [if_neg e]
    have hne : ¬ (pos ≤ j ∧ j - pos = 0) := by omega
    by_cases hlt : j < pos
    · simp [hlt]
    · simp [hlt, show j - pos ≠ 0 by omega]

theorem clearBit_getLsbD (x : BitVec 32) (pos : Nat) {j : Nat} (hj : j < 32) :
    (clearBit x pos).getLsbD j = if j = pos then false else x.getLsbD j := by
  unfold clearBit
  rw [lowBit_eq, BitVec.getLsbD_xor, BitVec.getLsbD_shiftLeft]
  by_cases e : j = pos
  · rw [if_pos e, e]
    cases x.getLsbD pos <;> simp [e ▸ hj]
  · rw [if_neg e]
    by_cases hlt : j < pos
    · simp [hlt]
    · have hne : j - pos ≠ 0 := by omega
      cases x.getLsbD pos <;> simp [hne]

namespace PageList

variable {pgl : PageList} {i : Nat}

theorem bmapSet_bit (pgl : PageList) (i k : Nat) : bit (pgl.bmapSet i).mem k = if k = i then true else bit pgl.mem k := by
  have hword : i >>> 5 = i / 32 := Nat.shiftRight_eq_div_pow i 5
  have hbit : i - (i / 32) <<< 5 = i % 32 := by
    rw [Nat.shiftLeft_eq]
    omega
  unfold bmapSet
  dsimp only
  rw [hword, hbit]
  exact bit_put (fun j hj => setBit_getLsbD _ _ hj) k

theorem bmapClear_bit (pgl : PageList) (i k : Nat) : bit (pgl.bmapClear i).mem k = if k = i then false else bit pgl.mem k := by
  have hword : i >>> 5 = i / 32 := Nat.shiftRight_eq_div_pow i 5
  have hbit : i - (i / 32) <<< 5 = i % 32 := by
    rw [Nat.shiftLeft_eq]
    omega
  unfold bmapClear
  dsimp only
  rw [hword, hbit]
  exact bit_put (fun j hj => clearBit_getLsbD _ _ hj) k

/-! ## The scan -/

theorem skipFull_spec {mem : Words} {bound : Nat} : ∀ (fuel pos : Nat), fuel = bound - pos → pos ≤ bound →
    pos ≤ skipFull mem bound fuel pos ∧ skipFull mem bound fuel pos ≤ bound ∧
      (∀ q, pos ≤ q → q < skipFull mem bound fuel pos → mem q = 0xffffffff#32) ∧
      (skipFull mem bound fuel pos < bound → mem (skipFull mem bound fuel pos) ≠ 0xffffffff#32) := by
  intro fuel
  induction fuel with
  | zero =>
    intro pos hf hle
    exact ⟨Nat.le_refl _, hle, fun q hq hlt => absurd hlt (Nat.not_lt.mpr hq), fun hlt => absurd hlt (by
      show ¬ pos < bound
      omega)⟩
  | succ fuel ih =>
    intro pos hf hle
    by_cases hfull : mem pos = 0xffffffff#32 ∧ pos < bound
    · obtain ⟨h1, h2, h3, h4⟩ := ih (pos + 1) (by omega) hfull.2
      have hstep : skipFull mem bound (fuel + 1) pos = skipFull mem bound fuel (pos + 1) := if_pos hfull
      rw [hstep]
      refine ⟨Nat.le_of_succ_le h1, h2, fun q hq hlt => ?_, h4⟩
      by_cases e : q = pos
      · rw [e]
        exact hfull.1
      · exact h3 q (by omega) hlt
    · have hstep : skipFull mem bound (fuel + 1) pos = pos := if_neg hfull
      rw [hstep]
      exact ⟨Nat.le_refl _, hle, fun q hq hlt => absurd hlt (Nat.not_lt.mpr hq), fun hlt hw => hfull ⟨hw, hlt⟩⟩

theorem firstClear_spec (x : BitVec 32) : (firstClear x < 32 ∧ x.getLsbD (firstClear x) = false) ∨
    (firstClear x = 32 ∧ x = 0xffffffff#32) := by
  unfold firstClear
  cases hf : (List.range 32).find? fun bit => !isSet x bit with
  | none =>
    refine Or.inr ⟨rfl, (full_iff x).mpr fun j hj => ?_⟩
    have hset := List.find?_eq_none.mp hf j (List.mem_range.mpr hj)
    rw [isSet_eq] at hset
    simpa using hset
  | some j =>
    have hset := List.find?_some hf
    rw [isSet_eq] at hset
    exact Or.inl ⟨List.mem_range.mp (List.mem_of_find?_eq_some hf), by simpa using hset⟩

/-- The word get_free_page takes a bit of. -/
def scanPos (pgl : PageList) : Nat :=
  let pos := skipFull pgl.mem (pgl.size >>> 8) (pgl.size >>> 8 - pgl.lastFreePos) pgl.lastFreePos
  if pgl.size >>> 8 ≤ pos then 0 else pos

/-- The page it takes, from the region's start. -/
def index (pgl : PageList) : Nat := 32 * pgl.scanPos + firstClear (pgl.mem pgl.scanPos)

/-- One of the pages the scan can find is free: one of the words from last_free_pos to
    size >> 8, or one of the first 33. -/
def Scannable (pgl : PageList) : Prop :=
  ∃ i, bit pgl.mem i = false ∧ ((32 * pgl.lastFreePos ≤ i ∧ i < 32 * (pgl.size / 256)) ∨ i < 33)

theorem index_spec (h : pgl.lastFreePos < pgl.size / 256) : (bit pgl.mem pgl.index = false ↔ pgl.Scannable) ∧
    pgl.index < max (32 * (pgl.size / 256)) 33 ∧ pgl.scanPos < pgl.size / 256 := by
  have hbound : pgl.size >>> 8 = pgl.size / 256 := Nat.shiftRight_eq_div_pow pgl.size 8
  obtain ⟨h1, h2, h3, h4⟩ := @skipFull_spec pgl.mem (pgl.size / 256) _ pgl.lastFreePos rfl (Nat.le_of_lt h)
  have hpos : pgl.scanPos = if pgl.size / 256 ≤ skipFull pgl.mem (pgl.size / 256) (pgl.size / 256 - pgl.lastFreePos)
      pgl.lastFreePos then 0 else skipFull pgl.mem (pgl.size / 256) (pgl.size / 256 - pgl.lastFreePos) pgl.lastFreePos := by
    unfold scanPos
    rw [hbound]
  generalize hr : skipFull pgl.mem (pgl.size / 256) (pgl.size / 256 - pgl.lastFreePos) pgl.lastFreePos = r at *
  unfold index
  by_cases hend : pgl.size / 256 ≤ r
  · -- every word from the hint on is full: word 0 is looked at, and nothing else
    rw [if_pos hend] at hpos
    rw [hpos, Nat.mul_zero, Nat.zero_add]
    have hfull : ∀ i, 32 * pgl.lastFreePos ≤ i → i < 32 * (pgl.size / 256) → bit pgl.mem i = true := fun i hle hlt =>
      (word_full_iff pgl.mem (i / 32)).mp (h3 (i / 32) (by omega) (by omega)) i (by omega) (by omega)
    obtain ⟨hlt, hc⟩ | ⟨he, hw⟩ := firstClear_spec (pgl.mem 0)
    · have hbit : bit pgl.mem (firstClear (pgl.mem 0)) = false := by
        have hb := bit_word pgl.mem 0 hlt
        rw [Nat.mul_zero, Nat.zero_add] at hb
        rw [hb, hc]
      exact ⟨iff_of_true hbit ⟨_, hbit, Or.inr (by omega)⟩, by omega, by omega⟩
    · rw [he]
      have hzero := (word_full_iff pgl.mem 0).mp hw
      refine ⟨⟨fun hc => ⟨32, hc, Or.inr (by omega)⟩, fun ⟨i, hc, hi⟩ => ?_⟩, by omega, by omega⟩
      obtain hi | hi := hi
      · rw [hfull i hi.1 hi.2] at hc
        cases hc
      · by_cases e : i = 32
        · rw [← e]
          exact hc
        · rw [hzero i (by omega) (by omega)] at hc
          cases hc
  · have hlt : r < pgl.size / 256 := Nat.lt_of_not_le hend
    rw [if_neg hend] at hpos
    rw [hpos]
    obtain ⟨hc32, hc⟩ | ⟨-, hw⟩ := firstClear_spec (pgl.mem r)
    · have hbit : bit pgl.mem (32 * r + firstClear (pgl.mem r)) = false := (bit_word pgl.mem r hc32).trans hc
      exact ⟨iff_of_true hbit ⟨_, hbit, Or.inl ⟨by omega, by omega⟩⟩, by omega, hlt⟩
    · exact absurd hw (h4 hlt)

end PageList

end Cs330.Memory
