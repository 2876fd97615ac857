/-
  Cs330.Memory.InOrder — allocations with nothing given back.

  From init_pagelist on, os_pfn_alloc hands out the pages behind the bitmap one after the
  other (`Ordered.alloc`), up to an eighth of the region; the next call hands out page 32
  again (`Ordered.again`). For USER_REG that is after 13180 frames (`user_frames`).
-/
import Cs330.Memory.Alloc

namespace Cs330.Memory

open Lib Lib.CInt Lib.Bitmap Function PageList

theorem firstClear_le {x : BitVec 32} {j : Nat} (hj : j < 32) (hc : x.getLsbD j = false) : firstClear x ≤ j := by
  unfold firstClear
  cases hf : (List.range 32).find? fun bit => !isSet x bit with
  | none =>
    have hset := List.find?_eq_none.mp hf j (List.mem_range.mpr hj)
    rw [isSet_eq, hc] at hset
    exact absurd rfl hset
  | some i =>
    obtain ⟨-, -, hmin⟩ := List.find?_range_eq_some.mp hf
    by_contra hlt
    have hset := hmin j (Nat.lt_of_not_le hlt)
    rw [isSet_eq, hc] at hset
    cases hset

namespace Pool

variable {R : Region} {p q : Pool} {m n : Nat}

/-- The pages before `m` are marked, those behind it free, and the hint is not past it. -/
structure Ordered (R : Region) (m : Nat) (p : Pool) : Prop extends Inv R p where
  bits : ∀ k < R.size, bit p.list.mem k = decide (k < m)
  behind : 32 * p.list.lastFreePos ≤ m
  beyond : R.reserved ≤ m

theorem start_ordered (h : Start R p) : Ordered R R.reserved p := by
  have hi := start_inv h
  have hfits := R.fits
  unfold Start initPagelist at h
  rw [start_size] at h
  dsimp only at h
  refine ⟨hi, fun k _ => ?_, ?_, Nat.le_refl _⟩
  · subst h
    dsimp only
    rw [reserve_bits]
    unfold Region.reserved
    by_cases hk : k < pagesToReserve R.size
    · simp [hk]
    · simp [hk, bit]
  · subst h
    dsimp only
    rw [(reserve_fields _ _).2.2.2]
    dsimp only
    unfold Region.reserved
    rw [Nat.shiftRight_eq_div_pow]
    omega

/-- A free page is left. -/
theorem Ordered.free (h : Ordered R m p) (hm : m < R.size) : 0 < p.list.freePages := by
  have hc := h.counted
  unfold Counted at hc
  rw [hc, Finset.card_pos]
  refine ⟨m, mem_clears.mpr ⟨h.size ▸ hm, ?_⟩⟩
  rw [h.bits m hm]
  exact decide_eq_false (Nat.lt_irrefl m)

/-- The scan stops at the first page that is free. -/
theorem Ordered.index_eq (h : Ordered R m p) (hm : m < 32 * (R.size / 256)) : p.list.index = m := by
  have hw := R.whole
  have hlt := h.index_lt.2
  have hclear : bit p.list.mem m = false := by
    rw [h.bits m (by omega)]
    exact decide_eq_false (Nat.lt_irrefl m)
  obtain ⟨hfound, -, hscan⟩ := index_spec (h.size ▸ h.hint : p.list.lastFreePos < p.list.size / 256)
  have hat : bit p.list.mem p.list.index = false := hfound.mpr ⟨m, hclear, .inl ⟨h.behind, h.size ▸ hm⟩⟩
  rw [h.bits _ hlt, decide_eq_false_iff_not] at hat
  -- no word before the one of `m` is passed over
  have hbound : p.list.size >>> 8 = R.size / 256 := by rw [h.size, Nat.shiftRight_eq_div_pow]
  have hbehind := h.behind
  obtain ⟨-, -, hfull, -⟩ := @skipFull_spec p.list.mem (R.size / 256) _ p.list.lastFreePos rfl (Nat.le_of_lt h.hint)
  have hpos : p.list.scanPos ≤ m / 32 := by
    unfold scanPos
    rw [hbound]
    dsimp only
    split
    · exact Nat.zero_le _
    · by_contra hgt
      have hword := (word_full_iff p.list.mem (m / 32)).mp (hfull (m / 32) (by omega) (Nat.lt_of_not_le hgt)) m
        (by omega) (by omega)
      rw [hclear] at hword
      cases hword
  unfold PageList.index at hat ⊢
  by_cases he : p.list.scanPos = m / 32
  · have hbit : (p.list.mem (m / 32)).getLsbD (m % 32) = false := by
      rw [← bit_word p.list.mem (m / 32) (Nat.mod_lt _ (by decide)), Nat.div_add_mod]
      exact hclear
    have hle := firstClear_le (Nat.mod_lt _ (by decide)) hbit
    rw [he] at hat ⊢
    omega
  · obtain ⟨hfc, -⟩ | ⟨hfc, -⟩ := firstClear_spec (p.list.mem p.list.scanPos)
    · omega
    · omega

/-- The next page. -/
theorem Ordered.alloc (h : Ordered R m p) (hm : m < 32 * (R.size / 256)) : p.list.osPfnAlloc.1 = R.base + m ∧
    Ordered R (m + 1) ⟨p.list.osPfnAlloc.2, insert p.list.osPfnAlloc.1 p.allocated⟩ := by
  have hw := R.whole
  have hfree := h.free (show m < R.size by omega)
  have hidx := h.index_eq hm
  obtain ⟨hpfn, -, -, -, hpos, -, -, hbits⟩ := h.alloc_eq hfree
  have hscan : p.list.Scannable := by
    refine ⟨m, ?_, .inl ⟨h.behind, h.size ▸ hm⟩⟩
    rw [h.bits m (by omega)]
    exact decide_eq_false (Nat.lt_irrefl m)
  rw [hidx] at hpfn hbits
  refine ⟨hpfn, (h.toInv.alloc hfree hscan).2, fun k hk => ?_, ?_, Nat.le_succ_of_le h.beyond⟩
  · rw [hbits h.beyond k hk, h.bits k hk]
    by_cases hkm : k = m
    · rw [if_pos hkm, decide_eq_true (by omega)]
    · rw [if_neg hkm]
      exact decide_eq_decide.mpr (by omega)
  · show 32 * p.list.osPfnAlloc.2.lastFreePos ≤ m + 1
    rw [hpos]
    unfold PageList.index at hidx
    omega

theorem Ordered.run (h : Ordered R m p) (hr : (machine R).Run Frees p (List.replicate n .alloc) q)
    (hn : m + n ≤ 32 * (R.size / 256)) : Ordered R (m + n) q := by
  induction n generalizing m p with
  | zero =>
    cases hr
    exact h
  | succ n ih =>
    have hw := R.whole
    have hfree := h.free (show m < R.size by omega)
    rw [List.replicate_succ] at hr
    cases hr with
    | cons _ he hrest =>
      have he' := step_alloc_free hfree
      rw [show p.step .alloc = _ from he] at he'
      cases he'
      have hnext := ih (h.alloc (by omega)).2 hrest (by omega)
      rwa [Nat.add_right_comm] at hnext

/-- With an eighth of the region handed out, page 32 comes again. -/
theorem Ordered.again (h : Ordered R (32 * (R.size / 256)) p) : p.list.osPfnAlloc.1 = R.base + 32 := by
  have hw := R.whole
  have hp := R.pos
  have hfree := h.free (show 32 * (R.size / 256) < R.size by omega)
  rw [(h.alloc_eq hfree).1]
  -- every word from the hint on is full, and so is word 0
  have hfull : ∀ w, w < R.size / 256 → p.list.mem w = 0xffffffff#32 := fun w hlt =>
    (word_full_iff p.list.mem w).mpr fun i _ hi => by
      rw [h.bits i (by omega)]
      exact decide_eq_true (by omega)
  have hbound : p.list.size >>> 8 = R.size / 256 := by rw [h.size, Nat.shiftRight_eq_div_pow]
  obtain ⟨-, hle, -, hstop⟩ := @skipFull_spec p.list.mem (R.size / 256) _ p.list.lastFreePos rfl (Nat.le_of_lt h.hint)
  have hpos : p.list.scanPos = 0 := by
    unfold scanPos
    rw [hbound]
    exact if_pos (Nat.le_of_not_lt fun hlt => hstop hlt (hfull _ hlt))
  obtain ⟨hlt, hc⟩ | ⟨he, -⟩ := firstClear_spec (p.list.mem 0)
  · rw [(full_iff _).mp (hfull 0 (by omega)) _ hlt] at hc
    cases hc
  · unfold PageList.index
    rw [hpos, he]

/-! ## USER_REG -/

/-- init_pagelists' third region. -/
def userRegion : Region := ⟨.USER_REG, 0x6400, 0x19C00, by decide, by decide, by decide⟩

/-- The frame of the allocation after `n` others. -/
def userFrame (n : Nat) : Nat := if n < 13180 then 0x6404 + n else 0x6420

theorem user_frames (h0 : Start userRegion p) (hr : (machine userRegion).Run Frees p (List.replicate n .alloc) q)
    (hn : n ≤ 13180) : q.list.osPfnAlloc.1 = userFrame n := by
  have hres : userRegion.reserved = 4 := by decide
  have hend : 32 * (userRegion.size / 256) = 13184 := by decide
  have hbase : userRegion.base = 0x6400 := rfl
  have h := (start_ordered h0).run hr (by omega)
  unfold userFrame
  by_cases hlt : n < 13180
  · rw [if_pos hlt, (h.alloc (by omega)).1, hbase, hres, ← Nat.add_assoc]
  · obtain rfl : n = 13180 := by omega
    rw [if_neg hlt]
    have h : Ordered userRegion (32 * (userRegion.size / 256)) q := by
      rw [hres] at h
      rw [hend]
      exact h
    exact h.again

end Pool

end Cs330.Memory
