/-
  Cs330.Memory.Alloc — what os_pfn_alloc hands out.

  size >> 8 is an eighth of the words the bitmap has, and when the scan has come to it
  only word 0 is looked at: with all of its bits set the page after it is handed out,
  whatever its bit says. So a run hands out free pages exactly when, before each
  allocation, one of the pages the scan can find is free (`hands_out_free_iff`); and of
  every region an eighth is all that can ever be in use (`inUse_le`).
-/
import Cs330.Memory.Scan
import Mathlib.Order.Interval.Finset.Nat

namespace Cs330.Memory

open Lib Lib.CInt Lib.Bitmap Function PageList

namespace Region

def reserved (R : Region) : Nat := pagesToReserve R.size

theorem pagesToReserve_bounds (size : Nat) : size ≤ 32768 * pagesToReserve size + 7 ∧ pagesToReserve size ≤ size / 32768 + 1 ∧
    (8 ≤ size → 1 ≤ pagesToReserve size) := by
  unfold pagesToReserve PAGE_SHIFT
  simp only [Nat.shiftRight_eq_div_pow, Nat.shiftLeft_eq]
  split <;> omega

theorem reserved_bounds (R : Region) : R.size ≤ 32768 * R.reserved ∧ 1 ≤ R.reserved ∧ R.reserved ≤ R.size / 32768 + 1 ∧
    256 ≤ R.size := by
  have hb := pagesToReserve_bounds R.size
  have hp := R.pos
  have hw := R.whole
  unfold reserved
  refine ⟨?_, hb.2.2 (by omega), hb.2.1, by omega⟩
  unfold pagesToReserve PAGE_SHIFT
  simp only [Nat.shiftRight_eq_div_pow, Nat.shiftLeft_eq]
  split <;> omega

end Region

namespace Pool

/-- free_pages is the number of clear bits. -/
def Counted (p : Pool) : Prop := p.list.freePages = (clears p.list.mem p.list.size).card

/-- A frame of the region, behind the bitmap, that is not in use. -/
def HandsOut (R : Region) (p : Pool) : Prop :=
  R.base + R.reserved ≤ p.list.osPfnAlloc.1 ∧ p.list.osPfnAlloc.1 < R.base + R.size ∧ p.list.osPfnAlloc.1 ∉ p.allocated

/-- The call does what it should. -/
def Right (R : Region) (p : Pool) (e : PoolEv) : Prop :=
  (e = .alloc → 0 < p.list.freePages → p.HandsOut R) ∧ ∀ q, p.step e = some q → q.Counted

/-- There is a free page the scan can find, when there is a free page. -/
def Finds (p : Pool) (e : PoolEv) : Prop := e = .alloc → 0 < p.list.freePages → p.list.Scannable

structure Inv (R : Region) (p : Pool) : Prop where
  type : p.list.type = R.type
  size : p.list.size = R.size
  start : p.list.startAddress = R.base * 4096
  hint : p.list.lastFreePos < R.size / 256
  reserved : ∀ i < R.reserved, bit p.list.mem i = true
  inUse : ∀ pfn ∈ p.allocated, R.base + R.reserved ≤ pfn ∧ pfn < R.base + max (R.size / 8) 33 ∧
    bit p.list.mem (pfn - R.base) = true
  counted : p.Counted

section
variable {R : Region} {p q : Pool}

/-! ## Allocating -/

theorem Inv.index_lt (hi : Inv R p) : p.list.index < max (R.size / 8) 33 ∧ p.list.index < R.size := by
  have hlt := (index_spec (hi.size ▸ hi.hint : p.list.lastFreePos < p.list.size / 256)).2.1
  have hr := R.reserved_bounds
  have hw := R.whole
  rw [hi.size] at hlt
  omega

/-- get_free_page, with no number leaving its range. -/
theorem Inv.getFreePage (hi : Inv R p) : p.list.getFreePage = (R.base + p.list.index,
    { p.list.bmapSet p.list.index with lastFreePos := p.list.scanPos, freePages := u32 ((p.list.freePages : Int) - 1) }) := by
  have hlt := hi.index_lt.2
  have hfits := R.fits
  have hpfn : u32 (((p.list.scanPos <<< 5 : Nat) : Int) + firstClear (p.list.mem p.list.scanPos)) = p.list.index := by
    have he : p.list.scanPos <<< 5 + firstClear (p.list.mem p.list.scanPos) = p.list.index := by
      rw [Nat.shiftLeft_eq]
      unfold index
      omega
    rw [← Int.natCast_add, he]
    exact u32_eq (by omega)
  have hbase : p.list.startAddress >>> PAGE_SHIFT = R.base := by
    rw [hi.start, Nat.shiftRight_eq_div_pow]
    exact Nat.mul_div_cancel _ (by decide)
  have hframe : u32 ((p.list.index : Int) + (p.list.startAddress >>> PAGE_SHIFT : Nat)) = R.base + p.list.index := by
    rw [hbase, ← Int.natCast_add, u32_eq (by omega), Nat.add_comm]
  refine Prod.ext ?_ ?_
  · exact (congrArg (fun i : Nat => u32 ((i : Int) + (p.list.startAddress >>> PAGE_SHIFT : Nat))) hpfn).trans hframe
  · exact congrArg (fun i => { p.list.bmapSet i with
      lastFreePos := p.list.scanPos, freePages := u32 ((p.list.freePages : Int) - 1) }) hpfn

/-- What an allocation leaves, but for the page that a page table's is cleared. -/
theorem Inv.alloc_eq (hi : Inv R p) (hfree : 0 < p.list.freePages) : p.list.osPfnAlloc.1 = R.base + p.list.index ∧
    p.list.osPfnAlloc.2.type = R.type ∧ p.list.osPfnAlloc.2.size = R.size ∧
    p.list.osPfnAlloc.2.startAddress = R.base * 4096 ∧ p.list.osPfnAlloc.2.lastFreePos = p.list.scanPos ∧
    p.list.osPfnAlloc.2.freePages = p.list.freePages - 1 ∧
    (∀ k, bit p.list.osPfnAlloc.2.mem k = true → k = p.list.index ∨ bit p.list.mem k = true) ∧
    (R.reserved ≤ p.list.index → ∀ k < R.size, bit p.list.osPfnAlloc.2.mem k = if k = p.list.index then true else bit p.list.mem k) := by
  have hcount : u32 ((p.list.freePages : Int) - 1) = p.list.freePages - 1 := by
    have hc := hi.counted
    unfold Counted at hc
    have hle : (clears p.list.mem p.list.size).card ≤ p.list.size := by
      refine Nat.le_trans (Finset.card_le_card (Finset.filter_subset _ _)) ?_
      rw [Finset.card_range]
    have hfits := R.fits
    rw [hi.size] at hle hc
    unfold u32
    omega
  have hbits := bmapSet_bit p.list p.list.index
  unfold osPfnAlloc
  rw [if_neg (Nat.ne_of_gt hfree), hi.getFreePage, hcount]
  dsimp only
  by_cases ht : (p.list.bmapSet p.list.index).type = .OS_PT_REG
  · rw [if_pos ht]
    refine ⟨rfl, hi.type, hi.size, hi.start, rfl, rfl, fun k hk => ?_, fun hres k hk => ?_⟩
    · have hb : bit (p.list.bmapSet p.list.index).mem k = true := by
        unfold bzeroPage bit at hk
        dsimp only at hk
        split at hk
        · simp at hk
        · exact hk
      rw [hbits] at hb
      by_cases e : k = p.list.index
      · exact Or.inl e
      · rw [if_neg e] at hb
        exact Or.inr hb
    · -- the page cleared lies behind the bitmap
      have hstart : (p.list.bmapSet p.list.index).startAddress = R.base * 4096 := hi.start
      have hrb := R.reserved_bounds
      rw [← hbits]
      unfold bzeroPage bit
      dsimp only
      rw [if_neg]
      rw [hstart, Nat.shiftLeft_eq]
      unfold PAGE_SHIFT
      omega
  · rw [if_neg ht]
    refine ⟨rfl, hi.type, hi.size, hi.start, rfl, rfl, fun k hk => ?_, fun _ k _ => hbits k⟩
    rw [show bit _ k = _ from hbits k] at hk
    by_cases e : k = p.list.index
    · exact Or.inl e
    · rw [if_neg e] at hk
      exact Or.inr hk

/-- An allocation that finds a free page. -/
theorem Inv.alloc (hi : Inv R p) (hfree : 0 < p.list.freePages) (hs : p.list.Scannable) :
    p.HandsOut R ∧ Inv R ⟨p.list.osPfnAlloc.2, insert p.list.osPfnAlloc.1 p.allocated⟩ := by
  obtain ⟨hpfn, htype, hsize, hstart, hpos, hcount, -, hbits⟩ := hi.alloc_eq hfree
  obtain ⟨hclear, -, hscan⟩ := index_spec (hi.size ▸ hi.hint : p.list.lastFreePos < p.list.size / 256)
  have hc := hclear.mpr hs
  obtain ⟨hmax, hlt⟩ := hi.index_lt
  have hres : R.reserved ≤ p.list.index := by
    by_contra hno
    rw [hi.reserved _ (Nat.lt_of_not_le hno)] at hc
    cases hc
  have hbits := hbits hres
  refine ⟨⟨by omega, by omega, fun hmem => ?_⟩, ⟨htype, hsize, hstart, ?_, fun i hlti => ?_, fun pfn hmem => ?_, ?_⟩⟩
  · have hb := (hi.inUse _ hmem).2.2
    rw [hpfn, Nat.add_sub_cancel_left, hc] at hb
    cases hb
  · rw [hpos, ← hi.size]
    exact hscan
  · have hr := R.reserved_bounds
    rw [hbits i (by omega), hi.reserved i hlti]
    split <;> rfl
  · obtain e | hmem := Finset.mem_insert.mp hmem
    · rw [e, hpfn]
      refine ⟨by omega, by omega, ?_⟩
      rw [Nat.add_sub_cancel_left, hbits _ hlt, if_pos rfl]
    · obtain ⟨hge, hle, hb⟩ := hi.inUse pfn hmem
      have hr := R.reserved_bounds
      refine ⟨hge, hle, ?_⟩
      rw [hbits _ (by omega), hb]
      split <;> rfl
  · have hset := clears_set hlt hc (bmapSet_bit p.list p.list.index)
    have hsame := @clears_congr (p.list.bmapSet p.list.index).mem p.list.osPfnAlloc.2.mem R.size
      fun k hk => (hbits k hk).trans (bmapSet_bit p.list p.list.index k).symm
    have hold := hi.counted
    unfold Counted at hold ⊢
    rw [hi.size] at hold
    dsimp only
    rw [hsize, hsame, hcount]
    omega

/-- One that does not is not counted. -/
theorem Inv.scannable (hi : Inv R p) (hfree : 0 < p.list.freePages)
    (hc : Counted ⟨p.list.osPfnAlloc.2, insert p.list.osPfnAlloc.1 p.allocated⟩) : p.list.Scannable := by
  by_contra hno
  obtain ⟨-, -, hsize, -, -, hcount, hkeep, -⟩ := hi.alloc_eq hfree
  obtain ⟨hclear, -, -⟩ := index_spec (hi.size ▸ hi.hint : p.list.lastFreePos < p.list.size / 256)
  have hset : bit p.list.mem p.list.index = true := by
    cases hb : bit p.list.mem p.list.index with
    | true => rfl
    | false => exact absurd (hclear.mp hb) hno
  have hmono := @clears_mono p.list.mem p.list.osPfnAlloc.2.mem R.size fun k _ hk => by
    obtain e | hk := hkeep k hk
    · rw [e]
      exact hset
    · exact hk
  have hold := hi.counted
  unfold Counted at hold hc
  dsimp only at hc
  rw [hi.size] at hold
  rw [hsize, hcount] at hc
  omega

theorem step_alloc_full (h : p.list.freePages = 0) : p.step .alloc = some p := by
  unfold step osPfnAlloc
  rw [if_pos h, if_pos h]

theorem step_alloc_free (h : 0 < p.list.freePages) :
    p.step .alloc = some ⟨p.list.osPfnAlloc.2, insert p.list.osPfnAlloc.1 p.allocated⟩ := by
  unfold step
  rw [if_neg (Nat.ne_of_gt h)]

/-! ## Freeing -/

theorem Inv.free (hi : Inv R p) {pfn : Nat} (hmem : pfn ∈ p.allocated) : Inv R ⟨p.list.osPfnFree pfn, p.allocated.erase pfn⟩ := by
  obtain ⟨hge, hlt, hset⟩ := hi.inUse pfn hmem
  have hr := R.reserved_bounds
  have hw := R.whole
  have hfits := R.fits
  have hi256 : pfn - R.base < R.size := by omega
  have hpfn : u32 ((u64 ((pfn <<< PAGE_SHIFT : Nat) - (p.list.startAddress : Int)) >>> PAGE_SHIFT : Nat) : Int) = pfn - R.base := by
    have hu : u64 ((pfn <<< PAGE_SHIFT : Nat) - (p.list.startAddress : Int)) = (pfn - R.base) * 4096 := by
      rw [hi.start, Nat.shiftLeft_eq]
      unfold PAGE_SHIFT u64
      omega
    rw [hu, Nat.shiftRight_eq_div_pow, show 2 ^ PAGE_SHIFT = 4096 from rfl, Nat.mul_div_cancel _ (by decide)]
    exact u32_eq (by omega)
  have hrest : ∀ {k}, k ∈ p.allocated.erase pfn → k ≠ pfn ∧ k ∈ p.allocated := fun hk =>
    ⟨Finset.ne_of_mem_erase hk, Finset.mem_of_mem_erase hk⟩
  unfold osPfnFree osPageFree
  dsimp only
  rw [hpfn]
  split
  · exact ⟨hi.type, hi.size, hi.start, hi.hint, hi.reserved, fun k hk => hi.inUse k (hrest hk).2, hi.counted⟩
  · have hbits := bmapClear_bit p.list (pfn - R.base)
    have hclear := clears_clear hi256 hset hbits
    have hle : (clears (p.list.bmapClear (pfn - R.base)).mem R.size).card ≤ R.size := by
      refine Nat.le_trans (Finset.card_le_card (Finset.filter_subset _ _)) ?_
      rw [Finset.card_range]
    have hold := hi.counted
    unfold Counted at hold
    rw [hi.size] at hold
    refine ⟨hi.type, hi.size, hi.start, hi.hint, fun i hlti => ?_, fun k hk => ?_, ?_⟩
    · dsimp only
      rw [hbits, if_neg (by omega)]
      exact hi.reserved i hlti
    · obtain ⟨hne, hk⟩ := hrest hk
      obtain ⟨hge', hlt', hb⟩ := hi.inUse k hk
      refine ⟨hge', hlt', ?_⟩
      dsimp only
      rw [hbits, if_neg (by omega)]
      exact hb
    · show u32 ((p.list.freePages : Int) + 1) = (clears (p.list.bmapClear (pfn - R.base)).mem p.list.size).card
      rw [hi.size, hclear, hold]
      unfold u32
      omega

/-! ## Runs -/

theorem step_iff (hi : Inv R p) {e : PoolEv} (hok : p.Frees e) (he : p.step e = some q) :
    (Right R p e ↔ p.Finds e) ∧ (p.Finds e → Inv R q) := by
  cases e with
  | alloc =>
    by_cases hfree : 0 < p.list.freePages
    · rw [step_alloc_free hfree] at he
      cases he
      refine ⟨⟨fun h _ _ => hi.scannable hfree (h.2 _ (step_alloc_free hfree)), fun h => ?_⟩,
        fun h => (hi.alloc hfree (h rfl hfree)).2⟩
      obtain ⟨hout, hnext⟩ := hi.alloc hfree (h rfl hfree)
      refine ⟨fun _ _ => hout, fun r hr => ?_⟩
      rw [step_alloc_free hfree] at hr
      cases hr
      exact hnext.counted
    · have hzero : p.list.freePages = 0 := Nat.eq_zero_of_not_pos hfree
      rw [step_alloc_full hzero] at he
      cases he
      refine ⟨iff_of_true ⟨fun _ hpos => absurd hpos hfree, fun r hr => ?_⟩ fun _ hpos => absurd hpos hfree, fun _ => hi⟩
      rw [step_alloc_full hzero] at hr
      cases hr
      exact hi.counted
  | free pfn =>
    cases he
    refine ⟨iff_of_true ⟨nofun, fun r hr => ?_⟩ nofun, fun _ => hi.free hok⟩
    cases hr
    exact (hi.free hok).counted

theorem run_iff {es : List PoolEv} (hr : (machine R).Run Frees p es q) (hi : Inv R p) :
    (machine R).Run (Right R) p es q ↔ (machine R).Run Finds p es q := by
  induction hr with
  | nil p => exact iff_of_true (.nil p) (.nil p)
  | cons hok he _ ih =>
    obtain ⟨hiff, hnext⟩ := step_iff hi hok he
    refine ⟨fun h => ?_, fun h => ?_⟩
    · cases h with
      | cons hright he' hrest =>
        rw [he] at he'
        cases he'
        have hfinds := hiff.mp hright
        exact .cons hfinds he ((ih (hnext hfinds)).mp hrest)
    · cases h with
      | cons hfinds he' hrest =>
        rw [he] at he'
        cases he'
        exact .cons (hiff.mpr hfinds) he ((ih (hnext hfinds)).mpr hrest)

/-- The reserved pages are marked, and no others. -/
theorem reserve_bits (pgl : PageList) (n k : Nat) :
    bit ((List.range n).foldl bmapSet pgl).mem k = if k < n then true else bit pgl.mem k := by
  induction n with
  | zero => rfl
  | succ n ih =>
    rw [List.range_succ, List.foldl_append, List.foldl_cons, List.foldl_nil, bmapSet_bit, ih]
    by_cases e : k = n
    · rw [if_pos e, if_pos (by omega)]
    · rw [if_neg e]
      by_cases hlt : k < n
      · rw [if_pos hlt, if_pos (by omega)]
      · rw [if_neg hlt, if_neg (by omega)]

theorem reserve_fields (pgl : PageList) (n : Nat) : ((List.range n).foldl bmapSet pgl).type = pgl.type ∧
    ((List.range n).foldl bmapSet pgl).size = pgl.size ∧
    ((List.range n).foldl bmapSet pgl).startAddress = pgl.startAddress ∧
    ((List.range n).foldl bmapSet pgl).lastFreePos = pgl.lastFreePos := by
  induction n with
  | zero => exact ⟨rfl, rfl, rfl, rfl⟩
  | succ n ih =>
    rw [List.range_succ, List.foldl_append]
    exact ih

theorem start_size (R : Region) :
    u32 (((((R.base + R.size) <<< PAGE_SHIFT - R.base <<< PAGE_SHIFT) >>> PAGE_SHIFT : Nat)) : Int) = R.size := by
  have hfits := R.fits
  have hpages : ((R.base + R.size) <<< PAGE_SHIFT - R.base <<< PAGE_SHIFT) >>> PAGE_SHIFT = R.size := by
    rw [Nat.shiftLeft_eq, Nat.shiftLeft_eq, Nat.shiftRight_eq_div_pow]
    unfold PAGE_SHIFT
    omega
  rw [hpages]
  exact u32_eq (by omega)

theorem start_freePages (h : Start R p) : p.list.freePages = R.size - R.reserved := by
  have hr := R.reserved_bounds
  have hfits := R.fits
  unfold Start initPagelist at h
  rw [start_size] at h
  dsimp only at h
  subst h
  unfold Region.reserved at hr ⊢
  dsimp only
  unfold u32
  omega

theorem start_inv (h : Start R p) : Inv R p := by
  have hr := R.reserved_bounds
  have hfits := R.fits
  have hw := R.whole
  unfold Start initPagelist at h
  rw [start_size] at h
  dsimp only at h
  subst h
  obtain ⟨htype, hsz, hstart, hpos⟩ := reserve_fields
    ⟨R.type, R.size, 0, pagesToReserve R.size >>> 5, R.base <<< PAGE_SHIFT, fun _ => 0⟩ (pagesToReserve R.size)
  have hbits := reserve_bits ⟨R.type, R.size, 0, pagesToReserve R.size >>> 5, R.base <<< PAGE_SHIFT, fun _ => 0⟩
    (pagesToReserve R.size)
  generalize (List.range (pagesToReserve R.size)).foldl bmapSet
    ⟨R.type, R.size, 0, pagesToReserve R.size >>> 5, R.base <<< PAGE_SHIFT, fun _ => 0⟩ = g at *
  dsimp only at htype hsz hstart hpos hbits
  have hzero : ∀ k, bit (fun _ => 0 : Words) k = false := fun k => by
    unfold bit
    exact BitVec.getLsbD_zero
  unfold Region.reserved at hr
  refine ⟨htype, hsz, ?_, ?_, fun i hi => ?_, fun pfn hmem => absurd hmem (Finset.notMem_empty pfn), ?_⟩
  · dsimp only
    rw [hstart, Nat.shiftLeft_eq, show 2 ^ PAGE_SHIFT = 4096 from rfl]
  · dsimp only
    rw [hpos, Nat.shiftRight_eq_div_pow]
    omega
  · dsimp only
    rw [hbits]
    exact if_pos hi
  · have hcl : clears g.mem R.size = Finset.range R.size \ Finset.range (pagesToReserve R.size) := by
      ext k
      rw [mem_clears, hbits, Finset.mem_sdiff, Finset.mem_range, Finset.mem_range]
      refine and_congr_right fun _ => ?_
      by_cases hlt : k < pagesToReserve R.size
      · rw [if_pos hlt]
        exact iff_of_false nofun fun h => h hlt
      · rw [if_neg hlt]
        exact iff_of_true (hzero k) hlt
    unfold Counted
    dsimp only
    rw [hsz, hcl, Finset.card_sdiff_of_subset (Finset.range_mono (by omega)), Finset.card_range, Finset.card_range]
    unfold u32
    omega

/-- In every run from init_pagelist on, whatever is freed: each allocation hands out a
    frame that is free, and free_pages counts the clear bits, exactly when before each the
    scan can find a free page. -/
theorem hands_out_free_iff (R : Region) {p q : Pool} {es : List PoolEv} (h0 : Start R p)
    (hr : (machine R).Run Frees p es q) :
    (p.Counted ∧ (machine R).Run (Right R) p es q) ↔ (machine R).Run Finds p es q :=
  ⟨fun h => (run_iff hr (start_inv h0)).mp h.2, fun h => ⟨(start_inv h0).counted, (run_iff hr (start_inv h0)).mpr h⟩⟩

/-! ## An eighth of a region -/

theorem Inv.card_le (hi : Inv R p) : p.allocated.card ≤ max (R.size / 8) 33 - R.reserved := by
  have hsub : p.allocated ⊆ Finset.Ico (R.base + R.reserved) (R.base + max (R.size / 8) 33) := fun pfn hmem => by
    obtain ⟨hge, hlt, -⟩ := hi.inUse pfn hmem
    exact Finset.mem_Ico.mpr ⟨hge, hlt⟩
  have hcard := Finset.card_le_card hsub
  rw [Nat.card_Ico] at hcard
  omega

/-- However long a run goes right, no more than an eighth of the region is in use. -/
theorem inUse_le (h : (machine R).Reach (fun p e => p.Frees e ∧ p.Finds e) p) :
    p.allocated.card ≤ max (R.size / 8) 33 - R.reserved :=
  (h.inv (Inv R) (fun _ => start_inv) fun _ _ _ hi hok he => (step_iff hi hok.1 he).2 hok.2).card_le

theorem allocs_run (R : Region) (p : Pool) (n : Nat) : ∃ q, (machine R).Run Frees p (List.replicate n .alloc) q := by
  induction n generalizing p with
  | zero => exact ⟨p, .nil p⟩
  | succ n ih =>
    obtain ⟨q, hq⟩ := ih ⟨p.list.osPfnAlloc.2, if p.list.freePages = 0 then p.allocated else insert p.list.osPfnAlloc.1 p.allocated⟩
    exact ⟨q, .cons trivial rfl hq⟩

/-- Every allocation of a run that goes right takes another frame. -/
theorem allocs_card {n : Nat} (hr : (machine R).Run (Right R) p (List.replicate n .alloc) q) (hi : Inv R p)
    (hn : n ≤ p.list.freePages) : q.allocated.card = p.allocated.card + n ∧ Inv R q := by
  induction n generalizing p with
  | zero =>
    cases hr
    exact ⟨rfl, hi⟩
  | succ n ih =>
    rw [List.replicate_succ] at hr
    cases hr with
    | cons hright he hrest =>
      have hfree : 0 < p.list.freePages := by omega
      have he' := step_alloc_free hfree
      rw [show p.step .alloc = _ from he] at he'
      cases he'
      obtain ⟨hout, hnext⟩ := hi.alloc hfree (hi.scannable hfree (hright.2 _ he))
      have hcount := (hi.alloc_eq hfree).2.2.2.2.2.1
      obtain ⟨hcard, hq⟩ := ih hrest hnext (by dsimp only; omega)
      refine ⟨?_, hq⟩
      rw [hcard]
      dsimp only
      rw [Finset.card_insert_of_notMem hout.2.2]
      omega

end

/-- init_pagelists' first region. -/
def osDs : Region := ⟨.OS_DS_REG, 0x800, 0x1800, by decide, by decide, by decide⟩

def osDsPool : Pool :=
  ⟨initPagelist osDs.type (osDs.base <<< PAGE_SHIFT) ((osDs.base + osDs.size) <<< PAGE_SHIFT) fun _ => 0, ∅⟩

/-- Two frames, and the first of them given back. -/
theorem hands_out_free_iff_two : ∃ q, (machine osDs).Run Frees osDsPool [.alloc, .alloc, .free 0x801] q ∧
    ((osDsPool.Counted ∧ (machine osDs).Run (Right osDs) osDsPool [.alloc, .alloc, .free 0x801] q) ↔
      (machine osDs).Run Finds osDsPool [.alloc, .alloc, .free 0x801] q) := by
  have hmem : 0x801 ∈ insert ((osDsPool.list.osPfnAlloc.2.osPfnAlloc).1) ({osDsPool.list.osPfnAlloc.1} : Finset Nat) := by
    decide +kernel
  have hrun : ∃ q, (machine osDs).Run Frees osDsPool [.alloc, .alloc, .free 0x801] q :=
    ⟨_, .cons trivial (step_alloc_free (by decide +kernel)) <| .cons trivial (step_alloc_free (by decide +kernel)) <|
      .cons hmem rfl <| .nil _⟩
  obtain ⟨q, hrun⟩ := hrun
  exact ⟨q, hrun, hands_out_free_iff osDs rfl hrun⟩

/-- 768 allocations from the OS_DS region, one after the other: the last is not right, with
    5376 of the 6144 pages free. -/
theorem os_ds_taken_twice : ¬ ∀ (R : Region) (p q : Pool) (es : List PoolEv), Start R p → (machine R).Run Frees p es q →
    p.Counted ∧ (machine R).Run (Right R) p es q := by
  intro h
  have hstart : Start osDs osDsPool := rfl
  have hres : osDs.reserved = 1 := by decide
  have hsize : osDs.size = 6144 := rfl
  obtain ⟨q, hq⟩ := allocs_run osDs osDsPool 768
  obtain ⟨hcard, hinv⟩ := allocs_card (h _ _ _ _ hstart hq).2 (start_inv hstart) (by rw [start_freePages hstart]; omega)
  have hle := hinv.card_le
  rw [hcard, hres, hsize] at hle
  omega

end Pool

end Cs330.Memory
