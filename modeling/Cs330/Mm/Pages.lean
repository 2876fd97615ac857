/-
  Cs330.Mm.Pages — the pages of a process.

  `Ctx.Holds c k`: page `k` lies in a segment of `c`, below the end it has been given, or
  in an area. These are the pages cfork goes through (`Holds.mem`), none of those it shares
  twice (`Layout.pages_nodup`).
-/
import Cs330.Mm.Steps

namespace Cs330.Mm

open Lib Lib.Seg Vm

/-! ## Ranges of addresses -/

theorem pageOf_eq {addr : Nat} (h : addr < 2 ^ 48) : pageOf addr = addr / 4096 := by
  unfold pageOf; rw [Nat.mod_eq_of_lt h]

namespace Sys

/-- The pages of a range. -/
theorem mem_pages {start stop k : Nat} (hs : 4096 ∣ start) (he : stop ≤ 2 ^ 48) :
    k ∈ (vaddrs start stop).map pageOf ↔ start ≤ 4096 * k ∧ 4096 * k < stop := by
  rw [List.mem_map]
  constructor
  · intro h
    obtain ⟨v, hv, rfl⟩ := h
    obtain ⟨hlt, i, rfl⟩ := mem_vaddrs.mp hv
    rw [pageOf_eq (by omega)]
    omega
  · intro h
    refine ⟨4096 * k, mem_vaddrs.mpr ⟨h.2, (4096 * k - start) / 4096, by omega⟩, ?_⟩
    rw [pageOf_eq (by omega)]
    omega

theorem mem_pagesDown {start stop k : Nat} (hs : 4096 ∣ start) (he : 4096 ∣ stop) (hlt : stop ≤ 2 ^ 48) :
    k ∈ (vaddrsDown start stop).map pageOf ↔ start ≤ 4096 * k ∧ 4096 * k < stop := by
  unfold vaddrsDown
  simp only [List.mem_map, List.mem_range]
  constructor
  · intro h
    obtain ⟨v, ⟨i, hi, rfl⟩, rfl⟩ := h
    rw [pageOf_eq (by omega)]
    omega
  · intro h
    refine ⟨4096 * k, ⟨(stop - 4096 * k) / 4096 - 1, by omega, by omega⟩, ?_⟩
    rw [pageOf_eq (by omega)]
    omega

/-- The addresses of a range go up in whole pages. -/
theorem vaddrs_pairwise (start stop : Nat) : (vaddrs start stop).Pairwise (· < ·) := by
  unfold vaddrs
  rw [List.pairwise_map]
  exact List.pairwise_lt_range.imp fun h => by omega

/-- Each page of a range once. -/
theorem rangePages_nodup {start stop : Nat} (hs : 4096 ∣ start) (he : stop ≤ 2 ^ 48) :
    ((vaddrs start stop).map pageOf).Nodup := by
  apply List.Nodup.map_on _ ((vaddrs_pairwise start stop).imp fun h => Nat.ne_of_lt h)
  intro v hv w hw h
  obtain ⟨hv, i, rfl⟩ := mem_vaddrs.mp hv
  obtain ⟨hw, j, rfl⟩ := mem_vaddrs.mp hw
  rw [pageOf_eq (by omega), pageOf_eq (by omega)] at h
  omega

end Sys

/-! ## The pages of a context -/

/-- Between the start and the end in use of a segment. -/
def MmSegment.Holds (seg : MmSegment) (k : Nat) : Prop := seg.start ≤ 4096 * k ∧ 4096 * k < seg.nextFree

structure Ctx.Stack (c : Ctx) (k : Nat) : Prop where
  low : c.stack.nextFree ≤ 4096 * k
  high : 4096 * k < c.stack.stop

def Ctx.Holds (c : Ctx) (k : Nat) : Prop :=
  c.code.Holds k ∨ c.rodata.Holds k ∨ c.data.Holds k ∨ c.Stack k ∨ protAt c.vmArea (4096 * k) ≠ none

/-- Only the ends in use of the segments, and the areas, count. -/
theorem Ctx.Holds.mono {c d : Ctx} {k : Nat} (h : c.Holds k) (hcode : d.code = c.code)
    (hro : d.rodata.start = c.rodata.start ∧ c.rodata.nextFree ≤ d.rodata.nextFree)
    (hdata : d.data.start = c.data.start ∧ c.data.nextFree ≤ d.data.nextFree)
    (hst : d.stack.stop = c.stack.stop ∧ d.stack.nextFree ≤ c.stack.nextFree) (ha : d.vmArea = c.vmArea) : d.Holds k := by
  rcases h with h | h | h | h | h
  · exact Or.inl (hcode ▸ h)
  · exact Or.inr (Or.inl ⟨hro.1 ▸ h.1, Nat.lt_of_lt_of_le h.2 hro.2⟩)
  · exact Or.inr (Or.inr (Or.inl ⟨hdata.1 ▸ h.1, Nat.lt_of_lt_of_le h.2 hdata.2⟩))
  · exact Or.inr (Or.inr (Or.inr (Or.inl ⟨Nat.le_trans hst.2 h.low, hst.1 ▸ h.high⟩)))
  · exact Or.inr (Or.inr (Or.inr (Or.inr (ha ▸ h))))

/-- An address has the protection of its page. -/
theorem protAt_page {b : Nat} {areas : List VmArea} (hc : Areas b areas) (addr : Nat) :
    protAt areas (4096 * (addr / 4096)) = protAt areas addr := by
  induction areas generalizing b with
  | nil => rfl
  | cons a rest ih =>
    obtain ⟨-, -, c3, c4, c5⟩ := hc
    simp only [lo_eq, hi_eq] at c3 c4 c5
    unfold protAt at *
    by_cases h : a.vmStart ≤ addr ∧ addr < a.vmEnd
    · rw [valueAt_head (by simp only [lo_eq, hi_eq]; omega), valueAt_head h]
    · rw [valueAt_tail (by simp only [lo_eq, hi_eq]; omega), valueAt_tail h]
      exact ih c5

namespace Ctx.Shape

variable {c : Ctx} (h : c.Shape) {k : Nat}
include h

theorem mem_areaPages : k ∈ c.areaPages ↔ protAt c.vmArea (4096 * k) ≠ none := by
  unfold Ctx.areaPages Ctx.areaAddrs
  rw [List.map_flatMap, List.mem_flatMap]
  have hpages : ∀ a ∈ c.vmArea, k ∈ (Sys.vaddrs a.vmStart a.vmEnd).map pageOf ↔ a.vmStart ≤ 4096 * k ∧ 4096 * k < a.vmEnd := by
    intro a ha
    obtain ⟨-, -, h3, h4, -⟩ := h.areas.forall_mem a ha
    simp only [hi_eq] at h3
    unfold MMAP_AREA_END at h3
    exact Sys.mem_pages h4 (by omega)
  constructor
  · intro hk
    obtain ⟨a, ha, hk⟩ := hk
    unfold protAt
    rw [h.areas.valueAt_mem ha ((hpages a ha).mp hk)]
    exact Option.some_ne_none _
  · intro hk
    obtain ⟨v, hv⟩ := Option.ne_none_iff_exists'.mp hk
    obtain ⟨a, ha, hin, -⟩ := mem_of_valueAt hv
    exact ⟨a, ha, (hpages a ha).mpr hin⟩

theorem mem_sharedPages : k ∈ c.sharedPages ↔ c.code.Holds k ∨ c.rodata.Holds k ∨ c.data.Holds k := by
  obtain ⟨hc1, hc2⟩ := h.code
  obtain ⟨hr1, hr2, hr3, hr4, hr5⟩ := h.rodata
  obtain ⟨hd1, hd2, hd3, hd4, hd5⟩ := h.data
  unfold Ctx.sharedPages Ctx.sharedAddrs
  simp only [List.map_append, List.mem_append]
  rw [Sys.mem_pages (by rw [hc1]; decide) (by rw [hc2]; decide),
    Sys.mem_pages (by rw [hr1]; decide) (by unfold DATA_START at hr4; omega),
    Sys.mem_pages (by rw [hd1]; decide) (by unfold MMAP_AREA_START at hd4; omega), or_assoc]
  rfl

theorem mem_stackPages : k ∈ c.stackPages ↔ c.Stack k := by
  obtain ⟨-, hs2, -, hs5⟩ := h.stack
  unfold Ctx.stackPages
  rw [Sys.mem_pagesDown hs5 (by rw [hs2]; decide) (by rw [hs2]; decide)]
  exact ⟨fun hk => ⟨hk.1, hk.2⟩, fun hk => ⟨hk.low, hk.high⟩⟩

/-- cfork goes through every page of the parent. -/
theorem mem_pages (hk : c.Holds k) : k ∈ c.sharedPages ++ c.stackPages ++ c.areaPages := by
  simp only [List.mem_append]
  rw [h.mem_sharedPages, h.mem_stackPages, h.mem_areaPages]
  rcases hk with hk | hk | hk | hk | hk
  · exact Or.inl (Or.inl (Or.inl hk))
  · exact Or.inl (Or.inl (Or.inr (Or.inl hk)))
  · exact Or.inl (Or.inl (Or.inr (Or.inr hk)))
  · exact Or.inl (Or.inr hk)
  · exact Or.inr hk

end Ctx.Shape

namespace Ctx.Layout

variable {c : Ctx} (h : c.Layout) {k : Nat}
include h

/-- A page in the region of mmap belongs to an area. -/
theorem region (hk : c.Holds k) (h1 : MMAP_AREA_START ≤ 4096 * k) (h2 : 4096 * k < MMAP_AREA_END) :
    protAt c.vmArea (4096 * k) ≠ none := by
  have hcode := h.code
  have hro := h.rodata
  have hdata := h.data
  have hstack := h.stack
  unfold CODE_START CODE_PAGES at hcode
  unfold DATA_START at hro
  unfold MMAP_AREA_START at hdata h1
  unfold STACK_START MAX_STACK_SIZE at hstack
  unfold MMAP_AREA_END at h2
  rcases hk with hk | hk | hk | hk | hk
  · have := hk.2; omega
  · have := hk.2; omega
  · have := hk.2; omega
  · have := hk.low; omega
  · exact hk

theorem mem_areaPages : k ∈ c.areaPages ↔ protAt c.vmArea (4096 * k) ≠ none := h.shape.mem_areaPages

theorem mem_sharedPages : k ∈ c.sharedPages ↔ c.code.Holds k ∨ c.rodata.Holds k ∨ c.data.Holds k := h.shape.mem_sharedPages

theorem mem_stackPages : k ∈ c.stackPages ↔ c.Stack k := h.shape.mem_stackPages

omit h in
/-- The pages of the areas, each once. -/
theorem area_addrs {b : Nat} {areas : List VmArea} (hc : Areas b areas) :
    (areas.flatMap fun a => Sys.vaddrs a.vmStart a.vmEnd).Pairwise (· < ·) ∧
      ∀ v ∈ areas.flatMap fun a => Sys.vaddrs a.vmStart a.vmEnd, b ≤ v ∧ v < MMAP_AREA_END ∧ 4096 ∣ v := by
  induction areas generalizing b with
  | nil => exact ⟨.nil, fun _ h => absurd h List.not_mem_nil⟩
  | cons a rest ih =>
    obtain ⟨c1, c2, c3, -, c5⟩ := hc
    have htop := c5.le_top
    simp only [lo_eq, hi_eq] at c1 c2 c3 htop
    obtain ⟨h1, h2⟩ := ih c5
    rw [List.flatMap_cons]
    refine ⟨List.pairwise_append.mpr ⟨Sys.vaddrs_pairwise .., h1, fun v hv w hw => ?_⟩, fun v hv => ?_⟩
    · have := (Sys.mem_vaddrs.mp hv).1
      have := (h2 w hw).1
      simp only [hi_eq] at this
      omega
    · rcases List.mem_append.mp hv with hv | hv
      · obtain ⟨hlt, i, rfl⟩ := Sys.mem_vaddrs.mp hv
        omega
      · obtain ⟨g1, g2⟩ := h2 v hv
        simp only [hi_eq] at g1
        exact ⟨by omega, g2⟩

/-- No page is shared twice. -/
theorem pages_nodup : (c.sharedPages ++ c.areaPages).Nodup := by
  obtain ⟨hc1, hc2⟩ := h.code
  obtain ⟨hr1, -, -, hr4, -⟩ := h.rodata
  obtain ⟨hd1, -, -, hd4, -⟩ := h.data
  obtain ⟨ha1, ha2⟩ := area_addrs h.areas
  have hseg : ∀ {start stop v}, 4096 ∣ start → v ∈ Sys.vaddrs start stop → start ≤ v ∧ v < stop ∧ 4096 ∣ v := by
    intro start stop v hs hv
    obtain ⟨hlt, i, rfl⟩ := Sys.mem_vaddrs.mp hv
    omega
  have hcode : ∀ v ∈ Sys.vaddrs c.code.start c.code.nextFree, v < RODATA_START ∧ 4096 ∣ v := by
    intro v hv
    obtain ⟨-, h2, h3⟩ := hseg (by rw [hc1]; decide) hv
    rw [hc2] at h2
    exact ⟨Nat.lt_trans h2 (by decide), h3⟩
  have hro : ∀ v ∈ Sys.vaddrs c.rodata.start c.rodata.nextFree, RODATA_START ≤ v ∧ v < DATA_START ∧ 4096 ∣ v := by
    intro v hv
    obtain ⟨h1, h2, h3⟩ := hseg (by rw [hr1]; decide) hv
    exact ⟨hr1 ▸ h1, Nat.lt_of_lt_of_le h2 hr4, h3⟩
  have hdata : ∀ v ∈ Sys.vaddrs c.data.start c.data.nextFree, DATA_START ≤ v ∧ v < MMAP_AREA_START ∧ 4096 ∣ v := by
    intro v hv
    obtain ⟨h1, h2, h3⟩ := hseg (by rw [hd1]; decide) hv
    exact ⟨hd1 ▸ h1, Nat.lt_of_lt_of_le h2 hd4, h3⟩
  have hord : RODATA_START < DATA_START ∧ DATA_START < MMAP_AREA_START ∧ MMAP_AREA_END < 2 ^ 48 ∧
      MMAP_AREA_START < MMAP_AREA_END := by decide
  have hall : (c.sharedAddrs ++ c.areaAddrs).Pairwise (· < ·) ∧ ∀ v ∈ c.sharedAddrs ++ c.areaAddrs, v < 2 ^ 48 ∧ 4096 ∣ v := by
    unfold Ctx.sharedAddrs Ctx.areaAddrs
    simp only [List.pairwise_append, List.mem_append]
    refine ⟨⟨⟨⟨Sys.vaddrs_pairwise .., Sys.vaddrs_pairwise .., fun v hv w hw => ?_⟩, Sys.vaddrs_pairwise .., fun v hv w hw => ?_⟩,
      ha1, fun v hv w hw => ?_⟩, fun v hv => ?_⟩
    · have := hcode v hv; have := hro w hw; omega
    · have := hdata w hw
      rcases hv with hv | hv
      · have := hcode v hv; omega
      · have := hro v hv; omega
    · have := ha2 w hw
      rcases hv with (hv | hv) | hv
      · have := hcode v hv; omega
      · have := hro v hv; omega
      · have := hdata v hv; omega
    · rcases hv with ((hv | hv) | hv) | hv
      · have := hcode v hv; omega
      · have := hro v hv; omega
      · have := hdata v hv; omega
      · have := ha2 v hv; omega
  unfold Ctx.sharedPages Ctx.areaPages
  rw [← List.map_append]
  refine List.Nodup.map_on (fun v hv w hw he => ?_) (hall.1.imp fun h => Nat.ne_of_lt h)
  obtain ⟨h1, h2⟩ := hall.2 v hv
  obtain ⟨h3, h4⟩ := hall.2 w hw
  rw [pageOf_eq h1, pageOf_eq h3] at he
  omega

theorem stackPages_nodup : c.stackPages.Nodup := by
  have hs2 := h.stack.2.1
  unfold STACK_START at hs2
  unfold Ctx.stackPages Sys.vaddrsDown
  rw [List.map_map]
  apply List.Nodup.map_on _ List.nodup_range
  intro i hi j hj he
  rw [List.mem_range] at hi hj
  rw [Function.comp_apply, Function.comp_apply, pageOf_eq (by omega), pageOf_eq (by omega)] at he
  omega

/-- cfork goes to each page once. -/
theorem fork_nodup : (c.sharedPages ++ c.stackPages ++ c.areaPages).Nodup := by
  obtain ⟨h1, h2, h3⟩ := List.nodup_append.mp h.pages_nodup
  obtain ⟨-, hc2⟩ := h.code
  obtain ⟨-, -, -, hr4, -⟩ := h.rodata
  obtain ⟨-, -, -, hd4, -⟩ := h.data
  obtain ⟨-, -, hs3, -⟩ := h.stack
  unfold CODE_START CODE_PAGES at hc2
  unfold DATA_START at hr4
  unfold MMAP_AREA_START at hd4
  unfold STACK_START MAX_STACK_SIZE at hs3
  have hstack : ∀ k ∈ c.stackPages, 0x7FF000000 ≤ 4096 * k := by
    intro k hk
    have := (h.mem_stackPages.mp hk).low
    omega
  refine List.nodup_append.mpr ⟨List.nodup_append.mpr ⟨h1, h.stackPages_nodup, fun k hk l hl he => ?_⟩, h2, fun k hk l hl he => ?_⟩
  · have := hstack l hl
    rcases h.mem_sharedPages.mp hk with hk | hk | hk
    · have := hk.2; omega
    · have := hk.2; omega
    · have := hk.2; omega
  · rcases List.mem_append.mp hk with hk | hk
    · exact h3 k hk l hl he
    · have := hstack k hk
      refine h.mem_areaPages.mp hl (h.areas.valueAt_above ?_)
      rw [end_eq]
      omega

end Ctx.Layout

end Cs330.Mm
