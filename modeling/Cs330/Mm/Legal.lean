/-
  Cs330.Mm.Legal — which faults in DATA and in the region of mmap are resolved.

  Those at memory of the process (`Ctx.Legal`): below the end in use of DATA, or in an area,
  which for a write has the write flag. The walks of vm_area_pagefault and handle_cow_fault
  over the list of areas come to the same (`areaAt_iff`, `writableAt_iff`, `noGapAt_of_area`).
  Any other fault there is the end of the process (`fault_region`).
-/
import Cs330.Mm.Mapped

namespace Cs330.Mm

open Lib Lib.Seg Vm

def Ctx.Legal (c : Ctx) (addr : Nat) (write : Bool) : Prop :=
  (c.data.start ≤ addr ∧ addr < c.data.nextFree) ∨
    ∃ f, protAt c.vmArea addr = some f ∧ (write = true → f &&& 2 ≠ 0)

/-! ## The walks over the areas -/

section
variable {b addr : Nat} {areas : List VmArea} (hc : Areas b areas)
include hc

theorem areaAt_iff : areaAt addr areas = true ↔ protAt areas addr ≠ none := by
  unfold areaAt
  rw [List.any_eq_true]
  constructor
  · rintro ⟨a, ha, hin⟩
    simp only [Bool.and_eq_true, decide_eq_true_eq] at hin
    unfold protAt
    rw [hc.valueAt_mem ha hin]
    exact Option.some_ne_none _
  · intro h
    obtain ⟨f, hf⟩ := Option.ne_none_iff_exists'.mp h
    obtain ⟨a, ha, hin, -⟩ := mem_of_valueAt hf
    exact ⟨a, ha, by simpa using hin⟩

theorem writableAt_iff : writableAt addr areas = true ↔ ∀ f, protAt areas addr = some f → f &&& 2 ≠ 0 := by
  unfold writableAt
  rw [List.all_eq_true]
  constructor
  · intro h f hf
    obtain ⟨a, ha, hin, rfl⟩ := mem_of_valueAt hf
    have ha := h a ha
    simp only [lo_eq, hi_eq] at hin
    simpa [hin.1, hin.2] using ha
  · intro h a ha
    by_cases hin : a.vmStart ≤ addr ∧ addr < a.vmEnd
    · have hf := h a.accessFlags (hc.valueAt_mem ha hin)
      simp [hin.1, hin.2, hf]
    · have hno : (decide (a.vmStart ≤ addr) && decide (addr < a.vmEnd)) = false := by simpa using hin
      simp [hno]

end

/-- In front of the first area there is no gap between two. -/
theorem noGapAt_below {b addr : Nat} {first : VmArea} {rest : List VmArea} (hc : Areas b (first :: rest))
    (h : addr < first.vmStart) : noGapAt addr (first :: rest) = true := by
  induction rest generalizing b first with
  | nil =>
    obtain ⟨-, hlt, -⟩ := hc
    simp only [lo_eq, hi_eq] at hlt
    simp only [noGapAt, Bool.not_eq_true', decide_eq_false_iff_not]
    omega
  | cons next rest ih =>
    have hlt := hc.2.1
    obtain ⟨hle, -⟩ := hc.tail
    simp only [lo_eq, hi_eq] at hlt hle
    have hrest := ih hc.tail (by omega)
    have hno : ¬ first.vmEnd ≤ addr := by omega
    simp [noGapAt, hno, hrest]

theorem noGapAt_of_area {b addr : Nat} {first : VmArea} {rest : List VmArea} (hc : Areas b (first :: rest))
    (h : protAt (first :: rest) addr ≠ none) : first.vmStart ≤ addr ∧ noGapAt addr (first :: rest) = true := by
  induction rest generalizing b first with
  | nil =>
    obtain ⟨f, hf⟩ := Option.ne_none_iff_exists'.mp h
    obtain ⟨a, ha, hin, -⟩ := mem_of_valueAt hf
    rw [List.mem_singleton.mp ha] at hin
    simp only [lo_eq, hi_eq] at hin
    have hno : ¬ first.vmEnd ≤ addr := by omega
    exact ⟨hin.1, by simp [noGapAt, hno]⟩
  | cons next rest ih =>
    have hlt := hc.2.1
    obtain ⟨hle, -⟩ := hc.tail
    simp only [lo_eq, hi_eq] at hlt hle
    unfold protAt at h ih
    by_cases hin : first.vmStart ≤ addr ∧ addr < first.vmEnd
    · have hrest : noGapAt addr _ = _ := noGapAt_below hc.tail (by omega)
      have hno : ¬ first.vmEnd ≤ addr := by omega
      exact ⟨hin.1, by simp [noGapAt, hno, hrest]⟩
    · rw [valueAt_tail hin] at h
      obtain ⟨h1, h2⟩ := ih hc.tail h
      have hno : ¬ addr < next.vmStart := by omega
      exact ⟨by omega, by simp [noGapAt, hno, h2]⟩

/-- The walk of handle_cow_fault over the pages of DATA. -/
def Ctx.dataAt (c : Ctx) (addr : Nat) : Bool :=
  (Sys.vaddrs c.data.start c.data.nextFree).any fun vaddr => decide (vaddr ≤ addr) && decide (addr < vaddr + 4096)

namespace Ctx.Layout

variable {c : Ctx} (h : c.Layout) {addr : Nat}
include h

theorem dataAt_iff : c.dataAt addr = true ↔ c.data.start ≤ addr ∧ addr < c.data.nextFree := by
  obtain ⟨hd1, -, -, -, hd5⟩ := h.data
  have hstart : 4096 ∣ c.data.start := by rw [hd1]; decide
  unfold Ctx.dataAt
  rw [List.any_eq_true]
  constructor
  · rintro ⟨v, hv, hin⟩
    obtain ⟨hlt, i, rfl⟩ := Sys.mem_vaddrs.mp hv
    simp only [Bool.and_eq_true, decide_eq_true_eq] at hin
    omega
  · intro hin
    refine ⟨c.data.start + 4096 * ((addr - c.data.start) / 4096), Sys.mem_vaddrs.mpr ⟨by omega, _, rfl⟩, ?_⟩
    simp only [Bool.and_eq_true, decide_eq_true_eq]
    omega

/-- What handle_cow_fault asks for. -/
theorem legal_write : c.Legal addr true ↔ (areaAt addr c.vmArea || c.dataAt addr) = true ∧ writableAt addr c.vmArea = true := by
  obtain ⟨-, -, -, hd4, -⟩ := h.data
  rw [Bool.or_eq_true, areaAt_iff h.areas, h.dataAt_iff, writableAt_iff h.areas]
  unfold Ctx.Legal
  constructor
  · rintro (hin | ⟨f, hf, hw⟩)
    · refine ⟨Or.inr hin, fun f hf => ?_⟩
      unfold protAt at hf
      rw [h.areas.valueAt_below (by omega)] at hf
      cases hf
    · refine ⟨Or.inl (by rw [hf]; exact Option.some_ne_none _), fun g hg => ?_⟩
      rw [hf] at hg
      cases hg
      exact hw rfl
  · rintro ⟨ha | hin, hw⟩
    · obtain ⟨f, hf⟩ := Option.ne_none_iff_exists'.mp ha
      exact Or.inr ⟨f, hf, fun _ => hw f hf⟩
    · exact Or.inl hin

/-- Outside DATA, a legal access is one to an area. -/
theorem legal_area {write : Bool} (hdata : MMAP_AREA_START ≤ addr) :
    c.Legal addr write ↔ protAt c.vmArea addr ≠ none ∧ (write = true → writableAt addr c.vmArea = true) := by
  obtain ⟨-, -, -, hd4, -⟩ := h.data
  rw [writableAt_iff h.areas]
  unfold Ctx.Legal
  constructor
  · rintro (hin | ⟨f, hf, hw⟩)
    · omega
    · refine ⟨by rw [hf]; exact Option.some_ne_none _, fun hwrite g hg => ?_⟩
      rw [hf] at hg
      cases hg
      exact hw hwrite
  · rintro ⟨ha, hw⟩
    obtain ⟨f, hf⟩ := Option.ne_none_iff_exists'.mp ha
    exact Or.inr ⟨f, hf, fun hwrite => hw hwrite f hf⟩

end Ctx.Layout

namespace Sys

variable {s : Sys} {pid addr : Nat} {pick : Finset Nat → Nat}

/-! ## The faults -/

/-- The page of a resolved fault: a new frame where there was none, the write bit, or a copy. -/
inductive Mends (s : Sys) (pick : Finset Nat → Nat) (pid addr : Nat) (t : Sys) : Prop
  | fresh (w : Bool) (hnone : s.frames.map pid (pageOf addr) = none)
      (hf : t.frames = s.frames.fresh pid (pageOf addr) (pick s.phys.inUse) w)
  | inPlace (hf : t.frames = s.frames.chmod pid (pageOf addr) true)
  | copied (e : Pte) (he : s.frames.map pid (pageOf addr) = some e) (h1 : s.frames.count e.frame ≠ 1)
      (hf : t.frames = s.frames.copy pid (pageOf addr) (pick s.phys.inUse))

section
variable (hp : Picks pick) (hd : s.Distinct) (hl : s.Live pid) (hlay : (s.ctxList pid).Layout)
include hp hd hl hlay

theorem handleCowFault_legal {e : Pte} (he : s.frames.map pid (pageOf addr) = some e) :
    ((s.ctxList pid).Legal addr true ∧ (s.handleCowFault pick pid addr).1 = 1 ∧
      Mends s pick pid addr (s.handleCowFault pick pid addr).2) ∨
    (¬ (s.ctxList pid).Legal addr true ∧ s.handleCowFault pick pid addr = (-1, s)) := by
  rw [hlay.legal_write]
  rcases handleCowFault_cases hp hd hl addr with h | ⟨d, hd', -, hret, hor⟩
  · refine Or.inr ⟨fun hleg => ?_, h⟩
    obtain ⟨h1, h2⟩ := hleg
    have hpte : s.getUserPte pid addr = some e := (getUserPte_eq hl).trans he
    unfold Ctx.dataAt at h1
    have hres : (s.handleCowFault pick pid addr).1 = 1 := by
      unfold handleCowFault
      simp only [h1, h2, not_true_eq_false, if_false, hpte]
      split <;> rfl
    rw [h] at hres
    cases hres
  · refine Or.inl ⟨?_, hret, ?_⟩
    · by_contra hno
      have hres : (s.handleCowFault pick pid addr).1 = -1 := by
        unfold handleCowFault
        simp only
        split
        · rfl
        split
        · rfl
        · rename_i h1 h2
          exact absurd ⟨not_not.mp h1, not_not.mp h2⟩ hno
      rw [hret] at hres
      cases hres
    · rcases hor with ⟨-, hf⟩ | ⟨h1, hf⟩
      · exact .inPlace hf
      · exact .copied d hd' h1 hf

/-- A page that is not there, in the region of mmap. -/
theorem vmAreaPagefault_legal {err : UInt64} {write : Bool} (herr : err &&& 1 = 0) (hw : err &&& 2 ≠ 0 ↔ write = true)
    (hnone : s.frames.map pid (pageOf addr) = none) (h1 : MMAP_AREA_START ≤ addr) (h2 : addr < MMAP_AREA_END) :
    ((s.ctxList pid).Legal addr write ∧ (s.vmAreaPagefault pick pid addr err).1 = 1 ∧
      Mends s pick pid addr (s.vmAreaPagefault pick pid addr err).2) ∨
    (¬ (s.ctxList pid).Legal addr write ∧ s.vmAreaPagefault pick pid addr err = (-1, s)) := by
  rw [hlay.legal_area h1, ← hw]
  have hc := hlay.areas
  rcases vmAreaPagefault_cases s pick pid addr err with h | ⟨h, hgap, ⟨first, rest, hareas, hle⟩, hwr⟩
  · refine Or.inr ⟨fun hleg => ?_, h⟩
    obtain ⟨ha, hwr⟩ := hleg
    cases hareas : (s.ctxList pid).vmArea with
    | nil => rw [hareas] at ha; exact ha rfl
    | cons first rest =>
      rw [hareas] at hc ha hwr
      obtain ⟨hle, hgap⟩ := noGapAt_of_area hc ha
      have hres : (s.vmAreaPagefault pick pid addr err).1 = 1 := by
        unfold vmAreaPagefault
        simp only [hareas]
        rw [if_neg (not_not.mpr ⟨h1, h2⟩), if_neg (not_not.mpr herr), if_neg (Nat.not_lt.mpr hle), if_neg (not_not.mpr hgap),
          if_neg fun h => h.2 (hwr h.1)]
      rw [h] at hres
      cases hres
  · rw [h]
    refine Or.inl ⟨⟨?_, hwr⟩, rfl, .fresh _ hnone (frames_installPage hp hd hl _ _ _)⟩
    rw [hareas] at hc hgap ⊢
    exact areaAt_of_noGap hc hgap hle

/-- In DATA and the region of mmap, a fault is resolved if and only if the access is legal. -/
theorem doPageFault_region {write : Bool} (hno : (s.table pid).allows (pageOf addr) write = false)
    (h1 : DATA_START ≤ addr) (h2 : addr < MMAP_AREA_END) {err : UInt64}
    (herr : err = (s.table pid).errorCode (pageOf addr) write) :
    ((s.ctxList pid).Legal addr write ∧ (s.doPageFault pick pid addr err).1 = true ∧
      Mends s pick pid addr (s.doPageFault pick pid addr err).2) ∨
    (¬ (s.ctxList pid).Legal addr write ∧ s.doPageFault pick pid addr err = (false, s)) := by
  obtain ⟨hd1, hd2, -, hd4, -⟩ := hlay.data
  cases he : (s.table pid).pte (pageOf addr) with
  | some e =>
    -- reads of what is there are allowed
    have hwrite : write = true := by
      cases write with
      | true => rfl
      | false => rw [PageTable.allows_read, he] at hno; cases hno
    subst hwrite
    have h7 : err = 7 := by rw [herr]; unfold PageTable.errorCode; rw [he, Option.isSome_some]; decide
    unfold doPageFault
    simp only [if_pos h7]
    rcases handleCowFault_legal hp hd hl hlay ((frames_map hl _).trans he) with ⟨hleg, hret, hm⟩ | ⟨hleg, hret⟩
    · exact Or.inl ⟨hleg, by rw [hret]; rfl, hm⟩
    · rw [hret]; exact Or.inr ⟨hleg, rfl⟩
  | none =>
    have hnone : s.frames.map pid (pageOf addr) = none := (frames_map hl _).trans he
    have herr' : err ≠ 7 ∧ err &&& 1 = 0 ∧ (err &&& 2 ≠ 0 ↔ write = true) := by
      rw [herr]
      unfold PageTable.errorCode
      rw [he]
      cases write <;> decide
    obtain ⟨h7, hbit, hw⟩ := herr'
    unfold doPageFault
    simp only [if_neg h7, if_neg (not_not.mpr hbit)]
    by_cases hdata : addr < MMAP_AREA_START
    · have hseg : (s.ctxList pid).data.start ≤ addr ∧ addr ≤ (s.ctxList pid).data.stop := by omega
      simp only [if_pos hseg]
      have hleg : (s.ctxList pid).Legal addr write ↔ addr < (s.ctxList pid).data.nextFree := by
        unfold Ctx.Legal protAt
        rw [hlay.areas.valueAt_below hdata]
        simp [hseg.1]
      rw [hleg]
      by_cases hlt : addr < (s.ctxList pid).data.nextFree
      · simp only [if_pos hlt]
        exact Or.inl ⟨hlt, trivial, .fresh _ hnone (frames_installPage hp hd hl _ _ _)⟩
      · simp only [if_neg hlt]
        exact Or.inr ⟨hlt, trivial⟩
    · have hlow : MMAP_AREA_START ≤ addr := Nat.le_of_not_lt hdata
      obtain ⟨-, hr2, -⟩ := hlay.rodata
      obtain ⟨hs1, -⟩ := hlay.stack
      have hd' : ¬ ((s.ctxList pid).data.start ≤ addr ∧ addr ≤ (s.ctxList pid).data.stop) := by
        unfold MMAP_AREA_START at hd2 hlow
        omega
      have hr : ¬ ((s.ctxList pid).rodata.start ≤ addr ∧ addr ≤ (s.ctxList pid).rodata.stop) := by
        unfold DATA_START at hr2
        unfold MMAP_AREA_START at hlow
        omega
      have hs : ¬ ((s.ctxList pid).stack.start ≤ addr ∧ addr ≤ (s.ctxList pid).stack.stop) := by
        unfold STACK_START MAX_STACK_SIZE at hs1
        rw [end_eq] at h2
        omega
      simp only [if_neg hd', if_neg hr, if_neg hs, if_pos (show _ ∧ _ from ⟨hlow, Nat.le_of_lt h2⟩)]
      rcases vmAreaPagefault_legal hp hd hl hlay hbit hw hnone hlow h2 with ⟨hleg, hret, hm⟩ | ⟨hleg, hret⟩
      · exact Or.inl ⟨hleg, by rw [hret]; rfl, hm⟩
      · rw [hret]; exact Or.inr ⟨hleg, rfl⟩

theorem fault_region {write : Bool} (hno : (s.table pid).allows (pageOf addr) write = false)
    (h1 : DATA_START ≤ addr) (h2 : addr < MMAP_AREA_END) :
    ((s.ctxList pid).Legal addr write ∧ Mends s pick pid addr (s.fault pick pid addr write)) ∨
      (¬ (s.ctxList pid).Legal addr write ∧ s.fault pick pid addr write = s.doExit pid) := by
  unfold fault
  simp only
  rcases doPageFault_region hp hd hl hlay hno h1 h2 rfl with ⟨hleg, hret, hm⟩ | ⟨hleg, hret⟩
  · rw [if_pos hret]; exact Or.inl ⟨hleg, hm⟩
  · rw [hret]; exact Or.inr ⟨hleg, rfl⟩

end

end Sys

end Cs330.Mm
