/-
  Cs330.Mm.Failure — mmap, munmap and mprotect calls that fail.

  Each of the three checks its arguments, and that the list of areas has room, before it makes,
  splits, resizes or frees an area. Proved: a call that returns -1 leaves the whole system as it
  was (`failed_call`), whatever the state, address, length, protection and flags.
-/
import Cs330.Mm.Start

namespace Cs330.Mm

open Lib Vm

namespace Sys

variable {s : Sys} {pid addr : Nat} {length : Int} {prot flags : UInt32} {pick : Finset Nat → Nat}

/-- The old list again, and no node more or less. -/
theorem setAreas_same (s : Sys) (pid : Nat) : s.setAreas pid (s.ctxList pid).vmArea 0 = s := by
  unfold setAreas setCtx
  simp only [Function.update_eq_self, Int.add_zero]

theorem vmAreaMap_unchanged (h : (s.vmAreaMap pick pid addr length prot flags).1 = -1) :
    (s.vmAreaMap pick pid addr length prot flags).2 = s := by
  unfold vmAreaMap at h ⊢
  simp only at h ⊢
  by_cases hret : (mapAreas (s.ctxList pid).vmArea addr length prot flags).1 = -1
  · rw [if_pos hret, mapAreas_fails hret]
    exact setAreas_same s pid
  · rw [if_neg hret] at h
    split at h
    · -- an address is not negative
      have hneg : ((mapAreas (s.ctxList pid).vmArea addr length prot flags).1.toNat : Int) = -1 := h
      omega
    · exact absurd h hret

theorem vmAreaUnmap_unchanged (h : (s.vmAreaUnmap pid addr length).1 = -1) : (s.vmAreaUnmap pid addr length).2 = s := by
  unfold vmAreaUnmap at h ⊢
  simp only at h ⊢
  split at h
  · cases h
  · rename_i hno
    have hret : (unmapAreas (s.ctxList pid).vmArea addr length).1 = -1 := h
    rw [if_neg hno, unmapAreas_fails (by rw [hret]; decide)]
    exact setAreas_same s pid

theorem vmAreaMprotect_unchanged (h : (s.vmAreaMprotect pid addr length prot).1 = -1) :
    (s.vmAreaMprotect pid addr length prot).2 = s := by
  unfold vmAreaMprotect at h ⊢
  simp only at h ⊢
  split at h
  · cases h
  · rename_i hno
    rw [if_neg hno, protectAreas_fails hno]
    exact setAreas_same s pid

/-- The list of areas, the count of its nodes, the page tables, the frames and their reference counts. -/
theorem failed_call (s : Sys) (pick : Finset Nat → Nat) (pid addr : Nat) (length : Int) (prot flags : UInt32) :
    ((s.vmAreaMap pick pid addr length prot flags).1 = -1 → (s.vmAreaMap pick pid addr length prot flags).2 = s) ∧
      ((s.vmAreaUnmap pid addr length).1 = -1 → (s.vmAreaUnmap pid addr length).2 = s) ∧
      ((s.vmAreaMprotect pid addr length prot).1 = -1 → (s.vmAreaMprotect pid addr length prot).2 = s) :=
  ⟨vmAreaMap_unchanged, vmAreaUnmap_unchanged, vmAreaMprotect_unchanged⟩

/-- Two areas with a hole: MAP_FIXED over the second, munmap beyond the end of the region, mprotect over the hole. -/
theorem failed_call_holed :
    (holed.ctxList 1).vmArea =
        [⟨MMAP_AREA_START, MMAP_AREA_START + 4096, 3⟩, ⟨MMAP_AREA_START + 8192, MMAP_AREA_START + 12288, 3⟩] ∧
      (holed.vmAreaMap nextFrame 1 (MMAP_AREA_START + 4096) 8192 1 MAP_FIXED).2 = holed ∧
      (holed.vmAreaUnmap 1 (MMAP_AREA_END - 4096) 8192).2 = holed ∧
      (holed.vmAreaMprotect 1 MMAP_AREA_START 12288 1).2 = holed := by
  refine ⟨holed_areas, ?_, ?_, ?_⟩
  · exact (failed_call holed nextFrame 1 (MMAP_AREA_START + 4096) 8192 1 MAP_FIXED).1 (by decide +kernel)
  · exact (failed_call holed nextFrame 1 (MMAP_AREA_END - 4096) 8192 0 0).2.1 (by decide +kernel)
  · exact (failed_call holed nextFrame 1 MMAP_AREA_START 12288 1 0).2.2 (by decide +kernel)

end Sys

end Cs330.Mm
