/-
  Cs330.Mm.Populate — the address mmap returns, and MAP_POPULATE.

  `ReturnsMapping`: the address a successful mmap returns is the start of the new mapping,
  and with MAP_POPULATE the pages of the mapping, and no others, get new frames.
  It holds of a call unless the last area grows (`returnsMapping_iff`): at a hint that is the
  very end of the last area, with its flags, mmap returns where that area starts, and
  populating from there replaces the frames the area had.
-/
import Cs330.Mm.Pages

namespace Cs330.Mm

open Lib Lib.Seg Vm

namespace Sys

variable {s : Sys} {pid addr : Nat} {length : Int} {prot flags : UInt32} {pick : Finset Nat → Nat}

/-! ## One page table as frames -/

/-- The table as the map of a single owner. -/
def tableFrames (s : Sys) (t : Nat) : Frames Unit Nat Nat Nat UInt8 :=
  ⟨fun _ => (s.tables t).pte, s.phys.refcount, s.phys.inUse, s.phys.mem⟩

theorem tableFrames_installPage (hp : pick s.phys.inUse ≠ 0) (w u : Bool) :
    (s.installPage pick pid addr w u).tableFrames (s.ctxList pid).pgd =
      (s.tableFrames (s.ctxList pid).pgd).fresh () (pageOf addr) (pick s.phys.inUse) w := by
  unfold installPage osPfnAlloc
  simp only [if_neg hp]
  unfold tableFrames setTable table Frames.fresh Frames.put
  simp only [Function.update_self, PageTable.install_pte]
  congr 1

/-- Populating a range fills the pages of the table, and leaves the other tables. -/
theorem allocPfn_loop (hp : ∀ u, pick u ≠ 0) (pid : Nat) (prot : UInt32) (is : List Nat) :
    (is.foldl (fun s i => s.allocPfn pick pid i prot) s).tableFrames (s.ctxList pid).pgd =
        (s.tableFrames (s.ctxList pid).pgd).freshAll pick () (prot &&& 2 ≠ 0) (is.map pageOf) ∧
      (is.foldl (fun s i => s.allocPfn pick pid i prot) s).ctxList = s.ctxList ∧
      ∀ t, t ≠ (s.ctxList pid).pgd → (is.foldl (fun s i => s.allocPfn pick pid i prot) s).tables t = s.tables t := by
  induction is generalizing s with
  | nil => exact ⟨rfl, rfl, fun _ _ => rfl⟩
  | cons i is ih =>
    have hc : (s.allocPfn pick pid i prot).ctxList = s.ctxList := installPage_ctxList pick _ true
    obtain ⟨h1, h2, h3⟩ := ih (s := s.allocPfn pick pid i prot)
    rw [hc] at h1 h2 h3
    refine ⟨h1.trans ?_, h2, fun t ht => (h3 t ht).trans ?_⟩
    · unfold allocPfn
      rw [tableFrames_installPage (hp _)]
      rfl
    · unfold allocPfn installPage setTable
      simp only [osPfnAlloc_tables, osPfnAlloc_ctxList]
      exact Function.update_of_ne ht ..

/-! ## The returned address -/

/-- The pages of `[ret, ret + n)`, and no others, have new frames with the write bit of `prot`. -/
structure Populated (s s' : Sys) (pid ret n : Nat) (prot : UInt32) : Prop where
  new : ∀ k, ret ≤ 4096 * k → 4096 * k < ret + n →
    ∃ f, (s'.table pid).get k = some ⟨f, prot &&& 2 ≠ 0⟩ ∧ f ∉ s.phys.inUse ∧ f ∈ s'.phys.inUse
  apart : ∀ k k', ret ≤ 4096 * k → 4096 * k < ret + n → ret ≤ 4096 * k' → 4096 * k' < ret + n →
    (s'.table pid).get k = (s'.table pid).get k' → k = k'
  others : ∀ k, ¬ (ret ≤ 4096 * k ∧ 4096 * k < ret + n) → (s'.table pid).get k = (s.table pid).get k
  tables : ∀ t, t ≠ (s.ctxList pid).pgd → s'.tables t = s.tables t
  kept : ∀ k e, (s.table pid).get k = some e → (s'.table pid).get k = some e

def ReturnsMapping (s : Sys) (pick : Finset Nat → Nat) (pid addr : Nat) (length : Int) (prot flags : UInt32) : Prop :=
  let r := s.vmAreaMap pick pid addr length prot flags
  r.1 ≠ -1 → ∃ ret : Nat, r.1 = ret ∧
    (∀ x, ret ≤ x → x < ret + pageUp length →
      protAt (s.ctxList pid).vmArea x = none ∧ protAt (r.2.ctxList pid).vmArea x = some prot) ∧
    (addr ≠ 0 → flags &&& MAP_FIXED ≠ 0 → ret = addr) ∧
    (flags &&& MAP_POPULATE ≠ 0 → Populated s r.2 pid ret (pageUp length) prot)

/-- A call that maps a range at `ret`. -/
theorem vmAreaMap_eq {ret : Nat} (h : (mapAreas (s.ctxList pid).vmArea addr length prot flags).1 = ret) :
    s.vmAreaMap pick pid addr length prot flags = ((ret : Int),
      let s' := s.setAreas pid (mapAreas (s.ctxList pid).vmArea addr length prot flags).2.1
        (mapAreas (s.ctxList pid).vmArea addr length prot flags).2.2
      if flags &&& MAP_POPULATE ≠ 0 then
        (vaddrs ret (plus ret (pageRound length))).foldl (fun s i => s.allocPfn pick pid i prot) s'
      else s') := by
  have hne : (ret : Int) ≠ -1 := by omega
  unfold vmAreaMap
  simp only [h, if_neg hne, Int.toNat_natCast]
  split
  · rfl
  · rfl

/-- The new list of areas, with or without MAP_POPULATE. -/
theorem vmAreaMap_areas (hp : Picks pick) : ((s.vmAreaMap pick pid addr length prot flags).2.ctxList pid).vmArea =
    (mapAreas (s.ctxList pid).vmArea addr length prot flags).2.1 := by
  unfold vmAreaMap
  simp only
  have h : ((s.setAreas pid (mapAreas (s.ctxList pid).vmArea addr length prot flags).2.1
      (mapAreas (s.ctxList pid).vmArea addr length prot flags).2.2).ctxList pid).vmArea =
      (mapAreas (s.ctxList pid).vmArea addr length prot flags).2.1 := by rw [setAreas_ctx]
  split
  · exact h
  split
  · rw [(allocPfn_loop (fun u => (hp u).2) pid prot _).2.1]; exact h
  · exact h

theorem vmAreaMap_fails (h : (mapAreas (s.ctxList pid).vmArea addr length prot flags).1 = -1) :
    (s.vmAreaMap pick pid addr length prot flags).1 = -1 := by
  unfold vmAreaMap
  simp only [if_pos h]

section
variable (hw : WellFormed (s.ctxList pid).vmArea) (ha : 4096 ∣ addr) (hl : Vm.Promised length) (hp : Picks pick)
include hw ha hl hp

/-- Where no page of the range has a PTE, populating it does what it should. -/
theorem vmAreaMap_populated {ret : Nat} (hret : (mapAreas (s.ctxList pid).vmArea addr length prot flags).1 = ret)
    (hpop : flags &&& MAP_POPULATE ≠ 0)
    (hfree : ∀ k, ret ≤ 4096 * k → 4096 * k < ret + pageUp length → (s.table pid).get k = none) :
    Populated s (s.vmAreaMap pick pid addr length prot flags).2 pid ret (pageUp length) prot := by
  obtain ⟨ret', he, hdvd, hlow, hhigh, -⟩ := mapAreas_covers (wellFormed_iff.mp hw) hl ha (by rw [hret]; omega)
  obtain rfl : ret = ret' := by rw [hret] at he; omega
  rw [end_eq] at hhigh
  rw [vmAreaMap_eq hret]
  simp only [if_pos hpop, pageRound_eq hl, plus_nat (show ret + pageUp length < 2 ^ 64 by omega)]
  obtain ⟨s0, hs0⟩ : ∃ s0, s0 = s.setAreas pid (mapAreas (s.ctxList pid).vmArea addr length prot flags).2.1
      (mapAreas (s.ctxList pid).vmArea addr length prot flags).2.2 := ⟨_, rfl⟩
  have hpgd : (s0.ctxList pid).pgd = (s.ctxList pid).pgd := by rw [hs0, setAreas_ctx]
  have htables : s0.tables = s.tables := by rw [hs0]; rfl
  have hphys : s0.phys = s.phys := by rw [hs0]; rfl
  rw [← hs0]
  obtain ⟨h1, h2, h3⟩ := allocPfn_loop (s := s0) (fun u => (hp u).2) pid prot (vaddrs ret (ret + pageUp length))
  have hfill := Frames.freshAll_filled (s := s0.tableFrames (s0.ctxList pid).pgd) (fun u => (hp u).1) () (decide (prot &&& 2 ≠ 0))
    ((vaddrs ret (ret + pageUp length)).map pageOf)
  rw [← h1] at hfill
  have hmem : ∀ k, k ∈ (vaddrs ret (ret + pageUp length)).map pageOf ↔ ret ≤ 4096 * k ∧ 4096 * k < ret + pageUp length :=
    fun k => mem_pages hdvd (by omega)
  obtain ⟨s1, hs1⟩ : ∃ s1, s1 = (vaddrs ret (ret + pageUp length)).foldl (fun s i => s.allocPfn pick pid i prot) s0 := ⟨_, rfl⟩
  rw [← hs1] at h2 h3 hfill ⊢
  have hget1 : ∀ k, (s1.table pid).get k = (s1.tableFrames (s0.ctxList pid).pgd).map () k := by
    intro k
    rw [PageTable.get_eq]
    unfold table
    rw [h2]
    rfl
  have hget0 : ∀ k, (s.table pid).get k = (s0.tableFrames (s0.ctxList pid).pgd).map () k := by
    intro k
    rw [PageTable.get_eq]
    unfold table tableFrames
    rw [htables, hpgd]
  have hused0 : (s0.tableFrames (s0.ctxList pid).pgd).used = s.phys.inUse := by rw [← hphys]; rfl
  have hothers : ∀ k, ¬ (ret ≤ 4096 * k ∧ 4096 * k < ret + pageUp length) → (s1.table pid).get k = (s.table pid).get k := by
    intro k hk
    rw [hget1, hget0]
    exact hfill.others () k fun h => hk ((hmem k).mp h.2)
  refine ⟨fun k hk1 hk2 => ?_, fun k k' hk1 hk2 hk1' hk2' he => ?_, hothers, fun t ht => ?_, fun k e he => ?_⟩
  · obtain ⟨f, hf, hnew, hin⟩ := hfill.new k ((hmem k).mpr ⟨hk1, hk2⟩)
    exact ⟨f, (hget1 k).trans hf, hused0 ▸ hnew, hin⟩
  · rw [hget1, hget1] at he
    exact hfill.apart k ((hmem k).mpr ⟨hk1, hk2⟩) k' ((hmem k').mpr ⟨hk1', hk2'⟩) he
  · rw [h3 t (hpgd ▸ ht), htables]
  · refine (hothers k fun hk => ?_).trans he
    rw [hfree k hk.1 hk.2] at he
    cases he

/-- The address mmap returns is that of the new mapping, but for the last area growing. -/
theorem returnsMapping_iff (hin : ∀ k e, (s.table pid).get k = some e → MMAP_AREA_START ≤ 4096 * k → 4096 * k < MMAP_AREA_END →
    protAt (s.ctxList pid).vmArea (4096 * k) ≠ none) :
    s.ReturnsMapping pick pid addr length prot flags ↔ ¬ LastGrows (s.ctxList pid).vmArea addr (pageUp length) prot := by
  have hc := wellFormed_iff.mp hw
  have hpos := (pageUp_spec hl).1
  constructor
  · intro h hg
    obtain ⟨a, hlast, he, hret⟩ := mapAreas_grows hc hl ha hg flags
    have hne : (s.vmAreaMap pick pid addr length prot flags).1 ≠ -1 := by rw [vmAreaMap_eq hret]; simp only; omega
    obtain ⟨ret, hret', hx, -, -⟩ := h hne
    obtain rfl : a.vmStart = ret := by rw [vmAreaMap_eq hret] at hret'; simp only at hret'; omega
    -- the first page of the last area was mapped
    have hmem := List.mem_of_getLast? hlast
    have hlt := (hc.forall_mem a hmem).2.1
    have hnone := (hx a.vmStart (Nat.le_refl _) (by omega)).1
    unfold protAt at hnone
    have hsome := hc.valueAt_mem hmem (x := a.vmStart) ⟨Nat.le_refl _, hlt⟩
    rw [hnone] at hsome
    cases hsome
  · intro hg hne
    have hne' : (mapAreas (s.ctxList pid).vmArea addr length prot flags).1 ≠ -1 := fun h => hne (vmAreaMap_fails h)
    obtain ⟨ret, hm, hor, hfix⟩ := mapAreas_maps hc hl ha hne'
    have hret := hor.resolve_right fun h => hg h.1
    refine ⟨ret, by rw [vmAreaMap_eq hret], fun x h1 h2 => ⟨hm.free x h1 h2, ?_⟩, hfix, fun hpop => ?_⟩
    · rw [vmAreaMap_areas hp]
      exact (hm.value x).trans (if_pos ⟨h1, h2⟩)
    · refine vmAreaMap_populated hw ha hl hp hret hpop fun k h1 h2 => ?_
      cases hk : (s.table pid).get k with
      | none => rfl
      | some e =>
        have hlow := hm.low
        have hhigh := hm.high
        exact absurd (hm.free (4096 * k) h1 h2) (hin k e hk (by omega) (by omega))

end

/-- One page at the start of the region, populated. -/
def onePage : Sys := ((boot (fun _ _ => 0) 0x71).vmAreaMap nextFrame 1 0 4096 3 MAP_POPULATE).2

theorem onePage_areas : (onePage.ctxList 1).vmArea = [⟨MMAP_AREA_START, MMAP_AREA_START + 4096, 3⟩] := by decide

theorem onePage_pte : (onePage.table 1).pte = Function.update (fun _ => none) (pageOf MMAP_AREA_START) (some ⟨1, true⟩) := rfl

/-- The second page, asked for with other flags. -/
theorem returnsMapping_iff_other_flags : ∃ addr, addr = MMAP_AREA_START + 4096 ∧
    onePage.ReturnsMapping nextFrame 1 addr 4096 1 MAP_POPULATE := by
  have hw : WellFormed (onePage.ctxList 1).vmArea := onePage_areas ▸ wellFormed_iff.mpr (by decide)
  refine ⟨_, rfl, (returnsMapping_iff hw (by decide) (by decide) picks_nextFrame fun k e hk _ _ => ?_).mpr fun hg => ?_⟩
  · rw [PageTable.get_eq, onePage_pte] at hk
    by_cases h : k = pageOf MMAP_AREA_START
    · rw [h, onePage_areas]; decide
    · rw [Function.update_of_ne h] at hk; cases hk
  · obtain ⟨a, ha, -, hf, -⟩ := hg
    rw [onePage_areas] at ha
    cases ha
    cases hf

/-- The second page, asked for with the same flags: the first one gets another frame. -/
theorem populate_replaces_frame :
    WellFormed (onePage.ctxList 1).vmArea ∧ MaximallyMerged (onePage.ctxList 1).vmArea ∧
      ¬ onePage.ReturnsMapping nextFrame 1 (MMAP_AREA_START + 4096) 4096 3 MAP_POPULATE ∧
      (onePage.vmAreaMap nextFrame 1 (MMAP_AREA_START + 4096) 4096 3 MAP_POPULATE).1 = MMAP_AREA_START ∧
      (onePage.table 1).get (pageOf MMAP_AREA_START) = some ⟨1, true⟩ ∧
      ((onePage.vmAreaMap nextFrame 1 (MMAP_AREA_START + 4096) 4096 3 MAP_POPULATE).2.table 1).get (pageOf MMAP_AREA_START) =
        some ⟨2, true⟩ := by
  have hret : (onePage.vmAreaMap nextFrame 1 (MMAP_AREA_START + 4096) 4096 3 MAP_POPULATE).1 = MMAP_AREA_START := by decide
  refine ⟨onePage_areas ▸ wellFormed_iff.mpr (by decide), onePage_areas ▸ List.isChain_singleton _, fun h => ?_, hret,
    by decide, by decide⟩
  obtain ⟨ret, he, hx, -, -⟩ := h (by rw [hret]; decide)
  obtain rfl : MMAP_AREA_START = ret := by rw [hret] at he; omega
  have hfree := (hx MMAP_AREA_START (Nat.le_refl _) (by decide)).1
  rw [onePage_areas] at hfree
  cases hfree

end Sys

end Cs330.Mm
