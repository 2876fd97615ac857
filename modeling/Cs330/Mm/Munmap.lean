/-
  Cs330.Mm.Munmap — munmap releases the translations of its range, and no others.

  pfn_unmap lowers the counter of a frame, or frees the frame where the counter is 1, and
  clears the PTE. `released_pfnUnmap`: after the pages up to one, every frame has lost as
  many references as PTEs were cleared, and is free if that left none. No more is needed
  than counters that are not below the number of PTEs in the region (`Backed`), whoever else
  maps the frames.

  vm_area_unmap returns 0 at once when there is no area. `unmap_releases_iff`: a call that
  returns 0 releases its range if and only if there is an area, or nothing to release; in a
  state in which a page is mapped and no area is there, the page stays
  (`unmap_without_areas`).
-/
import Cs330.Mm.Ownership

namespace Cs330.Mm

open Lib Lib.Seg Vm

namespace PageTable

/-- The pages from `first` to `last` that a table maps to frame `f`. -/
def mapping (t : PageTable) (first last f : Nat) : Finset Nat :=
  (Finset.Ico first last).filter fun k => (t.pte k).any fun e => e.frame = f

variable {t : PageTable} {first last m k f : Nat} {e : Pte}

theorem mem_mapping : k ∈ t.mapping first last f ↔ (first ≤ k ∧ k < last) ∧ ∃ e, t.pte k = some e ∧ e.frame = f := by
  unfold mapping
  simp only [Finset.mem_filter, Finset.mem_Ico, Option.any_eq_true, decide_eq_true_eq]

theorem mapping_mono {a b : Nat} (ha : a ≤ first) (hb : last ≤ b) : t.mapping first last f ⊆ t.mapping a b f := by
  intro k hk
  obtain ⟨⟨h1, h2⟩, hm⟩ := mem_mapping.mp hk
  exact mem_mapping.mpr ⟨⟨ha.trans h1, h2.trans_le hb⟩, hm⟩

theorem mapping_start : t.mapping first first f = ∅ := by
  unfold mapping
  rw [Finset.Ico_self, Finset.filter_empty]

theorem mapping_same (hm : first ≤ m) (he : t.pte m = some e) :
    (t.mapping first (m + 1) e.frame).card = (t.mapping first m e.frame).card + 1 := by
  have hn : m ∉ t.mapping first m e.frame := fun h => Nat.lt_irrefl _ (mem_mapping.mp h).1.2
  rw [← Finset.card_insert_of_notMem hn]
  congr 1
  ext k
  rw [Finset.mem_insert, mem_mapping, mem_mapping]
  constructor
  · intro h
    obtain ⟨⟨h1, h2⟩, h3⟩ := h
    rcases Nat.lt_succ_iff_lt_or_eq.mp h2 with h2 | h2
    · exact .inr ⟨⟨h1, h2⟩, h3⟩
    · exact .inl h2
  · intro h
    rcases h with rfl | h
    · exact ⟨⟨hm, Nat.lt_succ_self _⟩, e, he, rfl⟩
    · exact ⟨⟨h.1.1, Nat.lt_succ_of_lt h.1.2⟩, h.2⟩

theorem mapping_other (h : ∀ e, t.pte m = some e → e.frame ≠ f) :
    t.mapping first (m + 1) f = t.mapping first m f := by
  ext k
  rw [mem_mapping, mem_mapping]
  constructor
  · intro hk
    obtain ⟨⟨h1, h2⟩, e, he, hf⟩ := hk
    rcases Nat.lt_succ_iff_lt_or_eq.mp h2 with h2 | rfl
    · exact ⟨⟨h1, h2⟩, e, he, hf⟩
    · exact absurd hf (h e he)
  · intro hk
    exact ⟨⟨hk.1.1, Nat.lt_succ_of_lt hk.1.2⟩, hk.2⟩

end PageTable

namespace Sys

/-- No counter is below the number of PTEs of the mmap region to its frame; those of the
    table of `pid` are enough. -/
def Backed (s : Sys) (pid : Nat) : Prop :=
  ∀ f, ((s.table pid).mapping (MMAP_AREA_START / 4096) (MMAP_AREA_END / 4096) f).card ≤ (s.phys.refcount f).toNat

/-- The range has a PTE to `f`, and by the last of them the counter has come down to 1. -/
def Drained (s : Sys) (pid first last f : Nat) : Prop :=
  0 < ((s.table pid).mapping first last f).card ∧
    (s.phys.refcount f).toNat - (((s.table pid).mapping first last f).card - 1) = 1

/-- `t` is `s` with the translations of the pages from `first` to `last` released. -/
structure Released (s t : Sys) (pid first last : Nat) : Prop where
  cleared : ∀ k, first ≤ k → k < last → (t.table pid).pte k = none
  kept : ∀ k, k < first ∨ last ≤ k → (t.table pid).pte k = (s.table pid).pte k
  tables : (∀ i, (t.ctxList i).pgd = (s.ctxList i).pgd) ∧ ∀ g, g ≠ (s.ctxList pid).pgd → t.tables g = s.tables g
  counts : ∀ f, (t.phys.refcount f).toNat + ((s.table pid).mapping first last f).card = (s.phys.refcount f).toNat
  pool : ∃ freed : Finset Nat, (∀ f, f ∈ freed ↔ s.Drained pid first last f) ∧
    t.phys.inUse = s.phys.inUse \ freed ∧ t.phys.userRegPages = s.phys.userRegPages - freed.card
  mem : t.phys.mem = s.phys.mem

variable {s t : Sys} {pid addr first last m f : Nat}

/-! ## One page after the other -/

theorem released_none (s : Sys) (pid first : Nat) (areas : List VmArea) (nodes : Int) :
    Released s (s.setAreas pid areas nodes) pid first first := by
  have hpgd : ∀ i, ((s.setAreas pid areas nodes).ctxList i).pgd = (s.ctxList i).pgd := by
    intro i
    show (Function.update s.ctxList pid _ i).pgd = _
    by_cases hi : i = pid
    · rw [hi, Function.update_self]
    · rw [Function.update_of_ne hi]
  have htable : (s.setAreas pid areas nodes).table pid = s.table pid := congrArg s.tables (hpgd pid)
  refine ⟨fun k h1 h2 => absurd h1 (Nat.not_le.mpr h2), fun k _ => by rw [htable], ⟨hpgd, fun g _ => rfl⟩, ?_, ?_, rfl⟩
  · intro f
    rw [PageTable.mapping_start, Finset.card_empty]
    rfl
  · refine ⟨∅, fun f => ?_, (Finset.sdiff_empty).symm, by simp [setAreas, setCtx]⟩
    unfold Drained
    rw [PageTable.mapping_start, Finset.card_empty]
    simp

theorem pfnUnmap_eq {e : Pte} (he : t.getUserPte pid addr = some e) :
    (t.pfnUnmap pid addr).tables =
        Function.update t.tables (t.ctxList pid).pgd ((t.table pid).alter (pageOf addr) fun _ => none) ∧
      (t.pfnUnmap pid addr).phys =
        if t.phys.refcount e.frame = 1 then (t.osPfnFree e.frame).phys else (t.decrementRefcount e.frame).phys := by
  unfold pfnUnmap
  rw [he]
  simp only
  split
  · exact ⟨rfl, rfl⟩
  · exact ⟨rfl, rfl⟩

theorem pfnUnmap_pte {e : Pte} (he : t.getUserPte pid addr = some e) :
    ((t.pfnUnmap pid addr).table pid).pte = Function.update (t.table pid).pte (pageOf addr) none := by
  have hpte : (t.table pid).pte (pageOf addr) = some e := by rw [← PageTable.get_eq]; exact he
  have htable : (t.pfnUnmap pid addr).table pid = (t.table pid).alter (pageOf addr) fun _ => none := by
    unfold table
    rw [pfnUnmap_ctxList, (pfnUnmap_eq he).1, Function.update_self]
    rfl
  rw [htable, PageTable.alter_pte, hpte]
  rfl

/-- One reference to the frame is gone, freed or not. -/
theorem pfnUnmap_refcount {e : Pte} (he : t.getUserPte pid addr = some e) (hpos : 0 < (t.phys.refcount e.frame).toNat) :
    ((t.pfnUnmap pid addr).phys.refcount e.frame).toNat + 1 = (t.phys.refcount e.frame).toNat ∧
      ∀ f, f ≠ e.frame → (t.pfnUnmap pid addr).phys.refcount f = t.phys.refcount f := by
  rw [(pfnUnmap_eq he).2]
  have hone : (1 : UInt8).toNat = 1 := rfl
  split
  · rename_i h1
    refine ⟨?_, fun f hf => Function.update_of_ne hf ..⟩
    rw [h1]
    simp only [osPfnFree, Function.update_self]
    rfl
  · refine ⟨?_, fun f hf => Function.update_of_ne hf ..⟩
    have hle : (1 : UInt8) ≤ t.phys.refcount e.frame := UInt8.le_iff_toNat_le.mpr hpos
    simp only [decrementRefcount, Function.update_self]
    rw [UInt8.toNat_sub_of_le _ _ hle]
    omega

theorem mapping_step {e : Pte} (he : (s.table pid).pte m = some e) (hf : f ≠ e.frame) :
    (s.table pid).mapping first (m + 1) f = (s.table pid).mapping first m f := by
  apply PageTable.mapping_other
  intro d hd hdf
  rw [he] at hd
  cases hd
  exact hf hdf.symm

/-- The frame of a page joins the freed ones if this was the last reference to it. -/
theorem released_pool {e : Pte} (hb : ∀ f, ((s.table pid).mapping first (m + 1) f).card ≤ (s.phys.refcount f).toNat)
    (hm : first ≤ m) (he : (s.table pid).pte m = some e) (hget : t.getUserPte pid addr = some e)
    (h : Released s t pid first m) :
    ∃ freed : Finset Nat, (∀ f, f ∈ freed ↔ s.Drained pid first (m + 1) f) ∧
      (t.pfnUnmap pid addr).phys.inUse = s.phys.inUse \ freed ∧
      (t.pfnUnmap pid addr).phys.userRegPages = s.phys.userRegPages - freed.card := by
  have hcount := PageTable.mapping_same hm he
  have hbound := hb e.frame
  have hcounts := h.counts e.frame
  have hsame : ∀ f, f ≠ e.frame → (s.Drained pid first (m + 1) f ↔ s.Drained pid first m f) := by
    intro f hf
    unfold Drained
    rw [mapping_step he hf]
  -- before this page the counter of its frame had not come down to 1
  have hnot : ¬ s.Drained pid first m e.frame := by
    intro hd
    have h1 := hd.1
    have h2 := hd.2
    omega
  obtain ⟨freed, hmem, hpool, hpages⟩ := h.pool
  rw [(pfnUnmap_eq hget).2]
  by_cases h1 : t.phys.refcount e.frame = 1
  · rw [if_pos h1]
    have h1 : (t.phys.refcount e.frame).toNat = 1 := congrArg UInt8.toNat h1
    have hd : s.Drained pid first (m + 1) e.frame := ⟨by omega, by omega⟩
    refine ⟨insert e.frame freed, fun f => ?_, ?_, ?_⟩
    · by_cases hf : f = e.frame
      · subst hf
        simp [hd]
      · rw [Finset.mem_insert, hsame f hf, ← hmem]
        simp [hf]
    · simp only [osPfnFree]
      rw [hpool, Finset.sdiff_insert]
    · simp only [osPfnFree]
      rw [hpages, Finset.card_insert_of_notMem fun hin => hnot ((hmem _).mp hin)]
      omega
  · rw [if_neg h1]
    have hne : (t.phys.refcount e.frame).toNat ≠ 1 := fun h => h1 (UInt8.toNat_inj.mp h)
    have hd : ¬ s.Drained pid first (m + 1) e.frame := by
      intro hd
      have h2 := hd.2
      omega
    refine ⟨freed, fun f => ?_, hpool, hpages⟩
    rw [hmem]
    by_cases hf : f = e.frame
    · subst hf
      simp [hnot, hd]
    · exact (hsame f hf).symm

theorem released_pfnUnmap (hb : ∀ f, ((s.table pid).mapping first (m + 1) f).card ≤ (s.phys.refcount f).toNat)
    (hm : first ≤ m) (hm36 : m < 2 ^ 36) (h : Released s t pid first m) :
    Released s (t.pfnUnmap pid (4096 * m)) pid first (m + 1) := by
  have hpage : pageOf (4096 * m) = m := by unfold pageOf; omega
  have hpte : (t.table pid).pte m = (s.table pid).pte m := h.kept m (.inr (Nat.le_refl m))
  have hget : t.getUserPte pid (4096 * m) = (s.table pid).pte m := by
    unfold getUserPte
    rw [PageTable.get_eq, hpage, hpte]
  cases he : (s.table pid).pte m with
  | none =>
    -- nothing is mapped, and nothing changes
    have ht : t.pfnUnmap pid (4096 * m) = t := by unfold pfnUnmap; rw [hget, he]
    have hsame : ∀ f, (s.table pid).mapping first (m + 1) f = (s.table pid).mapping first m f := fun f =>
      PageTable.mapping_other fun e h => by rw [he] at h; cases h
    rw [ht]
    refine ⟨fun k h1 h2 => ?_, fun k hk => h.kept k (by omega), h.tables, fun f => ?_, ?_, h.mem⟩
    · rcases Nat.lt_succ_iff_lt_or_eq.mp h2 with h2 | rfl
      · exact h.cleared k h1 h2
      · rw [hpte, he]
    · rw [hsame]; exact h.counts f
    · obtain ⟨freed, hmem, hrest⟩ := h.pool
      exact ⟨freed, fun f => by rw [hmem]; unfold Drained; rw [hsame], hrest⟩
  | some e =>
    rw [he] at hget
    obtain ⟨htables, hphys⟩ := pfnUnmap_eq hget
    have hptes := pfnUnmap_pte hget
    have hcount := PageTable.mapping_same hm he
    have hbound := hb e.frame
    have hcounts := h.counts e.frame
    obtain ⟨hless, hrest⟩ := pfnUnmap_refcount hget (by omega)
    refine ⟨fun k h1 h2 => ?_, fun k hk => ?_, ⟨fun i => ?_, fun g hg => ?_⟩, fun f => ?_, released_pool hb hm he hget h, ?_⟩
    · rw [hptes, hpage]
      rcases Nat.lt_succ_iff_lt_or_eq.mp h2 with h2 | rfl
      · rw [Function.update_of_ne (Nat.ne_of_lt h2)]; exact h.cleared k h1 h2
      · rw [Function.update_self]
    · rw [hptes, hpage, Function.update_of_ne (by omega)]
      exact h.kept k (by omega)
    · rw [pfnUnmap_ctxList]; exact h.tables.1 i
    · rw [htables, h.tables.1, Function.update_of_ne hg]
      exact h.tables.2 g hg
    · by_cases hf : f = e.frame
      · subst hf; omega
      · rw [hrest f hf, mapping_step he hf]
        exact h.counts f
    · rw [hphys]
      split <;> exact h.mem

/-- The loop over the pages, all of them. -/
theorem released_pfnUnmapAll (hb : ∀ f, ((s.table pid).mapping first last f).card ≤ (s.phys.refcount f).toNat)
    (hle : first ≤ last) (h36 : last ≤ 2 ^ 36) (h : Released s t pid first first) :
    Released s (t.pfnUnmapAll pid ((List.range (last - first)).map fun i => 4096 * first + 4096 * i)) pid first last := by
  have hrun : ∀ n, first + n ≤ last →
      Released s (t.pfnUnmapAll pid ((List.range n).map fun i => 4096 * first + 4096 * i)) pid first (first + n) := by
    intro n
    induction n with
    | zero => exact fun _ => h
    | succ n ih =>
      intro hn
      have hstep := released_pfnUnmap (fun f => (Finset.card_le_card (PageTable.mapping_mono (Nat.le_refl _) (by omega))).trans
        (hb f)) (Nat.le_add_right first n) (by omega) (ih (by omega))
      rw [List.range_succ, List.map_append]
      unfold pfnUnmapAll at hstep ⊢
      rw [List.foldl_append]
      simpa only [Nat.mul_add, Nat.add_assoc, List.map_cons, List.map_nil, List.foldl_cons, List.foldl_nil] using hstep
  have := hrun (last - first) (by omega)
  rwa [Nat.add_sub_cancel' hle] at this

/-! ## The call -/

/-- The page behind the range. -/
def behind (addr : Nat) (length : Int) : Nat := pageOf addr + pageUp length / 4096

variable {length : Int}

/-- The pages of a range that ends in the region. -/
theorem vaddrs_range (ha : 4096 ∣ addr) (hend : addr + pageUp length ≤ MMAP_AREA_END) (hlen : Vm.Promised length) :
    pageOf addr = addr / 4096 ∧ vaddrs addr (plus addr (pageRound length)) =
      (List.range (behind addr length - pageOf addr)).map fun i => 4096 * pageOf addr + 4096 * i := by
  obtain ⟨-, -, hdvd, -, -⟩ := pageUp_spec hlen
  rw [end_eq] at hend
  have hpage : pageOf addr = addr / 4096 := pageOf_eq (by omega)
  refine ⟨hpage, ?_⟩
  unfold vaddrs behind
  rw [pageRound_eq hlen, plus_nat (by omega), Nat.add_sub_cancel_left, Nat.add_sub_cancel_left, hpage, Nat.mul_div_cancel' ha]
  congr 2
  omega

/-- What passes the check of vm_area_unmap ends in the region, its length rounded up too. -/
theorem unmapAreas_fits {areas : List VmArea} (ha : 4096 ∣ addr) (hin : MMAP_AREA_START ≤ addr ∧ addr < MMAP_AREA_END)
    (hlen : Vm.Promised length) (hret : (unmapAreas areas addr length).1 = 0) : addr + pageUp length ≤ MMAP_AREA_END := by
  have hend : 4096 ∣ MMAP_AREA_END := by decide
  have hlt : addr < 2 ^ 63 := by
    have h := hin.2
    rw [end_eq] at h
    omega
  apply (fits_iff hlen ha hend hlt).mp
  unfold unmapAreas at hret
  by_contra hout
  rw [if_pos ⟨Nat.ne_of_gt (Nat.lt_of_lt_of_le (by decide) hin.1), fun h => hout h.2⟩] at hret
  cases hret

/-- Where there is an area the loop runs. -/
theorem unmap_released (hb : s.Backed pid) (ha : 4096 ∣ addr) (hlow : MMAP_AREA_START ≤ addr)
    (hend : addr + pageUp length ≤ MMAP_AREA_END) (hlen : Vm.Promised length) (hret : (s.vmAreaUnmap pid addr length).1 = 0)
    (hareas : (s.ctxList pid).vmArea ≠ []) :
    Released s (s.vmAreaUnmap pid addr length).2 pid (pageOf addr) (behind addr length) := by
  obtain ⟨hpage, hvaddrs⟩ := vaddrs_range ha hend hlen
  have hret := (vmAreaUnmap_ret s pid addr length).symm.trans hret
  have hcall : (s.vmAreaUnmap pid addr length).2 = (s.setAreas pid (unmapAreas (s.ctxList pid).vmArea addr length).2.1
      (unmapAreas (s.ctxList pid).vmArea addr length).2.2).pfnUnmapAll pid (vaddrs addr (plus addr (pageRound length))) := by
    unfold vmAreaUnmap
    simp only [hret, if_pos, true_and, hareas, ne_eq, not_false_eq_true]
  rw [hcall, hvaddrs]
  have hstart : MMAP_AREA_START / 4096 ≤ pageOf addr := by
    rw [hpage]; exact Nat.div_le_div_right hlow
  have hstop : behind addr length ≤ MMAP_AREA_END / 4096 := by
    unfold behind
    rw [hpage, end_eq] at *
    omega
  apply released_pfnUnmapAll
  · intro f
    exact (Finset.card_le_card (PageTable.mapping_mono hstart hstop)).trans (hb f)
  · exact Nat.le_add_right _ _
  · rw [end_eq] at hstop
    omega
  · exact released_none ..

/-- Nothing mapped: nothing to release. -/
theorem released_absent (areas : List VmArea) (nodes : Int)
    (h : ∀ k, first ≤ k → k < last → (s.table pid).pte k = none) : Released s (s.setAreas pid areas nodes) pid first last := by
  have h0 := released_none s pid first areas nodes
  have hempty : ∀ f, (s.table pid).mapping first last f = ∅ := by
    intro f
    refine Finset.eq_empty_of_forall_notMem fun k hk => ?_
    obtain ⟨⟨h1, h2⟩, e, he, -⟩ := PageTable.mem_mapping.mp hk
    rw [h k h1 h2] at he
    cases he
  have hsame : ∀ f, (s.table pid).mapping first last f = (s.table pid).mapping first first f := fun f => by
    rw [hempty, PageTable.mapping_start]
  have hpte : ∀ k, ((s.setAreas pid areas nodes).table pid).pte k = (s.table pid).pte k := fun k =>
    h0.kept k (Nat.lt_or_ge k first)
  refine ⟨fun k h1 h2 => ?_, fun k _ => hpte k, h0.tables, fun f => ?_, ?_, h0.mem⟩
  · rw [hpte]; exact h k h1 h2
  · rw [hsame]; exact h0.counts f
  · obtain ⟨freed, hmem, hrest⟩ := h0.pool
    exact ⟨freed, fun f => by rw [hmem]; unfold Drained; rw [hsame], hrest⟩

theorem unmap_releases_iff (s : Sys) (pid addr : Nat) (length : Int) (hb : s.Backed pid) (ha : 4096 ∣ addr)
    (hin : MMAP_AREA_START ≤ addr ∧ addr < MMAP_AREA_END) (hlen : Vm.Promised length)
    (hret : (s.vmAreaUnmap pid addr length).1 = 0) :
    Released s (s.vmAreaUnmap pid addr length).2 pid (pageOf addr) (behind addr length) ↔
      (s.ctxList pid).vmArea ≠ [] ∨ ∀ k, pageOf addr ≤ k → k < behind addr length → (s.table pid).pte k = none := by
  by_cases hareas : (s.ctxList pid).vmArea = []
  · have hcall : (s.vmAreaUnmap pid addr length).2 = s.setAreas pid (unmapAreas (s.ctxList pid).vmArea addr length).2.1
        (unmapAreas (s.ctxList pid).vmArea addr length).2.2 := by
      unfold vmAreaUnmap
      simp only [hareas, ne_eq, not_true_eq_false, and_false, if_false]
    constructor
    · intro h
      refine .inr fun k h1 h2 => ?_
      have hk := h.cleared k h1 h2
      rwa [hcall, (released_none s pid k _ _).kept k (.inr (Nat.le_refl k))] at hk
    · intro h
      rw [hcall]
      exact released_absent _ _ (h.resolve_left fun hn => hn hareas)
  · have hend := unmapAreas_fits ha hin hlen ((vmAreaUnmap_ret s pid addr length).symm.trans hret)
    exact ⟨fun _ => .inl hareas, fun _ => unmap_released hb ha hin.1 hend hlen hret hareas⟩

/-- In every state a run of the system reaches, the counters are enough. -/
theorem backed_of_inv (hi : s.frames.Inv) (hl : s.Live pid) : s.Backed pid := by
  have hmap : ∀ k, (s.table pid).pte k = s.frames.map pid k := fun k => (if_pos hl).symm
  intro f
  rcases ((s.table pid).mapping (MMAP_AREA_START / 4096) (MMAP_AREA_END / 4096) f).eq_empty_or_nonempty with hempty | hsome
  · rw [hempty, Finset.card_empty]
    exact Nat.zero_le _
  · obtain ⟨k, hk⟩ := hsome
    obtain ⟨-, e, he, rfl⟩ := PageTable.mem_mapping.mp hk
    rw [hmap] at he
    refine (Finset.card_le_one.mpr ?_).trans (hi.pos he)
    intro a ha b hb
    obtain ⟨-, d, hd, hdf⟩ := PageTable.mem_mapping.mp ha
    obtain ⟨-, d', hd', hdf'⟩ := PageTable.mem_mapping.mp hb
    rw [hmap] at hd hd'
    exact hi.inj pid a b d d' hd hd' (hdf.trans hdf'.symm)

/-- A child, made when the page in the middle has been given back. -/
def halved : Sys := ((holed.doCfork nextFrame 1 0x72).map Prod.snd).getD holed

/-- The parent has written to the last page, and has a frame of its own for it. -/
def halfShared : Sys := halved.fault nextFrame 1 (MMAP_AREA_START + 8192) true

theorem halfShared_inv : halfShared.frames.Inv := by
  have hl : booted.Live 1 := by decide
  have hl1 : (populated 12288).Live 1 := by decide
  have hl2 : holed.Live 1 := by decide +kernel
  have hlen : Vm.Promised 12288 := by decide
  have hlen' : Vm.Promised 4096 := by decide
  have hb := start_base start_booted
  -- mmap and munmap
  have hp1 : booted.Promised (.mmap 1 0 12288 3 MAP_POPULATE nextFrame) := ⟨by decide, hlen, picks_nextFrame⟩
  have hb1 := base_step hb hp1 (populated_step 12288)
  have hc1 := counted_next hb (start_counted start_booted) (by decide) hp1 (populated_step 12288)
  have hp2 : (populated 12288).Promised (.munmap 1 (MMAP_AREA_START + 4096) 4096) := ⟨by decide, hlen'⟩
  have hb2 := base_step hb1 hp2 holed_step
  have hc2 := counted_next hb1 hc1 (by decide) hp2 holed_step
  -- the child
  have hpgd : ∀ i, (holed.ctxList i).pgd ≠ 0x72 := by
    intro i
    have h1 := (local_vmAreaMap picks_nextFrame hb.distinct hl 0 12288 3 MAP_POPULATE).1.pgd i
    have h2 := (local_vmAreaUnmap hb1.distinct hl1 (MMAP_AREA_START + 4096) 4096).pgd i
    rw [show (holed.ctxList i).pgd = (booted.ctxList i).pgd from h2.trans h1]
    exact booted_pgd i
  have hp3 : holed.Promised (.cfork 1 0x72 nextFrame) := ⟨picks_nextFrame, hpgd⟩
  have hstep3 : holed.step (.cfork 1 0x72 nextFrame) = some halved := step_cfork_some hl2 (by decide +kernel)
  have hb3 := base_step hb2 hp3 hstep3
  have hc3 := counted_next hb2 hc2 (by decide) hp3 hstep3
  -- the write
  have hstep4 : halved.step (.write 1 (MMAP_AREA_START + 8192) 0 nextFrame) = some halfShared :=
    step_write_fault (by decide +kernel) (by decide) (by decide +kernel)
  have hp4 : halved.Promised (.write 1 (MMAP_AREA_START + 8192) 0 nextFrame) := picks_nextFrame
  exact (counted_next hb3 hc3 (by decide) hp4 hstep4).inv

/-- Two areas and the hole between them: of the frames of the two pages one is shared and stays, the other is free. -/
theorem unmap_releases_iff_halfShared :
    Released halfShared (halfShared.vmAreaUnmap 1 MMAP_AREA_START 12288).2 1 (pageOf MMAP_AREA_START)
        (behind MMAP_AREA_START 12288) ∧
      halfShared.getUserPte 1 MMAP_AREA_START = some ⟨11, false⟩ ∧ halfShared.phys.refcount 11 = 2 ∧
      halfShared.getUserPte 1 (MMAP_AREA_START + 4096) = none ∧
      halfShared.getUserPte 1 (MMAP_AREA_START + 8192) = some ⟨15, true⟩ ∧ halfShared.phys.refcount 15 = 1 ∧
      (halfShared.vmAreaUnmap 1 MMAP_AREA_START 12288).2.phys.refcount 11 = 1 ∧
      15 ∉ (halfShared.vmAreaUnmap 1 MMAP_AREA_START 12288).2.phys.inUse := by
  have hlen : Vm.Promised 12288 := by decide
  have hareas : (halfShared.ctxList 1).vmArea =
      [⟨MMAP_AREA_START, MMAP_AREA_START + 4096, 3⟩, ⟨MMAP_AREA_START + 8192, MMAP_AREA_START + 12288, 3⟩] := by
    decide +kernel
  refine ⟨(unmap_releases_iff halfShared 1 MMAP_AREA_START 12288 ?_ (by decide) (by decide) hlen (by decide +kernel)).mpr (.inl ?_),
    by decide +kernel, by decide +kernel, by decide +kernel, by decide +kernel, by decide +kernel, by decide +kernel,
    by decide +kernel⟩
  · exact backed_of_inv halfShared_inv (by decide +kernel)
  · rw [hareas]
    exact List.cons_ne_nil _ _

/-! ## A page without an area -/

theorem backed_one {k f : Nat} {w : Bool} (hpte : (s.table pid).pte = Function.update (fun _ => none) k (some ⟨f, w⟩))
    (hcount : s.phys.refcount f = 1) : s.Backed pid := by
  intro g
  have hsub : (s.table pid).mapping (MMAP_AREA_START / 4096) (MMAP_AREA_END / 4096) g ⊆ if g = f then {k} else ∅ := by
    intro j hj
    obtain ⟨-, e, he, hg⟩ := PageTable.mem_mapping.mp hj
    rw [hpte] at he
    by_cases hj : j = k
    · subst hj
      rw [Function.update_self] at he
      cases he
      rw [if_pos hg.symm]
      exact Finset.mem_singleton_self j
    · rw [Function.update_of_ne hj] at he
      cases he
  refine (Finset.card_le_card hsub).trans ?_
  split
  · rename_i hg
    rw [hg, hcount]
    exact Nat.le_refl 1
  · exact Nat.zero_le _

/-- A page of the region is mapped, and there is no area. -/
def stray : Sys := (boot (fun _ _ => 0) 0x71).installPage nextFrame 1 MMAP_AREA_START true true

theorem stray_pte : (stray.table 1).pte = Function.update (fun _ => none) (pageOf MMAP_AREA_START) (some ⟨1, true⟩) := rfl

/-- It is the only page that is mapped. -/
theorem stray_only {i k : Nat} {e : Pte} (he : (stray.table i).pte k = some e) :
    i = 1 ∧ k = pageOf MMAP_AREA_START ∧ stray.phys.refcount e.frame = 1 := by
  have hi : i = 1 := by
    by_contra hne
    have hpgd : (stray.ctxList i).pgd ≠ 0x71 := by
      show (if i = 0 then _ else if i = 1 then _ else _ : Ctx).pgd ≠ _
      rw [if_neg hne]
      split
      · decide
      · decide
    have htable : stray.table i = PageTable.empty := Function.update_of_ne hpgd ..
    rw [htable] at he
    cases he
  subst hi
  rw [stray_pte] at he
  by_cases hk : k = pageOf MMAP_AREA_START
  · subst hk
    rw [Function.update_self] at he
    cases he
    exact ⟨rfl, rfl, by decide⟩
  · rw [Function.update_of_ne hk] at he
    cases he

theorem unmap_without_areas : stray.Backed 1 ∧
    (∀ i k e, (stray.table i).pte k = some e → i = 1 ∧ k = pageOf MMAP_AREA_START ∧ stray.phys.refcount e.frame = 1) ∧
    (stray.vmAreaUnmap 1 MMAP_AREA_START 4096).1 = 0 ∧
    ((stray.vmAreaUnmap 1 MMAP_AREA_START 4096).2.table 1).pte (pageOf MMAP_AREA_START) = some ⟨1, true⟩ ∧
    ¬ Released stray (stray.vmAreaUnmap 1 MMAP_AREA_START 4096).2 1 (pageOf MMAP_AREA_START) (behind MMAP_AREA_START 4096) := by
  have hstays : ((stray.vmAreaUnmap 1 MMAP_AREA_START 4096).2.table 1).pte (pageOf MMAP_AREA_START) = some ⟨1, true⟩ := by
    decide +kernel
  refine ⟨backed_one stray_pte (by decide), fun _ _ _ => stray_only, by decide +kernel, hstays, fun h => ?_⟩
  have hnone := h.cleared (pageOf MMAP_AREA_START) (Nat.le_refl _) (by decide)
  rw [hstays] at hnone
  cases hnone

end Sys

end Cs330.Mm
