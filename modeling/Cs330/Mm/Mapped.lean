/-
  Cs330.Mm.Mapped — what is mapped lies where the context says.

  `doPageFault_cases`: a fault that is resolved maps a new frame to its page, in a segment
  or an area, or makes the page writable in place or by a copy, or fills the stack down to
  the page. `Described` holds in every state of a run: each mapped page belongs to a segment
  or an area of its process.
-/
import Cs330.Mm.Pages

namespace Cs330.Mm

open Lib Lib.Seg Vm

/-- If the page is in an area, the area has the write flag. -/
def Ctx.Writable (c : Ctx) (k : Nat) : Prop := ∀ f, protAt c.vmArea (4096 * k) = some f → f &&& 2 ≠ 0

/-! ## The walks over the areas -/

theorem areaAt_of_noGap {b addr : Nat} {first : VmArea} {rest : List VmArea} (hc : Areas b (first :: rest))
    (h : noGapAt addr (first :: rest) = true) (hlow : first.vmStart ≤ addr) : protAt (first :: rest) addr ≠ none := by
  induction rest generalizing b first with
  | nil =>
    simp only [noGapAt, Bool.not_eq_true', decide_eq_false_iff_not, Nat.not_le] at h
    unfold protAt
    rw [valueAt_head ⟨hlow, h⟩]
    exact Option.some_ne_none _
  | cons next rest ih =>
    simp only [noGapAt, Bool.and_eq_true, Bool.not_eq_true', Bool.and_eq_false_iff, decide_eq_false_iff_not, Nat.not_le,
      Nat.not_lt] at h
    unfold protAt at *
    by_cases hin : addr < first.vmEnd
    · rw [valueAt_head ⟨hlow, hin⟩]
      exact Option.some_ne_none _
    · rw [valueAt_tail fun hx => hin hx.2]
      exact ih hc.tail h.2 (h.1.resolve_left hin)

theorem writable_of_writableAt {c : Ctx} {b addr : Nat} (hc : Areas b c.vmArea) (ha : addr < 2 ^ 48)
    (h : writableAt addr c.vmArea = true) : c.Writable (pageOf addr) := by
  intro f hf
  rw [pageOf_eq ha, protAt_page hc] at hf
  obtain ⟨a, hmem, hin, rfl⟩ := mem_of_valueAt hf
  have ha := List.all_eq_true.mp h a hmem
  simp only [lo_eq, hi_eq] at hin
  simpa [hin.1, hin.2] using ha

namespace Ctx.Layout

variable {c : Ctx} (h : c.Layout) {k addr : Nat}
include h

/-- Outside the region of mmap there is no area. -/
theorem writable_outside (hk : 4096 * k < MMAP_AREA_START ∨ MMAP_AREA_END ≤ 4096 * k) : c.Writable k := by
  intro f hf
  rcases hk with hk | hk
  · unfold protAt at hf; rw [h.areas.valueAt_below hk] at hf; cases hf
  · unfold protAt at hf; rw [h.areas.valueAt_above hk] at hf; cases hf

theorem data_page (h1 : c.data.start ≤ addr) (h2 : addr < c.data.nextFree) :
    c.Holds (pageOf addr) ∧ c.Writable (pageOf addr) := by
  obtain ⟨hd1, -, -, hd4, hd5⟩ := h.data
  unfold DATA_START at hd1
  have hlt := hd4
  unfold MMAP_AREA_START at hlt
  rw [pageOf_eq (by omega)]
  have hk : c.data.Holds (addr / 4096) := ⟨by omega, by omega⟩
  exact ⟨Or.inr (Or.inr (Or.inl hk)), h.writable_outside (Or.inl (Nat.lt_of_lt_of_le hk.2 hd4))⟩

theorem rodata_page (h1 : c.rodata.start ≤ addr) (h2 : addr < c.rodata.nextFree) : c.Holds (pageOf addr) := by
  obtain ⟨hr1, -, -, hr4, hr5⟩ := h.rodata
  unfold RODATA_START at hr1
  unfold DATA_START at hr4
  rw [pageOf_eq (by omega)]
  exact Or.inr (Or.inl ⟨by omega, by omega⟩)

theorem stack_writable (hk : c.stack.start ≤ 4096 * k) : c.Writable k := by
  refine h.writable_outside (Or.inr (Nat.le_trans ?_ hk))
  rw [h.stack.1]
  decide

end Ctx.Layout

namespace Sys

variable {s t : Sys} {pid addr : Nat} {pick : Finset Nat → Nat}

/-! ## Faults -/

inductive Resolved (s : Sys) (pick : Finset Nat → Nat) (pid addr : Nat) (t : Sys) : Prop
  | fresh (w : Bool) (hnone : s.frames.map pid (pageOf addr) = none)
      (hf : t.frames = s.frames.fresh pid (pageOf addr) (pick s.phys.inUse) w) (hc : t.ctxList = s.ctxList)
      (hholds : (s.ctxList pid).Holds (pageOf addr)) (hw : w = true → (s.ctxList pid).Writable (pageOf addr))
  | inPlace (e : Pte) (he : s.frames.map pid (pageOf addr) = some e) (h1 : s.frames.count e.frame = 1)
      (hf : t.frames = s.frames.chmod pid (pageOf addr) true) (hc : t.ctxList = s.ctxList)
      (hw : (s.ctxList pid).Writable (pageOf addr))
  | copied (e : Pte) (he : s.frames.map pid (pageOf addr) = some e) (h1 : s.frames.count e.frame ≠ 1)
      (hf : t.frames = s.frames.copy pid (pageOf addr) (pick s.phys.inUse)) (hc : t.ctxList = s.ctxList)
      (hw : (s.ctxList pid).Writable (pageOf addr))
  | stack (w : Bool) (ks : List Nat) (n : Nat) (hf : t.frames = s.frames.freshAll pick pid w ks)
      (hc : t.ctxList pid = { s.ctxList pid with stack := { (s.ctxList pid).stack with nextFree := n } })
      (hlow : (s.ctxList pid).stack.start ≤ n) (hn : n ≤ (s.ctxList pid).stack.nextFree)
      (hks : ∀ k ∈ ks, n ≤ 4096 * k ∧ 4096 * k < (s.ctxList pid).stack.nextFree)

theorem growStack_fills (hp : Picks pick) (hd : s.Distinct) (hl : s.Live pid) (err : UInt64) (n : Nat)
    (hn : 4096 * n ≤ (s.ctxList pid).stack.nextFree) (ha : 4096 ∣ (s.ctxList pid).stack.nextFree)
    (htop : (s.ctxList pid).stack.nextFree ≤ STACK_START) :
    ∃ ks, (growStack pick pid err n s).frames = s.frames.freshAll pick pid (decide (err &&& 2 ≠ 0)) ks ∧
      ∀ k ∈ ks, (s.ctxList pid).stack.nextFree - 4096 * n ≤ 4096 * k ∧ 4096 * k < (s.ctxList pid).stack.nextFree := by
  induction n generalizing s with
  | zero => exact ⟨[], rfl, fun k hk => absurd hk List.not_mem_nil⟩
  | succ n ih =>
    obtain ⟨nf, hnf⟩ : ∃ nf, nf = (s.ctxList pid).stack.nextFree - 4096 := ⟨_, rfl⟩
    have h1 : Local pid s (s.setStackNextFree pid nf) := .setCtx rfl Iff.rfl
    have hframes : (s.setStackNextFree pid nf).frames = s.frames :=
      (frames_setCtx (s := s) pid { s.ctxList pid with stack := { (s.ctxList pid).stack with nextFree := nf } } rfl Iff.rfl).1
    have h2 := local_installPage hp (h1.distinct hd) ((h1.live pid).mpr hl) nf
      (decide (err &&& 2 ≠ 0)) (decide (err &&& 2 ≠ 0))
    have hfill := frames_installPage hp (h1.distinct hd) ((h1.live pid).mpr hl) nf
      (decide (err &&& 2 ≠ 0)) (decide (err &&& 2 ≠ 0))
    rw [hframes] at hfill
    have hc : (((s.setStackNextFree pid nf).installPage pick pid nf (decide (err &&& 2 ≠ 0))
        (decide (err &&& 2 ≠ 0))).ctxList pid).stack.nextFree = nf := by
      rw [installPage_ctxList, setStackNextFree, setCtx_self]
    obtain ⟨ks, hf, hks⟩ := ih ((h1.trans h2).distinct hd) (((h1.trans h2).live pid).mpr hl) (by rw [hc]; omega)
      (by rw [hc]; omega) (by rw [hc]; omega)
    rw [hc] at hks
    refine ⟨pageOf nf :: ks, ?_, fun k hk => ?_⟩
    · unfold growStack
      simp only [← hnf]
      refine hf.trans ?_
      rw [hfill]
      rfl
    · rcases List.mem_cons.mp hk with hk | hk
      · unfold STACK_START at htop
        rw [hk, pageOf_eq (by omega)]
        omega
      · have := hks k hk
        omega

/-- A fault changes nothing, or maps the page as it should be. -/
theorem doPageFault_cases (hp : Picks pick) (hd : s.Distinct) (hl : s.Live pid) (hlay : (s.ctxList pid).Layout)
    (ha : addr < 2 ^ 48) {err : UInt64} (herr : err &&& 1 = 0 → s.frames.map pid (pageOf addr) = none) :
    s.doPageFault pick pid addr err = (false, s) ∨
      ((s.doPageFault pick pid addr err).1 = true ∧ Resolved s pick pid addr (s.doPageFault pick pid addr err).2) := by
  have hinstall : err &&& 1 = 0 → (s.ctxList pid).Holds (pageOf addr) →
      (err &&& 2 ≠ 0 → (s.ctxList pid).Writable (pageOf addr)) → ∀ u, Resolved s pick pid addr
        (s.installPage pick pid addr (decide (err &&& 2 ≠ 0)) u) := by
    intro h0 hk hw u
    exact .fresh _ (herr h0) (frames_installPage hp hd hl _ _ u) (installPage_ctxList pick _ u) hk fun h => hw (of_decide_eq_true h)
  unfold doPageFault
  simp only
  split
  · rcases handleCowFault_cases hp hd hl addr with h | ⟨e, he, hwr, hret, hor⟩
    · rw [h]; exact Or.inl rfl
    · have hctx := handleCowFault_ctxList s pick pid addr
      have hw := writable_of_writableAt hlay.areas ha hwr
      refine Or.inr ⟨by rw [hret]; rfl, ?_⟩
      rcases hor with ⟨h1, hf⟩ | ⟨h1, hf⟩
      · exact .inPlace e he h1 hf hctx hw
      · exact .copied e he h1 hf hctx hw
  split
  · exact Or.inl rfl
  rename_i h0
  have h0 := not_not.mp h0
  split
  · rename_i hseg
    split
    · rename_i hlt
      obtain ⟨h1, h2⟩ := hlay.data_page hseg.1 hlt
      exact Or.inr ⟨rfl, hinstall h0 h1 (fun _ => h2) _⟩
    · exact Or.inl rfl
  split
  · rename_i hseg
    split
    · rename_i hlt
      exact Or.inr ⟨rfl, hinstall h0 (hlay.rodata_page hseg.1 hlt.1) (fun hw => absurd hlt.2 hw) _⟩
    · exact Or.inl rfl
  split
  · rename_i hseg
    split
    · rename_i hlt
      obtain ⟨s1, s2, s3, s4, s5, -⟩ := hlay.stack
      obtain ⟨n, hn⟩ : ∃ n, n = ((s.ctxList pid).stack.nextFree - addr / 4096 * 4096) / 4096 := ⟨_, rfl⟩
      have hstart : 4096 ∣ (s.ctxList pid).stack.start := by rw [s1]; decide
      have hnle : (s.ctxList pid).stack.start ≤ (s.ctxList pid).stack.nextFree - 4096 * n ∧ 0 < n ∧
          4096 * n ≤ (s.ctxList pid).stack.nextFree := by omega
      obtain ⟨ks, hf, hks⟩ := growStack_fills hp hd hl err n hnle.2.2 s5 (Nat.le_of_lt s4)
      obtain ⟨h1, h2⟩ := local_growStack hp hd hl err n
      rw [← hn]
      refine Or.inr ⟨rfl, ?_⟩
      have hnf : ((growStack pick pid err n s).ctxList pid).stack.nextFree = (s.ctxList pid).stack.nextFree - 4096 * n := by
        rw [h2]
      rw [hnf]
      unfold STACK_START at s4
      refine .stack (decide (err &&& 2 ≠ 0)) (ks ++ [pageOf ((s.ctxList pid).stack.nextFree - 4096 * n)]) _ ?_
        (by rw [installPageTable, installPage_ctxList]; exact h2) hnle.1 (Nat.sub_le _ _) fun k hk => ?_
      · refine (frames_installPage hp (h1.distinct hd) ((h1.live pid).mpr hl) _ _ _).trans ?_
        rw [Frames.freshAll_append, ← hf]
        rfl
      · rcases List.mem_append.mp hk with hk | hk
        · exact hks k hk
        · rw [List.mem_singleton.mp hk, pageOf_eq (by omega)]
          omega
    · exact Or.inl rfl
  split
  · rcases vmAreaPagefault_cases s pick pid addr err with h | ⟨h, hgap, ⟨first, rest, hareas, hle⟩, hwr⟩
    · rw [h]; exact Or.inl rfl
    · rw [h]
      refine Or.inr ⟨rfl, hinstall h0 ?_ (fun hw => writable_of_writableAt hlay.areas ha (hwr hw)) true⟩
      refine Or.inr (Or.inr (Or.inr (Or.inr ?_)))
      rw [pageOf_eq ha, protAt_page hlay.areas]
      have hc := hlay.areas
      rw [hareas] at hc hgap ⊢
      exact areaAt_of_noGap hc hgap hle
  · exact Or.inl rfl

/-- Of an access the page table does not allow. -/
theorem fault_cases (hp : Picks pick) (hd : s.Distinct) (hl : s.Live pid) (hlay : (s.ctxList pid).Layout)
    (ha : addr < 2 ^ 47) (write : Bool) :
    s.fault pick pid addr write = s.doExit pid ∨
      (Local pid s (s.fault pick pid addr write) ∧ Resolved s pick pid addr (s.fault pick pid addr write)) := by
  unfold fault
  simp only
  have ha' : addr < 2 ^ 48 := Nat.lt_trans ha (by decide)
  have herr : (s.table pid).errorCode (pageOf addr) write &&& 1 = 0 → s.frames.map pid (pageOf addr) = none := by
    intro h
    rw [frames_map hl]
    cases hpte : (s.table pid).pte (pageOf addr) with
    | none => rfl
    | some e =>
      unfold PageTable.errorCode at h
      rw [hpte, Option.isSome_some, if_pos rfl] at h
      cases write
      · exact absurd h (by decide)
      · exact absurd h (by decide)
  rcases doPageFault_cases hp hd hl hlay ha' herr with h | ⟨h, hr⟩
  · rw [h]; exact Or.inl rfl
  · rw [if_pos h]; exact Or.inr ⟨(doPageFault_spec hp hd hl addr _).1, hr⟩

/-! ## mmap -/

theorem frames_installPage_loop (hp : Picks pick) (hd : s.Distinct) (hl : s.Live pid) (w u : Bool) (is : List Nat) :
    (is.foldl (fun s i => s.installPage pick pid i w u) s).frames = s.frames.freshAll pick pid w (is.map pageOf) ∧
      (is.foldl (fun s i => s.installPage pick pid i w u) s).ctxList = s.ctxList := by
  induction is generalizing s with
  | nil => exact ⟨rfl, rfl⟩
  | cons i is ih =>
    have h := local_installPage hp hd hl i w u
    obtain ⟨h1, h2⟩ := ih (s := s.installPage pick pid i w u) (h.distinct hd) ((h.live pid).mpr hl)
    refine ⟨h1.trans ?_, h2.trans (installPage_ctxList pick w u)⟩
    rw [frames_installPage hp hd hl]
    rfl

/-- The frames of mmap: none, or new ones for pages that it maps as it was asked to. -/
theorem frames_vmAreaMap (hp : Picks pick) (hd : s.Distinct) (hl : s.Live pid) (hlay : (s.ctxList pid).Layout)
    {length : Int} (ha : 4096 ∣ addr) (hlen : Vm.Promised length) (prot flags : UInt32) :
    (s.vmAreaMap pick pid addr length prot flags).2.frames = s.frames ∨ flags &&& MAP_POPULATE ≠ 0 ∧
      ∃ ks, (s.vmAreaMap pick pid addr length prot flags).2.frames = s.frames.freshAll pick pid (prot &&& 2 ≠ 0) ks ∧
        ∀ k ∈ ks, protAt (mapAreas (s.ctxList pid).vmArea addr length prot flags).2.1 (4096 * k) = some prot := by
  obtain ⟨e1, -, -⟩ := frames_setAreas s pid (mapAreas (s.ctxList pid).vmArea addr length prot flags).2.1
    (mapAreas (s.ctxList pid).vmArea addr length prot flags).2.2
  have h := local_setAreas s pid (mapAreas (s.ctxList pid).vmArea addr length prot flags).2.1
    (mapAreas (s.ctxList pid).vmArea addr length prot flags).2.2
  by_cases hret : (mapAreas (s.ctxList pid).vmArea addr length prot flags).1 = -1
  · refine Or.inl ?_
    unfold vmAreaMap
    simp only [if_pos hret]
    exact e1
  · obtain ⟨ret, he, hdvd, -, hhigh, hcov⟩ := mapAreas_covers hlay.areas hlen ha hret
    rw [end_eq] at hhigh
    have hne : (ret : Int) ≠ -1 := by omega
    unfold vmAreaMap
    simp only [he, if_neg hne, Int.toNat_natCast]
    split
    · rename_i hpop
      refine Or.inr ⟨hpop, _, (frames_installPage_loop hp (h.distinct hd) ((h.live pid).mpr hl) _ true _).1.trans (by rw [e1]), ?_⟩
      intro k hk
      rw [pageRound_eq hlen, plus_nat (by omega), mem_pages hdvd (by omega)] at hk
      exact hcov (4096 * k) hk.1 hk.2
    · exact Or.inl e1

/-- mmap keeps the areas there are, and adds to them in its region. -/
theorem mapAreas_keeps {areas : List VmArea} (hw : Areas MMAP_AREA_START areas) {length : Int} (ha : 4096 ∣ addr)
    (hlen : Vm.Promised length) (prot flags : UInt32) (x : Nat) :
    protAt (mapAreas areas addr length prot flags).2.1 x = protAt areas x ∨
      (protAt areas x = none ∧ MMAP_AREA_START ≤ x ∧ x < MMAP_AREA_END ∧
        protAt (mapAreas areas addr length prot flags).2.1 x = some prot) := by
  by_cases hret : (mapAreas areas addr length prot flags).1 = -1
  · rw [mapAreas_fails hret]
    exact Or.inl rfl
  · obtain ⟨r, hm, -, -⟩ := mapAreas_maps hw hlen ha hret
    have hlow := hm.low
    have hhigh := hm.high
    by_cases hx : r ≤ x ∧ x < r + pageUp length
    · exact Or.inr ⟨hm.free x hx.1 hx.2, by omega, by omega, (hm.value x).trans (if_pos hx)⟩
    · exact Or.inl ((hm.value x).trans (if_neg hx))

/-! ## munmap and mprotect -/

/-- The pages of the range of a successful munmap. -/
theorem mem_unmapped {areas : List VmArea} {length : Int} (ha : 4096 ∣ addr) (hlen : Vm.Promised length)
    (hret : (unmapAreas areas addr length).1 = 0) {k : Nat} (hk : k < 2 ^ 36) :
    k ∈ (vaddrs addr (plus addr (pageRound length))).map pageOf ↔ addr ≤ 4096 * k ∧ 4096 * k < addr + pageUp length := by
  obtain ⟨hn, hn31, hnp, hle, hlt⟩ := pageUp_spec hlen
  rw [pageRound_eq hlen]
  have hin : addr = 0 ∨ plus addr length ≤ MMAP_AREA_END := by
    unfold unmapAreas at hret
    by_cases hout : addr ≠ 0 ∧ ¬ (MMAP_AREA_START ≤ addr ∧ plus addr length ≤ MMAP_AREA_END)
    · rw [if_pos hout] at hret; cases hret
    · by_cases h0 : addr = 0
      · exact Or.inl h0
      · exact Or.inr (not_not.mp fun h => hout ⟨h0, fun h' => h h'.2⟩)
  rw [end_eq] at hin
  by_cases hhigh : addr < 2 ^ 47
  · rw [plus_nat (by omega)]
    exact mem_pages ha (by omega)
  · -- the sum has wrapped, and the loop does not start
    have hlow : plus addr (pageUp length) ≤ addr := by
      unfold plus at hin ⊢
      omega
    have hnil : vaddrs addr (plus addr (pageUp length)) = [] := by
      refine List.eq_nil_iff_forall_not_mem.mpr fun v hv => ?_
      obtain ⟨hlt, i, rfl⟩ := mem_vaddrs.mp hv
      omega
    rw [hnil]
    unfold plus at hin
    exact iff_of_false List.not_mem_nil fun h => by omega

/-- munmap drops the pages it takes from the areas. -/
theorem vmAreaUnmap_cases (hd : s.Distinct) (hl : s.Live pid) (hlay : (s.ctxList pid).Layout) {length : Int}
    (ha : 4096 ∣ addr) (hlen : Vm.Promised length) :
    ((s.vmAreaUnmap pid addr length).2.frames = s.frames ∧
      (s.vmAreaUnmap pid addr length).2.ctxList pid = s.ctxList pid ∧
      ((s.vmAreaUnmap pid addr length).1 = 0 → (s.ctxList pid).vmArea = [])) ∨
    ((s.vmAreaUnmap pid addr length).1 = 0 ∧ ∃ ks areas,
      (s.vmAreaUnmap pid addr length).2.frames = s.frames.dropAll pid ks ∧
      (s.vmAreaUnmap pid addr length).2.ctxList pid = { s.ctxList pid with vmArea := areas } ∧
      (∀ k, k < 2 ^ 36 → (k ∈ ks ↔ addr ≤ 4096 * k ∧ 4096 * k < addr + pageUp length)) ∧
      ∀ x, protAt areas x = if addr ≤ x ∧ x < addr + pageUp length then none else protAt (s.ctxList pid).vmArea x) := by
  obtain ⟨h1, h2, h3⟩ := vmAreaUnmap_spec hd hl addr length
  have hctx := (congrFun h3 pid).trans (setAreas_ctx s pid _ _)
  by_cases h0 : (unmapAreas (s.ctxList pid).vmArea addr length).1 = 0
  · by_cases hnil : (s.ctxList pid).vmArea = []
    · refine Or.inl ⟨h2 fun h => h.2 hnil, ?_, fun _ => hnil⟩
      have hnew : (unmapAreas (s.ctxList pid).vmArea addr length).2.1 = [] := by
        rw [hnil]; unfold unmapAreas unmapFrom; split <;> rfl
      rw [hctx, hnew, ← hnil]
    · exact Or.inr ⟨(vmAreaUnmap_ret s pid addr length).trans h0, _, _, h1 ⟨h0, hnil⟩, hctx,
        fun k hk => mem_unmapped ha hlen h0 hk, (unmapAreas_clears hlay.areas hlen ha h0).value⟩
  · have hfail := unmapAreas_fails h0
    refine Or.inl ⟨h2 fun h => h0 h.1, by rw [hctx, hfail], fun h => absurd ?_ h0⟩
    exact (vmAreaUnmap_ret s pid addr length).symm.trans h

/-- mprotect changes no more than the flags of areas there are, and the PTE of its first page. -/
theorem vmAreaMprotect_cases (hd : s.Distinct) (hl : s.Live pid) (hlay : (s.ctxList pid).Layout) {length : Int}
    (ha : 4096 ∣ addr) (hlen : Vm.Promised length) (prot : UInt32) :
    ((s.vmAreaMprotect pid addr length prot).2.frames = s.frames ∧
      (s.vmAreaMprotect pid addr length prot).2.ctxList pid = s.ctxList pid ∧
      (s.vmAreaMprotect pid addr length prot).1 ≠ 0) ∨
    ((s.vmAreaMprotect pid addr length prot).1 = 0 ∧ ∃ areas,
      (s.vmAreaMprotect pid addr length prot).2.frames = s.frames.chmod pid (pageOf addr) (prot &&& 2 ≠ 0) ∧
      (s.vmAreaMprotect pid addr length prot).2.ctxList pid = { s.ctxList pid with vmArea := areas } ∧
      ∀ x, protAt areas x = if addr ≤ x ∧ x < addr + pageUp length then (protAt (s.ctxList pid).vmArea x).map fun _ => prot
        else protAt (s.ctxList pid).vmArea x) := by
  by_cases h0 : (protectAreas (s.ctxList pid).vmArea addr length prot).1 = 0
  · have hwithin := (protectAreas_within hlay.areas hlen ha h0).2
    have hpos := (pageUp_spec hlen).1
    rw [end_eq] at hwithin
    have hne : vaddrs addr (plus addr (pageRound length)) ≠ [] := by
      rw [pageRound_eq hlen, plus_nat (by omega)]
      exact List.ne_nil_of_mem (mem_vaddrs.mpr ⟨by omega, 0, rfl⟩)
    have h := local_setAreas s pid (protectAreas (s.ctxList pid).vmArea addr length prot).2.1
      (protectAreas (s.ctxList pid).vmArea addr length prot).2.2
    obtain ⟨e1, -, -⟩ := frames_setAreas s pid (protectAreas (s.ctxList pid).vmArea addr length prot).2.1
      (protectAreas (s.ctxList pid).vmArea addr length prot).2.2
    obtain ⟨h1, h2⟩ := frames_changePermissions_loop (h.distinct hd) ((h.live pid).mpr hl) addr prot
      (vaddrs addr (plus addr (pageRound length)))
    rw [if_neg hne, e1] at h1
    unfold vmAreaMprotect
    simp only [if_pos h0]
    exact Or.inr ⟨trivial, _, h1, (congrFun h2 pid).trans (setAreas_ctx s pid _ _), (protectAreas_paints hlay.areas hlen ha h0).1.value⟩
  · have hfail := protectAreas_fails h0
    obtain ⟨e1, -, -⟩ := frames_setAreas s pid (s.ctxList pid).vmArea 0
    unfold vmAreaMprotect
    simp only [hfail]
    exact Or.inl ⟨e1, setAreas_ctx s pid _ _, fun h => by cases h⟩

end Sys

end Cs330.Mm
