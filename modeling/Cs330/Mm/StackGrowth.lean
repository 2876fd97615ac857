/-
  Cs330.Mm.StackGrowth — the stack grows by page faults.

  A fault below the stack installs the pages down to the address in a loop, and then the
  last of them again: each growth takes a frame that nothing maps (`growth_card`). The pages
  get the write bit of the one access, and handle_cow_fault does not serve the stack, so
  the first write to a page that came with a read ends the process (`stack_access_iff`,
  `read_then_write`). What is promised of the stack so holds of those sequences of accesses
  that need no growth (`served_iff`).
-/
import Cs330.Mm.Demand

namespace Cs330.Mm

open Lib Lib.Seg Vm

/-- A read, or a write of a byte, and how frames are picked if it faults. -/
structure Access where
  addr : Nat
  byte : Option UInt8
  pick : Finset Nat → Nat

def Access.write (a : Access) : Bool := a.byte.isSome

namespace Sys

variable {s t : Sys} {pid addr : Nat} {pick : Finset Nat → Nat}

/-- An access the page table allows. -/
def perform (s : Sys) (pid : Nat) (a : Access) : Sys :=
  match a.byte with
  | none => s
  | some byte => s.store pid a.addr byte

/-- What a fault below the stack is to do. -/
structure Grown (s t : Sys) (pid addr : Nat) : Prop where
  /-- The pages from that of the address up to the old end are mapped, -/
  mapped : ∀ k, addr / 4096 ≤ k → 4096 * k < (s.ctxList pid).stack.nextFree → (t.table pid).pte k ≠ none
  /-- each to a new frame, and no other frame is taken. -/
  fresh : ∀ k e, addr / 4096 ≤ k → 4096 * k < (s.ctxList pid).stack.nextFree → (t.table pid).pte k = some e →
    e.frame ∉ s.phys.inUse
  one : ∀ f ∈ t.phys.inUse, f ∉ s.phys.inUse →
    ∃ k e, addr / 4096 ≤ k ∧ 4096 * k < (s.ctxList pid).stack.nextFree ∧ (t.table pid).pte k = some e ∧ e.frame = f
  kept : ∀ k e, (s.table pid).pte k = some e → (t.table pid).pte k = some e
  nextFree : (t.ctxList pid).stack.nextFree = addr / 4096 * 4096

/-- All accesses of a sequence succeed, each after finitely many faults that are resolved and grow the stack as they are to. -/
inductive Served (pid : Nat) : Sys → List Access → Sys → Prop
  | nil (s : Sys) : Served pid s [] s
  | access {s t : Sys} {a : Access} {as : List Access} (h : (s.table pid).allows (pageOf a.addr) a.write = true) :
      Served pid (s.perform pid a) as t → Served pid s (a :: as) t
  | fault {s t : Sys} {a : Access} {as : List Access} {r : Bool × Sys} (h : (s.table pid).allows (pageOf a.addr) a.write = false)
      (hr : r = s.doPageFault a.pick pid a.addr ((s.table pid).errorCode (pageOf a.addr) a.write)) (hres : r.1 = true)
      (hgrown : a.addr < (s.ctxList pid).stack.nextFree → Grown s r.2 pid a.addr) :
      Served pid r.2 (a :: as) t → Served pid s (a :: as) t

/-! ## What one growth takes -/

theorem installPage_card (hp : Picks pick) (s : Sys) (pid addr : Nat) (w u : Bool) :
    s.phys.inUse ⊆ (s.installPage pick pid addr w u).phys.inUse ∧
      (s.installPage pick pid addr w u).phys.inUse.card = s.phys.inUse.card + 1 := by
  have hused : (s.installPage pick pid addr w u).phys.inUse = insert (pick s.phys.inUse) s.phys.inUse := by
    unfold installPage
    rw [osPfnAlloc_eq hp]
    rfl
  rw [hused]
  exact ⟨Finset.subset_insert .., Finset.card_insert_of_notMem (hp _).1⟩

theorem growStack_card (hp : Picks pick) (s : Sys) (pid : Nat) (err : UInt64) (n : Nat) :
    s.phys.inUse ⊆ (growStack pick pid err n s).phys.inUse ∧
      (growStack pick pid err n s).phys.inUse.card = s.phys.inUse.card + n := by
  induction n generalizing s with
  | zero => exact ⟨Finset.Subset.refl _, rfl⟩
  | succ n ih =>
    unfold growStack
    simp only
    obtain ⟨h1, h2⟩ := installPage_card hp (s.setStackNextFree pid ((s.ctxList pid).stack.nextFree - 4096)) pid
      ((s.ctxList pid).stack.nextFree - 4096) (decide (err &&& 2 ≠ 0)) (decide (err &&& 2 ≠ 0))
    obtain ⟨h3, h4⟩ := ih ((s.setStackNextFree pid ((s.ctxList pid).stack.nextFree - 4096)).installPageTable pick pid
      ((s.ctxList pid).stack.nextFree - 4096) err)
    refine ⟨h1.trans h3, h4.trans ?_⟩
    have h2 : ((s.setStackNextFree pid ((s.ctxList pid).stack.nextFree - 4096)).installPageTable pick pid
      ((s.ctxList pid).stack.nextFree - 4096) err).phys.inUse.card = s.phys.inUse.card + 1 := h2
    rw [h2]
    omega

/-- A fault on a page of the stack that is not there, by the end of the stack. -/
theorem doPageFault_stack (pick : Finset Nat → Nat) (hlay : (s.ctxList pid).Layout) (hlow : STACK_START - MAX_STACK_SIZE ≤ addr)
    (hhigh : addr < STACK_START) {err : UInt64} (h7 : err ≠ 7) (h1 : err &&& 1 = 0) : s.doPageFault pick pid addr err =
      if addr < (s.ctxList pid).stack.nextFree then
        (true, (growStack pick pid err (((s.ctxList pid).stack.nextFree - addr / 4096 * 4096) / 4096) s).installPageTable pick pid
          (addr / 4096 * 4096) err)
      else (false, s) := by
  obtain ⟨-, hd2, -⟩ := hlay.data
  obtain ⟨-, hr2, -⟩ := hlay.rodata
  obtain ⟨hs1, hs2, -, -, hs5, -⟩ := hlay.stack
  unfold STACK_START MAX_STACK_SIZE at hs1 hlow
  unfold STACK_START at hs2 hhigh
  have hdata : ¬ ((s.ctxList pid).data.start ≤ addr ∧ addr ≤ (s.ctxList pid).data.stop) := by
    unfold MMAP_AREA_START at hd2
    omega
  have hro : ¬ ((s.ctxList pid).rodata.start ≤ addr ∧ addr ≤ (s.ctxList pid).rodata.stop) := by
    unfold DATA_START at hr2
    omega
  have hstack : (s.ctxList pid).stack.start ≤ addr ∧ addr ≤ (s.ctxList pid).stack.stop := by omega
  unfold doPageFault
  simp only [if_neg h7, if_neg (not_not.mpr h1), if_neg hdata, if_neg hro, if_pos hstack]
  by_cases hlt : addr < (s.ctxList pid).stack.nextFree
  · rw [if_pos hlt, if_pos hlt]
    have hend : (s.ctxList pid).stack.nextFree - 4096 * (((s.ctxList pid).stack.nextFree - addr / 4096 * 4096) / 4096) =
        addr / 4096 * 4096 := by omega
    rw [growStack_nextFree, hend]
  · rw [if_neg hlt, if_neg hlt]

/-- For `n` pages it takes `n + 1` frames. -/
theorem growth_card (hp : Picks pick) (hlay : (s.ctxList pid).Layout) (hlow : STACK_START - MAX_STACK_SIZE ≤ addr)
    (hlt : addr < (s.ctxList pid).stack.nextFree) {err : UInt64} (h7 : err ≠ 7) (h1 : err &&& 1 = 0) :
    s.phys.inUse ⊆ (s.doPageFault pick pid addr err).2.phys.inUse ∧
      (s.doPageFault pick pid addr err).2.phys.inUse.card =
        s.phys.inUse.card + ((s.ctxList pid).stack.nextFree / 4096 - addr / 4096) + 1 := by
  obtain ⟨-, -, -, hs4, hs5, -⟩ := hlay.stack
  rw [doPageFault_stack pick hlay hlow (Nat.lt_trans hlt hs4) h7 h1, if_pos hlt]
  obtain ⟨h2, h3⟩ := growStack_card hp s pid err (((s.ctxList pid).stack.nextFree - addr / 4096 * 4096) / 4096)
  obtain ⟨h4, h5⟩ := installPage_card hp (growStack pick pid err (((s.ctxList pid).stack.nextFree - addr / 4096 * 4096) / 4096) s)
    pid (addr / 4096 * 4096) (decide (err &&& 2 ≠ 0)) (decide (err &&& 2 ≠ 0))
  refine ⟨h2.trans h4, h5.trans ?_⟩
  rw [h3]
  omega

/-- More frames than pages: one of them is mapped by none. -/
theorem not_grown (hlay : (s.ctxList pid).Layout) (hsub : s.phys.inUse ⊆ t.phys.inUse)
    (hcard : t.phys.inUse.card = s.phys.inUse.card + ((s.ctxList pid).stack.nextFree / 4096 - addr / 4096) + 1) :
    ¬ Grown s t pid addr := by
  intro h
  have hal := hlay.stack.2.2.2.2.1
  have hle : (t.phys.inUse \ s.phys.inUse).card ≤ (Finset.Ico (addr / 4096) ((s.ctxList pid).stack.nextFree / 4096)).card := by
    apply Finset.card_le_card_of_surjOn fun k => (((t.table pid).pte k).map Entry.frame).getD 0
    intro f hf
    obtain ⟨hf, hno⟩ := Finset.mem_sdiff.mp hf
    obtain ⟨k, e, h1, h2, he, hef⟩ := h.one f hf hno
    refine ⟨k, Finset.mem_coe.mpr (Finset.mem_Ico.mpr ⟨h1, by omega⟩), ?_⟩
    simp only [he, Option.map_some, Option.getD_some, hef]
  rw [Finset.card_sdiff_of_subset hsub, Nat.card_Ico, hcard] at hle
  omega

/-! ## Which accesses succeed -/

/-- Of a stack page, only the PMD entry may forbid writes. -/
theorem stack_openAt (hu : s.Uppers) (hl : s.Live pid) (hlow : STACK_START - MAX_STACK_SIZE ≤ addr) (hhigh : addr < STACK_START) :
    (s.table pid).OpenAt (pageOf addr) ↔ (s.table pid).pmd (pageOf addr / 2 ^ 9) ≠ some false := by
  refine ⟨fun h => h.pmd, fun h => ?_⟩
  unfold STACK_START MAX_STACK_SIZE at hlow
  unfold STACK_START at hhigh
  have hpage : pageOf addr = addr / 4096 := pageOf_eq (by omega)
  have hlast := (hu pid hl).openAt 0x7FDFFF (by decide) (by decide)
  have h27 : pageOf addr / 2 ^ 27 = 0x7FDFFF / 2 ^ 27 := by omega
  have h18 : pageOf addr / 2 ^ 18 = 0x7FDFFF / 2 ^ 18 := by omega
  exact ⟨h27 ▸ hlast.pgd, h18 ▸ hlast.pud, h⟩

/-- No area and no page of DATA is at an address of the stack. -/
theorem handleCowFault_stack (hlay : (s.ctxList pid).Layout) (hlow : STACK_START - MAX_STACK_SIZE ≤ addr) :
    s.handleCowFault pick pid addr = (-1, s) := by
  have harea : areaAt addr (s.ctxList pid).vmArea = false := by
    rw [← Bool.not_eq_true, areaAt_iff hlay.areas, not_not]
    unfold protAt
    refine hlay.areas.valueAt_above (Nat.le_trans ?_ hlow)
    decide
  have hdata : (s.ctxList pid).dataAt addr = false := by
    rw [← Bool.not_eq_true, hlay.dataAt_iff]
    obtain ⟨-, -, -, hd4, -⟩ := hlay.data
    unfold MMAP_AREA_START at hd4
    unfold STACK_START MAX_STACK_SIZE at hlow
    omega
  unfold Ctx.dataAt at hdata
  unfold handleCowFault
  simp only [harea, hdata, Bool.or_false, Bool.false_eq_true, not_false_eq_true, if_true]

/-- What an access to the stack asks for: of a page that is there, that it and its PMD entry allow it; of one that is
    not, that it lies below the end, and no read has made its PMD entry. -/
def Reaches (s : Sys) (pid addr : Nat) (write : Bool) : Prop :=
  match (s.table pid).pte (pageOf addr) with
  | some e => write = true → e.write = true ∧ (s.table pid).pmd (pageOf addr / 2 ^ 9) ≠ some false
  | none => addr < (s.ctxList pid).stack.nextFree ∧ (write = true → (s.table pid).pmd (pageOf addr / 2 ^ 9) ≠ some false)

/-- An access to the stack is allowed, or is allowed after a fault, in no other case. -/
theorem stack_access_iff (hb : s.Base) (hu : s.Uppers) (hl : s.Live pid) (hlow : STACK_START - MAX_STACK_SIZE ≤ addr)
    (hhigh : addr < STACK_START) (write : Bool) {err : UInt64} (herr : err = (s.table pid).errorCode (pageOf addr) write) :
    ((s.table pid).allows (pageOf addr) write = true ∨ ((s.doPageFault pick pid addr err).1 = true ∧
      ((s.doPageFault pick pid addr err).2.table pid).allows (pageOf addr) write = true)) ↔ s.Reaches pid addr write := by
  have hlay := hb.layout pid hl
  have hopen := stack_openAt hu hl hlow hhigh
  unfold Reaches
  unfold PageTable.errorCode at herr
  cases he : (s.table pid).pte (pageOf addr) with
  | some e =>
    simp only
    constructor
    · rintro h rfl
      have h7 : err = 7 := by
        rw [herr, he, Option.isSome_some]
        decide
      rcases h with h | ⟨h, -⟩
      · unfold PageTable.allows at h
        rw [he] at h
        simp only [Bool.not_true, Bool.false_or, Bool.and_eq_true, beq_iff_eq] at h
        exact ⟨h.1.1.1, by rw [h.2]; simp⟩
      · unfold doPageFault at h
        simp only [if_pos h7, handleCowFault_stack hlay hlow] at h
        cases h
    · intro h
      cases write with
      | false => exact .inl (by rw [PageTable.allows_read, he]; rfl)
      | true => exact .inl (PageTable.allows_of_openAt (hopen.mpr (h rfl).2) he fun _ => (h rfl).1)
  | none =>
    have hbits : err ≠ 7 ∧ err &&& 1 = 0 ∧ (write = true ↔ err &&& 2 ≠ 0) := by
      rw [herr, he]
      cases write <;> decide
    have hno : (s.table pid).allows (pageOf addr) write = false := by
      unfold PageTable.allows
      rw [he]
    simp only [hno, Bool.false_eq_true, false_or]
    have hfault := doPageFault_stack pick hlay hlow hhigh hbits.1 hbits.2.1
    by_cases hlt : addr < (s.ctxList pid).stack.nextFree
    swap
    · rw [hfault, if_neg hlt]
      exact iff_of_false (fun h => by cases h.1) fun h => hlt h.1
    have hres : (s.doPageFault pick pid addr err).1 = true := by rw [hfault, if_pos hlt]
    obtain ⟨e, hpte, hw⟩ := doPageFault_maps hlay hres
    -- a write fault makes upper entries for writing
    have hedit : write = true → (s.table pid).Edits (fun _ w => w = true) (fun _ => False)
        ((s.doPageFault pick pid addr err).2.table pid) := fun hwrite => by
      have hbit : decide (err &&& 2 ≠ 0) = true := decide_eq_true (hbits.2.2.mp hwrite)
      rw [hfault, if_pos hlt]
      have hgrow : Edited (fun _ w => w = true) (fun _ => False) s
          (growStack pick pid err (((s.ctxList pid).stack.nextFree - addr / 4096 * 4096) / 4096) s) :=
        edited_growStack 0 err _ (by omega) fun _ _ _ => hbit
      exact (hgrow.trans (edited_installPage hbit)).table pid
    constructor
    · rintro ⟨-, hallow⟩
      refine ⟨hlt, fun hwrite hpmd => ?_⟩
      subst hwrite
      have hpmd := (hedit rfl).pmd_eq hpmd
      unfold PageTable.allows at hallow
      rw [hpte] at hallow
      simp only [Bool.not_true, Bool.false_or, Bool.and_eq_true, beq_iff_eq] at hallow
      rw [hpmd] at hallow
      cases hallow.2
    · rintro ⟨-, hpmd⟩
      refine ⟨hres, ?_⟩
      cases write with
      | false => rw [PageTable.allows_read, hpte]; rfl
      | true =>
        exact PageTable.allows_of_openAt ((hedit rfl).openAt (hopen.mpr (hpmd rfl))) hpte fun _ => hw (hbits.2.2.mp rfl)

/-! ## Sequences of accesses -/

/-- The one page of stack a process starts with. -/
structure TopOnly (s : Sys) : Prop where
  layout : (s.ctxList 1).Layout
  low : (s.ctxList 1).stack.nextFree = STACK_START - 4096
  allowed : ∀ w, (s.table 1).allows (pageOf (STACK_START - 4096)) w = true
  absent : ∀ k, STACK_START - MAX_STACK_SIZE ≤ 4096 * k → 4096 * k < STACK_START - 4096 → (s.table 1).pte k = none

theorem pageOf_top (h1 : STACK_START - 4096 ≤ addr) (h2 : addr < STACK_START) : pageOf addr = pageOf (STACK_START - 4096) := by
  have htop : pageOf (STACK_START - 4096) = 0x7FFFFF := by decide
  unfold STACK_START at h1 h2
  rw [htop, pageOf_eq (by omega)]
  omega

theorem start_topOnly (h : Start s) : s.TopOnly := by
  obtain ⟨hl, -, e, he, hw⟩ := start_anchored h (k := pageOf (STACK_START - 4096)) (by decide)
  have hlay := (start_base h).layout 1 hl
  have hlow : (s.ctxList 1).stack.nextFree = STACK_START - 4096 := by
    obtain ⟨mem, pick, pgd, hp, h0, h70, rfl⟩ := h
    rw [(execInit_spec mem pgd hp h0 h70).1]
    rfl
  refine ⟨hlay, hlow, fun w => PageTable.allows_of_openAt (start_openAt h 1 hl _) he fun _ => hw, fun k h1 h2 => ?_⟩
  -- a page that is mapped lies in a segment or an area
  cases hk : (s.table 1).pte k with
  | none => rfl
  | some d =>
    exfalso
    have hholds := (start_each False h 1 k d ((frames_map hl k).trans hk)).holds
    have hstack := hlay.stack.1
    obtain ⟨-, hc2⟩ := hlay.code
    obtain ⟨-, -, -, hr4, -⟩ := hlay.rodata
    obtain ⟨-, -, -, hd4, -⟩ := hlay.data
    unfold CODE_START CODE_PAGES at hc2
    unfold DATA_START at hr4
    unfold MMAP_AREA_START at hd4
    unfold STACK_START MAX_STACK_SIZE at h1
    unfold STACK_START at h2 hlow
    rcases hholds with hk | hk | hk | hk | hk
    · have := hk.2; omega
    · have := hk.2; omega
    · have := hk.2; omega
    · have := hk.low; omega
    · refine hk (hlay.areas.valueAt_above ?_)
      rw [end_eq]
      omega

theorem TopOnly.perform (h : s.TopOnly) (a : Access) : (s.perform 1 a).TopOnly := by
  unfold Sys.perform
  cases a.byte with
  | none => exact h
  | some byte =>
    have hc : (s.store 1 a.addr byte).ctxList = s.ctxList := store_ctxList s 1 a.addr byte
    have ht : (s.store 1 a.addr byte).table 1 = s.table 1 := by
      unfold Sys.table
      rw [hc]
      unfold Sys.store
      cases (s.table 1).pte (pageOf a.addr) <;> rfl
    simp only
    exact ⟨hc ▸ h.layout, hc ▸ h.low, ht ▸ h.allowed, ht ▸ h.absent⟩

/-- The accesses of the sequence that do not fault. -/
theorem served_top (h : s.TopOnly) {as : List Access} (hin : ∀ a ∈ as, STACK_START - 4096 ≤ a.addr ∧ a.addr < STACK_START) :
    ∃ t, Served 1 s as t := by
  induction as generalizing s with
  | nil => exact ⟨s, .nil s⟩
  | cons a as ih =>
    obtain ⟨h1, h2⟩ := hin a List.mem_cons_self
    obtain ⟨t, ht⟩ := ih (h.perform a) fun b hb => hin b (List.mem_cons_of_mem a hb)
    refine ⟨t, .access ?_ ht⟩
    rw [pageOf_top h1 h2]
    exact h.allowed _

theorem top_of_served (h : s.TopOnly) {as : List Access} (hpicks : ∀ a ∈ as, Picks a.pick)
    (hin : ∀ a ∈ as, STACK_START - MAX_STACK_SIZE ≤ a.addr ∧ a.addr < STACK_START) (hs : Served 1 s as t) :
    ∀ a ∈ as, STACK_START - 4096 ≤ a.addr := by
  have hbelow : ∀ {s : Sys} {a : Access}, s.TopOnly → STACK_START - MAX_STACK_SIZE ≤ a.addr → a.addr < STACK_START - 4096 →
      (s.table 1).pte (pageOf a.addr) = none := fun h h1 h2 => by
    unfold STACK_START MAX_STACK_SIZE at h1
    unfold STACK_START at h2
    rw [pageOf_eq (by omega)]
    refine h.absent _ ?_ ?_
    · unfold STACK_START MAX_STACK_SIZE
      omega
    · unfold STACK_START
      omega
  induction hs with
  | nil => exact fun a ha => absurd ha List.not_mem_nil
  | @access s t a as hallow _ ih =>
    have h1 : STACK_START - 4096 ≤ a.addr := by
      by_contra hlt
      have hnone := hbelow h (hin a List.mem_cons_self).1 (Nat.lt_of_not_le hlt)
      unfold PageTable.allows at hallow
      rw [hnone] at hallow
      cases hallow
    have hrest := ih (h.perform a) (fun b hb => hpicks b (List.mem_cons_of_mem a hb)) fun b hb => hin b (List.mem_cons_of_mem a hb)
    intro b hb
    rcases List.mem_cons.mp hb with rfl | hb
    · exact h1
    · exact hrest b hb
  | @fault s t a as r hno hr hres hgrown _ ih =>
    obtain ⟨hlow, hhigh⟩ := hin a List.mem_cons_self
    by_cases htop : STACK_START - 4096 ≤ a.addr
    · -- what is there does not fault
      rw [pageOf_top htop hhigh, h.allowed] at hno
      cases hno
    · exfalso
      have hlt : a.addr < STACK_START - 4096 := Nat.lt_of_not_le htop
      have hnone := hbelow h hlow hlt
      have herr : (s.table 1).errorCode (pageOf a.addr) a.write ≠ 7 ∧ (s.table 1).errorCode (pageOf a.addr) a.write &&& 1 = 0 := by
        unfold PageTable.errorCode
        rw [hnone]
        cases a.write <;> decide
      have hlt : a.addr < (s.ctxList 1).stack.nextFree := h.low ▸ hlt
      obtain ⟨hsub, hcard⟩ := growth_card (hpicks a List.mem_cons_self) h.layout hlow hlt herr.1 herr.2
      rw [← hr] at hsub hcard
      exact not_grown h.layout hsub hcard (hgrown hlt)

/-- Stack growth works as it is to for the sequences that stay in the page a process starts with. -/
theorem served_iff (h : Start s) (as : List Access) (hpicks : ∀ a ∈ as, Picks a.pick)
    (hin : ∀ a ∈ as, STACK_START - MAX_STACK_SIZE ≤ a.addr ∧ a.addr < STACK_START) :
    (∃ t, Served 1 s as t) ↔ ∀ a ∈ as, STACK_START - 4096 ≤ a.addr := by
  constructor
  · rintro ⟨t, ht⟩
    exact top_of_served (start_topOnly h) hpicks hin ht
  · intro htop
    exact served_top (start_topOnly h) fun a ha => ⟨htop a ha, (hin a ha).2⟩

/-- A write to the first page and a read of it. -/
theorem served_iff_top : ∃ t, Served 1 booted [⟨STACK_START - 8, some 7, nextFrame⟩, ⟨STACK_START - 8, none, nextFrame⟩] t := by
  refine (served_iff start_booted _ (fun a ha => ?_) (fun a ha => ?_)).mpr fun a ha => ?_
  all_goals
    rcases List.mem_cons.mp ha with rfl | ha
    · first | exact picks_nextFrame | decide
    · rw [List.mem_singleton.mp ha]
      first | exact picks_nextFrame | decide

/-- The page below the first one, read and then written: the read takes two frames for it, and the write is not
    resolved. -/
theorem read_then_write :
    (booted.doPageFault nextFrame 1 (STACK_START - 8192) 4).2.phys.inUse.card = booted.phys.inUse.card + 2 ∧
    ((booted.doPageFault nextFrame 1 (STACK_START - 8192) 4).2.doPageFault nextFrame 1 (STACK_START - 8192) 7).1 = false ∧
    ¬ ∃ t, Served 1 booted [⟨STACK_START - 8192, none, nextFrame⟩, ⟨STACK_START - 8192, some 7, nextFrame⟩] t := by
  refine ⟨by decide +kernel, by decide +kernel, fun h => ?_⟩
  obtain ⟨t, ht⟩ := h
  have htop := top_of_served (start_topOnly start_booted) (fun a ha => ?_) (fun a ha => ?_) ht _ List.mem_cons_self
  · exact absurd htop (by decide)
  all_goals
    rcases List.mem_cons.mp ha with rfl | ha
    · first | exact picks_nextFrame | decide
    · rw [List.mem_singleton.mp ha]
      first | exact picks_nextFrame | decide

end Sys

end Cs330.Mm
