/-
  Cs330.Mm.Cleanup — the exit of the last process.

  With no process but the swapper left, do_exit calls do_cleanup. pt_cleanup goes down the
  page table from the PGD, past the first two entries of each PUD (those of the kernel), and
  frees the frame of every PTE that is there. The pages of a process all lie where it goes
  (`mem_cleanupPages`), so if every frame in use was mapped, none is in use at the end
  (`inUse_doCleanup`). `closing` is the machine that cleans up.
-/
import Cs330.Lib.Exact
import Cs330.Mm.Described

namespace Cs330.Mm

open Lib Lib.Seg Vm

namespace PageTable

/-- The entries of a table that are there, from the `first` one on; `above` are the address bits over them. -/
def entriesFrom {α : Type} (level : Nat → Option α) (above first : Nat) : List Nat :=
  ((List.range' first (512 - first)).map (512 * above + ·)).filter fun i => (level i).isSome

/-- The pages pt_cleanup comes to. -/
def cleanupPages (t : PageTable) : List Nat :=
  (entriesFrom t.pgd 0 0).flatMap fun pgd => (entriesFrom t.pud pgd 2).flatMap fun pud =>
    (entriesFrom t.pmd pud 0).flatMap fun pmd => entriesFrom t.pte pmd 0

theorem mem_entriesFrom {α : Type} {level : Nat → Option α} {above first i : Nat} :
    i ∈ entriesFrom level above first ↔ i / 512 = above ∧ first ≤ i % 512 ∧ level i ≠ none := by
  unfold entriesFrom
  rw [List.mem_filter, List.mem_map, Option.isSome_iff_ne_none]
  constructor
  · rintro ⟨⟨j, hj, rfl⟩, hi⟩
    rw [List.mem_range'_1] at hj
    exact ⟨by omega, by omega, hi⟩
  · rintro ⟨ha, hf, hi⟩
    refine ⟨⟨i % 512, List.mem_range'_1.mpr (by omega), by omega⟩, hi⟩

theorem mem_cleanupPages {t : PageTable} {p : Nat} :
    p ∈ t.cleanupPages ↔ p < 2 ^ 36 ∧ 2 ≤ p / 2 ^ 18 % 512 ∧ t.pte p ≠ none := by
  unfold cleanupPages
  simp only [List.mem_flatMap, mem_entriesFrom]
  constructor
  · rintro ⟨pgd, ⟨h1, -, -⟩, pud, ⟨h2, h3, -⟩, pmd, ⟨h4, -, -⟩, h5, -, hp⟩
    exact ⟨by omega, by omega, hp⟩
  · rintro ⟨h1, h2, hp⟩
    obtain ⟨hpgd, hpud, hpmd⟩ := t.walk p hp
    refine ⟨p / 2 ^ 27, ⟨by omega, by omega, hpgd⟩, p / 2 ^ 18, ⟨by omega, by omega, hpud⟩, p / 2 ^ 9, ⟨by omega, by omega, hpmd⟩,
      by omega, by omega, hp⟩

end PageTable

namespace Sys

/-- `pt_cleanup` of the PGD. The frames of the tables themselves are not part of this. -/
def ptCleanup (s : Sys) (pid : Nat) : Sys :=
  let t := s.table pid
  ((t.cleanupPages.filterMap fun p => (t.pte p).map Entry.frame).foldl osPfnFree s).setTable pid .empty

/-- `do_cleanup` -/
def doCleanup (s : Sys) (pid : Nat) : Sys :=
  let s' := s.ptCleanup pid
  s'.setCtx pid { s'.ctxList pid with state := .unused }

/-- `proc_exist`: a process is left. -/
def ProcExist (s : Sys) : Prop := ∃ ctr, ctr < MAX_PROCESSES ∧ s.Live ctr

instance (s : Sys) : Decidable s.ProcExist := inferInstanceAs (Decidable (∃ ctr, ctr < MAX_PROCESSES ∧ s.Live ctr))

/-- A step, and do_cleanup where it ends the last process. -/
def closeStep (s : Sys) (e : Ev) : Option Sys := (s.step e).map fun t => if t.ProcExist then t else t.doCleanup e.pid

def closing : Machine Sys Ev := ⟨Start, closeStep⟩

variable {s t : Sys} {pid addr : Nat} {pick : Finset Nat → Nat}

theorem procExist_iff : s.ProcExist ↔ ∃ i, s.Live i :=
  ⟨fun ⟨i, _, h⟩ => ⟨i, h⟩, fun ⟨i, h⟩ => ⟨i, h.2.1, h⟩⟩

/-! ## What is freed -/

theorem osPfnFree_loop (s : Sys) (pfns : List Nat) :
    (pfns.foldl osPfnFree s).ctxList = s.ctxList ∧
      ∀ f, f ∈ (pfns.foldl osPfnFree s).phys.inUse ↔ f ∈ s.phys.inUse ∧ f ∉ pfns := by
  induction pfns generalizing s with
  | nil => exact ⟨rfl, fun f => by simp⟩
  | cons pfn pfns ih =>
    obtain ⟨h1, h2⟩ := ih (s.osPfnFree pfn)
    refine ⟨h1, fun f => (h2 f).trans ?_⟩
    show f ∈ s.phys.inUse.erase pfn ∧ _ ↔ _
    rw [Finset.mem_erase, List.mem_cons]
    tauto

theorem doCleanup_ctxList (hun : (s.ctxList pid).state = .unused) : (s.doCleanup pid).ctxList = s.ctxList := by
  have hc : (s.ptCleanup pid).ctxList = s.ctxList := (osPfnFree_loop s _).1
  unfold doCleanup setCtx
  simp only [hc]
  rw [← hun]
  exact Function.update_eq_self pid s.ctxList

theorem mem_doCleanup {f : Nat} : f ∈ (s.doCleanup pid).phys.inUse ↔ f ∈ s.phys.inUse ∧
    ∀ p ∈ (s.table pid).cleanupPages, ∀ e, (s.table pid).pte p = some e → e.frame ≠ f := by
  refine ((osPfnFree_loop s _).2 f).trans (and_congr_right fun _ => ?_)
  simp only [List.mem_filterMap, Option.map_eq_some_iff]
  constructor
  · intro h p hp e he hf
    exact h ⟨p, hp, e, he, hf⟩
  · rintro h ⟨p, hp, e, he, hf⟩
    exact h p hp e he hf

/-- A page of a process, by the entries over it: behind the kernel's two, and below the end of the PGD. -/
theorem page_cleaned {c : Ctx} (hlay : c.Layout) {k : Nat} (hk : c.Holds k) : k < 2 ^ 36 ∧ 2 ≤ k / 2 ^ 18 % 512 := by
  have hc := hlay.code
  have hr := hlay.rodata
  have hd := hlay.data
  have hst := hlay.stack
  unfold CODE_START CODE_PAGES at hc
  unfold RODATA_START DATA_START at hr
  unfold DATA_START MMAP_AREA_START at hd
  unfold STACK_START MAX_STACK_SIZE at hst
  have hbounds : 2 ^ 20 ≤ k ∧ k < 2 ^ 23 := by
    rcases hk with hk | hk | hk | hk | hk
    · have := hk.1; have := hk.2; omega
    · have := hk.1; have := hk.2; omega
    · have := hk.1; have := hk.2; omega
    · have := hk.low; have := hk.high; omega
    · have hlow : MMAP_AREA_START ≤ 4096 * k := by
        by_contra hlt
        exact hk (hlay.areas.valueAt_below (Nat.lt_of_not_le hlt))
      have hhigh : 4096 * k < MMAP_AREA_END := by
        by_contra hge
        refine hk (hlay.areas.valueAt_above ?_)
        rw [end_eq]
        rw [end_eq] at hge
        omega
      unfold MMAP_AREA_START at hlow
      rw [end_eq] at hhigh
      omega
  omega

/-! ## The last process -/

/-- A process that ends, with no other left. -/
structure LastExit (s : Sys) (pid : Nat) : Prop where
  live : s.Live pid
  last : ¬ (s.doExit pid).ProcExist

theorem LastExit.only (h : s.LastExit pid) (hd : s.Distinct) {i : Nat} (hi : s.Live i) : i = pid := by
  by_contra hne
  exact h.last (procExist_iff.mpr ⟨i, (live_doExit hd h.live i).mpr ⟨hne, hi⟩⟩)

theorem LastExit.closed (h : s.LastExit pid) (hb : s.Base) :
    ((s.doExit pid).doCleanup pid).ctxList = (s.doExit pid).ctxList ∧ ∀ i, ¬ ((s.doExit pid).doCleanup pid).Live i := by
  have hun : ((s.doExit pid).ctxList pid).state = .unused := by
    rw [doExit_eq hb.distinct h.live, setCtx_self]
  have hc := doCleanup_ctxList hun
  refine ⟨hc, fun i hi => ?_⟩
  exact h.last (procExist_iff.mpr ⟨i, (live_congr hc).mp hi⟩)

/-- Every frame in use was one of the last process. -/
theorem inUse_doCleanup (h : s.LastExit pid) (hb : s.Base) (hs : s.Each (Ctx.Sound False)) (hx : s.frames.Exact) :
    ((s.doExit pid).doCleanup pid).phys.inUse = ∅ := by
  refine Finset.eq_empty_of_forall_notMem fun f hf => ?_
  have hexit : (s.doExit pid).phys = s.phys ∧ (s.doExit pid).table pid = s.table pid := by
    rw [doExit_eq hb.distinct h.live]
    unfold table
    rw [setCtx_self]
    exact ⟨rfl, rfl⟩
  obtain ⟨hu, hno⟩ := mem_doCleanup.mp hf
  rw [hexit.1] at hu
  rw [hexit.2] at hno
  obtain ⟨⟨i, k⟩, e, he, hef⟩ := hx.held f hu
  have hi : i = pid := by
    by_contra hne
    have hdead : ¬ s.Live i := fun hl => hne (h.only hb.distinct hl)
    have he : s.frames.map i k = some e := he
    rw [frames_dead hdead] at he
    cases he
  subst hi
  obtain ⟨h1, h2⟩ := page_cleaned (hb.layout i h.live) (hs i k e he).holds
  have he : (s.table i).pte k = some e := (frames_map h.live k).symm.trans he
  exact hno k (PageTable.mem_cleanupPages.mpr ⟨h1, h2, by rw [he]; exact Option.some_ne_none e⟩) e he hef

end Sys

end Cs330.Mm
