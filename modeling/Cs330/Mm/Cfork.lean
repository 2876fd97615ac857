/-
  Cs330.Mm.Cfork — cfork, exit, and the first process.

  cfork_copy_mm shares the pages of CODE, RODATA and DATA and of the areas with the child,
  read-only on both sides (`sharePage`), and copies the stack (`copyPage`). Exit frees no
  frame and lowers no counter.
-/
import Cs330.Mm.Fault

namespace Cs330.Mm

open Lib Vm

def CODE_START : Nat := 0x100000000
def RODATA_START : Nat := 0x140000000
def DATA_START : Nat := 0x180000000
def STACK_START : Nat := 0x800000000
def MAX_STACK_SIZE : Nat := 0x1000000
def CODE_PAGES : Nat := 8

namespace Sys

/-- `install_ptable` and map_physical_page behind it; frame 0 asks for a new one. -/
def installPtable (s : Sys) (pick : Finset Nat → Nat) (pid : Nat) (mm : MmSegment) (address upfn : Nat) : Nat × Sys :=
  let address := if address = 0 then mm.start else address
  let r := if upfn = 0 then s.osPfnAlloc pick else (upfn, s)
  (r.1, r.2.setTable pid ((r.2.table pid).install (pageOf address) ⟨r.1, mm.accessFlags &&& MM_WR ≠ 0⟩ true))

/-- One page that parent and child are to share. -/
def sharePage (s : Sys) (pick : Finset Nat → Nat) (child parent : Nat) (seg : MmSegment) (vaddr : Nat) : Sys :=
  match s.getUserPte parent vaddr with
  | none => s
  | some e =>
    let s1 := s.setTable parent ((s.table parent).alter (pageOf vaddr) fun e => some { e with write := false })
    let s2 := (s1.installPtable pick child seg vaddr e.frame).2
    let s3 := s2.setTable child ((s2.table child).alter (pageOf vaddr) fun _ => some { e with write := false })
    s3.incrementRefcount e.frame

/-- One page of the stack. -/
def copyPage (s : Sys) (pick : Finset Nat → Nat) (child parent : Nat) (seg : MmSegment) (vaddr : Nat) : Sys :=
  match s.getUserPte parent vaddr with
  | none => s
  | some e =>
    let r := s.installPtable pick child seg vaddr 0
    r.2.copyFrame r.1 e.frame

/-- The loop `for (vaddr = stop - PAGE_SIZE; vaddr >= start; vaddr -= PAGE_SIZE)`. -/
def vaddrsDown (start stop : Nat) : List Nat := (List.range ((stop - start) / 4096)).map fun i => stop - 4096 * (i + 1)

/-- `cfork_copy_mm`; the list of areas has been copied with the context, node by node. -/
def cforkCopyMm (s : Sys) (pick : Finset Nat → Nat) (child parent : Nat) : Sys :=
  let c := s.ctxList child
  let share (seg : MmSegment) (s : Sys) (vs : List Nat) := vs.foldl (fun s v => s.sharePage pick child parent seg v) s
  let s := share c.code s (vaddrs c.code.start c.code.nextFree)
  let s := share c.rodata s (vaddrs c.rodata.start c.rodata.nextFree)
  let s := share c.data s (vaddrs c.data.start c.data.nextFree)
  let s := (vaddrsDown c.stack.nextFree c.stack.stop).foldl (fun s v => s.copyPage pick child parent c.stack v) s
  (s.ctxList parent).vmArea.foldl (fun s a => share c.stack s (vaddrs a.vmStart a.vmEnd)) s

/-- `do_cfork`: the child's pid, if there is a slot. `pgd` is what os_pfn_alloc(OS_PT_REG) returned; what
    that region has left is not part of this (Cs330.Mm.Exhaustion has the frames of the tables). -/
def doCfork (s : Sys) (pick : Finset Nat → Nat) (pid pgd : Nat) : Option (Nat × Sys) :=
  s.getNewCtx.map fun child =>
    let c := s.ctxList pid
    let s' : Sys :=
      { s.setCtx child { c with ppid := pid, pgd := pgd } with
        tables := Function.update s.tables pgd PageTable.empty
        numVmArea := s.numVmArea + c.vmArea.length }
    let s' := s'.cforkCopyMm pick child pid
    (child, s'.setCtx child { s'.ctxList child with state := .ready })

/-- `vfork_exit_handle`: nothing, for a context with a page table of its own. -/
def vforkExitHandle (s : Sys) (pid : Nat) : Sys :=
  let c := s.ctxList pid
  let parent := s.ctxList c.ppid
  if parent.pgd ≠ c.pgd then s
  else s.setCtx c.ppid { parent with state := .ready, data := c.data, vmArea := c.vmArea }

/-- `do_exit`, without the do_cleanup after the last process (Cs330.Mm.Cleanup). -/
def doExit (s : Sys) (pid : Nat) : Sys :=
  let s' := s.vforkExitHandle pid
  s'.setCtx pid { s'.ctxList pid with state := .unused }

/-! ## The first process -/

/-- `create_context("init")` and the segments as exec_init leaves them. -/
def initCtx (pgd : Nat) : Ctx where
  ppid := 0
  state := .running
  pgd := pgd
  code := ⟨CODE_START, RODATA_START - 1, CODE_START + CODE_PAGES * 4096, 5⟩
  rodata := ⟨RODATA_START, DATA_START - 1, RODATA_START, 1⟩
  data := ⟨DATA_START, MMAP_AREA_START - 1, DATA_START + 4096, 3⟩
  stack := ⟨STACK_START - MAX_STACK_SIZE, STACK_START, STACK_START - 4096, 3⟩
  vmArea := []

def noSegment : MmSegment := ⟨0, 0, 0, 0⟩

/-- The swapper in slot 0 and init in slot 1; `mem` is what the frames hold. -/
def boot (mem : Nat → Nat → UInt8) (pgd : Nat) : Sys where
  ctxList := fun pid =>
    if pid = 0 then ⟨0, .ready, 0x70, noSegment, noSegment, noSegment, noSegment, []⟩
    else if pid = 1 then initCtx pgd
    else ⟨0, .unused, 0, noSegment, noSegment, noSegment, noSegment, []⟩
  tables := fun _ => PageTable.empty
  phys := ⟨mem, fun _ => 0, ∅, 0⟩
  numVmArea := 0

/-- `exec_init`: the code pages, one page of data and one of stack. -/
def execInit (mem : Nat → Nat → UInt8) (pick : Finset Nat → Nat) (pgd : Nat) : Sys :=
  let c := initCtx pgd
  let s := (vaddrs c.code.start c.code.nextFree).foldl (fun s v => s.installPage pick 1 v false true) (boot mem pgd)
  let s := (s.installPtable pick 1 c.data 0 0).2
  (s.installPtable pick 1 { c.stack with start := c.stack.stop - 4096 } 0 0).2

/-! ## As operations on frames -/

variable {s : Sys} {pick : Finset Nat → Nat} {pid child parent vaddr : Nat} {seg : MmSegment}

theorem installPtable_ctxList (s : Sys) (pick : Finset Nat → Nat) (pid : Nat) (mm : MmSegment) (address upfn : Nat) :
    (s.installPtable pick pid mm address upfn).2.ctxList = s.ctxList := by
  unfold installPtable
  simp only
  split
  · exact osPfnAlloc_ctxList pick
  · rfl

theorem sharePage_ctxList (s : Sys) (pick : Finset Nat → Nat) (child parent : Nat) (seg : MmSegment) (vaddr : Nat) :
    (s.sharePage pick child parent seg vaddr).ctxList = s.ctxList := by
  unfold sharePage
  cases s.getUserPte parent vaddr with
  | none => rfl
  | some e => exact installPtable_ctxList _ pick child seg vaddr e.frame

theorem copyPage_ctxList (s : Sys) (pick : Finset Nat → Nat) (child parent : Nat) (seg : MmSegment) (vaddr : Nat) :
    (s.copyPage pick child parent seg vaddr).ctxList = s.ctxList := by
  unfold copyPage
  cases s.getUserPte parent vaddr with
  | none => rfl
  | some e => exact installPtable_ctxList s pick child seg vaddr 0

/-- A frame for a page, where the caller knows which. -/
theorem frames_installPtable (pick : Finset Nat → Nat) (seg : MmSegment) (hd : s.Distinct) (hl : s.Live pid)
    (hv : vaddr ≠ 0) {upfn : Nat} (hu : upfn ≠ 0) :
    (s.installPtable pick pid seg vaddr upfn).2.frames =
      { s.frames with map := Frames.put s.frames.map pid (pageOf vaddr) (some ⟨upfn, seg.accessFlags &&& MM_WR ≠ 0⟩) } := by
  unfold installPtable
  simp only [if_neg hv, if_neg hu]
  rw [frames_setTable hd hl rfl rfl, PageTable.install_pte, ← map_eq hl]
  rfl

theorem frames_sharePage (pick : Finset Nat → Nat) (seg : MmSegment) (hd : s.Distinct) (hc : s.Live child) (hp : s.Live parent)
    (hv : vaddr ≠ 0) (h0 : ∀ e, s.frames.map parent (pageOf vaddr) = some e → e.frame ≠ 0) :
    (s.sharePage pick child parent seg vaddr).frames = s.frames.share parent child (pageOf vaddr) := by
  unfold sharePage Frames.share
  rw [← getUserPte_eq hp]
  cases h : s.getUserPte parent vaddr with
  | none => rfl
  | some e =>
    have hf := h0 e (by rw [← getUserPte_eq hp]; exact h)
    -- the parent's PTE, then the child's, which is written twice, then the counter
    have e1 := frames_alter hd hp (rfl : s.ctxList = s.ctxList) rfl h fun e => some { e with write := false }
    have e2 := frames_installPtable (s := s.setTable parent ((s.table parent).alter (pageOf vaddr) fun e =>
      some { e with write := false })) pick seg hd hc hv hf
    have hc2 := installPtable_ctxList (s.setTable parent ((s.table parent).alter (pageOf vaddr) fun e =>
      some { e with write := false })) pick child seg vaddr e.frame
    have hd2 := distinct_congr hc2 hd
    have hl2 := (live_congr hc2).mpr hc
    have hget := (getUserPte_eq hl2).trans
      ((congrFun (congrFun (congrArg Frames.map e2) child) (pageOf vaddr)).trans ((Frames.put_apply ..).trans (if_pos ⟨rfl, rfl⟩)))
    have e3 := frames_alter hd2 hl2 rfl rfl hget fun _ => some { e with write := false }
    refine (congrArg (fun F : Frames Nat Nat Nat Nat UInt8 =>
      { F with count := Function.update F.count e.frame (F.count e.frame + 1) }) e3).trans ?_
    simp only [← frames_count, ← frames_used, ← frames_data, e2, e1, Frames.put_put]

/-- A new frame; address 0 stands for the start of the segment. -/
theorem frames_installPtable_new (seg : MmSegment) (address : Nat) (hp : Picks pick) (hd : s.Distinct) (hl : s.Live pid) :
    (s.installPtable pick pid seg address 0).2.frames = s.frames.fresh pid
      (pageOf (if address = 0 then seg.start else address)) (pick s.phys.inUse) (seg.accessFlags &&& MM_WR ≠ 0) := by
  unfold installPtable
  simp only [if_true, osPfnAlloc_eq hp]
  refine (frames_setTable hd hl ?_ ?_ _).trans ?_
  · rfl
  · rfl
  · unfold Frames.fresh Frames.put
    rw [map_eq hl]
    rfl

theorem frames_copyPage (seg : MmSegment) (hp : Picks pick) (hd : s.Distinct) (hc : s.Live child) (hl : s.Live parent)
    (hv : vaddr ≠ 0) :
    (s.copyPage pick child parent seg vaddr).frames =
      s.frames.dup parent child (pageOf vaddr) (pick s.phys.inUse) (seg.accessFlags &&& MM_WR ≠ 0) := by
  unfold copyPage Frames.dup
  rw [← getUserPte_eq hl]
  cases h : s.getUserPte parent vaddr with
  | none => rfl
  | some e =>
    have e1 := frames_installPtable_new seg vaddr hp hd hc
    rw [if_neg hv] at e1
    have e2 : (s.installPtable pick child seg vaddr 0).1 = pick s.phys.inUse := by
      unfold installPtable
      simp only [if_true, osPfnAlloc_eq hp]
    refine (congrArg (fun F : Frames Nat Nat Nat Nat UInt8 =>
      { F with data := Function.update F.data (s.installPtable pick child seg vaddr 0).1 (F.data e.frame) }) e1).trans ?_
    rw [e2]
    rfl

end Sys

end Cs330.Mm
