/-
  Cs330.Mm.System — contexts, page tables and physical frames of gemOS.

  A context names its page table by `pgd`; `tables` holds them all. `osPfnAlloc pick` takes
  the frame `pick` chooses from the frames in use (any way the bitmap may be scanned); 0 is
  out of memory. The counter of a frame is the u8 `refcount`.

  `Sys.frames` is the state as frames mapped by live contexts (Lib.Frames). Every change of
  a page table is one of its operations as long as no two contexts share a table
  (`Distinct`).
-/
import Mathlib.Order.Lattice.Nat
import Cs330.Lib.Fork
import Cs330.Mm.PageTable
import Cs330.Vm.Area

namespace Cs330.Mm

open Lib Vm

def MAX_PROCESSES : Nat := 7
def MM_WR : UInt32 := 2

inductive ProcState where
  | unused | new | ready | running | waiting | exiting
  deriving DecidableEq, Repr

/-- `struct mm_segment`; `stop` is its `end`. -/
structure MmSegment where
  start : Nat
  stop : Nat
  nextFree : Nat
  accessFlags : UInt32
  deriving DecidableEq, Repr

/-- `struct exec_context`; the four segments are `mms`. -/
structure Ctx where
  ppid : Nat
  state : ProcState
  pgd : Nat
  code : MmSegment
  rodata : MmSegment
  data : MmSegment
  stack : MmSegment
  vmArea : List VmArea
  deriving DecidableEq, Repr

/-- USER_REG and its `pfn_info`. -/
structure Phys where
  mem : Nat → Nat → UInt8
  refcount : Nat → UInt8
  inUse : Finset Nat
  userRegPages : Int

structure Sys where
  ctxList : Nat → Ctx
  tables : Nat → PageTable
  phys : Phys
  numVmArea : Int

namespace Sys

/-! ## Contexts and tables -/

def setCtx (s : Sys) (pid : Nat) (c : Ctx) : Sys := { s with ctxList := Function.update s.ctxList pid c }

@[simp] theorem setCtx_self (s : Sys) (pid : Nat) (c : Ctx) : (s.setCtx pid c).ctxList pid = c := Function.update_self ..

def table (s : Sys) (pid : Nat) : PageTable := s.tables (s.ctxList pid).pgd

def setTable (s : Sys) (pid : Nat) (t : PageTable) : Sys :=
  { s with tables := Function.update s.tables (s.ctxList pid).pgd t }

def getUserPte (s : Sys) (pid addr : Nat) : Option Pte := (s.table pid).get (pageOf addr)

/-- `get_new_ctx`: the first slot that is UNUSED. -/
def getNewCtx (s : Sys) : Option Nat := (List.range MAX_PROCESSES).find? fun pid => (s.ctxList pid).state = .unused

/-! ## Frames -/

/-- `os_pfn_alloc(USER_REG)`. -/
def osPfnAlloc (s : Sys) (pick : Finset Nat → Nat) : Nat × Sys :=
  let pfn := pick s.phys.inUse
  if pfn = 0 then (0, s)
  else
    (pfn, { s with phys := { s.phys with
      refcount := Function.update s.phys.refcount pfn 1
      inUse := insert pfn s.phys.inUse
      userRegPages := s.phys.userRegPages + 1 } })

/-- `os_pfn_free(USER_REG, pfn)`. -/
def osPfnFree (s : Sys) (pfn : Nat) : Sys :=
  { s with phys := { s.phys with
    refcount := Function.update s.phys.refcount pfn 0
    inUse := s.phys.inUse.erase pfn
    userRegPages := s.phys.userRegPages - 1 } }

def incrementRefcount (s : Sys) (pfn : Nat) : Sys :=
  { s with phys := { s.phys with refcount := Function.update s.phys.refcount pfn (s.phys.refcount pfn + 1) } }

def decrementRefcount (s : Sys) (pfn : Nat) : Sys :=
  { s with phys := { s.phys with refcount := Function.update s.phys.refcount pfn (s.phys.refcount pfn - 1) } }

/-- memcpy of a page. -/
def copyFrame (s : Sys) (dst src : Nat) : Sys :=
  { s with phys := { s.phys with mem := Function.update s.phys.mem dst (s.phys.mem src) } }

/-- A new frame for the page of `addr`: the tail of alloc_pfn, vm_area_pagefault and
    install_page_table. `upper` is the write bit of the tables it has to allocate. -/
def installPage (s : Sys) (pick : Finset Nat → Nat) (pid addr : Nat) (write upper : Bool) : Sys :=
  let r := s.osPfnAlloc pick
  r.2.setTable pid ((r.2.table pid).install (pageOf addr) ⟨r.1, write⟩ upper)

/-- The loops `for (vaddr = start; vaddr < stop; vaddr += PAGE_SIZE)`. -/
def vaddrs (start stop : Nat) : List Nat := (List.range ((stop - start + 4095) / 4096)).map fun i => start + 4096 * i

theorem mem_vaddrs {start stop v : Nat} : v ∈ vaddrs start stop ↔ v < stop ∧ ∃ i, v = start + 4096 * i := by
  unfold vaddrs
  simp only [List.mem_map, List.mem_range]
  constructor
  · intro h
    obtain ⟨i, hi, rfl⟩ := h
    exact ⟨by omega, i, rfl⟩
  · intro h
    obtain ⟨hv, i, rfl⟩ := h
    exact ⟨i, by omega, rfl⟩

/-! ## Live contexts and their frames -/

/-- A process; slot 0 is the swapper's. -/
def Live (s : Sys) (pid : Nat) : Prop := 0 < pid ∧ pid < MAX_PROCESSES ∧ (s.ctxList pid).state ≠ .unused

instance (s : Sys) (pid : Nat) : Decidable (s.Live pid) := inferInstanceAs (Decidable (_ ∧ _))

/-- A live context shares its page table with no other slot. -/
def Distinct (s : Sys) : Prop := ∀ i j, s.Live i → (s.ctxList j).pgd = (s.ctxList i).pgd → j = i

def frames (s : Sys) : Frames Nat Nat Nat Nat UInt8 where
  map := fun i k => if s.Live i then (s.table i).pte k else none
  count := s.phys.refcount
  used := s.phys.inUse
  data := s.phys.mem

variable {s s' : Sys} {pid addr : Nat}

theorem frames_map (hl : s.Live pid) (k : Nat) : s.frames.map pid k = (s.table pid).pte k := if_pos hl

theorem frames_dead (hl : ¬ s.Live pid) (k : Nat) : s.frames.map pid k = none := if_neg hl

theorem getUserPte_eq (hl : s.Live pid) : s.getUserPte pid addr = s.frames.map pid (pageOf addr) := by
  rw [frames_map hl]
  exact PageTable.get_eq _ _

theorem live_congr (h : s'.ctxList = s.ctxList) : s'.Live pid ↔ s.Live pid := by
  unfold Live
  rw [h]

theorem distinct_congr (h : s'.ctxList = s.ctxList) (hd : s.Distinct) : s'.Distinct := by
  intro i j hl he
  rw [h] at he
  exact hd i j ((live_congr h).mp hl) he

/-- One context's table changes, and the frames in any way. -/
theorem frames_setTable (hd : s.Distinct) (hl : s.Live pid) (h : s'.ctxList = s.ctxList) (ht : s'.tables = s.tables)
    (t : PageTable) : (s'.setTable pid t).frames =
      ⟨Function.update s.frames.map pid t.pte, s'.phys.refcount, s'.phys.inUse, s'.phys.mem⟩ := by
  unfold frames
  congr 1
  funext i k
  have htable : (s'.setTable pid t).table i = Function.update s.tables (s.ctxList pid).pgd t (s.ctxList i).pgd := by
    unfold setTable table
    rw [h, ht]
  have hlive : (s'.setTable pid t).Live i ↔ s.Live i := live_congr h
  rw [htable]
  simp only [hlive]
  by_cases hi : i = pid
  · subst hi
    rw [Function.update_self, Function.update_self, if_pos hl]
  · rw [Function.update_of_ne hi]
    by_cases hli : s.Live i
    · rw [if_pos hli, if_pos hli, Function.update_of_ne fun he => hi (hd pid i hl he)]
      rfl
    · rw [if_neg hli, if_neg hli]

theorem map_eq (hl : s.Live pid) : s.frames.map pid = (s.table pid).pte := funext fun k => frames_map hl k

/-- A PTE that is there changes, through the pointer to it. -/
theorem frames_alter (hd : s.Distinct) (hl : s.Live pid) (h : s'.ctxList = s.ctxList) (ht : s'.tables = s.tables) {e : Pte}
    (he : s.getUserPte pid addr = some e) (f : Pte → Option Pte) :
    (s'.setTable pid ((s'.table pid).alter (pageOf addr) f)).frames =
      ⟨Frames.put s.frames.map pid (pageOf addr) (f e), s'.phys.refcount, s'.phys.inUse, s'.phys.mem⟩ := by
  have htable : s'.table pid = s.table pid := by unfold table; rw [h, ht]
  have hpte : (s.table pid).pte (pageOf addr) = some e := by rw [← PageTable.get_eq]; exact he
  refine (frames_setTable hd hl h ht _).trans ?_
  rw [htable, PageTable.alter_pte, hpte, ← map_eq hl]
  rfl

@[simp] theorem frames_count : s.frames.count = s.phys.refcount := rfl
@[simp] theorem frames_used : s.frames.used = s.phys.inUse := rfl
@[simp] theorem frames_data : s.frames.data = s.phys.mem := rfl

/-- An allocator that always has an unused frame. -/
def Picks (pick : Finset Nat → Nat) : Prop := ∀ u, pick u ∉ u ∧ pick u ≠ 0

/-- Behind the highest frame in use. -/
def nextFrame (u : Finset Nat) : Nat := u.sup id + 1

theorem picks_nextFrame : Picks nextFrame := by
  refine fun u => ⟨fun h => ?_, Nat.succ_ne_zero _⟩
  have hle : u.sup id + 1 ≤ u.sup id := Finset.le_sup (f := id) h
  omega

theorem osPfnAlloc_eq {pick : Finset Nat → Nat} (hp : Picks pick) : s.osPfnAlloc pick =
    (pick s.phys.inUse, { s with phys := { s.phys with
      refcount := Function.update s.phys.refcount (pick s.phys.inUse) 1
      inUse := insert (pick s.phys.inUse) s.phys.inUse
      userRegPages := s.phys.userRegPages + 1 } }) := if_neg (hp _).2

theorem osPfnAlloc_ctxList (pick : Finset Nat → Nat) : (s.osPfnAlloc pick).2.ctxList = s.ctxList := by
  unfold osPfnAlloc; simp only; split <;> rfl

theorem osPfnAlloc_tables (pick : Finset Nat → Nat) : (s.osPfnAlloc pick).2.tables = s.tables := by
  unfold osPfnAlloc; simp only; split <;> rfl

theorem installPage_ctxList (pick : Finset Nat → Nat) (w u : Bool) :
    (s.installPage pick pid addr w u).ctxList = s.ctxList := osPfnAlloc_ctxList pick

theorem frames_installPage {pick : Finset Nat → Nat} (hp : Picks pick) (hd : s.Distinct) (hl : s.Live pid)
    (addr : Nat) (w u : Bool) : (s.installPage pick pid addr w u).frames = s.frames.fresh pid (pageOf addr) (pick s.phys.inUse) w := by
  unfold installPage
  rw [osPfnAlloc_eq hp]
  refine (frames_setTable hd hl ?_ ?_ _).trans ?_
  · rfl
  · rfl
  · unfold Frames.fresh Frames.put
    rw [map_eq hl]
    rfl

end Sys

end Cs330.Mm
