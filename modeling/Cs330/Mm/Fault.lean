/-
  Cs330.Mm.Fault — page faults.

  do_page_fault sends a write to a page that is there (error code 7) to handle_cow_fault,
  and a page that is not there to install_page_table or vm_area_pagefault, by the segment
  it lies in. The answer `false` is the way to SIGSEGV.
-/
import Cs330.Mm.Syscalls

namespace Cs330.Mm

open Lib Vm

/-- The first walk of vm_area_pagefault: no gap between two areas, and no end, at `addr`. -/
def noGapAt (addr : Nat) : List VmArea → Bool
  | [] => true
  | [curr] => !decide (curr.vmEnd ≤ addr)
  | curr :: next :: rest => !(decide (curr.vmEnd ≤ addr) && decide (addr < next.vmStart)) && noGapAt addr (next :: rest)

/-- No area at `addr` lacks the write flag. -/
def writableAt (addr : Nat) (areas : List VmArea) : Bool :=
  areas.all fun curr => !(decide (curr.vmStart ≤ addr) && decide (addr < curr.vmEnd)) || decide (curr.accessFlags &&& 2 ≠ 0)

def areaAt (addr : Nat) (areas : List VmArea) : Bool :=
  areas.any fun curr => decide (curr.vmStart ≤ addr) && decide (addr < curr.vmEnd)

namespace Sys

/-- `install_page_table` -/
def installPageTable (s : Sys) (pick : Finset Nat → Nat) (pid addr : Nat) (errorCode : UInt64) : Sys :=
  s.installPage pick pid addr (errorCode &&& 2 ≠ 0) (errorCode &&& 2 ≠ 0)

/-- `vm_area_pagefault` -/
def vmAreaPagefault (s : Sys) (pick : Finset Nat → Nat) (pid addr : Nat) (errorCode : UInt64) : Int × Sys :=
  let areas := (s.ctxList pid).vmArea
  if ¬ (MMAP_AREA_START ≤ addr ∧ addr < MMAP_AREA_END) then (-1, s)
  else if errorCode &&& 1 ≠ 0 then (-1, s)
  else
    match areas with
    | [] => (-1, s)
    | first :: _ =>
      if addr < first.vmStart then (-1, s)
      else if ¬ noGapAt addr areas then (-1, s)
      else if errorCode &&& 2 ≠ 0 ∧ ¬ writableAt addr areas then (-1, s)
      else (1, s.installPage pick pid addr (errorCode &&& 2 ≠ 0) true)

/-- `handle_cow_fault`, called for a page that is there. -/
def handleCowFault (s : Sys) (pick : Finset Nat → Nat) (pid cr2 : Nat) : Int × Sys :=
  let c := s.ctxList pid
  let inData := (vaddrs c.data.start c.data.nextFree).any fun vaddr => decide (vaddr ≤ cr2) && decide (cr2 < vaddr + 4096)
  if ¬ (areaAt cr2 c.vmArea || inData) then (-1, s)
  else if ¬ writableAt cr2 c.vmArea then (-1, s)
  else
    match s.getUserPte pid cr2 with
    | none => (-1, s)
    | some e =>
      if s.phys.refcount e.frame = 1 then
        (1, s.setTable pid ((s.table pid).alter (pageOf cr2) fun e => some { e with write := true }))
      else
        let r := (s.decrementRefcount e.frame).osPfnAlloc pick
        let s' := r.2.copyFrame r.1 e.frame
        (1, s'.setTable pid ((s'.table pid).alter (pageOf cr2) fun _ => some ⟨r.1, true⟩))

def setStackNextFree (s : Sys) (pid nextFree : Nat) : Sys :=
  s.setCtx pid { s.ctxList pid with stack := { (s.ctxList pid).stack with nextFree := nextFree } }

/-- The loop of do_page_fault that moves the stack down by `n` pages. -/
def growStack (pick : Finset Nat → Nat) (pid : Nat) (errorCode : UInt64) : Nat → Sys → Sys
  | 0, s => s
  | n + 1, s =>
    let nextFree := (s.ctxList pid).stack.nextFree - 4096
    growStack pick pid errorCode n ((s.setStackNextFree pid nextFree).installPageTable pick pid nextFree errorCode)

/-- `do_page_fault` -/
def doPageFault (s : Sys) (pick : Finset Nat → Nat) (pid cr2 : Nat) (errorCode : UInt64) : Bool × Sys :=
  let c := s.ctxList pid
  if errorCode = 7 then
    let r := s.handleCowFault pick pid cr2
    (0 < r.1, r.2)
  else if errorCode &&& 1 ≠ 0 then (false, s)
  else if c.data.start ≤ cr2 ∧ cr2 ≤ c.data.stop then
    if cr2 < c.data.nextFree then (true, s.installPageTable pick pid cr2 errorCode) else (false, s)
  else if c.rodata.start ≤ cr2 ∧ cr2 ≤ c.rodata.stop then
    if cr2 < c.rodata.nextFree ∧ errorCode &&& 2 = 0 then (true, s.installPageTable pick pid cr2 errorCode) else (false, s)
  else if c.stack.start ≤ cr2 ∧ cr2 ≤ c.stack.stop then
    if cr2 < c.stack.nextFree then
      let cr2 := cr2 / 4096 * 4096
      let s' := growStack pick pid errorCode ((c.stack.nextFree - cr2) / 4096) s
      (true, s'.installPageTable pick pid (s'.ctxList pid).stack.nextFree errorCode)
    else (false, s)
  else if MMAP_AREA_START ≤ cr2 ∧ cr2 ≤ MMAP_AREA_END then
    let r := s.vmAreaPagefault pick pid cr2 errorCode
    (0 < r.1, r.2)
  else (false, s)

/-! ## As operations on frames -/

variable {s : Sys} {pid addr : Nat} {pick : Finset Nat → Nat}

/-- A fault that is resolved lies in an area that allows it. -/
theorem vmAreaPagefault_cases (s : Sys) (pick : Finset Nat → Nat) (pid addr : Nat) (err : UInt64) :
    s.vmAreaPagefault pick pid addr err = (-1, s) ∨
      (s.vmAreaPagefault pick pid addr err = (1, s.installPage pick pid addr (err &&& 2 ≠ 0) true) ∧
        noGapAt addr (s.ctxList pid).vmArea = true ∧
        (∃ first rest, (s.ctxList pid).vmArea = first :: rest ∧ first.vmStart ≤ addr) ∧
        (err &&& 2 ≠ 0 → writableAt addr (s.ctxList pid).vmArea = true)) := by
  unfold vmAreaPagefault
  simp only
  split
  · exact Or.inl rfl
  split
  · exact Or.inl rfl
  split
  · exact Or.inl rfl
  · rename_i first rest hareas
    split
    · exact Or.inl rfl
    split
    · exact Or.inl rfl
    split
    · exact Or.inl rfl
    · rename_i h1 h2 h3
      exact Or.inr ⟨rfl, not_not.mp h2, ⟨first, rest, hareas, Nat.le_of_not_lt h1⟩,
        fun hw => by_contra fun hn => h3 ⟨hw, hn⟩⟩

/-- In place, or by a copy. -/
theorem handleCowFault_cases (hp : Picks pick) (hd : s.Distinct) (hl : s.Live pid) (addr : Nat) :
    s.handleCowFault pick pid addr = (-1, s) ∨
      ∃ e, s.frames.map pid (pageOf addr) = some e ∧ writableAt addr (s.ctxList pid).vmArea = true ∧
        (s.handleCowFault pick pid addr).1 = 1 ∧
        ((s.frames.count e.frame = 1 ∧ (s.handleCowFault pick pid addr).2.frames = s.frames.chmod pid (pageOf addr) true) ∨
          (s.frames.count e.frame ≠ 1 ∧
            (s.handleCowFault pick pid addr).2.frames = s.frames.copy pid (pageOf addr) (pick s.phys.inUse))) := by
  unfold handleCowFault
  simp only
  split
  · exact Or.inl rfl
  split
  · exact Or.inl rfl
  rename_i hw
  cases h : s.getUserPte pid addr with
  | none => exact Or.inl rfl
  | some e =>
    have hmap : s.frames.map pid (pageOf addr) = some e := by rw [← getUserPte_eq hl]; exact h
    refine Or.inr ⟨e, hmap, not_not.mp hw, ?_⟩
    by_cases h1 : s.phys.refcount e.frame = 1
    · simp only [if_pos h1]
      refine ⟨trivial, Or.inl ⟨h1, ?_⟩⟩
      have h1' : s.frames.count e.frame = 1 := h1
      unfold Frames.chmod
      rw [hmap]
      simp only [if_pos h1']
      exact frames_alter hd hl rfl rfl h _
    · simp only [if_neg h1]
      refine ⟨trivial, Or.inr ⟨h1, ?_⟩⟩
      unfold Frames.copy
      rw [hmap]
      have hc : (((s.decrementRefcount e.frame).osPfnAlloc pick).2.copyFrame
          ((s.decrementRefcount e.frame).osPfnAlloc pick).1 e.frame).ctxList = s.ctxList := osPfnAlloc_ctxList pick
      have ht : (((s.decrementRefcount e.frame).osPfnAlloc pick).2.copyFrame
          ((s.decrementRefcount e.frame).osPfnAlloc pick).1 e.frame).tables = s.tables := osPfnAlloc_tables pick
      rw [frames_alter hd hl hc ht h, osPfnAlloc_eq hp]
      rfl

end Sys

end Cs330.Mm
