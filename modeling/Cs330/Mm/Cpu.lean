/-
  Cs330.Mm.Cpu — the kernel on a processor that keeps translations.

  The processor walks the page table in cr3 and keeps what it finds. It may look a page up or
  forget it between any two calls, faults and accesses, not in the middle of one: what it
  keeps between the two installs of a stack page in do_page_fault, say, is not in the model.
  A write to cr3 drops everything, invlpg one page. pfn_unmap, change_permissions,
  cfork_copy_mm and handle_cow_fault run it for the page they change; what only installs
  pages does not. Each function here is that of Cs330.Mm.Syscalls, Fault or Cfork with its
  invlpg; what it does to memory is the same (`…_sys`).
-/
import Cs330.Lib.Cache
import Cs330.Mm.Populate
import Cs330.Mm.Upper

namespace Cs330.Mm

open Lib Lib.Seg Vm

/-- What a walk yields: the frame, and whether all levels allow a write. -/
def PageTable.translate (t : PageTable) (p : Nat) : Option Pte := (t.pte p).map fun e => ⟨e.frame, t.allows p true⟩

/-- `current` is nobody between an exit and the switch after it. -/
structure Cpu where
  sys : Sys
  current : Option Nat
  cr3 : Nat
  tlb : Nat → Option Pte

namespace Cpu

/-- The kernel works on memory. -/
def on (c : Cpu) (f : Sys → Sys) : Cpu := { c with sys := f c.sys }

/-- `invlpg` -/
def invlpg (c : Cpu) (addr : Nat) : Cpu := { c with tlb := Function.update c.tlb (pageOf addr) none }

def walk (c : Cpu) : Nat → Option Pte := (c.sys.tables c.cr3).translate

/-! ## Accesses -/

def lookup (c : Cpu) (p : Nat) : Option Pte := Cache.lookup c.tlb c.walk p

def allows (c : Cpu) (p : Nat) (write : Bool) : Bool :=
  match c.lookup p with
  | none => false
  | some e => !write || e.write

def errorCode (c : Cpu) (p : Nat) (write : Bool) : UInt64 :=
  4 ||| (if write then 2 else 0) ||| (if (c.lookup p).isSome then 1 else 0)

def load (c : Cpu) (addr : Nat) : Option UInt8 :=
  (c.lookup (pageOf addr)).map fun e => c.sys.phys.mem e.frame (addr % 4096)

def store (c : Cpu) (addr : Nat) (byte : UInt8) : Cpu :=
  match c.lookup (pageOf addr) with
  | none => c
  | some e => c.on fun s =>
    { s with phys := { s.phys with
      mem := Function.update s.phys.mem e.frame (Function.update (s.phys.mem e.frame) (addr % 4096) byte) } }

/-! ## The kernel, with the invlpg it runs -/

/-- `pfn_unmap` -/
def pfnUnmap (c : Cpu) (pid addr : Nat) : Cpu :=
  match c.sys.getUserPte pid addr with
  | none => c
  | some _ => (c.on fun s => s.pfnUnmap pid addr).invlpg addr

/-- `change_permissions`; it runs invlpg whether or not it changes the PTE. -/
def changePermissions (c : Cpu) (pid addr : Nat) (prot : UInt32) : Cpu :=
  match c.sys.getUserPte pid addr with
  | none => c
  | some _ => (c.on fun s => s.changePermissions pid addr prot).invlpg addr

/-- `vm_area_map`: alloc_pfn runs no invlpg. -/
def vmAreaMap (c : Cpu) (pick : Finset Nat → Nat) (pid addr : Nat) (length : Int) (prot flags : UInt32) : Cpu :=
  c.on fun s => (s.vmAreaMap pick pid addr length prot flags).2

/-- `vm_area_unmap` -/
def vmAreaUnmap (c : Cpu) (pid addr : Nat) (length : Int) : Cpu :=
  let areas := (c.sys.ctxList pid).vmArea
  let r := unmapAreas areas addr length
  let c' := c.on fun s => s.setAreas pid r.2.1 r.2.2
  if r.1 = 0 ∧ areas ≠ [] then (Sys.vaddrs addr (plus addr (pageRound length))).foldl (fun c i => c.pfnUnmap pid i) c' else c'

/-- `vm_area_mprotect` -/
def vmAreaMprotect (c : Cpu) (pid addr : Nat) (length : Int) (prot : UInt32) : Cpu :=
  let r := protectAreas (c.sys.ctxList pid).vmArea addr length prot
  let c' := c.on fun s => s.setAreas pid r.2.1 r.2.2
  if r.1 = 0 then
    (Sys.vaddrs addr (plus addr (pageRound length))).foldl (fun c _ => c.changePermissions pid addr prot) c'
  else c'

/-- `handle_cow_fault` -/
def handleCowFault (c : Cpu) (pick : Finset Nat → Nat) (pid cr2 : Nat) : Int × Cpu :=
  let r := c.sys.handleCowFault pick pid cr2
  let c' := c.on fun _ => r.2
  (r.1, if r.1 = 1 then c'.invlpg cr2 else c')

/-- `do_page_fault`: the functions that install a page run no invlpg. -/
def doPageFault (c : Cpu) (pick : Finset Nat → Nat) (pid cr2 : Nat) (errorCode : UInt64) : Bool × Cpu :=
  if errorCode = 7 then
    let r := c.handleCowFault pick pid cr2
    (0 < r.1, r.2)
  else
    let r := c.sys.doPageFault pick pid cr2 errorCode
    (r.1, c.on fun _ => r.2)

/-- A page parent and child are to share. -/
def sharePage (c : Cpu) (pick : Finset Nat → Nat) (child parent : Nat) (seg : MmSegment) (vaddr : Nat) : Cpu :=
  match c.sys.getUserPte parent vaddr with
  | none => c
  | some _ => (c.on fun s => s.sharePage pick child parent seg vaddr).invlpg vaddr

/-- `cfork_copy_mm` -/
def cforkCopyMm (c : Cpu) (pick : Finset Nat → Nat) (child parent : Nat) : Cpu :=
  let x := c.sys.ctxList child
  let share (seg : MmSegment) (c : Cpu) (vs : List Nat) := vs.foldl (fun c v => c.sharePage pick child parent seg v) c
  let c := share x.code c (Sys.vaddrs x.code.start x.code.nextFree)
  let c := share x.rodata c (Sys.vaddrs x.rodata.start x.rodata.nextFree)
  let c := share x.data c (Sys.vaddrs x.data.start x.data.nextFree)
  let c := c.on fun s => (Sys.vaddrsDown x.stack.nextFree x.stack.stop).foldl (fun s v => s.copyPage pick child parent x.stack v) s
  (c.sys.ctxList parent).vmArea.foldl (fun c a => share x.stack c (Sys.vaddrs a.vmStart a.vmEnd)) c

/-- `do_cfork` -/
def doCfork (c : Cpu) (pick : Finset Nat → Nat) (pid pgd : Nat) : Option (Nat × Cpu) :=
  c.sys.getNewCtx.map fun child =>
    let x := c.sys.ctxList pid
    let c' := c.on fun s =>
      { s.setCtx child { x with ppid := pid, pgd := pgd } with
        tables := Function.update s.tables pgd PageTable.empty
        numVmArea := s.numVmArea + x.vmArea.length }
    let c' := c'.cforkCopyMm pick child pid
    (child, c'.on fun s => s.setCtx child { s.ctxList child with state := .ready })

/-- `do_exit`, up to the switch. -/
def doExit (c : Cpu) (pid : Nat) : Cpu := { c.on fun s => s.doExit pid with current := none }

def fault (c : Cpu) (pick : Finset Nat → Nat) (pid addr : Nat) (write : Bool) : Cpu :=
  let r := c.doPageFault pick pid addr (c.errorCode (pageOf addr) write)
  if r.1 then r.2 else r.2.doExit pid

def call (c : Cpu) : Ev → Option Cpu
  | .mmap pid addr length prot flags pick => some (c.vmAreaMap pick pid addr length prot flags)
  | .munmap pid addr length => some (c.vmAreaUnmap pid addr length)
  | .mprotect pid addr length prot => some (c.vmAreaMprotect pid addr length prot)
  | .expand pid size segmentT => some (c.on fun s => (s.doExpand pid size segmentT).2)
  | .cfork pid pgd pick => (c.doCfork pick pid pgd).map Prod.snd
  | .exit pid => some (c.doExit pid)
  | .read pid addr pick =>
    if 2 ^ 47 ≤ addr then none
    else if c.allows (pageOf addr) false then some c
    else some (c.fault pick pid addr false)
  | .write pid addr byte pick =>
    if 2 ^ 47 ≤ addr then none
    else if c.allows (pageOf addr) true then some (c.store addr byte)
    else some (c.fault pick pid addr true)

/-- What the processor does besides: another context is switched to, a page is looked up or forgotten. -/
inductive Event where
  | call (e : Ev)
  | switch (pid : Nat)
  | fill (p : Nat)
  | evict (p : Nat)

/-- schedule and handle_timer_tick load cr3. -/
def switch (c : Cpu) (pid : Nat) : Cpu := { c with current := some pid, cr3 := (c.sys.ctxList pid).pgd, tlb := fun _ => none }

def step (c : Cpu) : Event → Option Cpu
  | .call e => if c.current = some e.pid then c.call e else none
  | .switch pid => if c.sys.Live pid then some (c.switch pid) else none
  | .fill p => some { c with tlb := Function.update c.tlb p (c.walk p) }
  | .evict p => some { c with tlb := Function.update c.tlb p none }

def Start (c : Cpu) : Prop := c.sys.Start ∧ c.current = some 1 ∧ c.cr3 = (c.sys.ctxList 1).pgd ∧ c.tlb = fun _ => none

def machine : Machine Cpu Event := ⟨Start, step⟩

/-- The pages a call populates are not there. -/
def Unpopulated (s : Sys) : Ev → Prop
  | .mmap pid addr length prot flags _ =>
    let ret := (mapAreas (s.ctxList pid).vmArea addr length prot flags).1
    ret ≠ -1 → flags &&& MAP_POPULATE ≠ 0 → ∀ v ∈ Sys.vaddrs ret.toNat (plus ret.toNat (pageRound length)),
      (s.table pid).pte (pageOf v) = none
  | _ => True

def Promised (c : Cpu) : Event → Prop
  | .call e => c.sys.Promised e ∧ Unpopulated c.sys e
  | _ => True

/-- The system calls and accesses among the events. -/
def Event.call? : Event → Option Ev
  | .call e => some e
  | _ => none

/-- The documented events, which wrap no counter. -/
def Documented (c : Cpu) (ev : Event) : Prop := c.Promised ev ∧ ∀ x, ev.call? = some x → c.sys.NoWrap x

/-- The frames a process works on, what it may do and what it reads are those of its page table. -/
structure Coherent (c : Cpu) : Prop where
  frame : ∀ pid, c.current = some pid → ∀ p, (c.lookup p).map Entry.frame = ((c.sys.table pid).pte p).map Entry.frame
  allows : ∀ pid, c.current = some pid → ∀ p write, c.allows p write = (c.sys.table pid).allows p write
  load : ∀ pid, c.current = some pid → ∀ addr, c.load addr = c.sys.load pid addr

/-! ## The memory is that of the calls without a processor -/

theorem foldl_sys {f : Cpu → Nat → Cpu} {f' : Sys → Nat → Sys} (h : ∀ c v, (f c v).sys = f' c.sys v) (vs : List Nat) (c : Cpu) :
    (vs.foldl f c).sys = vs.foldl f' c.sys := by
  induction vs generalizing c with
  | nil => rfl
  | cons v vs ih => rw [List.foldl_cons, List.foldl_cons, ih, h]

theorem pfnUnmap_sys (c : Cpu) (pid addr : Nat) : (c.pfnUnmap pid addr).sys = c.sys.pfnUnmap pid addr := by
  unfold pfnUnmap
  cases h : c.sys.getUserPte pid addr with
  | none =>
    unfold Sys.pfnUnmap
    rw [h]
  | some _ => rfl

theorem changePermissions_sys (c : Cpu) (pid addr : Nat) (prot : UInt32) :
    (c.changePermissions pid addr prot).sys = c.sys.changePermissions pid addr prot := by
  unfold changePermissions
  cases h : c.sys.getUserPte pid addr with
  | none =>
    unfold Sys.changePermissions
    rw [h]
  | some _ => rfl

theorem vmAreaUnmap_sys (c : Cpu) (pid addr : Nat) (length : Int) :
    (c.vmAreaUnmap pid addr length).sys = (c.sys.vmAreaUnmap pid addr length).2 := by
  unfold vmAreaUnmap Sys.vmAreaUnmap Sys.pfnUnmapAll
  simp only
  split
  · exact foldl_sys (fun c v => pfnUnmap_sys c pid v) _ _
  · rfl

theorem vmAreaMprotect_sys (c : Cpu) (pid addr : Nat) (length : Int) (prot : UInt32) :
    (c.vmAreaMprotect pid addr length prot).sys = (c.sys.vmAreaMprotect pid addr length prot).2 := by
  unfold vmAreaMprotect Sys.vmAreaMprotect
  simp only
  split
  · exact foldl_sys (fun c _ => changePermissions_sys c pid addr prot) _ _
  · rfl

theorem handleCowFault_sys (c : Cpu) (pick : Finset Nat → Nat) (pid cr2 : Nat) :
    (c.handleCowFault pick pid cr2).2.sys = (c.sys.handleCowFault pick pid cr2).2 := by
  unfold handleCowFault
  simp only
  split
  · rfl
  · rfl

theorem doPageFault_sys (c : Cpu) (pick : Finset Nat → Nat) (pid cr2 : Nat) (err : UInt64) :
    (c.doPageFault pick pid cr2 err).1 = (c.sys.doPageFault pick pid cr2 err).1 ∧
      (c.doPageFault pick pid cr2 err).2.sys = (c.sys.doPageFault pick pid cr2 err).2 := by
  unfold doPageFault
  split
  · rename_i h7
    unfold Sys.doPageFault
    simp only
    rw [if_pos h7]
    exact ⟨rfl, handleCowFault_sys c pick pid cr2⟩
  · exact ⟨rfl, rfl⟩

theorem sharePage_sys (c : Cpu) (pick : Finset Nat → Nat) (child parent : Nat) (seg : MmSegment) (vaddr : Nat) :
    (c.sharePage pick child parent seg vaddr).sys = c.sys.sharePage pick child parent seg vaddr := by
  unfold sharePage
  cases h : c.sys.getUserPte parent vaddr with
  | none =>
    unfold Sys.sharePage
    rw [h]
  | some _ => rfl

theorem cforkCopyMm_sys (c : Cpu) (pick : Finset Nat → Nat) (child parent : Nat) :
    (c.cforkCopyMm pick child parent).sys = c.sys.cforkCopyMm pick child parent := by
  have hshare : ∀ seg (vs : List Nat) (c : Cpu), (vs.foldl (fun c v => c.sharePage pick child parent seg v) c).sys =
      vs.foldl (fun s v => s.sharePage pick child parent seg v) c.sys :=
    fun seg vs c => foldl_sys (fun c v => sharePage_sys c pick child parent seg v) vs c
  unfold cforkCopyMm Sys.cforkCopyMm
  simp only [← List.foldl_flatMap, hshare, on]

theorem doCfork_sys (c : Cpu) (pick : Finset Nat → Nat) (pid pgd : Nat) :
    ((c.doCfork pick pid pgd).map Prod.snd).map Cpu.sys = (c.sys.doCfork pick pid pgd).map Prod.snd := by
  unfold doCfork Sys.doCfork
  cases c.sys.getNewCtx with
  | none => rfl
  | some child =>
    simp only [Option.map_some, on, cforkCopyMm_sys]

end Cpu

end Cs330.Mm
