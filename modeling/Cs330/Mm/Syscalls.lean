/-
  Cs330.Mm.Syscalls — mmap, munmap, mprotect and expand on page tables.

  Each first changes the list of areas (Vm.*), then walks the pages of the range:
  `allocPfn` under MAP_POPULATE, `pfnUnmap`, and `changePermissions`, which mprotect calls
  with the address of its first page every time.
-/
import Cs330.Mm.System
import Cs330.Vm.Calls

namespace Cs330.Mm

open Lib Vm

def MAX_EXPAND_PAGES : Nat := 1024

namespace Sys

/-- `alloc_pfn`: the write bit of the page is that of `prot`. -/
def allocPfn (s : Sys) (pick : Finset Nat → Nat) (pid addr : Nat) (prot : UInt32) : Sys :=
  s.installPage pick pid addr (prot &&& 2 ≠ 0) true

/-- `pfn_unmap` -/
def pfnUnmap (s : Sys) (pid addr : Nat) : Sys :=
  match s.getUserPte pid addr with
  | none => s
  | some e =>
    let s' := if s.phys.refcount e.frame = 1 then s.osPfnFree e.frame else s.decrementRefcount e.frame
    s'.setTable pid ((s'.table pid).alter (pageOf addr) fun _ => none)

/-- `change_permissions` -/
def changePermissions (s : Sys) (pid addr : Nat) (prot : UInt32) : Sys :=
  match s.getUserPte pid addr with
  | none => s
  | some e =>
    if s.phys.refcount e.frame = 1 then
      s.setTable pid ((s.table pid).alter (pageOf addr) fun e => some { e with write := prot &&& 2 ≠ 0 })
    else s

/-- The new list of areas of a call, and the nodes it took. -/
def setAreas (s : Sys) (pid : Nat) (areas : List VmArea) (nodes : Int) : Sys :=
  { s.setCtx pid { s.ctxList pid with vmArea := areas } with numVmArea := s.numVmArea + nodes }

/-- `vm_area_map` -/
def vmAreaMap (s : Sys) (pick : Finset Nat → Nat) (pid addr : Nat) (length : Int) (prot flags : UInt32) : Int × Sys :=
  let r := mapAreas (s.ctxList pid).vmArea addr length prot flags
  let s' := s.setAreas pid r.2.1 r.2.2
  if r.1 = -1 then (-1, s')
  else if flags &&& MAP_POPULATE ≠ 0 then
    let ret := r.1.toNat
    (ret, (vaddrs ret (plus ret (pageRound length))).foldl (fun s i => s.allocPfn pick pid i prot) s')
  else (r.1, s')

/-- The loop of `vm_area_unmap`. -/
def pfnUnmapAll (s : Sys) (pid : Nat) (is : List Nat) : Sys := is.foldl (fun s i => s.pfnUnmap pid i) s

/-- `vm_area_unmap`; without any area it returns before the loop. -/
def vmAreaUnmap (s : Sys) (pid addr : Nat) (length : Int) : Int × Sys :=
  let areas := (s.ctxList pid).vmArea
  let r := unmapAreas areas addr length
  let s' := s.setAreas pid r.2.1 r.2.2
  if r.1 = 0 ∧ areas ≠ [] then (0, s'.pfnUnmapAll pid (vaddrs addr (plus addr (pageRound length)))) else (r.1, s')

/-- `vm_area_mprotect` -/
def vmAreaMprotect (s : Sys) (pid addr : Nat) (length : Int) (prot : UInt32) : Int × Sys :=
  let r := protectAreas (s.ctxList pid).vmArea addr length prot
  let s' := s.setAreas pid r.2.1 r.2.2
  if r.1 = 0 then
    (0, (vaddrs addr (plus addr (pageRound length))).foldl (fun s _ => s.changePermissions pid addr prot) s')
  else (r.1, s')

/-- Either call returns what it did on the list of areas. -/
theorem vmAreaUnmap_ret (s : Sys) (pid addr : Nat) (length : Int) :
    (s.vmAreaUnmap pid addr length).1 = (unmapAreas (s.ctxList pid).vmArea addr length).1 := by
  unfold vmAreaUnmap
  simp only
  split
  · rename_i h
    exact h.1.symm
  · rfl

theorem vmAreaMprotect_ret (s : Sys) (pid addr : Nat) (length : Int) (prot : UInt32) :
    (s.vmAreaMprotect pid addr length prot).1 = (protectAreas (s.ctxList pid).vmArea addr length prot).1 := by
  unfold vmAreaMprotect
  simp only
  split
  · rename_i h
    exact h.symm
  · rfl

/-- `do_expand`: 0 (MAP_RD) is the RODATA segment, 1 (MAP_WR) the DATA segment. -/
def doExpand (s : Sys) (pid size : Nat) (segmentT : Int) : Nat × Sys :=
  let c := s.ctxList pid
  if MAX_EXPAND_PAGES < size then (0, s)
  else if segmentT = 0 then
    if c.rodata.stop < c.rodata.nextFree + size * 4096 then (0, s)
    else (c.rodata.nextFree, s.setCtx pid { c with rodata := { c.rodata with nextFree := c.rodata.nextFree + size * 4096 } })
  else if segmentT = 1 then
    if c.data.stop < c.data.nextFree + size * 4096 then (0, s)
    else (c.data.nextFree, s.setCtx pid { c with data := { c.data with nextFree := c.data.nextFree + size * 4096 } })
  else (0, s)

/-! ## As operations on frames -/

variable {s : Sys} {pid addr : Nat}

/-- A change of a context that keeps its table and keeps it alive or not. -/
theorem frames_setCtx (pid : Nat) (c : Ctx) (hp : c.pgd = (s.ctxList pid).pgd)
    (hs : c.state = .unused ↔ (s.ctxList pid).state = .unused) :
    (s.setCtx pid c).frames = s.frames ∧ (∀ i, (s.setCtx pid c).Live i ↔ s.Live i) ∧
      (s.Distinct → (s.setCtx pid c).Distinct) := by
  have hpgd : ∀ i, ((s.setCtx pid c).ctxList i).pgd = (s.ctxList i).pgd := by
    intro i
    show (Function.update s.ctxList pid c i).pgd = _
    by_cases hi : i = pid
    · rw [hi, Function.update_self, hp]
    · rw [Function.update_of_ne hi]
  have hlive : ∀ i, (s.setCtx pid c).Live i ↔ s.Live i := by
    intro i
    unfold Live
    show _ ∧ _ ∧ (Function.update s.ctxList pid c i).state ≠ _ ↔ _
    by_cases hi : i = pid
    · rw [hi, Function.update_self, ne_eq, hs]
    · rw [Function.update_of_ne hi]
  refine ⟨?_, hlive, fun hd i j hl he => ?_⟩
  · unfold frames
    congr 1
    funext i k
    simp only [hlive]
    split
    · unfold table
      rw [hpgd]
      rfl
    · rfl
  · rw [hpgd, hpgd] at he
    exact hd i j ((hlive i).mp hl) he

theorem frames_pfnUnmap (hd : s.Distinct) (hl : s.Live pid) (addr : Nat) :
    (s.pfnUnmap pid addr).frames = s.frames.drop pid (pageOf addr) := by
  unfold pfnUnmap Frames.drop
  rw [← getUserPte_eq hl]
  cases h : s.getUserPte pid addr with
  | none => rfl
  | some e =>
    by_cases h1 : s.phys.refcount e.frame = 1
    · have h1' : s.frames.count e.frame = 1 := h1
      simp only [if_pos h1, if_pos h1']
      have hc : (s.osPfnFree e.frame).ctxList = s.ctxList := rfl
      have ht : (s.osPfnFree e.frame).tables = s.tables := rfl
      exact frames_alter hd hl hc ht h _
    · have h1' : ¬ s.frames.count e.frame = 1 := h1
      simp only [if_neg h1, if_neg h1']
      have hc : (s.decrementRefcount e.frame).ctxList = s.ctxList := rfl
      have ht : (s.decrementRefcount e.frame).tables = s.tables := rfl
      exact frames_alter hd hl hc ht h _

theorem pfnUnmap_ctxList (s : Sys) (pid addr : Nat) : (s.pfnUnmap pid addr).ctxList = s.ctxList := by
  unfold pfnUnmap
  cases s.getUserPte pid addr with
  | none => rfl
  | some e => simp only; split <;> rfl

theorem frames_changePermissions (hd : s.Distinct) (hl : s.Live pid) (addr : Nat) (prot : UInt32) :
    (s.changePermissions pid addr prot).frames = s.frames.chmod pid (pageOf addr) (prot &&& 2 ≠ 0) := by
  unfold changePermissions Frames.chmod
  rw [← getUserPte_eq hl]
  cases h : s.getUserPte pid addr with
  | none => rfl
  | some e =>
    by_cases h1 : s.phys.refcount e.frame = 1
    · have h1' : s.frames.count e.frame = 1 := h1
      simp only [if_pos h1, if_pos h1']
      exact frames_alter hd hl rfl rfl h _
    · have h1' : ¬ s.frames.count e.frame = 1 := h1
      simp only [if_neg h1, if_neg h1']

theorem changePermissions_ctxList (s : Sys) (pid addr : Nat) (prot : UInt32) :
    (s.changePermissions pid addr prot).ctxList = s.ctxList := by
  unfold changePermissions
  cases s.getUserPte pid addr with
  | none => rfl
  | some e => simp only; split <;> rfl

theorem frames_setAreas (s : Sys) (pid : Nat) (areas : List VmArea) (nodes : Int) :
    (s.setAreas pid areas nodes).frames = s.frames ∧ (∀ i, (s.setAreas pid areas nodes).Live i ↔ s.Live i) ∧
      (s.Distinct → (s.setAreas pid areas nodes).Distinct) :=
  frames_setCtx (s := s) pid { s.ctxList pid with vmArea := areas } rfl Iff.rfl

theorem frames_pfnUnmapAll (hd : s.Distinct) (hl : s.Live pid) (is : List Nat) :
    (s.pfnUnmapAll pid is).frames = s.frames.dropAll pid (is.map pageOf) ∧ (s.pfnUnmapAll pid is).ctxList = s.ctxList := by
  induction is generalizing s with
  | nil => exact ⟨rfl, rfl⟩
  | cons i is ih =>
    have hc := pfnUnmap_ctxList s pid i
    obtain ⟨h1, h2⟩ := ih (distinct_congr hc hd) ((live_congr hc).mpr hl)
    refine ⟨h1.trans ?_, h2.trans hc⟩
    rw [frames_pfnUnmap hd hl]
    rfl

/-- Every round of mprotect's loop does the same. -/
theorem frames_changePermissions_loop (hd : s.Distinct) (hl : s.Live pid) (addr : Nat) (prot : UInt32) (is : List Nat) :
    (is.foldl (fun s _ => s.changePermissions pid addr prot) s).frames =
        (if is = [] then s.frames else s.frames.chmod pid (pageOf addr) (prot &&& 2 ≠ 0)) ∧
      (is.foldl (fun s _ => s.changePermissions pid addr prot) s).ctxList = s.ctxList := by
  induction is generalizing s with
  | nil => exact ⟨rfl, rfl⟩
  | cons i is ih =>
    have hc := changePermissions_ctxList s pid addr prot
    obtain ⟨h1, h2⟩ := ih (distinct_congr hc hd) ((live_congr hc).mpr hl)
    refine ⟨h1.trans ?_, h2.trans hc⟩
    rw [if_neg (List.cons_ne_nil i is), frames_changePermissions hd hl]
    split
    · rfl
    · exact Frames.chmod_chmod

end Sys

end Cs330.Mm
