/-
  Cs330.Mm.Residue — what a frame still holds when it is handed out.

  os_pfn_alloc clears the frames of OS_PT_REG, not those of USER_REG: a page that mmap or a
  fault maps has what its frame held before. mmap, munmap, mprotect, expand, exit and page
  faults look at no byte of a frame; handle_cow_fault copies whole frames, and that is all
  that moves bytes (`source`). So two runs of them that start alike but for frames mapped by
  other processes only let a process read the same byte, whatever those frames hold, if and
  only if the byte does not come from one of them (`reads_same_iff`). `recycled_frame` is a
  page that comes to its reader with what its last owner wrote.
-/
import Cs330.Lib.Traced
import Cs330.Mm.Ownership

namespace Cs330.Mm

open Lib Lib.Seg Vm

namespace Sys

/-! ## Another memory -/

def withMem (s : Sys) (m : Nat → Nat → UInt8) : Sys := { s with phys := { s.phys with mem := m } }

variable (s : Sys) (m : Nat → Nat → UInt8) (pick : Finset Nat → Nat) (pid addr : Nat)

@[simp] theorem withMem_ctxList : (s.withMem m).ctxList = s.ctxList := rfl
@[simp] theorem withMem_table : (s.withMem m).table pid = s.table pid := rfl
@[simp] theorem withMem_getUserPte : (s.withMem m).getUserPte pid addr = s.getUserPte pid addr := rfl
@[simp] theorem withMem_refcount : (s.withMem m).phys.refcount = s.phys.refcount := rfl
@[simp] theorem withMem_inUse : (s.withMem m).phys.inUse = s.phys.inUse := rfl
@[simp] theorem withMem_mem : (s.withMem m).phys.mem = m := rfl
@[simp] theorem withMem_setCtx (c : Ctx) : (s.withMem m).setCtx pid c = (s.setCtx pid c).withMem m := rfl
@[simp] theorem withMem_setAreas (areas : List VmArea) (nodes : Int) :
    (s.withMem m).setAreas pid areas nodes = (s.setAreas pid areas nodes).withMem m := rfl

theorem withMem_ite (c : Prop) [Decidable c] (s t : Sys) :
    (if c then s else t).withMem m = if c then s.withMem m else t.withMem m := apply_ite (withMem · m) c s t

/-- What a call returns, and the state after it with another memory. -/
def lift (m : Nat → Nat → UInt8) {α : Type} (r : α × Sys) : α × Sys := (r.1, r.2.withMem m)

@[simp] theorem lift_mk {α : Type} (a : α) : lift m (a, s) = (a, s.withMem m) := rfl

theorem lift_ite {α : Type} (c : Prop) [Decidable c] (r q : α × Sys) :
    lift m (if c then r else q) = if c then lift m r else lift m q := apply_ite (lift m) c r q

theorem withMem_osPfnAlloc : (s.withMem m).osPfnAlloc pick = lift m (s.osPfnAlloc pick) := by
  unfold osPfnAlloc
  simp only [withMem_inUse, lift_ite]
  rfl

theorem osPfnAlloc_fst : (s.osPfnAlloc pick).1 = pick s.phys.inUse := by
  unfold osPfnAlloc
  simp only
  split
  · rename_i h; exact h.symm
  · rfl

@[simp] theorem withMem_installPage (w u : Bool) :
    (s.withMem m).installPage pick pid addr w u = (s.installPage pick pid addr w u).withMem m := by
  unfold installPage
  simp only [withMem_osPfnAlloc, lift]
  rfl

theorem withMem_allocPfn_loop (prot : UInt32) (is : List Nat) :
    is.foldl (fun s i => s.allocPfn pick pid i prot) (s.withMem m) =
      (is.foldl (fun s i => s.allocPfn pick pid i prot) s).withMem m := by
  induction is generalizing s with
  | nil => rfl
  | cons i is ih =>
    simp only [List.foldl_cons]
    rw [← ih]
    unfold allocPfn
    rw [withMem_installPage]

@[simp] theorem withMem_pfnUnmap : (s.withMem m).pfnUnmap pid addr = (s.pfnUnmap pid addr).withMem m := by
  unfold pfnUnmap
  simp only [withMem_getUserPte]
  cases s.getUserPte pid addr with
  | none => rfl
  | some e =>
    by_cases h : s.phys.refcount e.frame = 1
    · have h' : (s.withMem m).phys.refcount e.frame = 1 := h
      simp only [if_pos h, if_pos h']
      rfl
    · have h' : ¬ (s.withMem m).phys.refcount e.frame = 1 := h
      simp only [if_neg h, if_neg h']
      rfl

theorem withMem_pfnUnmapAll (is : List Nat) : (s.withMem m).pfnUnmapAll pid is = (s.pfnUnmapAll pid is).withMem m := by
  unfold pfnUnmapAll
  induction is generalizing s with
  | nil => rfl
  | cons i is ih =>
    simp only [List.foldl_cons]
    rw [← ih, withMem_pfnUnmap]

@[simp] theorem withMem_changePermissions (prot : UInt32) :
    (s.withMem m).changePermissions pid addr prot = (s.changePermissions pid addr prot).withMem m := by
  unfold changePermissions
  simp only [withMem_getUserPte, withMem_refcount]
  cases s.getUserPte pid addr with
  | none => rfl
  | some e => simp only [withMem_ite]; rfl

theorem withMem_changePermissions_loop (prot : UInt32) (is : List Nat) :
    is.foldl (fun s _ => s.changePermissions pid addr prot) (s.withMem m) =
      (is.foldl (fun s _ => s.changePermissions pid addr prot) s).withMem m := by
  induction is generalizing s with
  | nil => rfl
  | cons i is ih =>
    simp only [List.foldl_cons]
    rw [← ih, withMem_changePermissions]

/-! ## The calls -/

theorem withMem_vmAreaMap (length : Int) (prot flags : UInt32) :
    (s.withMem m).vmAreaMap pick pid addr length prot flags = lift m (s.vmAreaMap pick pid addr length prot flags) := by
  unfold vmAreaMap
  simp only [withMem_ctxList, withMem_setAreas, withMem_allocPfn_loop, lift_ite, lift_mk]

theorem withMem_vmAreaUnmap (length : Int) :
    (s.withMem m).vmAreaUnmap pid addr length = lift m (s.vmAreaUnmap pid addr length) := by
  unfold vmAreaUnmap
  simp only [withMem_ctxList, withMem_setAreas, withMem_pfnUnmapAll, lift_ite, lift_mk]

theorem withMem_vmAreaMprotect (length : Int) (prot : UInt32) :
    (s.withMem m).vmAreaMprotect pid addr length prot = lift m (s.vmAreaMprotect pid addr length prot) := by
  unfold vmAreaMprotect
  simp only [withMem_ctxList, withMem_setAreas, withMem_changePermissions_loop, lift_ite, lift_mk]

theorem withMem_doExpand (size : Nat) (segmentT : Int) :
    (s.withMem m).doExpand pid size segmentT = lift m (s.doExpand pid size segmentT) := by
  unfold doExpand
  simp only [withMem_ctxList, withMem_setCtx, lift_ite, lift_mk]
  rfl

theorem withMem_doExit : (s.withMem m).doExit pid = (s.doExit pid).withMem m := by
  have hhandle : (s.withMem m).vforkExitHandle pid = (s.vforkExitHandle pid).withMem m := by
    unfold vforkExitHandle
    simp only [withMem_ctxList, withMem_setCtx, withMem_ite]
    rfl
  unfold doExit
  simp only [hhandle, withMem_ctxList, withMem_setCtx]

/-! ## Faults -/

/-- Where handle_cow_fault copies a frame, the new one has the contents of the old. -/
def cowSource : Nat → Nat :=
  match s.getUserPte pid addr with
  | none => id
  | some e =>
    if (s.handleCowFault pick pid addr).1 = 1 ∧ s.phys.refcount e.frame ≠ 1 then Function.update id (pick s.phys.inUse) e.frame
    else id

/-- A copy into a new frame. -/
theorem withMem_copyFrame (src : Nat) :
    ((((s.withMem m).osPfnAlloc pick).2.copyFrame ((s.withMem m).osPfnAlloc pick).1 src).setTable pid
        ((((s.withMem m).osPfnAlloc pick).2.copyFrame ((s.withMem m).osPfnAlloc pick).1 src).table pid |>.alter (pageOf addr)
          fun _ => some ⟨((s.withMem m).osPfnAlloc pick).1, true⟩)) =
      (((s.osPfnAlloc pick).2.copyFrame (s.osPfnAlloc pick).1 src).setTable pid
        (((s.osPfnAlloc pick).2.copyFrame (s.osPfnAlloc pick).1 src).table pid |>.alter (pageOf addr)
          fun _ => some ⟨(s.osPfnAlloc pick).1, true⟩)).withMem (m ∘ Function.update id (pick s.phys.inUse) src) := by
  rw [Function.comp_update, Function.comp_id, withMem_osPfnAlloc, ← osPfnAlloc_fst s pick]
  rfl

theorem withMem_handleCowFault : (s.withMem m).handleCowFault pick pid addr =
    lift (m ∘ s.cowSource pick pid addr) (s.handleCowFault pick pid addr) := by
  have hsource : (s.handleCowFault pick pid addr).1 ≠ 1 → s.cowSource pick pid addr = id := by
    intro h
    unfold cowSource
    cases s.getUserPte pid addr with
    | none => rfl
    | some e => exact if_neg fun h' => h h'.1
  obtain ⟨src, hsrc⟩ : ∃ src, src = s.cowSource pick pid addr := ⟨_, rfl⟩
  rw [← hsrc] at hsource ⊢
  unfold handleCowFault at hsource ⊢
  simp only [withMem_ctxList, withMem_getUserPte, lift_ite]
  refine ite_congr rfl (fun h1 => ?_) fun h1 => ite_congr rfl (fun h2 => ?_) fun h2 => ?_
  · simp only [if_pos h1] at hsource
    rw [hsource (by decide)]
    rfl
  · simp only [if_neg h1, if_pos h2] at hsource
    rw [hsource (by decide)]
    rfl
  simp only [if_neg h1, if_neg h2] at hsource
  cases he : s.getUserPte pid addr with
  | none =>
    simp only [he] at hsource
    rw [hsource (by decide)]
    rfl
  | some e =>
    have hret : (s.handleCowFault pick pid addr).1 = 1 := by
      unfold handleCowFault
      simp only [if_neg h1, if_neg h2, he]
      split <;> rfl
    unfold cowSource at hsrc
    simp only [he, hret, true_and] at hsrc
    simp only [lift_ite]
    refine ite_congr rfl (fun h3 => ?_) fun h3 => ?_
    · rw [if_neg (not_not.mpr h3)] at hsrc
      rw [hsrc]
      rfl
    · rw [if_pos h3] at hsrc
      rw [hsrc]
      exact congrArg (Prod.mk 1) (withMem_copyFrame (s.decrementRefcount e.frame) m pick pid addr e.frame)

/-- Which frames the page fault of an access copies. -/
def faultSource (write : Bool) : Nat → Nat :=
  if (s.table pid).errorCode (pageOf addr) write = 7 then s.cowSource pick pid addr else id

theorem withMem_growStack (err : UInt64) (n : Nat) :
    growStack pick pid err n (s.withMem m) = (growStack pick pid err n s).withMem m := by
  induction n generalizing s with
  | zero => rfl
  | succ n ih =>
    unfold growStack
    simp only [← ih, installPageTable, ← withMem_installPage]
    rfl

theorem withMem_vmAreaPagefault (err : UInt64) :
    (s.withMem m).vmAreaPagefault pick pid addr err = lift m (s.vmAreaPagefault pick pid addr err) := by
  unfold vmAreaPagefault
  simp only [withMem_ctxList, withMem_installPage, lift_ite, lift_mk]
  refine ite_congr rfl (fun _ => rfl) fun _ => ite_congr rfl (fun _ => rfl) fun _ => ?_
  cases (s.ctxList pid).vmArea with
  | nil => rfl
  | cons first rest => simp only [lift_ite, lift_mk]

/-- A fault looks at no byte; where it copies a frame, it copies what is there. -/
theorem withMem_doPageFault (write : Bool) :
    (s.withMem m).doPageFault pick pid addr ((s.table pid).errorCode (pageOf addr) write) =
      lift (m ∘ s.faultSource pick pid addr write) (s.doPageFault pick pid addr ((s.table pid).errorCode (pageOf addr) write)) := by
  unfold doPageFault faultSource
  obtain ⟨err, herr⟩ : ∃ err, err = (s.table pid).errorCode (pageOf addr) write := ⟨_, rfl⟩
  rw [← herr]
  simp only [withMem_ctxList, lift_ite]
  by_cases h7 : err = 7
  · simp only [if_pos h7, withMem_handleCowFault]
    rfl
  · simp only [if_neg h7, Function.comp_id, withMem_vmAreaPagefault, withMem_growStack, installPageTable, withMem_installPage]
    rfl

theorem withMem_fault (write : Bool) : (s.withMem m).fault pick pid addr write =
    (s.fault pick pid addr write).withMem (m ∘ s.faultSource pick pid addr write) := by
  unfold fault
  simp only [withMem_table, withMem_doPageFault, withMem_ite, ← withMem_doExit]
  rfl

/-! ## Runs -/

/-- Which frame each frame has its contents from, after an event. -/
def source : Ev → Nat → Nat
  | .read pid addr pick => s.faultSource pick pid addr false
  | .write pid addr _ pick => s.faultSource pick pid addr true
  | _ => id

/-- Calls but for cfork, reads, and page faults. -/
def Quiet : Ev → Prop
  | .cfork _ _ _ => False
  | .write pid addr _ _ => (s.table pid).allows (pageOf addr) true = false
  | _ => True

/-- A read that is allowed copies nothing. -/
theorem source_read (h : (s.table pid).allows (pageOf addr) false = true) : s.faultSource pick pid addr false = id := by
  rw [PageTable.allows_read] at h
  refine if_neg fun h7 => ?_
  unfold PageTable.errorCode at h7
  rw [if_pos h] at h7
  exact absurd h7 (by decide)

theorem withMem_step {e : Ev} (hq : s.Quiet e) : (s.withMem m).step e = (s.step e).map fun t => t.withMem (m ∘ s.source e) := by
  unfold step
  by_cases hl : s.Live e.pid
  swap
  · have hl' : ¬ (s.withMem m).Live e.pid := hl
    rw [if_neg hl, if_neg hl']
    rfl
  have hl' : (s.withMem m).Live e.pid := hl
  rw [if_pos hl, if_pos hl']
  cases e with
  | mmap pid addr length prot flags pick => exact congrArg (fun r => some r.2) (withMem_vmAreaMap s m pick pid addr length prot flags)
  | munmap pid addr length => exact congrArg (fun r => some r.2) (withMem_vmAreaUnmap s m pid addr length)
  | mprotect pid addr length prot => exact congrArg (fun r => some r.2) (withMem_vmAreaMprotect s m pid addr length prot)
  | expand pid size segmentT => exact congrArg (fun r => some r.2) (withMem_doExpand s m pid size segmentT)
  | cfork pid pgd pick => exact absurd hq id
  | exit pid => exact congrArg some (withMem_doExit s m pid)
  | read pid addr pick =>
    simp only [call, source]
    by_cases hlt : 2 ^ 47 ≤ addr
    · rw [if_pos hlt, if_pos hlt]; rfl
    rw [if_neg hlt, if_neg hlt]
    by_cases ha : (s.table pid).allows (pageOf addr) false = true
    · have ha' : ((s.withMem m).table pid).allows (pageOf addr) false = true := ha
      rw [if_pos ha, if_pos ha', source_read s pick pid addr ha]; rfl
    · have ha' : ¬ ((s.withMem m).table pid).allows (pageOf addr) false = true := ha
      rw [if_neg ha, if_neg ha', withMem_fault]; rfl
  | write pid addr byte pick =>
    have ha : ¬ (s.table pid).allows (pageOf addr) true = true := by
      have hq : (s.table pid).allows (pageOf addr) true = false := hq
      rw [hq]
      decide
    have ha' : ¬ ((s.withMem m).table pid).allows (pageOf addr) true = true := ha
    simp only [call, source]
    rw [if_neg ha, if_neg ha']
    by_cases hlt : 2 ^ 47 ≤ addr
    · rw [if_pos hlt, if_pos hlt]; rfl
    · rw [if_neg hlt, if_neg hlt, withMem_fault]; rfl

/-- By frame and offset. -/
def moves : machine.Moves Quiet (Nat × Nat) UInt8 where
  mem s x := s.phys.mem x.1 x.2
  withMem s m := s.withMem fun f o => m (f, o)
  source s e x := (s.source e x.1, x.2)
  mem_withMem _ _ := rfl
  withMem_mem _ := rfl
  ok_withMem s m e := by cases e <;> rfl
  step_withMem s m e hq := withMem_step s (fun f o => m (f, o)) hq

/-! ## What a process reads -/

/-- The frame whose contents a frame has after the events. -/
def origin : Sys → List Ev → Nat → Nat
  | _, [] => id
  | s, e :: es =>
    match s.step e with
    | none => id
    | some t => s.source e ∘ origin t es

theorem trace_eq (s : Sys) (es : List Ev) (f o : Nat) : moves.trace s es (f, o) = (s.origin es f, o) := by
  induction es generalizing s with
  | nil => rfl
  | cons e es ih =>
    have hstep : machine.step s e = s.step e := rfl
    unfold Machine.Moves.trace origin
    rw [hstep]
    cases s.step e with
    | none => rfl
    | some t => simp only [Function.comp_apply, ih]; rfl

/-- The frames that processes other than `p` map, and `p` does not. -/
def othersOnly (s : Sys) (p : Nat) : Set Nat :=
  {f | (∃ q k e, q ≠ p ∧ s.Live q ∧ (s.table q).get k = some e ∧ e.frame = f) ∧
    ∀ k e, (s.table p).get k = some e → e.frame ≠ f}

/-- Equal but for the bytes in those frames. -/
structure SameBut (p : Nat) (s s' : Sys) : Prop where
  ctxList : s'.ctxList = s.ctxList
  tables : s'.tables = s.tables
  refcount : s'.phys.refcount = s.phys.refcount
  inUse : s'.phys.inUse = s.phys.inUse
  userRegPages : s'.phys.userRegPages = s.phys.userRegPages
  numVmArea : s'.numVmArea = s.numVmArea
  mem : ∀ f, f ∉ s.othersOnly p → s'.phys.mem f = s.phys.mem f

variable {s} {p : Nat} {s' t : Sys} {es : List Ev}

theorem SameBut.withMem_eq (h : SameBut p s s') : s' = s.withMem s'.phys.mem := by
  obtain ⟨h1, h2, h3, h4, h5, h6, -⟩ := h
  obtain ⟨c, tb, ⟨mem, r, u, n⟩, v⟩ := s'
  simp only at h1 h2 h3 h4 h5 h6
  subst h1 h2 h3 h4 h5 h6
  rfl

theorem sameBut_withMem {m : Nat → Nat → UInt8} (h : ∀ f, f ∉ s.othersOnly p → m f = s.phys.mem f) :
    SameBut p s (s.withMem m) := ⟨rfl, rfl, rfl, rfl, rfl, rfl, h⟩

/-- The end of the other run. -/
theorem SameBut.run {t' : Sys} (hs : SameBut p s s') (h : machine.Run Quiet s es t) (hr : machine.Run Quiet s' es t') :
    t' = t.withMem fun f o => s'.phys.mem (s.origin es f) o := by
  have hrun := moves.run_withMem h fun x => s'.phys.mem x.1 x.2
  rw [show moves.withMem s (fun x => s'.phys.mem x.1 x.2) = s' from hs.withMem_eq.symm] at hrun
  rw [hr.det hrun]
  refine congrArg t.withMem (funext fun f => funext fun o => ?_)
  rw [Function.comp_apply, trace_eq]

theorem withMem_load (t : Sys) (m : Nat → Nat → UInt8) (p addr : Nat) : (t.withMem m).load p addr =
    (t.getUserPte p addr).map fun e => m e.frame (addr % 4096) :=
  congrArg (Option.map fun e : Pte => m e.frame (addr % 4096)) (PageTable.get_eq (t.table p) (pageOf addr)).symm

/-- A byte reads the same whatever the frames of others held, or it comes from one of them. -/
theorem reads_same_iff (p addr : Nat) (h : machine.Run Quiet s es t) :
    (∀ s' t', SameBut p s s' → machine.Run Quiet s' es t' → t'.load p addr = t.load p addr) ↔
      ∀ e, t.getUserPte p addr = some e → s.origin es e.frame ∉ s.othersOnly p := by
  have hload : t.load p addr = (t.getUserPte p addr).map fun e => t.phys.mem e.frame (addr % 4096) :=
    withMem_load t t.phys.mem p addr
  have hend : ∀ {s' t'}, SameBut p s s' → machine.Run Quiet s' es t' →
      t'.load p addr = (t.getUserPte p addr).map fun e => t'.phys.mem e.frame (addr % 4096) := by
    intro s' t' hs hr
    rw [hs.run h hr, withMem_load]
    rfl
  cases he : t.getUserPte p addr with
  | none =>
    refine iff_of_true (fun s' t' hs hr => ?_) fun e he => by cases he
    rw [hend hs hr, hload, he]
    rfl
  | some e =>
    have : Nontrivial UInt8 := ⟨0, 1, by decide⟩
    have hcell := moves.same_iff h {x | x.1 ∈ s.othersOnly p} (e.frame, addr % 4096)
    rw [trace_eq] at hcell
    have hone : (∀ d, some e = some d → s.origin es d.frame ∉ s.othersOnly p) ↔ s.origin es e.frame ∉ s.othersOnly p :=
      ⟨fun h => h e rfl, fun h d hd => by cases hd; exact h⟩
    refine Iff.trans ?_ (hcell.trans hone.symm)
    constructor
    · intro hsame m hm u hu
      have hs : SameBut p s (moves.withMem s m) := sameBut_withMem fun f hf => funext fun o => hm (f, o) hf
      have hbyte := hsame _ u hs hu
      rw [hend hs hu, hload, he] at hbyte
      exact Option.some.inj hbyte
    · intro hsame s' t' hs hr
      rw [hend hs hr, hload, he]
      refine congrArg some (hsame (fun x => s'.phys.mem x.1 x.2) (fun x hx => ?_) t' ?_)
      · exact congrFun (hs.mem x.1 hx) x.2
      · exact (show moves.withMem s (fun x => s'.phys.mem x.1 x.2) = s' from hs.withMem_eq.symm) ▸ hr

/-- A process writes to a page that another does not map. -/
theorem sameBut_store {q addr : Nat} {e : Pte} (hq : q ≠ p) (hl : s.Live q) (he : s.getUserPte q addr = some e)
    (hno : ∀ k d, (s.table p).get k = some d → d.frame ≠ e.frame) (byte : UInt8) : SameBut p s (s.store q addr byte) := by
  have hpte : (s.table q).pte (pageOf addr) = some e := (PageTable.get_eq _ _).symm.trans he
  have hstore : s.store q addr byte =
      s.withMem (Function.update s.phys.mem e.frame (Function.update (s.phys.mem e.frame) (addr % 4096) byte)) := by
    unfold store
    rw [hpte]
    rfl
  rw [hstore]
  apply sameBut_withMem
  intro f hf
  apply Function.update_of_ne
  rintro rfl
  exact hf ⟨⟨q, pageOf addr, e, hq, hl, he, rfl⟩, hno⟩

/-! ## Two processes -/

/-- The first process has made a child, which has a page of its own in the region of mmap. -/
def neighbours : Sys := (machine.exec booted [.cfork 1 0x72 nextFrame, .mmap 2 0 4096 3 MAP_POPULATE nextFrame]).getD booted

theorem neighbours_steps : ∃ t, booted.step (.cfork 1 0x72 nextFrame) = some t ∧
    t.step (.mmap 2 0 4096 3 MAP_POPULATE nextFrame) = some neighbours := by
  have hsome : (machine.exec booted [.cfork 1 0x72 nextFrame, .mmap 2 0 4096 3 MAP_POPULATE nextFrame]).isSome = true := by
    decide +kernel
  obtain ⟨u, hu⟩ := Option.isSome_iff_exists.mp hsome
  have hn : neighbours = u := by unfold neighbours; rw [hu]; rfl
  obtain ⟨t, h1, h⟩ := Option.bind_eq_some_iff.mp hu
  obtain ⟨u', h2, h⟩ := Option.bind_eq_some_iff.mp h
  cases h
  exact ⟨t, h1, hn ▸ h2⟩

theorem neighbours_reach : machine.Reach Promised neighbours ∧ neighbours.frames.Inv := by
  obtain ⟨t, h1, h2⟩ := neighbours_steps
  have hb := start_base start_booted
  have hc := start_counted start_booted
  have hp1 : booted.Promised (.cfork 1 0x72 nextFrame) := ⟨picks_nextFrame, booted_pgd⟩
  have hw1 : booted.NoWrap (.cfork 1 0x72 nextFrame) := by
    intro v _ e _ he
    have hle := hc.count e.frame
    rw [he] at hle
    exact absurd hle (by decide)
  have hlen : Vm.Promised 4096 := by decide
  have hp2 : t.Promised (.mmap 2 0 4096 3 MAP_POPULATE nextFrame) := ⟨by decide, hlen, picks_nextFrame⟩
  have hi := (counted_step hb hc.inv hp1 hw1 h1).1
  exact ⟨.step (.step (.init start_booted) hp1 h1) hp2 h2, (counted_step (base_step hb hp1 h1) hi hp2 trivial h2).1⟩

/-- The child gives its page back, and the first process maps one. -/
def handOver : List Ev := [.munmap 2 MMAP_AREA_START 4096, .mmap 1 0 4096 3 MAP_POPULATE nextFrame]

theorem handOver_run {α : Type} {s : Sys} (f : Sys → α) {r : α} (h : (machine.exec s handOver).map f = some r) :
    ∃ t, machine.Run Quiet s handOver t ∧ f t = r := by
  obtain ⟨t, ht, hr⟩ := Option.map_eq_some_iff.mp h
  refine ⟨t, Machine.exec_run_of ht fun e he s => ?_, hr⟩
  rcases List.mem_cons.mp he with rfl | he
  · trivial
  · rw [List.mem_singleton.mp he]; trivial

/-- The first process reads its page of data, whatever the child had in its page. -/
theorem reads_same_iff_data : ∃ t, machine.Run Quiet neighbours handOver t ∧ t.load 1 DATA_START = some 0 ∧
    ∀ s' t', SameBut 1 neighbours s' → machine.Run Quiet s' handOver t' → t'.load 1 DATA_START = t.load 1 DATA_START := by
  obtain ⟨t, hr, hread⟩ := handOver_run (s := neighbours) (fun t => (t.load 1 DATA_START, t.getUserPte 1 DATA_START))
    (r := (some 0, some ⟨9, false⟩)) (by decide +kernel)
  obtain ⟨hload, hpage⟩ := Prod.mk.inj hread
  have hmine : (neighbours.table 1).get (pageOf DATA_START) = some ⟨9, false⟩ := by decide +kernel
  have horigin : neighbours.origin handOver 9 = 9 := by decide +kernel
  refine ⟨t, hr, hload, (reads_same_iff 1 DATA_START hr).mpr fun e he hin => ?_⟩
  rw [hpage] at he
  cases he
  exact hin.2 _ _ hmine horigin.symm

/-- What the child wrote to its page is what the first process reads in its new one. -/
theorem recycled_frame : ∃ s s' t t', machine.Reach Promised s ∧ machine.Reach Promised s' ∧ SameBut 1 s s' ∧
    machine.Run Quiet s handOver t ∧ machine.Run Quiet s' handOver t' ∧
    t.load 1 MMAP_AREA_START = some 0 ∧ t'.load 1 MMAP_AREA_START = some 42 := by
  obtain ⟨hreach, hi⟩ := neighbours_reach
  obtain ⟨t, hr, hload⟩ := handOver_run (s := neighbours) (fun t => t.load 1 MMAP_AREA_START) (r := some 0) (by decide +kernel)
  obtain ⟨t', hr', hload'⟩ := handOver_run (s := neighbours.store 2 MMAP_AREA_START 42) (fun t => t.load 1 MMAP_AREA_START)
    (r := some 42) (by decide +kernel)
  have hl1 : neighbours.Live 1 := by decide +kernel
  have hl2 : neighbours.Live 2 := by decide +kernel
  have hpage : neighbours.getUserPte 2 MMAP_AREA_START = some ⟨12, true⟩ := by decide +kernel
  have hallows : (neighbours.table 2).allows (pageOf MMAP_AREA_START) true = true := by decide +kernel
  have hwrite : neighbours.step (.write 2 MMAP_AREA_START 42 nextFrame) = some (neighbours.store 2 MMAP_AREA_START 42) := by
    have hlow : ¬ 2 ^ 47 ≤ MMAP_AREA_START := by decide
    refine (if_pos hl2).trans ?_
    simp only [call]
    rw [if_neg hlow, if_pos hallows]
  have hp : neighbours.Promised (.write 2 MMAP_AREA_START 42 nextFrame) := picks_nextFrame
  refine ⟨_, _, t, t', hreach, .step hreach hp hwrite, sameBut_store (by decide) hl2 hpage (fun k d hd hf => ?_) 42,
    hr, hr', hload, hload'⟩
  -- a writable page has one owner
  rw [getUserPte_eq hl2] at hpage
  rw [PageTable.get_eq, ← frames_map hl1] at hd
  exact absurd (hi.sole 2 _ _ hpage rfl 1 k d hd hf) (by decide)

end Sys

end Cs330.Mm
