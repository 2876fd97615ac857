/-
  Cs330.Mm.Machine — processes taking system calls and memory accesses, in any order.

  A read or write of a byte the page table allows happens; one it does not allow is a page
  fault, after which the process tries again or, the fault unresolved, exits (no handler
  for SIGSEGV is installed). `Promised` are the arguments the calls are documented for, and
  an allocator that returns unused frames.

  `Base` holds in every state of such runs: processes do not share page tables, segments
  and areas lie where they should, and no page is mapped to frame 0. A call or a fault of
  one process changes nothing of another (`Local`).
-/
import Cs330.Lib.Machine
import Cs330.Lib.Owner
import Cs330.Mm.Cfork

namespace Cs330.Mm

open Lib Lib.Seg Vm

structure Ctx.Layout (c : Ctx) : Prop where
  code : c.code.start = CODE_START ∧ c.code.nextFree = CODE_START + CODE_PAGES * 4096
  rodata : c.rodata.start = RODATA_START ∧ c.rodata.stop = DATA_START - 1 ∧ RODATA_START ≤ c.rodata.nextFree ∧
    c.rodata.nextFree ≤ DATA_START ∧ 4096 ∣ c.rodata.nextFree
  data : c.data.start = DATA_START ∧ c.data.stop = MMAP_AREA_START - 1 ∧ DATA_START ≤ c.data.nextFree ∧
    c.data.nextFree ≤ MMAP_AREA_START ∧ 4096 ∣ c.data.nextFree
  stack : c.stack.start = STACK_START - MAX_STACK_SIZE ∧ c.stack.stop = STACK_START ∧
    STACK_START - MAX_STACK_SIZE ≤ c.stack.nextFree ∧ c.stack.nextFree < STACK_START ∧ 4096 ∣ c.stack.nextFree ∧
    c.stack.accessFlags &&& MM_WR ≠ 0
  areas : Areas MMAP_AREA_START c.vmArea
  merged : Merged c.vmArea

/-- `Ctx.Layout`, with a stack that may have been moved down by vfork. -/
structure Ctx.Shape (c : Ctx) : Prop where
  code : c.code.start = CODE_START ∧ c.code.nextFree = CODE_START + CODE_PAGES * 4096
  rodata : c.rodata.start = RODATA_START ∧ c.rodata.stop = DATA_START - 1 ∧ RODATA_START ≤ c.rodata.nextFree ∧
    c.rodata.nextFree ≤ DATA_START ∧ 4096 ∣ c.rodata.nextFree
  data : c.data.start = DATA_START ∧ c.data.stop = MMAP_AREA_START - 1 ∧ DATA_START ≤ c.data.nextFree ∧
    c.data.nextFree ≤ MMAP_AREA_START ∧ 4096 ∣ c.data.nextFree
  stack : c.stack.start = STACK_START - MAX_STACK_SIZE ∧ c.stack.stop = STACK_START ∧ c.stack.nextFree < STACK_START ∧
    4096 ∣ c.stack.nextFree
  areas : Areas MMAP_AREA_START c.vmArea
  merged : Merged c.vmArea

theorem Ctx.Layout.shape {c : Ctx} (h : c.Layout) : c.Shape :=
  ⟨h.code, h.rodata, h.data, ⟨h.stack.1, h.stack.2.1, h.stack.2.2.2.1, h.stack.2.2.2.2.1⟩, h.areas, h.merged⟩

inductive Ev where
  | mmap (pid addr : Nat) (length : Int) (prot flags : UInt32) (pick : Finset Nat → Nat)
  | munmap (pid addr : Nat) (length : Int)
  | mprotect (pid addr : Nat) (length : Int) (prot : UInt32)
  | expand (pid size : Nat) (segmentT : Int)
  | cfork (pid pgd : Nat) (pick : Finset Nat → Nat)
  | exit (pid : Nat)
  | read (pid addr : Nat) (pick : Finset Nat → Nat)
  | write (pid addr : Nat) (byte : UInt8) (pick : Finset Nat → Nat)

def Ev.pid : Ev → Nat
  | .mmap pid _ _ _ _ _ | .munmap pid _ _ | .mprotect pid _ _ _ | .expand pid _ _ | .cfork pid _ _ | .exit pid
  | .read pid _ _ | .write pid _ _ _ => pid

namespace Sys

/-- The processor stores a byte. -/
def store (s : Sys) (pid addr : Nat) (byte : UInt8) : Sys :=
  match (s.table pid).pte (pageOf addr) with
  | none => s
  | some e =>
    { s with phys := { s.phys with
      mem := Function.update s.phys.mem e.frame (Function.update (s.phys.mem e.frame) (addr % 4096) byte) } }

/-- What a read of a byte returns, where it is allowed. -/
def load (s : Sys) (pid addr : Nat) : Option UInt8 :=
  ((s.table pid).pte (pageOf addr)).map fun e => s.phys.mem e.frame (addr % 4096)

/-- An access the page table does not allow. -/
def fault (s : Sys) (pick : Finset Nat → Nat) (pid addr : Nat) (write : Bool) : Sys :=
  let r := s.doPageFault pick pid addr ((s.table pid).errorCode (pageOf addr) write)
  if r.1 then r.2 else r.2.doExit pid

def call (s : Sys) : Ev → Option Sys
  | .mmap pid addr length prot flags pick => some (s.vmAreaMap pick pid addr length prot flags).2
  | .munmap pid addr length => some (s.vmAreaUnmap pid addr length).2
  | .mprotect pid addr length prot => some (s.vmAreaMprotect pid addr length prot).2
  | .expand pid size segmentT => some (s.doExpand pid size segmentT).2
  | .cfork pid pgd pick => (s.doCfork pick pid pgd).map Prod.snd
  | .exit pid => some (s.doExit pid)
  | .read pid addr pick =>
    -- the lower half of the canonical addresses
    if 2 ^ 47 ≤ addr then none
    else if (s.table pid).allows (pageOf addr) false then some s
    else some (s.fault pick pid addr false)
  | .write pid addr byte pick =>
    if 2 ^ 47 ≤ addr then none
    else if (s.table pid).allows (pageOf addr) true then some (s.store pid addr byte)
    else some (s.fault pick pid addr true)

def step (s : Sys) (e : Ev) : Option Sys := if s.Live e.pid then s.call e else none

/-- After boot, with `init` about to run. -/
def Start (s : Sys) : Prop := ∃ mem pick pgd, Picks pick ∧ pgd ≠ 0 ∧ pgd ≠ 0x70 ∧ s = execInit mem pick pgd

def machine : Machine Sys Ev := ⟨Start, step⟩

def Promised (s : Sys) : Ev → Prop
  | .mmap _ addr length _ _ pick => 4096 ∣ addr ∧ Vm.Promised length ∧ Picks pick
  | .munmap _ addr length | .mprotect _ addr length _ => 4096 ∣ addr ∧ Vm.Promised length
  | .cfork _ pgd pick => Picks pick ∧ ∀ i, (s.ctxList i).pgd ≠ pgd
  | .read _ _ pick | .write _ _ _ pick => Picks pick
  | .expand _ _ _ | .exit _ => True

structure Base (s : Sys) : Prop where
  distinct : s.Distinct
  swapper : (s.ctxList 0).state ≠ .unused
  layout : ∀ pid, s.Live pid → (s.ctxList pid).Layout
  nonzero : ∀ pid k e, s.frames.map pid k = some e → e.frame ≠ 0

/-! ## Calls that concern one process -/

/-- Only process `pid` and its frames may differ. -/
structure Local (pid : Nat) (s s' : Sys) : Prop where
  ops : Frames.Ops (· ≠ 0) pid s.frames s'.frames
  live : ∀ i, s'.Live i ↔ s.Live i
  pgd : ∀ i, (s'.ctxList i).pgd = (s.ctxList i).pgd
  others : ∀ i, i ≠ pid → s'.ctxList i = s.ctxList i

variable {s t u : Sys} {pid addr : Nat} {pick : Finset Nat → Nat}

theorem Local.trans (h1 : Local pid s t) (h2 : Local pid t u) : Local pid s u :=
  ⟨h1.ops.trans h2.ops, fun i => (h2.live i).trans (h1.live i), fun i => (h2.pgd i).trans (h1.pgd i),
    fun i hi => (h2.others i hi).trans (h1.others i hi)⟩

theorem Local.of_ctxList (ho : Frames.Ops (· ≠ 0) pid s.frames t.frames) (hc : t.ctxList = s.ctxList) : Local pid s t :=
  ⟨ho, fun _ => live_congr hc, fun i => by rw [hc], fun i _ => by rw [hc]⟩

theorem Local.refl (pid : Nat) (s : Sys) : Local pid s s := .of_ctxList .refl rfl

theorem Local.distinct (h : Local pid s t) (hd : s.Distinct) : t.Distinct := by
  intro i j hl he
  rw [h.pgd, h.pgd] at he
  exact hd i j ((h.live i).mp hl) he

theorem Local.setCtx {c : Ctx} (hp : c.pgd = (s.ctxList pid).pgd) (hs : c.state = .unused ↔ (s.ctxList pid).state = .unused) :
    Local pid s (s.setCtx pid c) := by
  obtain ⟨h1, h2, -⟩ := frames_setCtx pid c hp hs
  refine ⟨h1 ▸ .refl, h2, fun i => ?_, fun i hi => Function.update_of_ne hi ..⟩
  show (Function.update s.ctxList pid c i).pgd = _
  by_cases hi : i = pid
  · rw [hi, Function.update_self, hp]
  · rw [Function.update_of_ne hi]

theorem Local.base (h : Local pid s t) (hb : s.Base) (hpid : pid ≠ 0) (hc : s.Live pid → (t.ctxList pid).Layout) : t.Base := by
  refine ⟨h.distinct hb.distinct, ?_, fun i hi => ?_, h.ops.all hb.nonzero⟩
  · rw [h.others 0 (Ne.symm hpid)]; exact hb.swapper
  · by_cases e : i = pid
    · subst e; exact hc ((h.live i).mp hi)
    · rw [h.others i e]; exact hb.layout i ((h.live i).mp hi)

theorem local_installPage (hp : Picks pick) (hd : s.Distinct) (hl : s.Live pid) (addr : Nat) (w u : Bool) :
    Local pid s (s.installPage pick pid addr w u) := by
  refine .of_ctxList ?_ (installPage_ctxList pick w u)
  rw [frames_installPage hp hd hl]
  exact .fresh _ _ _ .refl (hp _).1 (hp _).2

theorem local_allocPfn_loop (hp : Picks pick) (hd : s.Distinct) (hl : s.Live pid) (prot : UInt32) (is : List Nat) :
    Local pid s (is.foldl (fun s i => s.allocPfn pick pid i prot) s) ∧
      (is.foldl (fun s i => s.allocPfn pick pid i prot) s).ctxList = s.ctxList := by
  induction is generalizing s with
  | nil => exact ⟨.refl pid s, rfl⟩
  | cons i is ih =>
    have h := local_installPage hp hd hl i (decide (prot &&& 2 ≠ 0)) true
    have hc : (s.allocPfn pick pid i prot).ctxList = s.ctxList := installPage_ctxList pick _ true
    obtain ⟨h1, h2⟩ := ih (h.distinct hd) ((h.live pid).mpr hl)
    exact ⟨h.trans h1, h2.trans hc⟩

theorem local_setAreas (s : Sys) (pid : Nat) (areas : List VmArea) (nodes : Int) :
    Local pid s (s.setAreas pid areas nodes) := by
  obtain ⟨h1, h2, -⟩ := frames_setAreas s pid areas nodes
  have h := Local.setCtx (s := s) (c := { s.ctxList pid with vmArea := areas }) rfl Iff.rfl
  exact ⟨h1 ▸ .refl, h2, h.pgd, h.others⟩

theorem setAreas_ctx (s : Sys) (pid : Nat) (areas : List VmArea) (nodes : Int) :
    (s.setAreas pid areas nodes).ctxList pid = { s.ctxList pid with vmArea := areas } := Function.update_self ..

theorem local_vmAreaMap (hp : Picks pick) (hd : s.Distinct) (hl : s.Live pid) (addr : Nat) (length : Int) (prot flags : UInt32) :
    Local pid s (s.vmAreaMap pick pid addr length prot flags).2 ∧
      (s.vmAreaMap pick pid addr length prot flags).2.ctxList pid =
        { s.ctxList pid with vmArea := (mapAreas (s.ctxList pid).vmArea addr length prot flags).2.1 } := by
  unfold vmAreaMap
  simp only
  have h := local_setAreas s pid (mapAreas (s.ctxList pid).vmArea addr length prot flags).2.1
    (mapAreas (s.ctxList pid).vmArea addr length prot flags).2.2
  split
  · exact ⟨h, setAreas_ctx ..⟩
  split
  · obtain ⟨h1, h2⟩ := local_allocPfn_loop hp (h.distinct hd) ((h.live pid).mpr hl) prot
      (vaddrs (mapAreas (s.ctxList pid).vmArea addr length prot flags).1.toNat
        (plus (mapAreas (s.ctxList pid).vmArea addr length prot flags).1.toNat (pageRound length)))
    exact ⟨h.trans h1, by rw [h2]; exact setAreas_ctx ..⟩
  · exact ⟨h, setAreas_ctx ..⟩

theorem frames_store (hl : s.Live pid) {e : Pte} (he : s.frames.map pid (pageOf addr) = some e) (hw : e.write = true)
    (byte : UInt8) : (s.store pid addr byte).frames = s.frames.store pid (pageOf addr) (addr % 4096) byte := by
  have hpte : (s.table pid).pte (pageOf addr) = some e := by rw [← frames_map hl]; exact he
  unfold Sys.store Frames.store
  rw [hpte, he]
  obtain ⟨f, w⟩ := e
  cases hw
  rfl

theorem store_ctxList (s : Sys) (pid addr : Nat) (byte : UInt8) : (s.store pid addr byte).ctxList = s.ctxList := by
  unfold Sys.store
  cases (s.table pid).pte (pageOf addr) <;> rfl

/-- A byte the page table lets a process write. -/
theorem local_store (hl : s.Live pid) (ha : (s.table pid).allows (pageOf addr) true = true) (byte : UInt8) :
    Local pid s (s.store pid addr byte) := by
  obtain ⟨e, he, hw⟩ := PageTable.allows_write ha
  refine .of_ctxList ?_ (store_ctxList s pid addr byte)
  rw [frames_store hl ((frames_map hl _).trans he) hw]
  exact .store _ _ _ .refl

/-- What munmap does to the frames, and the list it leaves. -/
theorem vmAreaUnmap_spec (hd : s.Distinct) (hl : s.Live pid) (addr : Nat) (length : Int) :
    ((unmapAreas (s.ctxList pid).vmArea addr length).1 = 0 ∧ (s.ctxList pid).vmArea ≠ [] →
      (s.vmAreaUnmap pid addr length).2.frames =
        s.frames.dropAll pid ((vaddrs addr (plus addr (pageRound length))).map pageOf)) ∧
    (¬ ((unmapAreas (s.ctxList pid).vmArea addr length).1 = 0 ∧ (s.ctxList pid).vmArea ≠ []) →
      (s.vmAreaUnmap pid addr length).2.frames = s.frames) ∧
    (s.vmAreaUnmap pid addr length).2.ctxList = (s.setAreas pid (unmapAreas (s.ctxList pid).vmArea addr length).2.1
      (unmapAreas (s.ctxList pid).vmArea addr length).2.2).ctxList := by
  unfold vmAreaUnmap
  simp only
  have h := local_setAreas s pid (unmapAreas (s.ctxList pid).vmArea addr length).2.1
    (unmapAreas (s.ctxList pid).vmArea addr length).2.2
  obtain ⟨e1, -, -⟩ := frames_setAreas s pid (unmapAreas (s.ctxList pid).vmArea addr length).2.1
    (unmapAreas (s.ctxList pid).vmArea addr length).2.2
  split
  · rename_i h0
    obtain ⟨h1, h2⟩ := frames_pfnUnmapAll (h.distinct hd) ((h.live pid).mpr hl) (vaddrs addr (plus addr (pageRound length)))
    exact ⟨fun _ => h1.trans (by rw [e1]), fun hn => absurd h0 hn, h2⟩
  · rename_i h0
    exact ⟨fun hn => absurd hn h0, fun _ => e1, rfl⟩

theorem local_vmAreaUnmap (hd : s.Distinct) (hl : s.Live pid) (addr : Nat) (length : Int) :
    Local pid s (s.vmAreaUnmap pid addr length).2 := by
  obtain ⟨h1, h2, h3⟩ := vmAreaUnmap_spec hd hl addr length
  have h := local_setAreas s pid (unmapAreas (s.ctxList pid).vmArea addr length).2.1
    (unmapAreas (s.ctxList pid).vmArea addr length).2.2
  have hops : Frames.Ops (· ≠ 0) pid s.frames (s.vmAreaUnmap pid addr length).2.frames := by
    by_cases h0 : (unmapAreas (s.ctxList pid).vmArea addr length).1 = 0 ∧ (s.ctxList pid).vmArea ≠ []
    · rw [h1 h0]; exact .dropAll _
    · rw [h2 h0]; exact .refl
  exact ⟨hops, fun i => (live_congr h3).trans (h.live i), fun i => by rw [h3]; exact h.pgd i,
    fun i hi => by rw [h3]; exact h.others i hi⟩

theorem vmAreaMprotect_spec (hd : s.Distinct) (hl : s.Live pid) (addr : Nat) (length : Int) (prot : UInt32) :
    ((s.vmAreaMprotect pid addr length prot).2.frames = s.frames ∨
      ((protectAreas (s.ctxList pid).vmArea addr length prot).1 = 0 ∧
        (s.vmAreaMprotect pid addr length prot).2.frames = s.frames.chmod pid (pageOf addr) (prot &&& 2 ≠ 0))) ∧
    (s.vmAreaMprotect pid addr length prot).2.ctxList = (s.setAreas pid
      (protectAreas (s.ctxList pid).vmArea addr length prot).2.1
      (protectAreas (s.ctxList pid).vmArea addr length prot).2.2).ctxList := by
  unfold vmAreaMprotect
  simp only
  have h := local_setAreas s pid (protectAreas (s.ctxList pid).vmArea addr length prot).2.1
    (protectAreas (s.ctxList pid).vmArea addr length prot).2.2
  obtain ⟨e1, -, -⟩ := frames_setAreas s pid (protectAreas (s.ctxList pid).vmArea addr length prot).2.1
    (protectAreas (s.ctxList pid).vmArea addr length prot).2.2
  split
  · rename_i h0
    obtain ⟨h1, h2⟩ := frames_changePermissions_loop (h.distinct hd) ((h.live pid).mpr hl) addr prot
      (vaddrs addr (plus addr (pageRound length)))
    refine ⟨?_, h2⟩
    rw [e1] at h1
    split at h1
    · exact Or.inl h1
    · exact Or.inr ⟨h0, h1⟩
  · exact ⟨Or.inl e1, rfl⟩

theorem local_vmAreaMprotect (hd : s.Distinct) (hl : s.Live pid) (addr : Nat) (length : Int) (prot : UInt32) :
    Local pid s (s.vmAreaMprotect pid addr length prot).2 := by
  obtain ⟨h1, h2⟩ := vmAreaMprotect_spec hd hl addr length prot
  have h := local_setAreas s pid (protectAreas (s.ctxList pid).vmArea addr length prot).2.1
    (protectAreas (s.ctxList pid).vmArea addr length prot).2.2
  have hops : Frames.Ops (· ≠ 0) pid s.frames (s.vmAreaMprotect pid addr length prot).2.frames := by
    rcases h1 with h1 | ⟨-, h1⟩
    · rw [h1]; exact .refl
    · rw [h1]; exact .chmod _ _ .refl
  exact ⟨hops, fun i => (live_congr h2).trans (h.live i), fun i => by rw [h2]; exact h.pgd i,
    fun i hi => by rw [h2]; exact h.others i hi⟩

/-- expand moves the end of one of two segments up, if at all. -/
theorem doExpand_spec (s : Sys) (pid size : Nat) (segmentT : Int) :
    (s.doExpand pid size segmentT).2 = s ∨
      (∃ n, n ≤ (s.ctxList pid).rodata.stop ∧ (s.ctxList pid).rodata.nextFree + size * 4096 = n ∧
        (s.doExpand pid size segmentT).2 = s.setCtx pid { s.ctxList pid with rodata := { (s.ctxList pid).rodata with nextFree := n } }) ∨
      ∃ n, n ≤ (s.ctxList pid).data.stop ∧ (s.ctxList pid).data.nextFree + size * 4096 = n ∧
        (s.doExpand pid size segmentT).2 = s.setCtx pid { s.ctxList pid with data := { (s.ctxList pid).data with nextFree := n } } := by
  unfold doExpand
  simp only
  split
  · exact Or.inl rfl
  split
  · split
    · exact Or.inl rfl
    · exact Or.inr (Or.inl ⟨_, by omega, rfl, rfl⟩)
  split
  · split
    · exact Or.inl rfl
    · exact Or.inr (Or.inr ⟨_, by omega, rfl, rfl⟩)
  · exact Or.inl rfl

theorem local_doExpand (s : Sys) (pid size : Nat) (segmentT : Int) : Local pid s (s.doExpand pid size segmentT).2 := by
  rcases doExpand_spec s pid size segmentT with h | ⟨n, -, -, h⟩ | ⟨n, -, -, h⟩
  · rw [h]; exact .refl pid s
  · rw [h]; exact .setCtx rfl Iff.rfl
  · rw [h]; exact .setCtx rfl Iff.rfl

end Sys

end Cs330.Mm
