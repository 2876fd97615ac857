/-
  Cs330.Mm.Steps — what faults, exit and cfork do, and `Base` over runs.

  A fault that is resolved changes frames of the process and, on the stack, how far down it
  reaches (`fault_spec`). Exit clears the map of the process (`frames_doExit`). cfork is a
  fork of frames (`doCfork_spec`): the pages of its segments and areas are shared
  (`sharedPages`, `areaPages`), those of the stack copied (`stackPages`).
-/
import Cs330.Mm.Machine

namespace Cs330.Mm

open Lib Lib.Seg Vm

def Ctx.sharedAddrs (c : Ctx) : List Nat :=
  Sys.vaddrs c.code.start c.code.nextFree ++ Sys.vaddrs c.rodata.start c.rodata.nextFree ++
    Sys.vaddrs c.data.start c.data.nextFree

def Ctx.sharedPages (c : Ctx) : List Nat := c.sharedAddrs.map pageOf

def Ctx.stackPages (c : Ctx) : List Nat := (Sys.vaddrsDown c.stack.nextFree c.stack.stop).map pageOf

def Ctx.areaAddrs (c : Ctx) : List Nat := c.vmArea.flatMap fun a => Sys.vaddrs a.vmStart a.vmEnd

def Ctx.areaPages (c : Ctx) : List Nat := c.areaAddrs.map pageOf

theorem Ctx.Layout.stack_down {c : Ctx} (h : c.Layout) {cr2 : Nat} (h1 : c.stack.start ≤ cr2) (h2 : cr2 < c.stack.nextFree) :
    Ctx.Layout { c with stack := { c.stack with
      nextFree := c.stack.nextFree - 4096 * ((c.stack.nextFree - cr2 / 4096 * 4096) / 4096) } } := by
  obtain ⟨s1, s2, s3, s4, s5, s6⟩ := h.stack
  refine { h with stack := ⟨s1, s2, ?_, ?_, ?_, s6⟩ }
  · rw [s1] at h1
    unfold STACK_START MAX_STACK_SIZE at *
    simp only
    omega
  · simp only
    omega
  · simp only
    omega

theorem Ctx.Layout.expand_rodata {c : Ctx} (h : c.Layout) {n size : Nat} (h1 : n ≤ c.rodata.stop)
    (h2 : c.rodata.nextFree + size * 4096 = n) : Ctx.Layout { c with rodata := { c.rodata with nextFree := n } } := by
  obtain ⟨s1, s2, s3, s4, s5⟩ := h.rodata
  refine { h with rodata := ⟨s1, s2, ?_, ?_, ?_⟩ }
  · simp only; omega
  · simp only; omega
  · simp only; omega

theorem Ctx.Layout.expand_data {c : Ctx} (h : c.Layout) {n size : Nat} (h1 : n ≤ c.data.stop)
    (h2 : c.data.nextFree + size * 4096 = n) : Ctx.Layout { c with data := { c.data with nextFree := n } } := by
  obtain ⟨s1, s2, s3, s4, s5⟩ := h.data
  refine { h with data := ⟨s1, s2, ?_, ?_, ?_⟩ }
  · simp only; omega
  · simp only; omega
  · simp only; omega

theorem Ctx.Shape.addrs_ne_zero {c : Ctx} (h : c.Shape) (hpos : 0 < c.stack.nextFree) : (∀ v ∈ c.sharedAddrs, v ≠ 0) ∧
    (∀ v ∈ Sys.vaddrsDown c.stack.nextFree c.stack.stop, v ≠ 0) ∧ ∀ v ∈ c.areaAddrs, v ≠ 0 := by
  refine ⟨fun v hv => ?_, fun v hv => ?_, fun v hv => ?_⟩
  · unfold Ctx.sharedAddrs at hv
    simp only [List.mem_append, Sys.mem_vaddrs] at hv
    have h1 := h.code.1
    have h2 := h.rodata.1
    have h3 := h.data.1
    unfold CODE_START at h1
    unfold RODATA_START at h2
    unfold DATA_START at h3
    omega
  · unfold Sys.vaddrsDown at hv
    obtain ⟨i, hi, rfl⟩ := List.mem_map.mp hv
    have hi := List.mem_range.mp hi
    omega
  · obtain ⟨a, ha, hv⟩ := List.mem_flatMap.mp hv
    have hlow := (h.areas.forall_mem a ha).1
    obtain ⟨-, i, rfl⟩ := Sys.mem_vaddrs.mp hv
    simp only [lo_eq] at hlow
    unfold MMAP_AREA_START at hlow
    omega

theorem Ctx.Layout.stack_pos {c : Ctx} (h : c.Layout) : 0 < c.stack.nextFree := by
  have hlow := h.stack.2.2.1
  unfold STACK_START MAX_STACK_SIZE at hlow
  omega

theorem Ctx.Layout.addrs_ne_zero {c : Ctx} (h : c.Layout) : (∀ v ∈ c.sharedAddrs, v ≠ 0) ∧
    (∀ v ∈ Sys.vaddrsDown c.stack.nextFree c.stack.stop, v ≠ 0) ∧ ∀ v ∈ c.areaAddrs, v ≠ 0 :=
  h.shape.addrs_ne_zero h.stack_pos

namespace Sys

variable {s t : Sys} {pid addr child parent : Nat} {pick : Finset Nat → Nat}

/-! ## Faults -/

theorem handleCowFault_ctxList (s : Sys) (pick : Finset Nat → Nat) (pid cr2 : Nat) :
    (s.handleCowFault pick pid cr2).2.ctxList = s.ctxList := by
  unfold handleCowFault
  simp only
  split
  · rfl
  split
  · rfl
  cases s.getUserPte pid cr2 with
  | none => rfl
  | some e =>
    simp only
    split
    · rfl
    · exact osPfnAlloc_ctxList pick

theorem local_handleCowFault (hp : Picks pick) (hd : s.Distinct) (hl : s.Live pid) (cr2 : Nat) :
    Local pid s (s.handleCowFault pick pid cr2).2 := by
  refine .of_ctxList ?_ (handleCowFault_ctxList s pick pid cr2)
  rcases handleCowFault_cases hp hd hl cr2 with h | ⟨e, he, -, -, ⟨-, h⟩ | ⟨h1, h⟩⟩
  · rw [h]; exact .refl
  · rw [h]; exact .chmod _ _ .refl
  · rw [h]
    refine .copy _ _ .refl (hp _).1 (hp _).2 fun d hd => ?_
    rw [he] at hd
    cases hd
    exact h1

theorem local_growStack (hp : Picks pick) (hd : s.Distinct) (hl : s.Live pid) (err : UInt64) (n : Nat) :
    Local pid s (growStack pick pid err n s) ∧ (growStack pick pid err n s).ctxList pid = { s.ctxList pid with
      stack := { (s.ctxList pid).stack with nextFree := (s.ctxList pid).stack.nextFree - 4096 * n } } := by
  induction n generalizing s with
  | zero => exact ⟨.refl pid s, by rw [Nat.mul_zero, Nat.sub_zero]; rfl⟩
  | succ n ih =>
    have h1 : Local pid s (s.setStackNextFree pid ((s.ctxList pid).stack.nextFree - 4096)) := .setCtx rfl Iff.rfl
    have h2 := local_installPage hp (h1.distinct hd) ((h1.live pid).mpr hl) ((s.ctxList pid).stack.nextFree - 4096)
      (decide (err &&& 2 ≠ 0)) (decide (err &&& 2 ≠ 0))
    have h := h1.trans h2
    obtain ⟨h3, h4⟩ := ih (h.distinct hd) ((h.live pid).mpr hl)
    have hc : ((s.setStackNextFree pid ((s.ctxList pid).stack.nextFree - 4096)).installPage pick pid
        ((s.ctxList pid).stack.nextFree - 4096) (decide (err &&& 2 ≠ 0)) (decide (err &&& 2 ≠ 0))).ctxList pid =
        { s.ctxList pid with stack := { (s.ctxList pid).stack with nextFree := (s.ctxList pid).stack.nextFree - 4096 } } := by
      rw [installPage_ctxList]
      exact Function.update_self ..
    have hsub : (s.ctxList pid).stack.nextFree - 4096 - 4096 * n = (s.ctxList pid).stack.nextFree - 4096 * (n + 1) := by
      omega
    simp only [hc, hsub] at h4
    exact ⟨h.trans h3, h4⟩

/-- A fault keeps the context, or lowers the end of the stack to the page of the address. -/
theorem doPageFault_spec (hp : Picks pick) (hd : s.Distinct) (hl : s.Live pid) (cr2 : Nat) (err : UInt64) :
    Local pid s (s.doPageFault pick pid cr2 err).2 ∧
      ((s.doPageFault pick pid cr2 err).2.ctxList pid = s.ctxList pid ∨
        ((s.ctxList pid).stack.start ≤ cr2 ∧ cr2 < (s.ctxList pid).stack.nextFree ∧
          (s.doPageFault pick pid cr2 err).2.ctxList pid = { s.ctxList pid with stack := { (s.ctxList pid).stack with
            nextFree := (s.ctxList pid).stack.nextFree - 4096 * (((s.ctxList pid).stack.nextFree - cr2 / 4096 * 4096) / 4096) } })) := by
  have hinstall : Local pid s (s.installPageTable pick pid cr2 err) ∧
      ((s.installPageTable pick pid cr2 err).ctxList pid = s.ctxList pid) :=
    ⟨local_installPage hp hd hl _ _ _, by rw [installPageTable, installPage_ctxList]⟩
  unfold doPageFault
  simp only
  split
  · exact ⟨local_handleCowFault hp hd hl cr2, Or.inl (by rw [handleCowFault_ctxList])⟩
  split
  · exact ⟨.refl pid s, Or.inl rfl⟩
  split
  · split
    · exact ⟨hinstall.1, Or.inl hinstall.2⟩
    · exact ⟨.refl pid s, Or.inl rfl⟩
  split
  · split
    · exact ⟨hinstall.1, Or.inl hinstall.2⟩
    · exact ⟨.refl pid s, Or.inl rfl⟩
  split
  · rename_i hs
    split
    · rename_i hlt
      obtain ⟨h1, h2⟩ := local_growStack hp hd hl err (((s.ctxList pid).stack.nextFree - cr2 / 4096 * 4096) / 4096)
      refine ⟨h1.trans (local_installPage hp (h1.distinct hd) ((h1.live pid).mpr hl) _ _ _), Or.inr ⟨hs.1, hlt, ?_⟩⟩
      rw [installPageTable, installPage_ctxList]
      exact h2
    · exact ⟨.refl pid s, Or.inl rfl⟩
  split
  · rcases vmAreaPagefault_cases s pick pid cr2 err with h | ⟨h, -⟩
    · rw [h]; exact ⟨.refl pid s, Or.inl rfl⟩
    · rw [h]; exact ⟨local_installPage hp hd hl _ _ _, Or.inl (by rw [installPage_ctxList])⟩
  · exact ⟨.refl pid s, Or.inl rfl⟩

/-! ## Exit -/

theorem doExit_eq (hd : s.Distinct) (hl : s.Live pid) :
    s.doExit pid = s.setCtx pid { s.ctxList pid with state := .unused } := by
  unfold doExit vforkExitHandle
  simp only
  split
  · rfl
  · -- only the context itself has its page table
    rename_i h
    have he : (s.ctxList pid).ppid = pid := hd pid _ hl (not_not.mp h)
    simp only [he]
    unfold setCtx
    simp only [Function.update_self, Function.update_idem]

theorem live_doExit (hd : s.Distinct) (hl : s.Live pid) (i : Nat) : (s.doExit pid).Live i ↔ i ≠ pid ∧ s.Live i := by
  rw [doExit_eq hd hl]
  unfold Live
  show _ ∧ _ ∧ (Function.update s.ctxList pid _ i).state ≠ _ ↔ _
  by_cases hi : i = pid
  · rw [hi, Function.update_self]; simp
  · rw [Function.update_of_ne hi]; simp [hi]

theorem frames_doExit (hd : s.Distinct) (hl : s.Live pid) : (s.doExit pid).frames = s.frames.clear pid := by
  have hpgd : ∀ i, i ≠ pid → (s.doExit pid).table i = s.table i := by
    intro i hi
    rw [doExit_eq hd hl]
    unfold table
    show s.tables (Function.update s.ctxList pid _ i).pgd = _
    rw [Function.update_of_ne hi]
  have hphys : (s.doExit pid).phys = s.phys := by rw [doExit_eq hd hl]; rfl
  unfold frames Frames.clear
  rw [hphys]
  congr 1
  funext i k
  simp only [live_doExit hd hl]
  by_cases hi : i = pid
  · subst hi; simp
  · rw [Function.update_of_ne hi, hpgd i hi]
    simp [hi]

theorem base_doExit (hb : s.Base) (hl : s.Live pid) : (s.doExit pid).Base := by
  have hctx : ∀ i, i ≠ pid → (s.doExit pid).ctxList i = s.ctxList i := by
    intro i hi
    rw [doExit_eq hb.distinct hl]
    exact Function.update_of_ne hi ..
  have hpgd : ∀ i, ((s.doExit pid).ctxList i).pgd = (s.ctxList i).pgd := by
    intro i
    rw [doExit_eq hb.distinct hl]
    show (Function.update s.ctxList pid _ i).pgd = _
    by_cases hi : i = pid
    · rw [hi, Function.update_self]
    · rw [Function.update_of_ne hi]
  have hlive := live_doExit hb.distinct hl
  refine ⟨fun i j hi he => ?_, ?_, fun i hi => ?_, fun i k e h => ?_⟩
  · rw [hpgd, hpgd] at he
    exact hb.distinct i j ((hlive i).mp hi).2 he
  · rw [hctx 0 (Nat.ne_of_lt hl.1)]; exact hb.swapper
  · obtain ⟨hne, hi⟩ := (hlive i).mp hi
    rw [hctx i hne]
    exact hb.layout i hi
  · rw [frames_doExit hb.distinct hl] at h
    have h : Function.update s.frames.map pid (fun _ => none) i k = some e := h
    by_cases hi : i = pid
    · rw [hi, Function.update_self] at h; cases h
    · rw [Function.update_of_ne hi] at h
      exact hb.nonzero i k e h

theorem base_fault (hp : Picks pick) (hb : s.Base) (hl : s.Live pid) (addr : Nat) (write : Bool) :
    (s.fault pick pid addr write).Base := by
  obtain ⟨h, hc⟩ := doPageFault_spec hp hb.distinct hl addr ((s.table pid).errorCode (pageOf addr) write)
  have hb' := h.base hb (Nat.ne_of_gt hl.1) fun _ => by
    rcases hc with hc | ⟨h1, h2, hc⟩
    · rw [hc]; exact hb.layout pid hl
    · rw [hc]; exact (hb.layout pid hl).stack_down h1 h2
  unfold fault
  simp only
  split
  · exact hb'
  · exact base_doExit hb' ((h.live pid).mpr hl)

/-! ## cfork -/

section
variable (hd : s.Distinct) (hc : s.Live child) (hl : s.Live parent)
include hd hc hl

theorem frames_sharePages (pick : Finset Nat → Nat) (seg : MmSegment) (vs : List Nat) (hv : ∀ v ∈ vs, v ≠ 0)
    (h0 : ∀ k e, s.frames.map parent k = some e → e.frame ≠ 0) :
    (vs.foldl (fun s v => s.sharePage pick child parent seg v) s).frames =
        s.frames.shareAll parent child (vs.map pageOf) ∧
      (vs.foldl (fun s v => s.sharePage pick child parent seg v) s).ctxList = s.ctxList ∧
      ∀ k e, (s.frames.shareAll parent child (vs.map pageOf)).map parent k = some e → e.frame ≠ 0 := by
  induction vs generalizing s with
  | nil => exact ⟨rfl, rfl, h0⟩
  | cons v vs ih =>
    have hctx := sharePage_ctxList s pick child parent seg v
    have he := frames_sharePage pick seg hd hc hl (hv v List.mem_cons_self) fun e h => h0 _ e h
    have h0' : ∀ k e, (s.sharePage pick child parent seg v).frames.map parent k = some e → e.frame ≠ 0 := by
      intro k e h
      rw [he, Frames.share_map] at h
      split at h
      · cases hd : s.frames.map parent (pageOf v) with
        | none => rw [hd] at h; exact h0 k e h
        | some d =>
          rw [hd] at h
          cases h
          exact h0 _ d hd
      · exact h0 k e h
    obtain ⟨h1, h2, h3⟩ := ih (distinct_congr hctx hd) ((live_congr hctx).mpr hc) ((live_congr hctx).mpr hl)
      (fun v hm => hv v (List.mem_cons_of_mem _ hm)) h0'
    rw [he] at h1 h3
    exact ⟨h1, h2.trans hctx, h3⟩

theorem frames_copyPages (hp : Picks pick) (hne : child ≠ parent) {seg : MmSegment} (hw : seg.accessFlags &&& MM_WR ≠ 0)
    (vs : List Nat) (hv : ∀ v ∈ vs, v ≠ 0) :
    (vs.foldl (fun s v => s.copyPage pick child parent seg v) s).frames =
        s.frames.dupAll pick parent child true (vs.map pageOf) ∧
      (vs.foldl (fun s v => s.copyPage pick child parent seg v) s).ctxList = s.ctxList ∧
      ∀ k, (s.frames.dupAll pick parent child true (vs.map pageOf)).map parent k = s.frames.map parent k := by
  induction vs generalizing s with
  | nil => exact ⟨rfl, rfl, fun _ => rfl⟩
  | cons v vs ih =>
    have hctx := copyPage_ctxList s pick child parent seg v
    have he := frames_copyPage seg hp hd hc hl (hv v List.mem_cons_self)
    rw [decide_eq_true hw] at he
    obtain ⟨h1, h2, h3⟩ := ih (distinct_congr hctx hd) ((live_congr hctx).mpr hc) ((live_congr hctx).mpr hl)
      fun v hm => hv v (List.mem_cons_of_mem _ hm)
    rw [he] at h1 h3
    refine ⟨h1, h2.trans hctx, fun k => (h3 k).trans ?_⟩
    rw [Frames.dup_map, if_neg fun h => hne h.1.symm]

/-- cfork_copy_mm forks the frames of the parent. -/
theorem frames_cforkCopyMm (hp : Picks pick) (hne : child ≠ parent) (hlay : (s.ctxList child).Layout)
    (hareas : (s.ctxList child).vmArea = (s.ctxList parent).vmArea)
    (h0 : ∀ k e, s.frames.map parent k = some e → e.frame ≠ 0) :
    (s.cforkCopyMm pick child parent).frames = s.frames.fork pick parent child (s.ctxList child).sharedPages
        (s.ctxList child).stackPages (s.ctxList child).areaPages ∧
      (s.cforkCopyMm pick child parent).ctxList = s.ctxList := by
  have hlow := hlay.addrs_ne_zero
  have hcode : ∀ v ∈ vaddrs (s.ctxList child).code.start (s.ctxList child).code.nextFree, v ≠ 0 :=
    fun v hv => hlow.1 v (List.mem_append_left _ (List.mem_append_left _ hv))
  have hrodata : ∀ v ∈ vaddrs (s.ctxList child).rodata.start (s.ctxList child).rodata.nextFree, v ≠ 0 :=
    fun v hv => hlow.1 v (List.mem_append_left _ (List.mem_append_right _ hv))
  have hdata : ∀ v ∈ vaddrs (s.ctxList child).data.start (s.ctxList child).data.nextFree, v ≠ 0 :=
    fun v hv => hlow.1 v (List.mem_append_right _ hv)
  obtain ⟨f1, c1, n1⟩ := frames_sharePages hd hc hl pick (s.ctxList child).code _ hcode h0
  rw [← f1] at n1
  obtain ⟨f2, c2, n2⟩ := frames_sharePages (distinct_congr c1 hd) ((live_congr c1).mpr hc)
    ((live_congr c1).mpr hl) pick (s.ctxList child).rodata _ hrodata n1
  rw [← f2] at n2
  have c2 := c2.trans c1
  obtain ⟨f3, c3, n3⟩ := frames_sharePages (distinct_congr c2 hd) ((live_congr c2).mpr hc)
    ((live_congr c2).mpr hl) pick (s.ctxList child).data _ hdata n2
  rw [← f3] at n3
  have c3 := c3.trans c2
  obtain ⟨f4, c4, n4⟩ := frames_copyPages (distinct_congr c3 hd) ((live_congr c3).mpr hc) ((live_congr c3).mpr hl) hp hne
    hlay.stack.2.2.2.2.2 _ hlow.2.1
  have c4 := c4.trans c3
  obtain ⟨f5, c5, -⟩ := frames_sharePages (distinct_congr c4 hd) ((live_congr c4).mpr hc)
    ((live_congr c4).mpr hl) pick (s.ctxList child).stack _ hlow.2.2 fun k e h => by
      rw [f4, n4] at h
      exact n3 k e h
  unfold cforkCopyMm
  simp only [← List.foldl_flatMap, c4, ← hareas]
  refine ⟨f5.trans ?_, c5.trans c4⟩
  rw [f4, f3, f2, f1]
  unfold Frames.fork Ctx.sharedPages Ctx.sharedAddrs
  simp only [List.map_append, Frames.shareAll_append]
  rfl

end

/-- What do_cfork does: the child is a slot that was not alive, with a context like the parent's. -/
structure Cforked (s : Sys) (pick : Finset Nat → Nat) (pid pgd : Nat) (child : Nat) (s' : Sys) : Prop where
  dead : ¬ s.Live child
  frames : s'.frames = s.frames.fork pick pid child (s.ctxList pid).sharedPages (s.ctxList pid).stackPages
    (s.ctxList pid).areaPages
  live : ∀ i, s'.Live i ↔ i = child ∨ s.Live i
  ctx : s'.ctxList child = { s.ctxList pid with ppid := pid, pgd := pgd, state := .ready }
  others : ∀ i, i ≠ child → s'.ctxList i = s.ctxList i

theorem getNewCtx_spec (hs : (s.ctxList 0).state ≠ .unused) (h : s.getNewCtx = some child) :
    0 < child ∧ child < MAX_PROCESSES ∧ (s.ctxList child).state = .unused := by
  unfold getNewCtx at h
  have hun : (s.ctxList child).state = .unused := by simpa using List.find?_some h
  refine ⟨Nat.pos_of_ne_zero fun h0 => hs (h0 ▸ hun), List.mem_range.mp (List.mem_of_find?_eq_some h), hun⟩

theorem doCfork_spec (hp : Picks pick) (hb : s.Base) (hl : s.Live pid) {pgd : Nat} (hpgd : ∀ i, (s.ctxList i).pgd ≠ pgd)
    {r : Nat × Sys} (h : s.doCfork pick pid pgd = some r) : Cforked s pick pid pgd r.1 r.2 := by
  obtain ⟨child, hnew, rfl⟩ := Option.map_eq_some_iff.mp h
  obtain ⟨hpos, hlt, hun⟩ := getNewCtx_spec hb.swapper hnew
  have hdead : ¬ s.Live child := fun hl => hl.2.2 hun
  have hne : child ≠ pid := fun he => hdead (he ▸ hl)
  -- the new context is alive, with an empty page table
  obtain ⟨s0, hs0⟩ : ∃ s0 : Sys, s0 =
      { s.setCtx child { s.ctxList pid with ppid := pid, pgd := pgd } with
        tables := Function.update s.tables pgd PageTable.empty
        numVmArea := s.numVmArea + (s.ctxList pid).vmArea.length } := ⟨_, rfl⟩
  have hctx : s0.ctxList child = { s.ctxList pid with ppid := pid, pgd := pgd } := by rw [hs0]; exact Function.update_self ..
  have hoth : ∀ i, i ≠ child → s0.ctxList i = s.ctxList i := by intro i hi; rw [hs0]; exact Function.update_of_ne hi ..
  have hlive0 : ∀ i, s0.Live i ↔ i = child ∨ s.Live i := by
    intro i
    by_cases hi : i = child
    · subst hi
      exact ⟨fun _ => Or.inl rfl, fun _ => ⟨hpos, hlt, by rw [hctx]; exact hl.2.2⟩⟩
    · unfold Live
      rw [hoth i hi]
      simp [hi]
  have hd0 : s0.Distinct := by
    intro i j hi he
    by_cases hic : i = child
    · subst hic
      by_cases hjc : j = i
      · exact hjc
      · rw [hctx, hoth j hjc] at he
        exact absurd he (hpgd j)
    · by_cases hjc : j = child
      · rw [hjc, hctx, hoth i hic] at he
        exact absurd he.symm (hpgd i)
      · rw [hoth i hic, hoth j hjc] at he
        exact hb.distinct i j (((hlive0 i).mp hi).resolve_left hic) he
  have hframes0 : s0.frames = s.frames := by
    have hphys : s0.phys = s.phys := by rw [hs0]; rfl
    unfold Sys.frames
    rw [hphys]
    congr 1
    funext i k
    simp only [hlive0]
    have htable : ∀ i, s0.table i = Function.update s.tables pgd PageTable.empty (s0.ctxList i).pgd := by
      intro i; rw [hs0]; rfl
    rw [htable]
    by_cases hi : i = child
    · subst hi
      rw [hctx, Function.update_self, if_pos (Or.inl rfl), if_neg hdead]
      rfl
    · rw [hoth i hi, Function.update_of_ne (hpgd i)]
      simp only [hi, false_or]
      rfl
  have hlay : (s0.ctxList child).Layout := by
    rw [hctx]
    exact { hb.layout pid hl with }
  obtain ⟨hf, hc⟩ := frames_cforkCopyMm hd0 ((hlive0 child).mpr (Or.inl rfl)) ((hlive0 pid).mpr (Or.inr hl)) hp
    hne hlay (by rw [hctx, hoth pid (Ne.symm hne)]) fun k e he => hb.nonzero pid k e (by rw [← hframes0]; exact he)
  have hfin : ∀ t : Sys, t.ctxList = s0.ctxList → (t.setCtx child { t.ctxList child with state := .ready }).frames = t.frames ∧
      ∀ i, (t.setCtx child { t.ctxList child with state := .ready }).Live i ↔ t.Live i := by
    intro t ht
    obtain ⟨h1, h2, -⟩ := frames_setCtx (s := t) child { t.ctxList child with state := .ready } rfl (by
      rw [ht, hctx]
      exact iff_of_false (fun he => by cases he) hl.2.2)
    exact ⟨h1, h2⟩
  rw [hctx, hframes0] at hf
  simp only
  rw [← hs0]
  obtain ⟨e1, e2⟩ := hfin _ hc
  refine ⟨hdead, e1.trans hf, fun i => ((e2 i).trans (live_congr hc)).trans (hlive0 i), ?_, fun i hi => ?_⟩
  · refine (Function.update_self ..).trans ?_
    rw [hc, hctx]
  · exact (Function.update_of_ne hi ..).trans (by rw [hc]; exact hoth i hi)

theorem base_cfork (hp : Picks pick) (hb : s.Base) (hl : s.Live pid) {pgd : Nat} (hpgd : ∀ i, (s.ctxList i).pgd ≠ pgd)
    {s' : Sys} (h : Cforked s pick pid pgd child s') : s'.Base := by
  have hne : pid ≠ child := fun he => h.dead (he ▸ hl)
  refine ⟨fun i j hi he => ?_, ?_, fun i hi => ?_, fun i k e hm => ?_⟩
  · by_cases hic : i = child
    · subst hic
      by_cases hjc : j = i
      · exact hjc
      · rw [h.ctx, h.others j hjc] at he
        exact absurd he (hpgd j)
    · by_cases hjc : j = child
      · rw [hjc, h.ctx, h.others i hic] at he
        exact absurd he.symm (hpgd i)
      · rw [h.others i hic, h.others j hjc] at he
        exact hb.distinct i j (((h.live i).mp hi).resolve_left hic) he
  · have h0 : 0 ≠ child := fun he => absurd ((h.live child).mpr (Or.inl rfl)).1 (by omega)
    rw [h.others 0 h0]; exact hb.swapper
  · by_cases hic : i = child
    · rw [hic, h.ctx]
      exact { hb.layout pid hl with }
    · rw [h.others i hic]
      exact hb.layout i (((h.live i).mp hi).resolve_left hic)
  · rw [h.frames] at hm
    have hro : ∀ {l}, (s.frames.map pid l).map Frames.readOnly = some e → e.frame ≠ 0 := by
      intro l hm
      obtain ⟨d, hd, hde⟩ := Option.map_eq_some_iff.mp hm
      rw [← hde]
      exact hb.nonzero pid l d hd
    by_cases hip : i = pid
    · rw [hip, Frames.fork_owner hne] at hm
      split at hm
      · exact hro hm
      · exact hb.nonzero pid k e hm
    by_cases hic : i = child
    · rw [hic] at hm
      have hnew : ∀ k, s.frames.map child k = none := fun k => if_neg h.dead
      rcases (Frames.fork_forked hne hnew hm).2 with ⟨-, u, he⟩ | ⟨-, hm⟩
      · rw [he]; exact (hp u).2
      · exact hro hm
    · rw [Frames.fork_others hip hic] at hm
      exact hb.nonzero i k e hm

/-! ## Runs -/

theorem base_step {e : Ev} {s' : Sys} (hb : s.Base) (ho : s.Promised e) (h : s.step e = some s') : s'.Base := by
  unfold step at h
  split at h
  swap
  · cases h
  rename_i hl
  have hpid : ∀ {pid}, s.Live pid → pid ≠ 0 := fun hl => Nat.ne_of_gt hl.1
  -- a call that replaces the list of areas
  have hareas : ∀ {pid} {c : Call}, s.Live pid → c.Promised →
      Ctx.Layout { s.ctxList pid with vmArea := (c.run (s.ctxList pid).vmArea).2.1 } := by
    intro pid c hl hc
    obtain ⟨h1, h2⟩ := c.run_inv hc (hb.layout pid hl).areas (hb.layout pid hl).merged
    exact { hb.layout pid hl with areas := h1, merged := h2 }
  cases e with
  | mmap pid addr length prot flags pick =>
    cases h
    obtain ⟨h1, h2⟩ := local_vmAreaMap ho.2.2 hb.distinct hl addr length prot flags
    refine h1.base hb (hpid hl) fun _ => ?_
    rw [h2]
    exact hareas (c := .mmap addr length prot flags) hl ⟨ho.1, ho.2.1⟩
  | munmap pid addr length =>
    cases h
    refine (local_vmAreaUnmap hb.distinct hl addr length).base hb (hpid hl) fun _ => ?_
    rw [(vmAreaUnmap_spec hb.distinct hl addr length).2.2, setAreas_ctx]
    exact hareas (c := .munmap addr length) hl ho
  | mprotect pid addr length prot =>
    cases h
    refine (local_vmAreaMprotect hb.distinct hl addr length prot).base hb (hpid hl) fun _ => ?_
    rw [(vmAreaMprotect_spec hb.distinct hl addr length prot).2, setAreas_ctx]
    exact hareas (c := .mprotect addr length prot) hl ho
  | expand pid size segmentT =>
    cases h
    refine (local_doExpand s pid size segmentT).base hb (hpid hl) fun _ => ?_
    rcases doExpand_spec s pid size segmentT with h | ⟨n, h1, h2, h⟩ | ⟨n, h1, h2, h⟩
    · rw [h]; exact hb.layout pid hl
    · rw [h, setCtx_self]; exact (hb.layout pid hl).expand_rodata h1 h2
    · rw [h, setCtx_self]; exact (hb.layout pid hl).expand_data h1 h2
  | cfork pid pgd pick =>
    obtain ⟨r, hr, rfl⟩ := Option.map_eq_some_iff.mp h
    exact base_cfork ho.1 hb hl ho.2 (doCfork_spec ho.1 hb hl ho.2 hr)
  | exit pid => cases h; exact base_doExit hb hl
  | read pid addr pick =>
    simp only [call] at h
    split at h
    · cases h
    split at h
    · cases h; exact hb
    · cases h; exact base_fault ho hb hl addr false
  | write pid addr byte pick =>
    simp only [call] at h
    split at h
    · cases h
    split at h
    · rename_i ha
      cases h
      refine (local_store hl ha byte).base hb (hpid hl) fun _ => ?_
      rw [store_ctxList]
      exact hb.layout pid hl
    · cases h; exact base_fault ho hb hl addr true

end Sys

end Cs330.Mm
