/-
  Cs330.Proc.Suspended — how long a vfork parent stays suspended.

  A process that has called `do_vfork` waits until the child exits, unless it is woken before
  its time: by the exit of another context whose `ppid` names it and whose page directory is
  the same, or by a tick, when it was woken from `do_sleep` in that way and still has ticks to
  sleep. `do_clone` does not fill in `ppid`, so a thread may name anyone (`woken_by_thread`).

  Proved: `suspended_until_exit`, over all runs in which neither happens; and a step of such a
  run in which one of them does happen wakes a suspended parent.
-/
import Cs330.Proc.Links

namespace Cs330.Proc

open Lib Mm Function

namespace Table

variable {t u v : Table} {a pid new : Nat}

/-- The segments and the list of areas. -/
structure Frozen (t u : Table) (a : Nat) : Prop where
  code : (u.ctxList a).code = (t.ctxList a).code
  rodata : (u.ctxList a).rodata = (t.ctxList a).rodata
  data : (u.ctxList a).data = (t.ctxList a).data
  stack : (u.ctxList a).stack = (t.ctxList a).stack
  vmArea : (u.ctxList a).vmArea = (t.ctxList a).vmArea

theorem Frozen.of_eq (h : u.ctxList a = t.ctxList a) : Frozen t u a := by
  refine ⟨?_, ?_, ?_, ?_, ?_⟩ <;> rw [h]

theorem Frozen.trans (h1 : Frozen t u a) (h2 : Frozen u v a) : Frozen t v a :=
  ⟨h2.code.trans h1.code, h2.rodata.trans h1.rodata, h2.data.trans h1.data, h2.stack.trans h1.stack,
    h2.vmArea.trans h1.vmArea⟩

/-- A context that waits is not picked. -/
theorem schedule_waiting (pid : Nat) (h0 : a ≠ 0) (hw : (t.ctxList a).state = .waiting) :
    (t.schedule (t.pickNextContext pid)).ctxList a = t.ctxList a := by
  refine schedule_ne fun he => ?_
  rcases pickNextContext_spec t pid with hp | hp
  · exact h0 (he.trans hp)
  · rw [← he, hw] at hp
    exact ProcState.noConfusion hp

/-- A context that is READY stays so, or runs. -/
theorem schedule_ready (hr : (t.ctxList a).state = .ready) :
    ((t.schedule new).ctxList a).state = .ready ∨ ((t.schedule new).ctxList a).state = .running := by
  by_cases he : a = new
  · rw [he, schedule_self]
    exact .inr rfl
  · rw [schedule_ne he]
    exact .inl hr

end Table

namespace Watch

open Table

variable {w w' : Watch} {e : Ev} {a c pid : Nat}

/-- Nobody that awaits a child is READY or RUNNING. -/
def Suspends (w : Watch) : Prop :=
  ∀ a c, w.awaits a = some c → (w.table.ctxList a).state ≠ .ready ∧ (w.table.ctxList a).state ≠ .running

def Waits (w : Watch) : Prop := ∀ a c, w.awaits a = some c → (w.table.ctxList a).state = .waiting

/-- No suspended parent has its last tick to sleep at a tick; an exit whose `ppid` names a
    context of the same page directory is that of the child this context awaits, if any. -/
def Spares (w : Watch) : Ev → Prop
  | .tick => ∀ a, w.awaits a ≠ none → (w.table.ctxList a).ticksToSleep ≠ 1
  | .exit => ∀ pid, w.table.current = some pid →
      (w.table.ctxList (w.table.ctxList pid).ppid).pgd = (w.table.ctxList pid).pgd →
      w.awaits (w.table.ctxList pid).ppid = none ∨ w.awaits (w.table.ctxList pid).ppid = some pid
  | _ => True

theorem Waits.suspends (h : w.Waits) : w.Suspends := fun a c hac => by
  rw [h a c hac]
  exact ⟨ProcState.noConfusion, ProcState.noConfusion⟩

/-- A suspended parent is not the context that runs, nor a free slot, nor the swapper. -/
theorem Waits.apart (hw : w.Waits) (hl : w.Linked) (hcur : w.table.current = some pid) (ha : w.awaits a = some c) :
    a ≠ pid ∧ a ≠ 0 := by
  refine ⟨fun he => (hl.current_alive hcur).2 ?_, hl.links.caller a c ha⟩
  rw [← he]
  exact hw a c ha

/-- A step that spares a parent: it still waits, and has what it had. -/
theorem Waits.spared (hw : w.Waits) (hl : w.Linked) (hs : w.Spares e) (he : w.step e = some w')
    (ha : w.awaits a = some c) (ha' : w'.awaits a = some c) :
    (w'.table.ctxList a).state = .waiting ∧ w.table.Frozen w'.table a := by
  obtain ⟨t, ht, rfl⟩ := Option.map_eq_some_iff.mp he
  obtain ⟨pid, hcur, htook⟩ := step_took ht
  obtain ⟨hap, ha0⟩ := hw.apart hl hcur ha
  have hstate := hw a c ha
  have hslot : ∀ {child}, (w.table.ctxList child).state = .unused → a ≠ child := fun hun => hl.slot hun ⟨a, c, ha, .inl rfl⟩
  have hsame : ∀ {u : Table}, u.ctxList a = w.table.ctxList a → (u.ctxList a).state = .waiting ∧ w.table.Frozen u a :=
    fun hu => ⟨by rw [hu]; exact hstate, .of_eq hu⟩
  cases htook with
  | tick =>
    have hne : (w.table.ctxList a).ticksToSleep ≠ 1 := hs a (by rw [ha]; exact Option.some_ne_none c)
    -- the account leaves it waiting
    have hacc : (sleepAccount (w.table.ctxList a)).state = .waiting ∧ w.table.Frozen w.table.doSleepAccount a := by
      have hctx : w.table.doSleepAccount.ctxList a = sleepAccount (w.table.ctxList a) := rfl
      rcases sleepAccount_cases (w.table.ctxList a) with h | ⟨-, -, h⟩
      · exact ⟨by rw [h]; exact hstate, .of_eq (hctx.trans h)⟩
      · rw [if_neg hne] at h
        refine ⟨by rw [h], ?_⟩
        rw [h] at hctx
        refine ⟨?_, ?_, ?_, ?_, ?_⟩ <;> rw [hctx]
    have hctx : (w.table.doSleepAccount.setState pid .ready).ctxList a = w.table.doSleepAccount.ctxList a := setState_ne hap
    have hwait : ((w.table.doSleepAccount.setState pid .ready).ctxList a).state = .waiting := by
      rw [hctx]
      exact hacc.1
    have hfro := hacc.2.trans (.of_eq hctx)
    show ((w.table.handleTimerTick pid).ctxList a).state = .waiting ∧ w.table.Frozen (w.table.handleTimerTick pid) a
    unfold handleTimerTick
    simp only
    split
    · exact ⟨hwait, hfro⟩
    · have hy := schedule_waiting pid ha0 hwait
      exact ⟨by rw [hy]; exact hwait, hfro.trans (.of_eq hy)⟩
  | sleep ticks hne =>
    have hctx := setCtx_ne (t := w.table) (c := { w.table.ctxList pid with ticksToSleep := ticks, state := .waiting }) hap
    refine hsame ((schedule_waiting _ ha0 ?_).trans hctx)
    rw [hctx]
    exact hstate
  | exit hne =>
    have hcp := ((awaitsAfter_exit hcur).mp ha').2.1
    have hhandle : (w.table.vforkExitHandle pid).ctxList a = w.table.ctxList a := by
      unfold vforkExitHandle
      simp only
      split
      · rfl
      · rename_i hpgd
        refine setCtx_ne fun hpa => ?_
        have hor := hs pid hcur (not_not.mp hpgd)
        rw [← hpa, ha] at hor
        exact hcp (Option.some.inj (hor.resolve_left (Option.some_ne_none c)))
    have hctx : ((w.table.vforkExitHandle pid).setState pid .unused).ctxList a = w.table.ctxList a :=
      (setState_ne hap).trans hhandle
    refine hsame ?_
    show (w.table.doExit pid).ctxList a = _
    unfold doExit
    simp only
    split
    · exact hctx
    · refine (schedule_waiting _ ha0 ?_).trans hctx
      rw [hctx]
      exact hstate
  | make hne hmakes hun hready => exact hsame (setCtx_ne (hslot hun))
  | vfork hne hnew hppid hpgd =>
    have hch := hslot (getNewCtx_spec hnew).2
    exact hsame ((schedule_ne hch).trans ((setState_ne hap).trans (setCtx_ne hch)))
  | remap code rodata data stack vmArea hne => exact hsame (setCtx_ne hap)

/-- Whoever awaits a child after a step did before, or has called `do_vfork`. -/
theorem awaits_before (hl : w.Linked) (he : w.step e = some w') (ha : w'.awaits a = some c) :
    w.awaits a = some c ∨ (w'.table.ctxList a).state = .waiting := by
  obtain ⟨t, ht, rfl⟩ := Option.map_eq_some_iff.mp he
  obtain ⟨pid, hcur, htook⟩ := step_took ht
  cases htook with
  | vfork hne hnew hppid hpgd =>
    rename_i child ctx
    have ha : w.awaitsAfter .vfork a = some c := ha
    rw [awaitsAfter_vfork hcur hnew] at ha
    by_cases hap : a = pid
    · refine .inr ?_
      have hpc : pid ≠ child := fun hpc => (hl.current_alive hcur).1 (hpc.symm ▸ (getNewCtx_spec hnew).2)
      show ((((w.table.setCtx child ctx).setState pid .waiting).schedule child).ctxList a).state = .waiting
      rw [hap, schedule_ne hpc, setState_self]
    · rw [update_of_ne hap] at ha
      exact .inl ha
  | exit hne => exact .inl ((awaitsAfter_exit hcur).mp ha).2.2
  | make hne hmakes hun hready =>
    have ha : w.awaitsAfter e a = some c := ha
    rw [awaitsAfter_makes w hmakes] at ha
    exact .inl ha
  | tick => exact .inl ha
  | sleep ticks hne => exact .inl ha
  | remap code rodata data stack vmArea hne => exact .inl ha

theorem Waits.step (hw : w.Waits) (hl : w.Linked) (hs : w.Spares e) (he : w.step e = some w') : w'.Waits := by
  intro a c hac
  rcases awaits_before hl he hac with ha | hstate
  · exact (hw.spared hl hs he ha hac).1
  · exact hstate

/-- A step that does not spare everybody wakes a suspended parent. -/
theorem Waits.woken (hw : w.Waits) (hl : w.Linked) (hs : ¬ w.Spares e) (he : w.step e = some w') : ¬ w'.Suspends := by
  intro hsus
  obtain ⟨t, ht, rfl⟩ := Option.map_eq_some_iff.mp he
  obtain ⟨pid, hcur, htook⟩ := step_took ht
  have hcontra : ∀ {a c}, w.awaitsAfter e a = some c → ¬ ((t.ctxList a).state = .ready ∨ (t.ctxList a).state = .running) := by
    intro a c hac hor
    rcases hor with hor | hor
    · exact (hsus a c hac).1 hor
    · exact (hsus a c hac).2 hor
  cases htook with
  | tick =>
    simp only [Spares, not_forall, not_not] at hs
    obtain ⟨a, hne, htick⟩ := hs
    obtain ⟨c, hac⟩ := Option.ne_none_iff_exists'.mp hne
    obtain ⟨hap, -⟩ := hw.apart hl hcur hac
    refine hcontra hac ?_
    have hready : ((w.table.doSleepAccount.setState pid .ready).ctxList a).state = .ready := by
      rw [setState_ne hap]
      show (sleepAccount (w.table.ctxList a)).state = .ready
      unfold sleepAccount
      rw [if_pos ⟨hw a c hac, by rw [htick]; decide⟩, htick]
      rfl
    show ((w.table.handleTimerTick pid).ctxList a).state = .ready ∨ ((w.table.handleTimerTick pid).ctxList a).state = .running
    unfold handleTimerTick
    simp only
    split
    · exact .inl hready
    · exact schedule_ready hready
  | exit hne =>
    simp only [Spares, not_forall, not_or] at hs
    obtain ⟨p, hp, hpgd, hnone, hother⟩ := hs
    obtain rfl := Option.some.inj (hcur.symm.trans hp)
    obtain ⟨c, hac⟩ := Option.ne_none_iff_exists'.mp hnone
    obtain ⟨hap, -⟩ := hw.apart hl hcur hac
    have hcp : c ≠ pid := fun he => hother (he ▸ hac)
    refine hcontra ((awaitsAfter_exit hcur).mpr ⟨hap, hcp, hac⟩) ?_
    have hready : (((w.table.vforkExitHandle pid).setState pid .unused).ctxList (w.table.ctxList pid).ppid).state = .ready := by
      rw [setState_ne hap]
      unfold vforkExitHandle
      simp only
      rw [if_neg fun hno => hno hpgd, setCtx_self]
    show ((w.table.doExit pid).ctxList _).state = .ready ∨ ((w.table.doExit pid).ctxList _).state = .running
    unfold doExit
    simp only
    split
    · exact .inl hready
    · exact schedule_ready hready
  | sleep ticks hne => exact hs trivial
  | make hne hmakes hun hready => cases e <;> first | exact hmakes | exact hs trivial
  | vfork hne hnew hppid hpgd => exact hs trivial
  | remap code rodata data stack vmArea hne => exact hs trivial

theorem reach_waits (h : machine.Reach Spares w) : w.Waits ∧ w.Linked := by
  refine h.inv (fun w => w.Waits ∧ w.Linked) (fun w hw => ⟨fun a c hac => ?_, Start.linked hw⟩)
    fun w e w' hi ho he => ⟨hi.1.step hi.2 ho he, hi.2.step he⟩
  rw [hw.2] at hac
  cases hac

/-- A vfork parent is suspended until its child exits, in every run that spares it. -/
theorem suspended_until_exit (h : machine.Reach Spares w) :
    w.Suspends ∧ ∀ e w', w.step e = some w' → (w.Spares e ↔ w'.Suspends) ∧
      (w.Spares e → ∀ a c, w.awaits a = some c → w'.awaits a = some c → w.table.Frozen w'.table a) := by
  obtain ⟨hw, hl⟩ := reach_waits h
  refine ⟨hw.suspends, fun e w' he => ⟨⟨fun hs => (hw.step hl hs he).suspends, fun hsus => ?_⟩, fun hs a c ha ha' => ?_⟩⟩
  · by_contra hs
    exact hw.woken hl hs he hsus
  · exact (hw.spared hl hs he ha ha').2

end Watch

/-! ## Traces -/

/-- The table after boot, with page directories and nothing else that matters. -/
def booted : Table where
  ctxList := fun i =>
    let seg : MmSegment := ⟨0, 0, 0, 0⟩
    let ctx : Context := ⟨0, .unused, 0, seg, seg, seg, seg, 0, 0⟩
    if i = 0 then { ctx with state := .ready, pgd := 0x70 }
    else if i = 1 then { ctx with state := .running, pgd := 0x71, data := ⟨DATA_START, Vm.MMAP_AREA_START - 1, DATA_START, 3⟩ }
    else ctx
  current := some 1

theorem start_booted : Watch.Start ⟨booted, fun _ => none⟩ :=
  ⟨⟨rfl, rfl, rfl, fun i h0 h1 => by simp [booted, h0, h1]⟩, rfl⟩

namespace Watch

/-- The child of a vfork exits and leaves its parent as the child had it. -/
theorem suspended_until_exit_vfork : ∃ w : Watch, w.awaits 1 = some 2 ∧ w.Suspends := by
  obtain ⟨w, hw, haw⟩ : ∃ w, machine.step ⟨booted, fun _ => none⟩ .vfork = some w ∧ w.awaits 1 = some 2 := ⟨_, rfl, rfl⟩
  exact ⟨w, haw, (suspended_until_exit (.step (e := .vfork) (.init start_booted) trivial hw)).1⟩

/-- The slot of a child that has exited goes to a thread, which names process 1 for its parent: its exit wakes
    process 1, whose vfork child, process 3, goes on. -/
theorem woken_by_thread : ∃ w : Watch, machine.Run Machine.any ⟨booted, fun _ => none⟩
      [.cfork 0x72 0, .tick, .exit, .clone, .vfork, .tick, .exit] w ∧
    w.awaits 1 = some 3 ∧ (w.table.ctxList 3).state = .running ∧ (w.table.ctxList 1).state = .ready := by
  refine ⟨_, .cons trivial rfl (.cons trivial rfl (.cons trivial rfl (.cons trivial rfl (.cons trivial rfl (.cons trivial rfl
    (.cons trivial rfl (.nil _))))))), ?_, ?_, ?_⟩
  · decide +kernel
  · decide +kernel
  · decide +kernel

end Watch

end Cs330.Proc
