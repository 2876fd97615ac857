/-
  Cs330.Proc.Alarm — the alarm of a process.

  do_sleep_and_alarm_account counts `ticks_to_alarm` down at the ticks that find the process
  running, raises SIGALRM when it comes to 0 and begins again with `alarm_config_time`. A
  fork, a vfork and a clone hand both on to the child, and an exit takes them out of use.

  Proved: `alarms_exact`. Between two of its own calls of alarm a process has its SIGALRM at
  every n-th tick of its own, whatever else happens in the system, handlers or not: in m
  ticks invoke_sync_signal is called `(m + n - left) / n` times with SIGALRM for it, when
  `left` were to go at the start, and each of these ticks takes it into its handler, if it
  has one. `rung` tells these ticks by the counter (`step_alarms`).
-/
import Cs330.Proc.Own

namespace Cs330.Proc

open Lib Mm Function

namespace Kernel

/-- A tick that finds process `p` running. -/
def ticked (p : Nat) (k : Kernel) : Ev → Nat
  | .tick => if k.table.current = some p then 1 else 0
  | _ => 0

/-- How often invoke_sync_signal has been called with SIGALRM for process `p`. -/
def alarms (p : Nat) (k : Kernel) : Nat := k.raised.count (p, .alrm)

/-- A tick that takes its counter to 0. -/
def rung (p : Nat) (k : Kernel) : Ev → Nat
  | .tick => if k.table.current = some p ∧ (k.task p).ticksToAlarm = 1 then 1 else 0
  | _ => 0

/-- The process is there after the event, which is not a call of alarm by it. -/
def Leaves (p : Nat) (k : Kernel) (e : Ev) : Prop :=
  k.Buries e ∧ (∀ k', k.step e = some k' → k'.Live p) ∧ (k.table.current = some p → ∀ ticks, e ≠ .alarm ticks)

section
variable {k k' : Kernel} {p : Nat} {e : Ev} {es : List Ev}

/-! ## The signals -/

theorem raised_doExit (k : Kernel) (pid : Nat) : (k.doExit pid).raised = k.raised := by
  unfold doExit
  simp only
  split
  · rfl
  · rfl

theorem raised_invoke (k : Kernel) (pid : Nat) (signo : Signal) (regs : UserRegs) :
    (k.invokeSyncSignal pid signo regs).1.raised = k.raised ++ [(pid, signo)] := by
  unfold invokeSyncSignal
  simp only
  split
  · exact raised_doExit _ _
  split
  · rfl
  · rfl

theorem raised_raise (k : Kernel) (pid : Nat) (signo : Signal) : (k.raise pid signo).raised = k.raised ++ [(pid, signo)] := by
  rw [← raised_invoke k pid signo k.cpu]
  unfold raise
  simp only
  split
  · rfl
  · rfl

theorem raised_alarm (k : Kernel) (pid : Nat) (regs : UserRegs) : (k.alarmAccount pid regs).1.raised =
    k.raised ++ if (k.task pid).ticksToAlarm = 1 then [(pid, .alrm)] else [] := by
  unfold alarmAccount
  simp only
  by_cases h1 : (k.task pid).ticksToAlarm = 1
  · rw [h1, if_pos (by decide), if_pos (by decide), if_pos rfl]
    exact raised_invoke k pid .alrm regs
  · rw [if_neg h1, List.append_nil]
    split
    · have hne : (k.task pid).ticksToAlarm - 1 ≠ 0 := by grind
      rw [if_neg hne]
      rfl
    · rfl

theorem raised_tick (k : Kernel) (pid : Nat) : (k.handleTimerTick pid).raised =
    k.raised ++ if (k.task pid).ticksToAlarm = 1 then [(pid, .alrm)] else [] := by
  rw [← raised_alarm ({ k with table := k.table.doSleepAccount }) pid k.cpu]
  unfold handleTimerTick
  simp only
  split
  · rfl
  · rfl

/-- SIGALRM is raised by a tick that takes the counter to 0, and nothing else. -/
theorem step_alarms (hs : k.step e = some k') : k'.alarms p = k.alarms p + k.rung p e := by
  have hother : ∀ {pid signo}, signo ≠ Signal.alrm → (k.raise pid signo).alarms p = k.alarms p := by
    intro pid signo hne
    unfold alarms
    rw [raised_raise, List.count_append, List.count_cons_of_ne (fun he => hne (congrArg Prod.snd he)), List.count_nil]
    rfl
  cases e with
  | user regs =>
    obtain ⟨pid, -, rfl⟩ := Option.map_eq_some_iff.mp hs
    rfl
  | tick =>
    obtain ⟨pid, hcur, rfl⟩ := Option.map_eq_some_iff.mp hs
    unfold alarms rung
    rw [raised_tick, List.count_append]
    by_cases hp : pid = p
    · subst hp
      by_cases h1 : (k.task pid).ticksToAlarm = 1
      · rw [if_pos h1, if_pos ⟨hcur, h1⟩, List.count_singleton_self]
      · rw [if_neg h1, if_neg fun h => h1 h.2, List.count_nil]
    · have hno : ¬ (k.table.current = some p ∧ (k.task p).ticksToAlarm = 1) :=
        fun h => hp (Option.some.inj (hcur.symm.trans h.1))
      rw [if_neg hno]
      split
      · rw [List.count_cons_of_ne (fun he => hp (congrArg Prod.fst he)), List.count_nil]
      · rfl
  | exit =>
    obtain ⟨pid, -, rfl⟩ := Option.map_eq_some_iff.mp hs
    exact congrArg (List.count (p, .alrm)) (raised_doExit _ _)
  | sleep ticks =>
    obtain ⟨pid, -, rfl⟩ := Option.map_eq_some_iff.mp hs
    rfl
  | fork pgd =>
    obtain ⟨pid, -, hs⟩ := Option.bind_eq_some_iff.mp hs
    obtain ⟨r, hr, rfl⟩ := Option.map_eq_some_iff.mp hs
    obtain ⟨x, -, rfl⟩ := Option.map_eq_some_iff.mp hr
    rfl
  | cfork pgd vmArea =>
    obtain ⟨pid, -, hs⟩ := Option.bind_eq_some_iff.mp hs
    obtain ⟨r, hr, rfl⟩ := Option.map_eq_some_iff.mp hs
    obtain ⟨x, -, rfl⟩ := Option.map_eq_some_iff.mp hr
    rfl
  | vfork =>
    obtain ⟨pid, -, hs⟩ := Option.bind_eq_some_iff.mp hs
    obtain ⟨child, -, rfl⟩ := Option.map_eq_some_iff.mp hs
    rfl
  | clone thFunc userStack =>
    obtain ⟨pid, -, hs⟩ := Option.bind_eq_some_iff.mp hs
    obtain ⟨r, hr, rfl⟩ := Option.map_eq_some_iff.mp hs
    obtain ⟨x, -, rfl⟩ := Option.map_eq_some_iff.mp hr
    rfl
  | signal signo handler =>
    obtain ⟨pid, -, rfl⟩ := Option.map_eq_some_iff.mp hs
    unfold doSignal
    split <;> rfl
  | alarm ticks =>
    obtain ⟨pid, -, rfl⟩ := Option.map_eq_some_iff.mp hs
    unfold doAlarm
    split <;> rfl
  | getpid =>
    obtain ⟨pid, -, rfl⟩ := Option.map_eq_some_iff.mp hs
    rfl
  | call ret code rodata data stack vmArea =>
    obtain ⟨pid, -, rfl⟩ := Option.map_eq_some_iff.mp hs
    rfl
  | fault code rodata data stack vmArea =>
    obtain ⟨pid, -, rfl⟩ := Option.map_eq_some_iff.mp hs
    rfl
  | segv =>
    obtain ⟨pid, -, rfl⟩ := Option.map_eq_some_iff.mp hs
    exact hother (by decide)
  | divByZero =>
    obtain ⟨pid, -, rfl⟩ := Option.map_eq_some_iff.mp hs
    exact hother (by decide)
  | gp =>
    obtain ⟨pid, -, rfl⟩ := Option.map_eq_some_iff.mp hs
    exact congrArg (List.count (p, .alrm)) (raised_doExit _ _)

/-- And so in a run. -/
theorem run_alarms {ok : Kernel → Ev → Prop} (hr : machine.Run ok k es k') :
    k'.alarms p = k.alarms p + machine.worth (rung p) k es := by
  induction hr with
  | nil => rfl
  | @cons k m k' e es _ he _ ih =>
    have hstep : machine.step k e = some m := he
    rw [ih, step_alarms he, Machine.worth, hstep, Option.elim_some]
    exact Nat.add_assoc ..

/-! ## The clock -/

/-- An alarm of `n` ticks is set. -/
structure Set (p : Nat) (n : UInt32) (k : Kernel) : Prop where
  config : (k.task p).alarmConfigTime = n
  pos : 0 < (k.task p).ticksToAlarm.toNat
  le : (k.task p).ticksToAlarm.toNat ≤ n.toNat

theorem own_task (hl : k.Live p) : k.own.proc p = some { k.task p with regs := k.registers p } := if_neg hl

theorem task_of_own {c : Task} (hl : k.Live p) (h : k.own.proc p = some c) :
    (k.task p).alarmConfigTime = c.alarmConfigTime ∧ (k.task p).ticksToAlarm = c.ticksToAlarm := by
  rw [own_task hl] at h
  cases h
  exact ⟨rfl, rfl⟩

/-- What a step makes of the alarm of `p`. -/
theorem step_clock (h : k.table.Ordered) (hl : k.Live p) (ho : k.Leaves p e) (hs : k.step e = some k') :
    (k'.task p).alarmConfigTime = (k.task p).alarmConfigTime ∧
      (k'.task p).ticksToAlarm =
        if k.ticked p e = 0 ∨ (k.task p).ticksToAlarm = 0 then (k.task p).ticksToAlarm
        else if (k.task p).ticksToAlarm = 1 then (k.task p).alarmConfigTime else (k.task p).ticksToAlarm - 1 := by
  obtain ⟨hb, hlive, hno⟩ := ho
  have hl' : k'.Live p := hlive k' hs
  have hc := own_task hl
  have hc' := own_task hl'
  obtain ⟨pid, hcur, htook⟩ := Own.step_took (step_own h hb hs) fun _ => h.current_live
  have hcur : k.table.current = some pid := hcur
  by_cases hp : p = pid
  · subst hp
    have hclock := htook.clock _ _ hc hc'
    cases e with
    | tick =>
      have hone : k.ticked p .tick = 1 := if_pos hcur
      obtain ⟨hconf, hleft⟩ := hclock
      refine ⟨hconf, hleft.trans ?_⟩
      simp only [hone]
      grind
    | alarm ticks => exact absurd rfl (hno hcur ticks)
    | _ => exact ⟨hclock.1, by rw [if_pos (.inl rfl)]; exact hclock.2⟩
  · have hsame := htook.others p hp fun child hnew he => hl (he ▸ (Table.getNewCtx_spec hnew).2)
    obtain ⟨h1, h2⟩ := task_of_own hl' (hsame.trans hc)
    have hzero : k.ticked p e = 0 := by
      unfold ticked
      split
      · exact if_neg fun hcp => hp (Option.some.inj (hcp.symm.trans hcur))
      · rfl
    exact ⟨h1, by rw [if_pos (.inl hzero)]; exact h2⟩

theorem rung_eq (k : Kernel) (p : Nat) (e : Ev) :
    k.rung p e = if k.ticked p e = 1 ∧ (k.task p).ticksToAlarm = 1 then 1 else 0 := by
  unfold rung ticked
  split
  · by_cases hc : k.table.current = some p <;> simp [hc]
  · rfl

theorem ticked_le (k : Kernel) (p : Nat) (e : Ev) : k.ticked p e = 0 ∨ k.ticked p e = 1 := by
  unfold ticked
  split
  · split <;> simp
  · exact .inl rfl

/-- A tick takes one from what is left, and a signal gives `n` back. -/
theorem step_set {n : UInt32} (h : k.table.Ordered) (hl : k.Live p) (hset : k.Set p n) (ho : k.Leaves p e) (hs : k.step e = some k') :
    k'.Set p n ∧ (k'.task p).ticksToAlarm.toNat + k.ticked p e = (k.task p).ticksToAlarm.toNat + n.toNat * k.rung p e := by
  obtain ⟨hconf, hleft⟩ := step_clock h hl ho hs
  obtain ⟨hn, hpos, hle⟩ := hset
  have h0 : (k.task p).ticksToAlarm ≠ 0 := by
    intro he
    rw [he] at hpos
    exact absurd hpos (by decide)
  rw [rung_eq]
  rcases ticked_le k p e with ht | ht
  · rw [if_pos (.inl ht)] at hleft
    rw [ht, hleft]
    exact ⟨⟨hconf.trans hn, by rwa [hleft], by rwa [hleft]⟩, by simp⟩
  · rw [if_neg (by simp [ht, h0])] at hleft
    rw [ht]
    by_cases h1 : (k.task p).ticksToAlarm = 1
    · rw [if_pos h1] at hleft
      rw [if_pos ⟨rfl, h1⟩, hleft, hn, h1]
      refine ⟨⟨hconf.trans hn, ?_, ?_⟩, ?_⟩
      · rw [hleft, hn]
        omega
      · rw [hleft, hn]
      · have hone : (1 : UInt32).toNat = 1 := rfl
        omega
    · rw [if_neg h1] at hleft
      rw [if_neg (fun h => h1 h.2), hleft]
      have hsub : ((k.task p).ticksToAlarm - 1).toNat = (k.task p).ticksToAlarm.toNat - 1 := by
        rw [UInt32.toNat_sub_of_le]
        · rfl
        · exact UInt32.le_iff_toNat_le.mpr hpos
      have hne : (k.task p).ticksToAlarm.toNat ≠ 1 := fun he => h1 (UInt32.toNat_inj.mp he)
      refine ⟨⟨hconf.trans hn, ?_, ?_⟩, ?_⟩
      · rw [hleft]
        omega
      · rw [hleft]
        omega
      · omega

theorem alarm_handled {o : Own} {c : Task} (hc : o.proc p = some c) (h1 : c.ticksToAlarm = 1) (hh : c.sighandlers .alrm ≠ 0) :
    (o.alarm p).proc p = some { c with
        regs := { c.regs with entryRsp := c.regs.entryRsp - 8, entryRip := c.sighandlers .alrm }
        ticksToAlarm := c.alarmConfigTime } ∧
      (o.alarm p).pushed = o.pushed ++ [⟨(o.table.ctxList p).pgd, c.regs.entryRsp - 8, c.regs.entryRip⟩] := by
  have h0 : c.ticksToAlarm ≠ 0 := by
    rw [h1]
    decide
  have halarm : o.alarm p = (o.handle p (c.sighandlers .alrm)).change p fun c => { c with ticksToAlarm := c.alarmConfigTime } := by
    unfold Own.alarm
    rw [hc]
    simp only
    rw [if_neg h0, if_pos h1, if_neg hh]
  rw [halarm]
  unfold Own.handle
  rw [hc]
  refine ⟨?_, rfl⟩
  rw [Own.change_self]
  simp only [Own.setRegs, Own.change_self, hc, Option.map_some]

/-- The tick that raises the signal takes the process into its handler, with where it was on its stack. -/
theorem tick_handled (h : k.table.Ordered) (hcur : k.table.current = some p) (h1 : (k.task p).ticksToAlarm = 1)
    (hh : (k.task p).sighandlers .alrm ≠ 0) (hs : k.step .tick = some k') :
    k'.registers p = { k.cpu with entryRsp := k.cpu.entryRsp - 8, entryRip := (k.task p).sighandlers .alrm } ∧
      k'.pushed = k.pushed ++ [⟨(k.table.ctxList p).pgd, k.cpu.entryRsp - 8, k.cpu.entryRip⟩] := by
  obtain ⟨hproc, hpushed⟩ := alarm_handled (own_cpu hcur (h.current_live hcur)) h1 hh
  have hstep : k.own.step .tick = some { k.own.alarm p with table := k.table.handleTimerTick p } :=
    congrArg (Option.map fun pid => ({ k.own.alarm pid with table := k.table.handleTimerTick pid } : Own)) hcur
  have hown := Option.some.inj ((step_own h (fun _ _ => trivial) hs).symm.trans hstep)
  have hproc' := (congrFun (congrArg Own.proc hown) p).trans hproc
  have hl : k'.Live p := by
    intro hun
    rw [own_dead hun] at hproc'
    cases hproc'
  rw [own_task hl] at hproc'
  exact ⟨congrArg Task.regs (Option.some.inj hproc'), (congrArg Own.pushed hown).trans hpushed⟩

/-- Of its own ticks every n-th raises the signal, and takes the process into its handler if it has one. -/
theorem alarms_exact (h : k.table.Ordered) (hl : k.Live p) {n : UInt32} (hset : k.Set p n)
    (hr : machine.Run (Leaves p) k es k') :
    k'.Set p n ∧ (k'.task p).ticksToAlarm.toNat + machine.worth (ticked p) k es + n.toNat * k.alarms p =
        (k.task p).ticksToAlarm.toNat + n.toNat * k'.alarms p ∧
      k'.alarms p = k.alarms p + (machine.worth (ticked p) k es + n.toNat - (k.task p).ticksToAlarm.toNat) / n.toNat ∧
      ∀ k'', k'.step .tick = some k'' → k'.table.current = some p → (k'.task p).ticksToAlarm = 1 →
        k''.alarms p = k'.alarms p + 1 ∧ ((k'.task p).sighandlers .alrm ≠ 0 →
          k''.registers p =
              { k'.cpu with entryRsp := k'.cpu.entryRsp - 8, entryRip := (k'.task p).sighandlers .alrm } ∧
            k''.pushed = k'.pushed ++ [⟨(k'.table.ctxList p).pgd, k'.cpu.entryRsp - 8, k'.cpu.entryRip⟩]) := by
  obtain ⟨⟨hord', -, hset'⟩, hbal⟩ := hr.balance (I := fun k => k.table.Ordered ∧ k.Live p ∧ k.Set p n)
    (fun k => (k.task p).ticksToAlarm.toNat) (ticked p) (fun k e => n.toNat * k.rung p e)
    (fun k e k' hi ho hs => by
      obtain ⟨hord, hlive, hset⟩ := hi
      obtain ⟨hset', heq⟩ := step_set hord hlive hset ho hs
      exact ⟨⟨step_ordered hord ho.1 hs, ho.2.1 k' hs, hset'⟩, heq⟩)
    ⟨h, hl, hset⟩
  rw [Machine.worth_mul] at hbal
  have hpos := hset'.pos
  have hle := hset'.le
  have hle0 := hset.le
  have hrung : machine.worth (rung p) k es =
      (machine.worth (ticked p) k es + n.toNat - (k.task p).ticksToAlarm.toNat) / n.toNat := by
    symm
    rw [Nat.div_eq_iff (Nat.lt_of_lt_of_le hpos hle), Nat.mul_comm]
    omega
  refine ⟨hset', ?_, (run_alarms hr).trans (congrArg (k.alarms p + ·) hrung), fun k'' hs hcur h1 => ⟨?_, fun hh => ?_⟩⟩
  · rw [run_alarms hr, Nat.mul_add]
    omega
  · rw [step_alarms hs]
    exact congrArg (k'.alarms p + ·) (if_pos ⟨hcur, h1⟩)
  · exact tick_handled hord' hcur h1 hh hs

/-- The first process has set an alarm of 2, and a handler. -/
def ringing : Kernel := (((boot.enter 1).doSignal 2 0x100000400 1).2.doAlarm 2 1).2.leave 0

theorem leaves_tick (hl : (k.handleTimerTick 1).Live 1) (hcur : k.table.current = some 1) : Leaves 1 k .tick := by
  refine ⟨fun _ _ => trivial, fun k' hs => ?_, fun _ _ he => Ev.noConfusion he⟩
  unfold step at hs
  simp only [hcur] at hs
  exact Option.some.inj hs ▸ hl

/-- Of four ticks the second and the fourth ring, and the process goes on in its handler. -/
theorem alarms_exact_two : ∃ k k' : Kernel, machine.Run (Leaves 1) ringing [.tick, .tick, .tick] k ∧ k.Set 1 2 ∧
    k.raised = [(1, .alrm)] ∧ k.alarms 1 = ringing.alarms 1 + (3 + 2 - 2) / 2 ∧
    k.step .tick = some k' ∧ k'.alarms 1 = k.alarms 1 + 1 ∧ (k'.registers 1).entryRip = 0x100000400 ∧ k'.pushed.length = 2 := by
  have hset : ringing.Set 1 2 := ⟨rfl, by decide, by decide⟩
  have hrun : machine.Run (Leaves 1) ringing [.tick, .tick, .tick] (((ringing.handleTimerTick 1).handleTimerTick 1).handleTimerTick 1) :=
    .cons (leaves_tick (by decide) rfl) rfl
      (.cons (leaves_tick (by decide) rfl) rfl (.cons (leaves_tick (by decide) rfl) rfl (.nil _)))
  obtain ⟨hset', -, hcount, hnext⟩ := alarms_exact (k := ringing) (p := 1) boot_start.ordered (by decide) hset hrun
  obtain ⟨hone, hhandler⟩ := hnext _ rfl rfl rfl
  obtain ⟨hregs, hpushed⟩ := hhandler (by decide)
  refine ⟨_, _, hrun, hset', rfl, hcount, rfl, hone, ?_, ?_⟩
  · rw [hregs]
    rfl
  · rw [hpushed]
    rfl

end

end Kernel

end Cs330.Proc
