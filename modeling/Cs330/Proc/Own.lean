/-
  Cs330.Proc.Own — processes with registers of their own, on one processor.

  `Own` is what saving and loading registers is for: every process has its own, with its
  handlers and its alarm, and a step changes those of the process that takes it, and of one
  that it makes. `Kernel.own` reads such a system off the kernel: a process has what the
  processor holds when it has the turn, and what is saved otherwise.

  Proved, for all runs in which no exit wakes a slot that nobody is in (`Kernel.Buries`; it
  would go on from whatever registers the slot was left with):
  - `own_run`: the kernel runs as such a system does, with every tick, call, signal and exit, and
    loads the registers it has saved.
  - `idle_kept`: while others have the turn nothing of a process changes, so that it goes on with
    exactly the registers it had.
-/
import Cs330.Proc.Fair
import Cs330.Proc.Registers

namespace Cs330.Proc

open Lib Mm Function

/-! ## What it is for -/

/-- Processes with registers of their own. -/
@[ext] structure Own where
  table : Table
  /-- Nobody is in a slot that is UNUSED. -/
  proc : Nat → Option Task
  pushed : List Pushed

namespace Own

variable (o : Own)

/-- Process `pid` changes, and nobody else. -/
def change (pid : Nat) (f : Task → Task) : Own := { o with proc := update o.proc pid ((o.proc pid).map f) }

def setRegs (pid : Nat) (f : UserRegs → UserRegs) : Own := o.change pid fun c => { c with regs := f c.regs }

/-- The process goes on in its handler, which returns to where it was. -/
def handle (pid : Nat) (handler : UInt64) : Own :=
  match o.proc pid with
  | some c =>
    { o.setRegs pid fun regs => { regs with entryRsp := regs.entryRsp - 8, entryRip := handler } with
      pushed := o.pushed ++ [⟨(o.table.ctxList pid).pgd, c.regs.entryRsp - 8, c.regs.entryRip⟩] }
  | none => o

def exit (pid : Nat) : Own := { o with table := o.table.doExit pid, proc := update o.proc pid none }

/-- A signal that ends the process unless it has a handler. -/
def raise (pid : Nat) (signo : Signal) : Own :=
  match o.proc pid with
  | some c => if c.sighandlers signo = 0 then o.exit pid else o.handle pid (c.sighandlers signo)
  | none => o

/-- One tick of the alarm, which is ignored without a handler. -/
def alarm (pid : Nat) : Own :=
  match o.proc pid with
  | some c =>
    if c.ticksToAlarm = 0 then o
    else if c.ticksToAlarm = 1 then
      (if c.sighandlers .alrm = 0 then o else o.handle pid (c.sighandlers .alrm)).change pid fun c =>
        { c with ticksToAlarm := c.alarmConfigTime }
    else o.change pid fun c => { c with ticksToAlarm := c.ticksToAlarm - 1 }
  | none => o

def returns (pid : Nat) (ret : UInt64) : Own := o.setRegs pid fun regs => { regs with rax := ret }

/-- A new process, made from the one that calls. -/
def make (pid : Nat) (f : Task → Task) (ret : UInt64) (child : Nat) (t : Table) : Own :=
  ({ o with table := t, proc := update o.proc child ((o.proc pid).map f) } : Own).returns pid ret

def step (o : Own) : Kernel.Ev → Option Own
  | .user regs => o.table.current.map fun pid => o.setRegs pid fun _ => regs
  | .tick => o.table.current.map fun pid => { o.alarm pid with table := o.table.handleTimerTick pid }
  | .exit | .gp => o.table.caller.map o.exit
  | .sleep ticks => o.table.caller.map fun pid => { o with table := o.table.doSleep ticks pid }
  | .fork pgd => o.table.caller.bind fun pid => (o.table.doFork pgd pid).map fun (child, t) =>
    o.make pid id (.ofNat child) child t
  | .cfork pgd vmArea => o.table.caller.bind fun pid => (o.table.doCfork pgd vmArea pid).map fun (child, t) =>
    o.make pid id (.ofNat child) child t
  | .vfork => o.table.caller.bind fun pid => (o.table.doVfork pid).map fun (child, t) =>
    let offset := vforkOffset (o.table.ctxList pid).stack
    o.make pid (fun c => { c with regs := Kernel.vforkRegs c.regs (.ofNat offset) }) (.ofNat child) child t
  | .clone thFunc userStack => o.table.caller.bind fun pid => (o.table.doClone pid).map fun (child, t) =>
    o.make pid (fun c => { c with regs := { c.regs with entryRip := thFunc, entryRsp := userStack, rbp := userStack } }) 0 child t
  | .signal signo handler => o.table.caller.map fun pid =>
    match Signal.ofInt signo with
    | some sig => (o.change pid fun c => { c with sighandlers := update c.sighandlers sig handler }).returns pid 0
    | none => o.returns pid (retval (-1))
  | .alarm ticks => o.table.caller.map fun pid =>
    if 0 < ticks then (o.change pid fun c => { c with alarmConfigTime := ticks, ticksToAlarm := ticks }).returns pid 0
    else o.returns pid (retval (-1))
  | .getpid => o.table.caller.map fun pid => o.returns pid (.ofNat pid)
  | .call ret code rodata data stack vmArea => o.table.caller.map fun pid =>
    ({ o with table := o.table.remap code rodata data stack vmArea pid } : Own).returns pid ret
  | .fault code rodata data stack vmArea => o.table.caller.map fun pid =>
    { o with table := o.table.remap code rodata data stack vmArea pid }
  | .segv => o.table.caller.map fun pid => o.raise pid .segv
  | .divByZero => o.table.caller.map fun pid => o.raise pid .fpe

def machine : Machine Own Kernel.Ev := ⟨fun o => o.table.Start, step⟩

end Own

/-! ## Slots that nobody is in -/

namespace Table

variable {t : Table} {pid i : Nat} {c : Context}

theorem unused_setCtx (h : c.state = .unused ↔ (t.ctxList pid).state = .unused) (i : Nat) :
    ((t.setCtx pid c).ctxList i).state = .unused ↔ (t.ctxList i).state = .unused := by
  by_cases he : i = pid
  · rw [he, setCtx_self]
    exact h
  · rw [setCtx_ne he]

theorem unused_setState (hl : (t.ctxList pid).state ≠ .unused) {state : ProcState} (hs : state ≠ .unused) (i : Nat) :
    ((t.setState pid state).ctxList i).state = .unused ↔ (t.ctxList i).state = .unused :=
  unused_setCtx ⟨fun h => absurd h hs, fun h => absurd h hl⟩ i

theorem unused_schedule (hl : (t.ctxList pid).state ≠ .unused) (i : Nat) :
    ((t.schedule pid).ctxList i).state = .unused ↔ (t.ctxList i).state = .unused := unused_setState hl ProcState.noConfusion i

theorem unused_sleepAccount (t : Table) (i : Nat) :
    (t.doSleepAccount.ctxList i).state = .unused ↔ (t.ctxList i).state = .unused := by
  show (sleepAccount (t.ctxList i)).state = .unused ↔ _
  rcases sleepAccount_cases (t.ctxList i) with hs | ⟨hw, -, hs⟩
  · rw [hs]
  · rw [hs, hw]
    simp only
    split <;> simp

theorem pick_live (hsw : (t.ctxList 0).state ≠ .unused) (pid : Nat) : (t.ctxList (t.pickNextContext pid)).state ≠ .unused := by
  rcases pickNextContext_spec t pid with h0 | hr
  · rw [h0]
    exact hsw
  · rw [hr]
    exact ProcState.noConfusion

theorem Ordered.swapper_live (h : t.Ordered) : (t.ctxList 0).state ≠ .unused := by
  rcases h.swapper with hs | hs <;> rw [hs] <;> exact ProcState.noConfusion

theorem Ordered.current_live (h : t.Ordered) (hcur : t.current = some pid) : (t.ctxList pid).state ≠ .unused := by
  rcases h.current pid hcur with hs | hs <;> rw [hs] <;> exact ProcState.noConfusion

/-- Ready again, and the turn to the one that is picked. -/
theorem unused_pick (hl : (t.ctxList pid).state ≠ .unused) (hsw : (t.ctxList 0).state ≠ .unused) {state : ProcState}
    (hs : state ≠ .unused) (turn : Nat) (i : Nat) :
    (((t.setState pid state).schedule ((t.setState pid state).pickNextContext turn)).ctxList i).state = .unused ↔
      (t.ctxList i).state = .unused := by
  have hsw' : ((t.setState pid state).ctxList 0).state ≠ .unused := fun h => hsw ((unused_setState hl hs 0).mp h)
  exact (unused_schedule (pick_live hsw' turn) i).trans (unused_setState hl hs i)

/-- An exit of `pid` wakes nobody but a process. -/
def Buries (t : Table) (pid : Nat) : Prop :=
  (t.ctxList (t.ctxList pid).ppid).pgd = (t.ctxList pid).pgd → (t.ctxList (t.ctxList pid).ppid).state ≠ .unused

theorem unused_vforkExitHandle (hb : t.Buries pid) (i : Nat) :
    ((t.vforkExitHandle pid).ctxList i).state = .unused ↔ (t.ctxList i).state = .unused := by
  unfold vforkExitHandle
  simp only
  split
  · rfl
  · rename_i hpgd
    exact unused_setCtx ⟨fun h => ProcState.noConfusion h, fun h => absurd h (hb (not_not.mp hpgd))⟩ i

theorem unused_remap (code rodata data stack : MmSegment) (vmArea i : Nat) :
    ((t.remap code rodata data stack vmArea pid).ctxList i).state = .unused ↔ (t.ctxList i).state = .unused := by
  refine unused_setCtx ?_ i
  exact Iff.rfl

/-- After an exit nobody is in the slot, and the others are as before. -/
theorem unused_doExit (hsw : (t.ctxList 0).state ≠ .unused) (h0 : pid ≠ 0) (hb : t.Buries pid) :
    ((t.doExit pid).ctxList pid).state = .unused ∧
      ∀ i, i ≠ pid → (((t.doExit pid).ctxList i).state = .unused ↔ (t.ctxList i).state = .unused) := by
  obtain ⟨v, hv⟩ : ∃ v, v = (t.vforkExitHandle pid).setState pid .unused := ⟨_, rfl⟩
  have hself : (v.ctxList pid).state = .unused := by rw [hv, setState_self]
  have hother : ∀ i, i ≠ pid → ((v.ctxList i).state = .unused ↔ (t.ctxList i).state = .unused) := by
    intro i hi
    rw [hv, setState_ne hi]
    exact unused_vforkExitHandle hb i
  have hexit : t.doExit pid = if ∀ i ∈ List.range MAX_PROCESSES, i ≠ 0 → (v.ctxList i).state = .unused then
      { v with current := none } else v.schedule (v.pickNextContext pid) := by
    rw [hv]
    rfl
  rw [hexit]
  split
  · exact ⟨hself, hother⟩
  · have hpick := pick_live (t := v) (fun hw => hsw ((hother 0 (Ne.symm h0)).mp hw)) pid
    exact ⟨(unused_schedule hpick pid).mpr hself, fun i hi => (unused_schedule hpick i).trans (hother i hi)⟩

end Table

/-! ## The kernel as such a system -/

namespace Kernel

def Live (k : Kernel) (p : Nat) : Prop := (k.table.ctxList p).state ≠ .unused

instance (k : Kernel) (p : Nat) : Decidable (k.Live p) := inferInstanceAs (Decidable (_ ≠ _))

/-- The registers of a process: the processor's, or those saved. -/
def registers (k : Kernel) (p : Nat) : UserRegs := if k.table.current = some p then k.cpu else (k.task p).regs

def own (k : Kernel) : Own where
  table := k.table
  proc p := if (k.table.ctxList p).state = .unused then none else some { k.task p with regs := k.registers p }
  pushed := k.pushed

section
variable {k k' : Kernel} {o : Own} {pid p child : Nat}

theorem own_eq (ht : k.table = o.table) (hp : ∀ p, k.own.proc p = o.proc p) (hq : k.pushed = o.pushed) : k.own = o :=
  Own.ext ht (funext hp) hq

theorem own_cpu (hcur : k.table.current = some p) (hl : k.Live p) : k.own.proc p = some { k.task p with regs := k.cpu } := by
  unfold own registers
  simp only
  rw [if_neg hl, if_pos hcur]

theorem own_dead (hl : (k.table.ctxList p).state = .unused) : k.own.proc p = none := if_pos hl

theorem own_saved (hr : k.registers p = (k.task p).regs) (hl : k.Live p) : k.own.proc p = some (k.task p) := by
  unfold own
  simp only
  rw [if_neg hl, hr]

theorem own_same {q : Kernel} (hr : k.registers p = (k.task p).regs) (hr' : q.registers p = (q.task p).regs) (ht : q.task p = k.task p)
    (hl : (q.table.ctxList p).state = .unused ↔ (k.table.ctxList p).state = .unused) : q.own.proc p = k.own.proc p := by
  unfold own
  simp only [hr, hr', ht, hl]

theorem registers_other (hcur : k.table.current = some pid) (hp : p ≠ pid) : k.registers p = (k.task p).regs :=
  if_neg fun h => hp (Option.some.inj (h.symm.trans hcur))

/-- After a switch the processor holds what is saved. -/
theorem registers_switched (h : ∀ p, k.table.current = some p → k.cpu = (k.task p).regs) (p : Nat) :
    k.registers p = (k.task p).regs := by
  unfold registers
  split
  · rename_i hc
    exact h p hc
  · rfl

/-! ## Steps in which the turn stays -/

/-- Everybody else is as before. -/
theorem stays_eq {q : Kernel} (hcur : k.table.current = some pid) (hcur' : q.table.current = some pid) (hl : q.Live pid)
    (hp : p ≠ pid → q.task p = k.task p ∧ ((q.table.ctxList p).state = .unused ↔ (k.table.ctxList p).state = .unused)) :
    q.own.proc p = update k.own.proc pid (some { q.task pid with regs := q.cpu }) p := by
  by_cases he : p = pid
  · rw [he, update_self]
    exact own_cpu hcur' hl
  · rw [update_of_ne he]
    exact own_same (registers_other hcur he) (registers_other hcur' he) (hp he).1 (hp he).2

theorem own_setTask_self (hcur : k.table.current = some pid) (hl : k.Live pid) (c : Task) (cpu : UserRegs) :
    ({ k.setTask pid c with cpu := cpu } : Kernel).own = { k.own with proc := update k.own.proc pid (some { c with regs := cpu }) } := by
  refine own_eq rfl (fun p => ?_) rfl
  refine (stays_eq (q := { k.setTask pid c with cpu := cpu }) hcur hcur hl fun he => ⟨update_of_ne he .., Iff.rfl⟩).trans ?_
  simp only [setTask, update_self]

theorem own_enter (hcur : k.table.current = some pid) (hl : k.Live pid) : (k.enter pid).own = k.own := by
  refine (own_setTask_self hcur hl { k.task pid with regs := k.cpu } k.cpu).trans ?_
  rw [update_eq_self_iff.mpr]
  exact (own_cpu hcur hl).symm

theorem own_setCpu (hcur : k.table.current = some pid) (hl : k.Live pid) (f : UserRegs → UserRegs) :
    ({ k with cpu := f k.cpu } : Kernel).own = k.own.setRegs pid f := by
  refine own_eq rfl (fun p => ?_) rfl
  refine (stays_eq (q := { k with cpu := f k.cpu }) hcur hcur hl fun he => ⟨rfl, Iff.rfl⟩).trans ?_
  simp only [Own.setRegs, Own.change, own_cpu hcur hl, Option.map_some]

theorem own_leave (hcur : k.table.current = some pid) (hl : k.Live pid) (ret : UInt64) : (k.leave ret).own = k.own.returns pid ret :=
  own_setCpu hcur hl fun regs => { regs with rax := ret }

/-- A process changes what its context holds besides the registers. -/
theorem own_setTask (hcur : k.table.current = some pid) (hl : k.Live pid) (f : Task → Task)
    (hf : ∀ c regs, f { c with regs := regs } = { f c with regs := regs }) :
    (k.setTask pid (f (k.task pid))).own = k.own.change pid f := by
  refine (own_setTask_self hcur hl (f (k.task pid)) k.cpu).trans ?_
  have hself : some { f (k.task pid) with regs := k.cpu } = (k.own.proc pid).map f := by
    rw [own_cpu hcur hl]
    exact congrArg some (hf (k.task pid) k.cpu).symm
  rw [hself]
  rfl

/-- The address space of the process changes, or its place in the table. -/
theorem own_retable (hcur : k.table.current = some pid) {t : Table} (hcur' : t.current = some pid)
    (hun : ∀ p, (t.ctxList p).state = .unused ↔ (k.table.ctxList p).state = .unused) :
    ({ k with table := t } : Kernel).own = { k.own with table := t } := by
  refine own_eq rfl (fun p => ?_) rfl
  by_cases he : p = pid
  · unfold own registers
    simp only [he, hun, hcur, hcur']
  · exact own_same (q := { k with table := t }) (registers_other hcur he) (registers_other hcur' he) rfl (hun p)

/-- The turn goes to another whose registers are loaded, when those of the one that had it are saved. -/
theorem own_switch (hcur : k.table.current = some pid) (hsaved : (k.task pid).regs = k.cpu) {t : Table} {cpu : UserRegs}
    (hcpu : ∀ p, t.current = some p → cpu = (k.task p).regs)
    (hun : ∀ p, (t.ctxList p).state = .unused ↔ (k.table.ctxList p).state = .unused) :
    ({ k with table := t, cpu := cpu } : Kernel).own = { k.own with table := t } := by
  refine own_eq rfl (fun p => ?_) rfl
  refine own_same (q := { k with table := t, cpu := cpu }) ?_ (registers_switched hcpu p) rfl (hun p)
  by_cases he : p = pid
  · rw [he, hsaved]
    exact if_pos hcur
  · exact registers_other hcur he

/-- Somebody new in a slot. -/
theorem own_made (hcur : k.table.current = some pid) {t : Table} (hcur' : t.current = some pid) (hne : child ≠ pid)
    (hchild : (t.ctxList child).state ≠ .unused)
    (hun : ∀ p, p ≠ child → ((t.ctxList p).state = .unused ↔ (k.table.ctxList p).state = .unused)) (c : Task) :
    ({ k with table := t, task := update k.task child c } : Kernel).own =
      { k.own with table := t, proc := update k.own.proc child (some c) } := by
  refine own_eq rfl (fun p => ?_) rfl
  simp only
  by_cases he : p = child
  · rw [he, update_self]
    refine (own_saved (k := { k with table := t, task := update k.task child c }) (registers_other hcur' hne) hchild).trans ?_
    simp only [update_self]
  · rw [update_of_ne he]
    unfold own registers
    simp only [hun p he, hcur, hcur', update_of_ne he]

/-! ## Signals -/

theorem own_handle (hcur : k.table.current = some pid) (hl : k.Live pid) (handler : UInt64) :
    ({ k with
        pushed := k.pushed ++ [⟨(k.table.ctxList pid).pgd, k.cpu.entryRsp - 8, k.cpu.entryRip⟩]
        cpu := { k.cpu with entryRsp := k.cpu.entryRsp - 8, entryRip := handler } } : Kernel).own = k.own.handle pid handler := by
  unfold Own.handle
  rw [own_cpu hcur hl]
  simp only
  rw [← own_setCpu hcur hl fun regs => { regs with entryRsp := regs.entryRsp - 8, entryRip := handler }]
  rfl

/-- The alarm's signal, whether it has a handler or not. -/
theorem own_sigalrm (hcur : k.table.current = some pid) (hl : k.Live pid) :
    ({ (k.invokeSyncSignal pid .alrm k.cpu).1 with cpu := (k.invokeSyncSignal pid .alrm k.cpu).2.getD k.cpu } : Kernel).own =
      if (k.task pid).sighandlers .alrm = 0 then k.own else k.own.handle pid ((k.task pid).sighandlers .alrm) := by
  unfold invokeSyncSignal
  simp only [ne_eq, not_true_eq_false, and_false, if_false]
  by_cases h0 : (k.task pid).sighandlers .alrm = 0
  · rw [if_neg (not_not.mpr h0), if_pos h0]
    rfl
  · rw [if_pos h0, if_neg h0]
    exact own_handle hcur hl _

theorem sigalrm_keeps (pid : Nat) (regs : UserRegs) : (k.invokeSyncSignal pid .alrm regs).1.table = k.table ∧
    (k.invokeSyncSignal pid .alrm regs).1.task = k.task := by
  unfold invokeSyncSignal
  simp only [ne_eq, not_true_eq_false, and_false, if_false]
  split
  · exact ⟨rfl, rfl⟩
  · exact ⟨rfl, rfl⟩

theorem alarm_keeps (pid : Nat) (regs : UserRegs) : (k.alarmAccount pid regs).1.table = k.table := by
  unfold alarmAccount
  simp only
  split
  · split
    · exact (sigalrm_keeps pid regs).1
    · rfl
  · rfl

/-- A tick of the alarm is one of the process's own. -/
theorem own_alarm (hcur : k.table.current = some pid) (hl : k.Live pid) :
    ({ (k.alarmAccount pid k.cpu).1 with cpu := (k.alarmAccount pid k.cpu).2 } : Kernel).own = k.own.alarm pid := by
  have hone : ∀ n : UInt32, (0 < n ↔ n ≠ 0) ∧ (n - 1 = 0 ↔ n = 1) := by
    intro n
    constructor <;> grind
  unfold alarmAccount Own.alarm
  rw [own_cpu hcur hl]
  simp only [hone]
  by_cases h0 : (k.task pid).ticksToAlarm = 0
  · rw [if_neg (not_not.mpr h0), if_pos h0]
  · rw [if_pos h0, if_neg h0]
    by_cases h1 : (k.task pid).ticksToAlarm = 1
    · rw [if_pos h1, if_pos h1, ← own_sigalrm hcur hl]
      have hkeeps := sigalrm_keeps (k := k) pid k.cpu
      obtain ⟨r, hr⟩ : ∃ r, r = k.invokeSyncSignal pid .alrm k.cpu := ⟨_, rfl⟩
      rw [← hr] at hkeeps ⊢
      have hturn : ({ r.1 with cpu := r.2.getD k.cpu } : Kernel).table.current = some pid := hkeeps.1 ▸ hcur
      have hlive : ({ r.1 with cpu := r.2.getD k.cpu } : Kernel).Live pid := by
        unfold Live
        rw [hkeeps.1]
        exact hl
      have hset := own_setTask hturn hlive (fun c => { c with ticksToAlarm := c.alarmConfigTime }) fun _ _ => rfl
      rw [← hset]
      simp only [setTask, hkeeps.2]
    · rw [if_neg h1, if_neg h1]
      exact own_setTask hcur hl (fun c => { c with ticksToAlarm := c.ticksToAlarm - 1 }) fun _ _ => rfl

/-! ## One step -/

theorem enter_saved (pid : Nat) : ((k.enter pid).task pid).regs = (k.enter pid).cpu := by simp [enter, setTask]

theorem own_tick (h : k.table.Ordered) (hcur : k.table.current = some pid) :
    (k.handleTimerTick pid).own = { k.own.alarm pid with table := k.table.handleTimerTick pid } := by
  have hl : k.Live pid := h.current_live hcur
  have hsw := h.swapper_live
  obtain ⟨a, ha⟩ : ∃ a : Kernel, a = { k with table := k.table.doSleepAccount } := ⟨_, rfl⟩
  have hacur : a.table.current = some pid := by rw [ha]; exact hcur
  have haun : ∀ p, (a.table.ctxList p).state = .unused ↔ (k.table.ctxList p).state = .unused := by
    intro p
    rw [ha]
    exact Table.unused_sleepAccount k.table p
  have hal : a.Live pid := fun hun => hl ((haun pid).mp hun)
  have hown : a.own = { k.own with table := a.table } := by
    have hre := own_retable hcur hacur haun
    rw [← hre, ha]
  -- the alarm does not look at the table but for the page directory
  have halarm : a.own.alarm pid = { k.own.alarm pid with table := a.table } := by
    have hpgd : (a.table.ctxList pid).pgd = (k.table.ctxList pid).pgd := by
      rw [ha]
      exact (Table.keeps_doSleepAccount k.table pid).pgd
    rw [hown]
    unfold Own.alarm Own.handle
    rw [own_cpu hcur hl]
    simp only [hpgd]
    split
    · rfl
    · split
      · split <;> rfl
      · rfl
  obtain ⟨b, hb⟩ : ∃ b : Kernel, b = { (a.alarmAccount pid k.cpu).1 with cpu := (a.alarmAccount pid k.cpu).2 } := ⟨_, rfl⟩
  have hbown : b.own = { k.own.alarm pid with table := a.table } := by
    have hcpu : a.cpu = k.cpu := by rw [ha]
    rw [← halarm, ← own_alarm hacur hal, hb, hcpu]
  have hbt : b.table = a.table := by rw [hb]; exact alarm_keeps pid k.cpu
  have hbcur : b.table.current = some pid := by rw [hbt]; exact hacur
  have hbl : b.Live pid := by unfold Live; rw [hbt]; exact hal
  have hbsw : (b.table.ctxList 0).state ≠ .unused := by
    rw [hbt]
    exact fun hun => hsw ((haun 0).mp hun)
  obtain ⟨v, hv⟩ : ∃ v, v = b.table.setState pid .ready := ⟨_, rfl⟩
  have htable : k.table.handleTimerTick pid = if v.pickNextContext pid = pid then v else v.schedule (v.pickNextContext pid) := by
    rw [hv, hbt, ha]
    rfl
  have htick : k.handleTimerTick pid = if v.pickNextContext pid = pid then { b with table := v } else
      { b.setTask pid { b.task pid with regs := b.cpu } with
        table := v.schedule (v.pickNextContext pid)
        cpu := ((b.setTask pid { b.task pid with regs := b.cpu }).task (v.pickNextContext pid)).regs } := by
    rw [hv, hb, ha]
    rfl
  rw [htick, htable]
  split
  · rw [own_retable hbcur (by rw [hv]; exact hbcur), hbown]
    intro p
    rw [hv]
    exact Table.unused_setState hbl ProcState.noConfusion p
  · have hsaved := own_enter hbcur hbl
    unfold enter at hsaved
    rw [own_switch (k := b.setTask pid { b.task pid with regs := b.cpu }) hbcur (by simp [setTask]), hsaved, hbown]
    · intro p hp
      obtain rfl := Option.some.inj hp
      rfl
    · intro p
      rw [hv]
      exact Table.unused_pick hbl hbsw ProcState.noConfusion pid p

theorem own_sleep (h : k.table.Ordered) (hcur : k.table.current = some pid) (ticks : UInt32) :
    ((k.enter pid).doSleep ticks pid).own = { k.own with table := k.table.doSleep ticks pid } := by
  have hl : k.Live pid := h.current_live hcur
  rw [← own_enter hcur hl]
  refine own_switch (k := k.enter pid) hcur (enter_saved pid) (fun p hp => ?_) fun p => ?_
  · obtain rfl := Option.some.inj hp
    rfl
  · obtain ⟨t, ht⟩ : ∃ t, t = k.table.setCtx pid { k.table.ctxList pid with ticksToSleep := ticks, state := .waiting } := ⟨_, rfl⟩
    have hun : ∀ i, (t.ctxList i).state = .unused ↔ (k.table.ctxList i).state = .unused := by
      intro i
      rw [ht]
      exact Table.unused_setCtx ⟨fun hw => ProcState.noConfusion hw, fun hw => absurd hw hl⟩ i
    have hpick := Table.pick_live (t := t) (fun hw => h.swapper_live ((hun 0).mp hw)) pid
    have hsleep : k.table.doSleep ticks pid = t.schedule (t.pickNextContext pid) := by
      rw [ht]
      rfl
    show ((k.table.doSleep ticks pid).ctxList p).state = .unused ↔ _
    rw [hsleep]
    exact (Table.unused_schedule hpick p).trans (hun p)

theorem own_exit (h : k.table.Ordered) (hcur : k.table.current = some pid) (h0 : pid ≠ 0) (hb : k.table.Buries pid) :
    (k.doExit pid).own = k.own.exit pid := by
  have htable : (k.doExit pid).table = k.table.doExit pid := by
    unfold doExit Table.doExit
    simp only
    split <;> rfl
  have htask : (k.doExit pid).task = k.task := by
    unfold doExit
    simp only
    split <;> rfl
  have hpushed : (k.doExit pid).pushed = k.pushed := by
    unfold doExit
    simp only
    split <;> rfl
  have hcpu : ∀ p, (k.doExit pid).table.current = some p → (k.doExit pid).cpu = ((k.doExit pid).task p).regs := by
    intro p
    unfold doExit
    simp only
    split
    · intro hp
      cases hp
    · intro hp
      obtain rfl := Option.some.inj hp
      rfl
  obtain ⟨hself, hother⟩ := Table.unused_doExit h.swapper_live h0 hb
  refine own_eq htable (fun p => ?_) hpushed
  unfold Own.exit
  simp only
  by_cases he : p = pid
  · rw [he, update_self]
    exact own_dead (by rw [htable]; exact hself)
  · rw [update_of_ne he]
    exact own_same (registers_other hcur he) (registers_switched hcpu p) (by rw [htask]) (by rw [htable]; exact hother p he)

theorem own_raise (h : k.table.Ordered) (hcur : k.table.current = some pid) (h0 : pid ≠ 0) {signo : Signal} (hs : signo ≠ .alrm)
    (hb : (k.task pid).sighandlers signo = 0 → k.table.Buries pid) : (k.raise pid signo).own = k.own.raise pid signo := by
  have hl : k.Live pid := h.current_live hcur
  unfold raise invokeSyncSignal Own.raise
  rw [own_cpu hcur hl]
  simp only [hs, ne_eq, not_false_eq_true, and_true]
  by_cases hh : (k.task pid).sighandlers signo = 0
  · rw [if_pos hh, if_pos hh]
    exact own_exit h hcur h0 (hb hh)
  · rw [if_neg hh, if_pos hh, if_neg hh]
    exact own_handle hcur hl _

/-- A system call that makes a process returns to its caller. -/
theorem own_make (h : k.table.Ordered) (hcur : k.table.current = some pid) (f : Task → Task)
    (hun : (k.table.ctxList child).state = .unused) {c : Context} (hc : c.state = .ready) (ret : UInt64) :
    (({ k.enter pid with
        table := k.table.setCtx child c
        task := update (k.enter pid).task child (f ((k.enter pid).task pid)) } : Kernel).leave ret).own =
      k.own.make pid f ret child (k.table.setCtx child c) := by
  have hl : k.Live pid := h.current_live hcur
  have hne : child ≠ pid := fun he => hl (he ▸ hun)
  have hlive : ((k.table.setCtx child c).ctxList pid).state ≠ .unused := by
    rw [Table.setCtx_ne (Ne.symm hne)]
    exact hl
  have hmade := own_made (k := k.enter pid) (t := k.table.setCtx child c) hcur hcur hne
    (by rw [Table.setCtx_self, hc]; exact ProcState.noConfusion) (fun p hp => by rw [Table.setCtx_ne hp]; exact Iff.rfl)
    (f ((k.enter pid).task pid))
  obtain ⟨q, hq⟩ : ∃ q : Kernel, q = { k.enter pid with
      table := k.table.setCtx child c
      task := update (k.enter pid).task child (f ((k.enter pid).task pid)) } := ⟨_, rfl⟩
  have hqt : q.table = k.table.setCtx child c := by rw [hq]
  have hqlive : q.Live pid := by
    unfold Live
    rw [hqt]
    exact hlive
  rw [← hq] at hmade ⊢
  rw [own_leave (hqt ▸ hcur) hqlive, hmade, own_enter hcur hl]
  unfold Own.make
  rw [own_cpu hcur hl]
  simp [enter, setTask]

theorem own_vfork (h : k.table.Ordered) (hcur : k.table.current = some pid) (hun : (k.table.ctxList child).state = .unused)
    (c : Context) (f : UserRegs → UserRegs) (ret : UInt64) :
    (({ ((k.enter pid).setTask child { (k.enter pid).task pid with regs := f ((k.enter pid).task pid).regs }).setTask pid
          { (k.enter pid).task pid with regs := { ((k.enter pid).task pid).regs with rax := ret } } with
        table := (k.table.setCtx child c).setState pid .waiting } : Kernel).schedule child).own =
      k.own.make pid (fun c => { c with regs := f c.regs }) ret child
        (((k.table.setCtx child c).setState pid .waiting).schedule child) := by
  have hl : k.Live pid := h.current_live hcur
  have hne : child ≠ pid := fun he => hl (he ▸ hun)
  obtain ⟨v, hv⟩ : ∃ v, v = ((k.table.setCtx child c).setState pid .waiting).schedule child := ⟨_, rfl⟩
  have hvchild : (v.ctxList child).state ≠ .unused := by
    rw [hv, Table.schedule_self]
    exact ProcState.noConfusion
  have hvpid : (v.ctxList pid).state ≠ .unused := by
    rw [hv, Table.schedule_ne (Ne.symm hne), Table.setState_self]
    exact ProcState.noConfusion
  have hvother : ∀ p, p ≠ child → p ≠ pid → v.ctxList p = k.table.ctxList p := by
    intro p h1 h2
    rw [hv, Table.schedule_ne h1, Table.setState_ne h2, Table.setCtx_ne h1]
  have henter : (k.enter pid).task pid = { k.task pid with regs := k.cpu } := by simp [enter, setTask]
  obtain ⟨q, hq⟩ : ∃ q : Kernel, q = { ((k.enter pid).setTask child
      { (k.enter pid).task pid with regs := f ((k.enter pid).task pid).regs }).setTask pid
        { (k.enter pid).task pid with regs := { ((k.enter pid).task pid).regs with rax := ret } } with
      table := v
      cpu := f k.cpu } := ⟨_, rfl⟩
  have hqchild : q.task child = { k.task pid with regs := f k.cpu } := by
    rw [hq, henter]
    simp [setTask, hne]
  have hqpid : q.task pid = { k.task pid with regs := { k.cpu with rax := ret } } := by
    rw [hq, henter]
    simp [setTask]
  have hqother : ∀ p, p ≠ child → p ≠ pid → q.task p = k.task p := by
    intro p h1 h2
    rw [hq]
    simp [setTask, enter, h1, h2]
  have hqt : q.table = v := by rw [hq]
  have hqregs : ∀ p, q.registers p = (q.task p).regs := by
    refine registers_switched fun p hp => ?_
    have hp : v.current = some p := hqt ▸ hp
    rw [hv] at hp
    obtain rfl := Option.some.inj hp
    rw [hqchild, hq]
  have hgoal : q.own = k.own.make pid (fun c => { c with regs := f c.regs }) ret child v := by
    refine own_eq hqt (fun p => ?_) (by rw [hq]; rfl)
    unfold Own.make Own.returns Own.setRegs Own.change
    simp only
    by_cases h1 : p = pid
    · rw [h1, update_self, update_of_ne (Ne.symm hne), own_cpu hcur hl,
        own_saved (hqregs pid) (by unfold Live; rw [hqt]; exact hvpid), hqpid]
      rfl
    · rw [update_of_ne h1]
      by_cases h2 : p = child
      · rw [h2, update_self, own_cpu hcur hl, own_saved (hqregs child) (by unfold Live; rw [hqt]; exact hvchild), hqchild]
        rfl
      · rw [update_of_ne h2]
        exact own_same (registers_other hcur h1) (hqregs p) (hqother p h2 h1) (by rw [hqt, hvother p h2 h1])
  rw [← hv, ← hgoal, hq]
  have hcpu : (((k.enter pid).setTask child { (k.enter pid).task pid with regs := f ((k.enter pid).task pid).regs }).setTask pid
      { (k.enter pid).task pid with regs := { ((k.enter pid).task pid).regs with rax := ret } }).task child =
        { k.task pid with regs := f k.cpu } := by
    rw [henter]
    simp [setTask, hne]
  unfold schedule
  simp only [hcpu, ← hv]

theorem own_remap (hcur : k.table.current = some pid) (code rodata data stack : MmSegment) (vmArea : Nat) :
    ({ k with table := k.table.remap code rodata data stack vmArea pid } : Kernel).own =
      { k.own with table := k.table.remap code rodata data stack vmArea pid } :=
  own_retable hcur hcur fun p => Table.unused_remap code rodata data stack vmArea p

/-- A system call that returns. -/
theorem own_return (h : k.table.Ordered) (hcur : k.table.current = some pid) (ret : UInt64) :
    ((k.enter pid).leave ret).own = k.own.returns pid ret := by
  have hl : k.Live pid := h.current_live hcur
  rw [own_leave (k := k.enter pid) hcur hl, own_enter hcur hl]

/-- One that changes what the context holds besides the registers. -/
theorem own_set (h : k.table.Ordered) (hcur : k.table.current = some pid) (f : Task → Task)
    (hf : ∀ c regs, f { c with regs := regs } = { f c with regs := regs }) (ret : UInt64) :
    (((k.enter pid).setTask pid (f ((k.enter pid).task pid))).leave ret).own = (k.own.change pid f).returns pid ret := by
  have hl : k.Live pid := h.current_live hcur
  rw [own_leave (k := (k.enter pid).setTask pid (f ((k.enter pid).task pid))) hcur hl, own_setTask (k := k.enter pid) hcur hl f hf,
    own_enter hcur hl]

/-- What an exit of this event wakes is a process. -/
def Buries (k : Kernel) (e : Ev) : Prop :=
  ∀ pid, k.table.current = some pid →
    match e with
    | .exit | .gp => k.table.Buries pid
    | .segv => (k.task pid).sighandlers .segv = 0 → k.table.Buries pid
    | .divByZero => (k.task pid).sighandlers .fpe = 0 → k.table.Buries pid
    | _ => True

/-- One step of the kernel is one of the processes on their own. -/
theorem step_own (h : k.table.Ordered) {e : Ev} (hb : k.Buries e) (hs : k.step e = some k') : k.own.step e = some k'.own := by
  have hlive : ∀ {pid}, k.table.current = some pid → k.Live pid := h.current_live
  cases e with
  | user regs =>
    obtain ⟨pid, hcur, rfl⟩ := Option.map_eq_some_iff.mp hs
    rw [own_setCpu hcur (hlive hcur) fun _ => regs]
    exact Option.map_eq_some_iff.mpr ⟨pid, hcur, rfl⟩
  | tick =>
    obtain ⟨pid, hcur, rfl⟩ := Option.map_eq_some_iff.mp hs
    rw [own_tick h hcur]
    exact Option.map_eq_some_iff.mpr ⟨pid, hcur, rfl⟩
  | exit =>
    obtain ⟨pid, hcall, rfl⟩ := Option.map_eq_some_iff.mp hs
    obtain ⟨hcur, h0⟩ := Table.caller_spec hcall
    rw [own_exit (k := k.enter pid) h hcur h0 (hb pid hcur), own_enter hcur (hlive hcur)]
    exact Option.map_eq_some_iff.mpr ⟨pid, hcall, rfl⟩
  | gp =>
    obtain ⟨pid, hcall, rfl⟩ := Option.map_eq_some_iff.mp hs
    obtain ⟨hcur, h0⟩ := Table.caller_spec hcall
    rw [own_exit h hcur h0 (hb pid hcur)]
    exact Option.map_eq_some_iff.mpr ⟨pid, hcall, rfl⟩
  | segv =>
    obtain ⟨pid, hcall, rfl⟩ := Option.map_eq_some_iff.mp hs
    obtain ⟨hcur, h0⟩ := Table.caller_spec hcall
    rw [own_raise h hcur h0 (by simp) (hb pid hcur)]
    exact Option.map_eq_some_iff.mpr ⟨pid, hcall, rfl⟩
  | divByZero =>
    obtain ⟨pid, hcall, rfl⟩ := Option.map_eq_some_iff.mp hs
    obtain ⟨hcur, h0⟩ := Table.caller_spec hcall
    rw [own_raise h hcur h0 (by simp) (hb pid hcur)]
    exact Option.map_eq_some_iff.mpr ⟨pid, hcall, rfl⟩
  | sleep ticks =>
    obtain ⟨pid, hcall, rfl⟩ := Option.map_eq_some_iff.mp hs
    obtain ⟨hcur, -⟩ := Table.caller_spec hcall
    rw [own_sleep h hcur]
    exact Option.map_eq_some_iff.mpr ⟨pid, hcall, rfl⟩
  | fork pgd =>
    obtain ⟨pid, hcall, hs⟩ := Option.bind_eq_some_iff.mp hs
    obtain ⟨hcur, -⟩ := Table.caller_spec hcall
    obtain ⟨r, hr, rfl⟩ := Option.map_eq_some_iff.mp hs
    obtain ⟨c, hc, rfl⟩ := Option.map_eq_some_iff.mp hr
    obtain ⟨child, hnew, rfl⟩ := Option.map_eq_some_iff.mp hc
    refine Option.bind_eq_some_iff.mpr ⟨pid, hcall, Option.map_eq_some_iff.mpr ⟨_, hc, ?_⟩⟩
    exact (own_make h hcur id (Table.getNewCtx_spec hnew).2 rfl (.ofNat child)).symm
  | cfork pgd vmArea =>
    obtain ⟨pid, hcall, hs⟩ := Option.bind_eq_some_iff.mp hs
    obtain ⟨hcur, -⟩ := Table.caller_spec hcall
    obtain ⟨r, hr, rfl⟩ := Option.map_eq_some_iff.mp hs
    obtain ⟨c, hc, rfl⟩ := Option.map_eq_some_iff.mp hr
    obtain ⟨child, hnew, rfl⟩ := Option.map_eq_some_iff.mp hc
    refine Option.bind_eq_some_iff.mpr ⟨pid, hcall, Option.map_eq_some_iff.mpr ⟨_, hc, ?_⟩⟩
    exact (own_make h hcur id (Table.getNewCtx_spec hnew).2 rfl (.ofNat child)).symm
  | vfork =>
    obtain ⟨pid, hcall, hs⟩ := Option.bind_eq_some_iff.mp hs
    obtain ⟨hcur, -⟩ := Table.caller_spec hcall
    obtain ⟨child, hnew, rfl⟩ := Option.map_eq_some_iff.mp hs
    have hnew : k.table.getNewCtx = some child := hnew
    refine Option.bind_eq_some_iff.mpr ⟨pid, hcall, Option.map_eq_some_iff.mpr ⟨_, Option.map_eq_some_iff.mpr ⟨child, hnew, rfl⟩, ?_⟩⟩
    exact (own_vfork h hcur (Table.getNewCtx_spec hnew).2 _ (fun regs => vforkRegs regs _) (.ofNat child)).symm
  | clone thFunc userStack =>
    obtain ⟨pid, hcall, hs⟩ := Option.bind_eq_some_iff.mp hs
    obtain ⟨hcur, -⟩ := Table.caller_spec hcall
    obtain ⟨r, hr, rfl⟩ := Option.map_eq_some_iff.mp hs
    obtain ⟨c, hc, rfl⟩ := Option.map_eq_some_iff.mp hr
    obtain ⟨child, hnew, rfl⟩ := Option.map_eq_some_iff.mp hc
    refine Option.bind_eq_some_iff.mpr ⟨pid, hcall, Option.map_eq_some_iff.mpr ⟨_, hc, ?_⟩⟩
    exact (own_make h hcur (fun c => { c with regs := { c.regs with entryRip := thFunc, entryRsp := userStack, rbp := userStack } })
      (Table.getNewCtx_spec hnew).2 rfl 0).symm
  | signal signo handler =>
    obtain ⟨pid, hcall, rfl⟩ := Option.map_eq_some_iff.mp hs
    obtain ⟨hcur, -⟩ := Table.caller_spec hcall
    refine Option.map_eq_some_iff.mpr ⟨pid, hcall, ?_⟩
    unfold doSignal
    cases hsig : Signal.ofInt signo with
    | some sig => exact (own_set h hcur (fun c => { c with sighandlers := update c.sighandlers sig handler }) (fun _ _ => rfl) 0).symm
    | none => exact (own_return h hcur _).symm
  | alarm ticks =>
    obtain ⟨pid, hcall, rfl⟩ := Option.map_eq_some_iff.mp hs
    obtain ⟨hcur, -⟩ := Table.caller_spec hcall
    refine Option.map_eq_some_iff.mpr ⟨pid, hcall, ?_⟩
    unfold doAlarm
    split
    · exact (own_set h hcur (fun c => { c with alarmConfigTime := ticks, ticksToAlarm := ticks }) (fun _ _ => rfl) 0).symm
    · exact (own_return h hcur _).symm
  | getpid =>
    obtain ⟨pid, hcall, rfl⟩ := Option.map_eq_some_iff.mp hs
    obtain ⟨hcur, -⟩ := Table.caller_spec hcall
    exact Option.map_eq_some_iff.mpr ⟨pid, hcall, (own_return h hcur _).symm⟩
  | call ret code rodata data stack vmArea =>
    obtain ⟨pid, hcall, rfl⟩ := Option.map_eq_some_iff.mp hs
    obtain ⟨hcur, -⟩ := Table.caller_spec hcall
    refine Option.map_eq_some_iff.mpr ⟨pid, hcall, ?_⟩
    have hremap := own_remap (k := k.enter pid) hcur code rodata data stack vmArea
    obtain ⟨q, hq⟩ : ∃ q : Kernel, q = { k.enter pid with table := k.table.remap code rodata data stack vmArea pid } := ⟨_, rfl⟩
    have hql : q.Live pid := by
      rw [hq]
      exact fun hun => hlive hcur ((Table.unused_remap code rodata data stack vmArea pid).mp hun)
    rw [own_enter hcur (hlive hcur)] at hremap
    rw [← hq, own_leave (by rw [hq]; exact hcur) hql, hq]
    exact congrArg (Own.returns · pid ret) hremap.symm
  | fault code rodata data stack vmArea =>
    obtain ⟨pid, hcall, rfl⟩ := Option.map_eq_some_iff.mp hs
    obtain ⟨hcur, -⟩ := Table.caller_spec hcall
    rw [own_remap hcur]
    exact Option.map_eq_some_iff.mpr ⟨pid, hcall, rfl⟩

end

end Kernel

/-! ## Runs -/

namespace Own

section
variable {o o' : Own} {pid p : Nat}

@[simp] theorem handle_table (handler : UInt64) : (o.handle pid handler).table = o.table := by
  unfold handle
  split <;> rfl

theorem change_self (f : Task → Task) : (o.change pid f).proc pid = (o.proc pid).map f := update_self ..

theorem exit_self (o : Own) (pid : Nat) : (o.exit pid).proc pid = none := update_self ..

theorem change_proc (h : p ≠ pid) (f : Task → Task) : (o.change pid f).proc p = o.proc p := update_of_ne h ..

theorem setRegs_proc (h : p ≠ pid) (f : UserRegs → UserRegs) : (o.setRegs pid f).proc p = o.proc p := change_proc h _

theorem handle_proc (h : p ≠ pid) (handler : UInt64) : (o.handle pid handler).proc p = o.proc p := by
  unfold handle
  split
  · exact update_of_ne h ..
  · rfl

theorem alarm_proc (h : p ≠ pid) : (o.alarm pid).proc p = o.proc p := by
  unfold alarm
  split
  · split
    · rfl
    · split
      · rw [change_proc h]
        split
        · rfl
        · exact handle_proc h _
      · exact change_proc h _
  · rfl

theorem make_proc {child : Nat} (h : p ≠ pid) (hc : p ≠ child) (f : Task → Task) (ret : UInt64) (t : Table) :
    (o.make pid f ret child t).proc p = o.proc p := by
  unfold make returns
  rw [setRegs_proc h]
  exact update_of_ne hc ..

/-- What an event does to the alarm of the process that takes it. -/
def Clock (e : Kernel.Ev) (c c' : Task) : Prop :=
  match e with
  | .tick => c'.alarmConfigTime = c.alarmConfigTime ∧ c'.ticksToAlarm =
      if c.ticksToAlarm = 0 then 0 else if c.ticksToAlarm = 1 then c.alarmConfigTime else c.ticksToAlarm - 1
  | .alarm ticks => 0 < ticks → c'.alarmConfigTime = ticks ∧ c'.ticksToAlarm = ticks
  | _ => c'.alarmConfigTime = c.alarmConfigTime ∧ c'.ticksToAlarm = c.ticksToAlarm

/-- What a step of process `pid` can do: the table takes a step of its own or none, a slot that was free may be filled, and
    nobody but `pid` changes. -/
structure Took (o : Own) (pid : Nat) (e : Kernel.Ev) (o' : Own) : Prop where
  table : o'.table = o.table ∨ ∃ x, o.table.step x = some o'.table
  others : ∀ p, p ≠ pid → (∀ child, o.table.getNewCtx = some child → p ≠ child) → o'.proc p = o.proc p
  clock : ∀ c c', o.proc pid = some c → o'.proc pid = some c' → Clock e c c'

/-- The process changes, its alarm aside. -/
theorem took_change {e : Kernel.Ev} {f : Task → Task} {t : Table} {l : List Pushed}
    (ht : t = o.table ∨ ∃ x, o.table.step x = some t) (he : ∀ c, Clock e c (f c)) :
    Took o pid e { o.change pid f with table := t, pushed := l } := by
  refine ⟨ht, fun p hp _ => change_proc hp f, fun c c' hc hc' => ?_⟩
  have hc' : (o.change pid f).proc pid = some c' := hc'
  rw [change_self, hc] at hc'
  cases hc'
  exact he c

theorem took_make {e : Kernel.Ev} {child : Nat} {t : Table} {x : Ev} (hnew : o.table.getNewCtx = some child)
    (hlive : (o.table.ctxList pid).state ≠ .unused) (ht : o.table.step x = some t) (he : ∀ c regs, Clock e c { c with regs := regs })
    (f : Task → Task) (ret : UInt64) : Took o pid e (o.make pid f ret child t) := by
  have hne : pid ≠ child := fun he => hlive (he ▸ (Table.getNewCtx_spec hnew).2)
  refine ⟨.inr ⟨x, ht⟩, fun p hp hc => make_proc hp (hc child hnew) f ret t, fun c c' hc hc' => ?_⟩
  unfold make returns setRegs change at hc'
  simp only [update_self, update_of_ne hne, hc, Option.map_some] at hc'
  cases hc'
  exact he c _

theorem took_exit {e : Kernel.Ev} (hcall : o.table.caller = some pid) : Took o pid e (o.exit pid) := by
  refine ⟨.inr ⟨.exit, Option.map_eq_some_iff.mpr ⟨pid, hcall, rfl⟩⟩, fun p hp _ => update_of_ne hp .., fun c c' _ hc' => ?_⟩
  rw [exit_self] at hc'
  cases hc'

theorem took_handle {e : Kernel.Ev} (he : ∀ c regs, Clock e c { c with regs := regs }) (handler : UInt64) :
    Took o pid e (o.handle pid handler) := by
  unfold handle
  split
  · exact took_change (.inl rfl) fun c => he c _
  · rename_i hnone
    exact ⟨.inl rfl, fun _ _ _ => rfl, fun c c' hc _ => by rw [hnone] at hc; cases hc⟩

theorem took_raise {e : Kernel.Ev} (he : ∀ c regs, Clock e c { c with regs := regs }) (hcall : o.table.caller = some pid)
    (signo : Signal) : Took o pid e (o.raise pid signo) := by
  unfold raise
  split
  · split
    · exact took_exit hcall
    · exact took_handle he _
  · rename_i hnone
    exact ⟨.inl rfl, fun _ _ _ => rfl, fun c c' hc _ => by rw [hnone] at hc; cases hc⟩

theorem handle_self {c : Task} (hc : o.proc pid = some c) (handler : UInt64) :
    ∃ regs, (o.handle pid handler).proc pid = some { c with regs := regs } := by
  unfold handle
  rw [hc]
  simp only [setRegs, change_self, hc, Option.map_some]
  exact ⟨_, rfl⟩

/-- The alarm's own rule. -/
theorem alarm_clock {c c' : Task} (hc : o.proc pid = some c) (hc' : (o.alarm pid).proc pid = some c') : Clock .tick c c' := by
  unfold alarm at hc'
  rw [hc] at hc'
  simp only at hc'
  unfold Clock
  simp only
  split at hc'
  · rename_i h0
    rw [hc] at hc'
    cases hc'
    rw [if_pos h0]
    exact ⟨rfl, h0⟩
  · rename_i h0
    rw [if_neg h0]
    split at hc'
    · rename_i h1
      rw [if_pos h1]
      have hsame : ∀ o' : Own, (∃ d, o'.proc pid = some d ∧ d.alarmConfigTime = c.alarmConfigTime) →
          (o'.change pid fun c => { c with ticksToAlarm := c.alarmConfigTime }).proc pid = some c' →
            c'.alarmConfigTime = c.alarmConfigTime ∧ c'.ticksToAlarm = c.alarmConfigTime := by
        intro o' ⟨d, hd, hconf⟩ he
        rw [change_self, hd] at he
        cases he
        exact ⟨hconf, hconf⟩
      split at hc'
      · exact hsame o ⟨c, hc, rfl⟩ hc'
      · obtain ⟨regs, hregs⟩ := handle_self hc (c.sighandlers .alrm)
        exact hsame _ ⟨_, hregs, rfl⟩ hc'
    · rename_i h1
      rw [if_neg h1]
      rw [change_self, hc] at hc'
      cases hc'
      exact ⟨rfl, rfl⟩

theorem step_took {e : Kernel.Ev} (hs : o.step e = some o')
    (hlive : ∀ pid, o.table.current = some pid → (o.table.ctxList pid).state ≠ .unused) :
    ∃ pid, o.table.current = some pid ∧ Took o pid e o' := by
  have hcaller : ∀ {pid}, o.table.caller = some pid → o.table.current = some pid := fun hc => (Table.caller_spec hc).1
  cases e with
  | user regs =>
    obtain ⟨pid, hcur, rfl⟩ := Option.map_eq_some_iff.mp hs
    exact ⟨pid, hcur, took_change (.inl rfl) fun _ => ⟨rfl, rfl⟩⟩
  | tick =>
    obtain ⟨pid, hcur, rfl⟩ := Option.map_eq_some_iff.mp hs
    refine ⟨pid, hcur, .inr ⟨.tick, Option.map_eq_some_iff.mpr ⟨pid, hcur, rfl⟩⟩, fun p hp _ => alarm_proc hp, ?_⟩
    exact fun c c' hc hc' => alarm_clock hc hc'
  | exit =>
    obtain ⟨pid, hcall, rfl⟩ := Option.map_eq_some_iff.mp hs
    exact ⟨pid, hcaller hcall, took_exit hcall⟩
  | gp =>
    obtain ⟨pid, hcall, rfl⟩ := Option.map_eq_some_iff.mp hs
    exact ⟨pid, hcaller hcall, took_exit hcall⟩
  | segv =>
    obtain ⟨pid, hcall, rfl⟩ := Option.map_eq_some_iff.mp hs
    refine ⟨pid, hcaller hcall, took_raise ?_ hcall _⟩
    exact fun _ _ => ⟨rfl, rfl⟩
  | divByZero =>
    obtain ⟨pid, hcall, rfl⟩ := Option.map_eq_some_iff.mp hs
    refine ⟨pid, hcaller hcall, took_raise ?_ hcall _⟩
    exact fun _ _ => ⟨rfl, rfl⟩
  | sleep ticks =>
    obtain ⟨pid, hcall, rfl⟩ := Option.map_eq_some_iff.mp hs
    refine ⟨pid, hcaller hcall, .inr ⟨.sleep ticks, Option.map_eq_some_iff.mpr ⟨pid, hcall, rfl⟩⟩, fun _ _ _ => rfl, ?_⟩
    intro c c' hc hc'
    cases hc.symm.trans hc'
    exact ⟨rfl, rfl⟩
  | fork pgd =>
    obtain ⟨pid, hcall, hs⟩ := Option.bind_eq_some_iff.mp hs
    obtain ⟨r, hr, rfl⟩ := Option.map_eq_some_iff.mp hs
    obtain ⟨child, hnew, rfl⟩ := Option.map_eq_some_iff.mp hr
    refine ⟨pid, hcaller hcall, took_make (x := .fork pgd) hnew (hlive pid (hcaller hcall)) ?_ ?_ _ _⟩
    · exact Option.map_eq_some_iff.mpr ⟨_, Option.bind_eq_some_iff.mpr ⟨pid, hcall, hr⟩, rfl⟩
    · exact fun _ _ => ⟨rfl, rfl⟩
  | cfork pgd vmArea =>
    obtain ⟨pid, hcall, hs⟩ := Option.bind_eq_some_iff.mp hs
    obtain ⟨r, hr, rfl⟩ := Option.map_eq_some_iff.mp hs
    obtain ⟨child, hnew, rfl⟩ := Option.map_eq_some_iff.mp hr
    refine ⟨pid, hcaller hcall, took_make (x := .cfork pgd vmArea) hnew (hlive pid (hcaller hcall)) ?_ ?_ _ _⟩
    · exact Option.map_eq_some_iff.mpr ⟨_, Option.bind_eq_some_iff.mpr ⟨pid, hcall, hr⟩, rfl⟩
    · exact fun _ _ => ⟨rfl, rfl⟩
  | vfork =>
    obtain ⟨pid, hcall, hs⟩ := Option.bind_eq_some_iff.mp hs
    obtain ⟨r, hr, rfl⟩ := Option.map_eq_some_iff.mp hs
    obtain ⟨child, hnew, rfl⟩ := Option.map_eq_some_iff.mp hr
    refine ⟨pid, hcaller hcall, took_make (x := .vfork) hnew (hlive pid (hcaller hcall)) ?_ ?_ _ _⟩
    · exact Option.map_eq_some_iff.mpr ⟨_, Option.bind_eq_some_iff.mpr ⟨pid, hcall, hr⟩, rfl⟩
    · exact fun _ _ => ⟨rfl, rfl⟩
  | clone thFunc userStack =>
    obtain ⟨pid, hcall, hs⟩ := Option.bind_eq_some_iff.mp hs
    obtain ⟨r, hr, rfl⟩ := Option.map_eq_some_iff.mp hs
    obtain ⟨child, hnew, rfl⟩ := Option.map_eq_some_iff.mp hr
    refine ⟨pid, hcaller hcall, took_make (x := .clone) hnew (hlive pid (hcaller hcall)) ?_ ?_ _ _⟩
    · exact Option.map_eq_some_iff.mpr ⟨_, Option.bind_eq_some_iff.mpr ⟨pid, hcall, hr⟩, rfl⟩
    · exact fun _ _ => ⟨rfl, rfl⟩
  | signal signo handler =>
    obtain ⟨pid, hcall, rfl⟩ := Option.map_eq_some_iff.mp hs
    refine ⟨pid, hcaller hcall, ?_⟩
    split
    · refine ⟨.inl rfl, fun p hp _ => (setRegs_proc hp _).trans (change_proc hp _), fun c c' hc hc' => ?_⟩
      unfold returns setRegs at hc'
      rw [change_self, change_self, hc] at hc'
      cases hc'
      exact ⟨rfl, rfl⟩
    · exact took_change (.inl rfl) fun _ => ⟨rfl, rfl⟩
  | alarm ticks =>
    obtain ⟨pid, hcall, rfl⟩ := Option.map_eq_some_iff.mp hs
    refine ⟨pid, hcaller hcall, ?_⟩
    split
    · refine ⟨.inl rfl, fun p hp _ => (setRegs_proc hp _).trans (change_proc hp _), fun c c' hc hc' => ?_⟩
      unfold returns setRegs at hc'
      rw [change_self, change_self, hc] at hc'
      cases hc'
      exact fun _ => ⟨rfl, rfl⟩
    · rename_i hticks
      exact took_change (.inl rfl) fun _ h => absurd h hticks
  | getpid =>
    obtain ⟨pid, hcall, rfl⟩ := Option.map_eq_some_iff.mp hs
    exact ⟨pid, hcaller hcall, took_change (.inl rfl) fun _ => ⟨rfl, rfl⟩⟩
  | call ret code rodata data stack vmArea =>
    obtain ⟨pid, hcall, rfl⟩ := Option.map_eq_some_iff.mp hs
    refine ⟨pid, hcaller hcall, took_change (.inr ⟨.remap code rodata data stack vmArea, ?_⟩) fun _ => ⟨rfl, rfl⟩⟩
    exact Option.map_eq_some_iff.mpr ⟨pid, hcall, rfl⟩
  | fault code rodata data stack vmArea =>
    obtain ⟨pid, hcall, rfl⟩ := Option.map_eq_some_iff.mp hs
    refine ⟨pid, hcaller hcall, .inr ⟨.remap code rodata data stack vmArea, Option.map_eq_some_iff.mpr ⟨pid, hcall, rfl⟩⟩,
      fun _ _ _ => rfl, ?_⟩
    intro c c' hc hc'
    cases hc.symm.trans hc'
    exact ⟨rfl, rfl⟩

end

end Own

namespace Kernel

section
variable {k k' : Kernel} {p : Nat} {es : List Ev}

theorem step_ordered (h : k.table.Ordered) {e : Ev} (hb : k.Buries e) (hs : k.step e = some k') : k'.table.Ordered := by
  obtain ⟨pid, -, htook⟩ := Own.step_took (step_own h hb hs) fun _ => h.current_live
  rcases htook.table with heq | ⟨x, hx⟩
  · have heq : k'.table = k.table := heq
    rw [heq]
    exact h
  · exact h.step hx

/-- A step of another process changes nothing of `p`. -/
theorem idle_step {e : Ev} (h : k.table.Ordered) (hl : k.Live p) (hb : k.Buries e) (hne : k.table.current ≠ some p)
    (hs : k.step e = some k') : k'.own.proc p = k.own.proc p := by
  obtain ⟨pid, hcur, htook⟩ := Own.step_took (step_own h hb hs) fun _ => h.current_live
  refine htook.others p (fun he => hne (he ▸ hcur)) fun child hnew he => ?_
  exact hl (he ▸ (Table.getNewCtx_spec hnew).2)

/-- The first process, with every register 0. -/
def boot : Kernel := ⟨booted, fun _ => ⟨default, fun _ => 0, 0, 0⟩, default, [], []⟩

theorem boot_start : boot.Start := start_booted.1

/-- It forks, and the child changes a register before the parent goes on. -/
def forking : List Ev := [.user { boot.cpu with rbx := 7 }, .fork 0x72, .tick, .user { boot.cpu with rbx := 5 }, .tick]

theorem forking_buries : ∀ e ∈ forking, ∀ k : Kernel, k.Buries e := by
  intro e he k pid _
  simp only [forking, List.mem_cons, List.not_mem_nil, or_false] at he
  rcases he with rfl | rfl | rfl | rfl | rfl <;> exact trivial

/-- While others have the turn, nothing of a process changes: what it gets back is what it had. -/
theorem idle_kept (h : k.table.Ordered) (hl : k.Live p) (hr : machine.Run (fun k e => k.Buries e ∧ k.table.current ≠ some p) k es k') :
    k'.own.proc p = k.own.proc p := by
  have hboth : (k'.table.Ordered ∧ k'.own.proc p = k.own.proc p) := by
    refine hr.inv (fun q => q.table.Ordered ∧ q.own.proc p = k.own.proc p) (fun q e q' hi ho hs => ?_) ⟨h, rfl⟩
    obtain ⟨hord, hsame⟩ := hi
    have hlive : q.Live p := by
      intro hun
      have hnone := own_dead hun
      rw [hsame] at hnone
      unfold own at hnone
      simp only at hnone
      rw [if_neg hl] at hnone
      cases hnone
    exact ⟨step_ordered hord ho.1 hs, (idle_step hord hlive ho.1 ho.2 hs).trans hsame⟩
  exact hboth.2

/-- The child runs, and sleeps; the parent has kept what its fork returned. -/
theorem idle_kept_fork : ∃ k k' : Kernel, k.table.current = some 2 ∧ k'.own.proc 1 = k.own.proc 1 ∧ k'.table.current = some 1 ∧
    k'.cpu.rax = 2 := by
  have hrun : machine.Run Buries boot [.fork 0x72, .tick] _ := .cons (fun _ _ => trivial) rfl (.cons (fun _ _ => trivial) rfl (.nil _))
  have hord := (hrun.inv (fun k => k.table.Ordered) (fun _ _ _ h hb hs => step_ordered h hb hs) boot_start.ordered)
  refine ⟨_, _, rfl, idle_kept (p := 1) hord (by decide) (.cons (e := .sleep 1) ⟨fun _ _ => trivial, by decide⟩ rfl (.nil _)), rfl, rfl⟩

end

end Kernel

end Cs330.Proc
