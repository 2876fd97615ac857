/-
  Cs330.Proc.Table — the process table: who runs, who waits, who is whose parent.

  `ctx_list` has MAX_PROCESSES slots, slot 0 the swapper's. A slot that an exit leaves UNUSED
  keeps its contents; `do_fork`, `do_cfork` and `do_vfork` copy the whole context of the
  caller into it, `do_clone` only some fields. `vm_area` is the pointer to the list of areas:
  of the address space only what a context itself holds is here. `current` is NULL once
  do_cleanup has run.

  A `Watch` records besides, for each process, the child of its last `do_vfork` while both
  are alive.
-/
import Cs330.Lib.Machine
import Cs330.Mm.Vfork

namespace Cs330.Proc

open Lib Mm Function

structure Context where
  ppid : Nat
  state : ProcState
  pgd : Nat
  code : MmSegment
  rodata : MmSegment
  data : MmSegment
  stack : MmSegment
  vmArea : Nat
  ticksToSleep : UInt32
  deriving DecidableEq, Repr

structure Table where
  ctxList : Nat → Context
  current : Option Nat

namespace Table

variable (t : Table)

def setCtx (pid : Nat) (c : Context) : Table := { t with ctxList := update t.ctxList pid c }

def setState (pid : Nat) (state : ProcState) : Table := t.setCtx pid { t.ctxList pid with state := state }

/-- `get_new_ctx`: the first slot that is UNUSED. -/
def getNewCtx : Option Nat := (List.range MAX_PROCESSES).find? fun pid => (t.ctxList pid).state = .unused

/-- The slots after `pid`, in a ring without slot 0, its own the last. -/
def turns (pid : Nat) : List Nat := (List.range (MAX_PROCESSES - 1)).map fun i => (pid + i) % (MAX_PROCESSES - 1) + 1

/-- `pick_next_context` -/
def pickNextContext (pid : Nat) : Nat := ((turns pid).find? fun i => (t.ctxList i).state = .ready).getD 0

def schedule (pid : Nat) : Table := { t.setState pid .running with current := some pid }

/-- One context in the loop of `do_sleep_and_alarm_account`. -/
def sleepAccount (c : Context) : Context :=
  if c.state = .waiting ∧ 0 < c.ticksToSleep then
    let ticks := c.ticksToSleep - 1
    if ticks = 0 then { c with ticksToSleep := ticks, state := .ready } else { c with ticksToSleep := ticks }
  else c

def doSleepAccount : Table := { t with ctxList := fun i => sleepAccount (t.ctxList i) }

/-- `handle_timer_tick`: `schedule` stands for the switch to the context picked. -/
def handleTimerTick (pid : Nat) : Table :=
  let t := t.doSleepAccount.setState pid .ready
  let new := t.pickNextContext pid
  if new = pid then t else t.schedule new

/-- `vfork_exit_handle` -/
def vforkExitHandle (pid : Nat) : Table :=
  let ctx := t.ctxList pid
  let parent := t.ctxList ctx.ppid
  if parent.pgd ≠ ctx.pgd then t
  else t.setCtx ctx.ppid { parent with state := .ready, data := ctx.data, vmArea := ctx.vmArea }

def doExit (pid : Nat) : Table :=
  let t := (t.vforkExitHandle pid).setState pid .unused
  if ∀ i ∈ List.range MAX_PROCESSES, i ≠ 0 → (t.ctxList i).state = .unused then { t with current := none }
  else t.schedule (t.pickNextContext pid)

def doSleep (ticks : UInt32) (pid : Nat) : Table :=
  let t := t.setCtx pid { t.ctxList pid with ticksToSleep := ticks, state := .waiting }
  t.schedule (t.pickNextContext pid)

/-- `do_fork`; `pgd` is the frame copy_mm has for the page directory. -/
def doFork (pgd pid : Nat) : Option (Nat × Table) :=
  t.getNewCtx.map fun child =>
    (child, t.setCtx child { t.ctxList pid with ppid := pid, pgd := pgd, state := .ready })

/-- `do_cfork`; the areas are copied, to `vmArea`. -/
def doCfork (pgd vmArea pid : Nat) : Option (Nat × Table) :=
  t.getNewCtx.map fun child =>
    (child, t.setCtx child { t.ctxList pid with ppid := pid, pgd := pgd, vmArea := vmArea, state := .ready })

/-- `do_vfork`: the child runs on a copy of the stack, further down. -/
def doVfork (pid : Nat) : Option (Nat × Table) :=
  t.getNewCtx.map fun child =>
    let ctx := t.ctxList pid
    let stack := { ctx.stack with nextFree := Vm.minus ctx.stack.nextFree (vforkOffset ctx.stack) }
    let t := t.setCtx child { ctx with ppid := pid, stack := stack, state := .ready }
    (child, (t.setState pid .waiting).schedule child)

/-- `do_clone`: `ppid` and `vm_area` stay as the slot has them. -/
def doClone (pid : Nat) : Option (Nat × Table) :=
  t.getNewCtx.map fun child =>
    let ctx := t.ctxList pid
    (child, t.setCtx child { t.ctxList child with
      state := .ready
      pgd := ctx.pgd
      code := ctx.code
      rodata := ctx.rodata
      data := ctx.data
      stack := ctx.stack
      ticksToSleep := ctx.ticksToSleep })

/-- What a call or a fault that changes the address space leaves in the context that runs. -/
def remap (code rodata data stack : MmSegment) (vmArea pid : Nat) : Table :=
  t.setCtx pid { t.ctxList pid with code := code, rodata := rodata, data := data, stack := stack, vmArea := vmArea }

end Table

/-! ## Runs -/

inductive Ev where
  | tick
  | sleep (ticks : UInt32)
  | exit
  | fork (pgd : Nat)
  | cfork (pgd vmArea : Nat)
  | vfork
  | clone
  | remap (code rodata data stack : MmSegment) (vmArea : Nat)

namespace Table

/-- The process that makes a call: the swapper makes none. -/
def caller (t : Table) : Option Nat := t.current.filter fun pid => pid ≠ 0

/-- `none`: nobody is there to take the step, or the table is full. -/
def step (t : Table) : Ev → Option Table
  | .tick => t.current.map t.handleTimerTick
  | .sleep ticks => t.caller.map (t.doSleep ticks)
  | .exit => t.caller.map t.doExit
  | .fork pgd => (t.caller.bind (t.doFork pgd)).map Prod.snd
  | .cfork pgd vmArea => (t.caller.bind (t.doCfork pgd vmArea)).map Prod.snd
  | .vfork => (t.caller.bind t.doVfork).map Prod.snd
  | .clone => (t.caller.bind t.doClone).map Prod.snd
  | .remap code rodata data stack vmArea => t.caller.map (t.remap code rodata data stack vmArea)

/-- After `init_swapper` and `exec_init`: the swapper, and the first process, which runs. -/
structure Start (t : Table) : Prop where
  current : t.current = some 1
  swapper : (t.ctxList 0).state = .ready
  first : (t.ctxList 1).state = .running
  rest : ∀ i, i ≠ 0 → i ≠ 1 → (t.ctxList i).state = .unused

end Table

structure Watch where
  table : Table
  awaits : Nat → Option Nat

namespace Watch

/-- A vfork awaits its child; an exit ends what the process awaits and who awaits it. -/
def awaitsAfter (w : Watch) : Ev → Nat → Option Nat
  | .vfork => fun a => if w.table.current = some a then w.table.getNewCtx else w.awaits a
  | .exit => fun a => if w.table.current = some a ∨ w.awaits a = w.table.current then none else w.awaits a
  | _ => w.awaits

def step (w : Watch) (e : Ev) : Option Watch := (w.table.step e).map fun t => ⟨t, w.awaitsAfter e⟩

def Start (w : Watch) : Prop := w.table.Start ∧ w.awaits = fun _ => none

def machine : Machine Watch Ev := ⟨Start, step⟩

end Watch

end Cs330.Proc
