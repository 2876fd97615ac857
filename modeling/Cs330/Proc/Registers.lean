/-
  Cs330.Proc.Registers — one processor, and the registers of each process.

  `cpu` is what the processor's registers hold in user mode. An entry into the kernel puts
  them on a stack, as a `struct user_regs`, and the return takes them from there: a system
  call all but rax, which is the return value. do_syscall copies them to `ctx->regs`, the
  tick puts them there when it switches, and who is switched to gets its own from there. A
  signal with a handler moves rsp and rip and stores the old rip on the user's stack: these
  stores are `pushed`, and that they succeed is taken for granted. `raised` logs the calls of
  invoke_sync_signal, and nothing reads it. What a program does in user mode is any change of
  the registers. An interrupt or a fault arrives only there, or while the swapper waits.
-/
import Cs330.Proc.Table

namespace Cs330.Proc

open Lib Mm Function

/-- `struct user_regs` -/
structure UserRegs where
  r15 : UInt64
  r14 : UInt64
  r13 : UInt64
  r12 : UInt64
  r11 : UInt64
  r10 : UInt64
  r9 : UInt64
  r8 : UInt64
  rbp : UInt64
  rdi : UInt64
  rsi : UInt64
  rdx : UInt64
  rcx : UInt64
  rbx : UInt64
  rax : UInt64
  entryRip : UInt64
  entryCs : UInt64
  entryRflags : UInt64
  entryRsp : UInt64
  entrySs : UInt64
  deriving DecidableEq, Inhabited

inductive Signal where
  | segv | fpe | alrm
  deriving DecidableEq, Repr

/-- `signo < MAX_SIGNALS && signo > -1` -/
def Signal.ofInt (signo : Int) : Option Signal :=
  if signo = 0 then some .segv else if signo = 1 then some .fpe else if signo = 2 then some .alrm else none

/-- What a context holds besides the fields of `Context`. A handler that is 0 is NULL. -/
structure Task where
  regs : UserRegs
  sighandlers : Signal → UInt64
  alarmConfigTime : UInt32
  ticksToAlarm : UInt32

/-- A word on a user's stack: in which page directory, where, and what. -/
structure Pushed where
  pgd : Nat
  addr : UInt64
  word : UInt64
  deriving DecidableEq

structure Kernel where
  table : Table
  task : Nat → Task
  cpu : UserRegs
  pushed : List Pushed
  /-- The calls of invoke_sync_signal so far: for whom, and with which signal. -/
  raised : List (Nat × Signal)

namespace Kernel

variable (k : Kernel)

def setTask (pid : Nat) (c : Task) : Kernel := { k with task := update k.task pid c }

/-- The switch of `schedule`: the context's registers go onto its stack and from there into the processor. -/
def schedule (pid : Nat) : Kernel := { k with table := k.table.schedule pid, cpu := (k.task pid).regs }

/-- `do_exit` -/
def doExit (pid : Nat) : Kernel :=
  let t := (k.table.vforkExitHandle pid).setState pid .unused
  if ∀ i ∈ List.range MAX_PROCESSES, i ≠ 0 → (t.ctxList i).state = .unused then
    { k with table := { t with current := none } }
  else ({ k with table := t } : Kernel).schedule (t.pickNextContext pid)

/-- `invoke_sync_signal` on the registers on the stack, and what they are then; an exit does not come back. -/
def invokeSyncSignal (pid : Nat) (signo : Signal) (regs : UserRegs) : Kernel × Option UserRegs :=
  let k := { k with raised := k.raised ++ [(pid, signo)] }
  let handler := (k.task pid).sighandlers signo
  if handler = 0 ∧ signo ≠ .alrm then (k.doExit pid, none)
  else if handler ≠ 0 then
    let rsp := regs.entryRsp
    ({ k with pushed := k.pushed ++ [⟨(k.table.ctxList pid).pgd, rsp - 8, regs.entryRip⟩] },
      some { regs with entryRsp := rsp - 8, entryRip := handler })
  else (k, some regs)

/-- The part of `do_sleep_and_alarm_account` about the alarm. -/
def alarmAccount (pid : Nat) (regs : UserRegs) : Kernel × UserRegs :=
  let c := k.task pid
  if 0 < c.ticksToAlarm then
    let ticks := c.ticksToAlarm - 1
    if ticks = 0 then
      let r := k.invokeSyncSignal pid .alrm regs
      (r.1.setTask pid { r.1.task pid with ticksToAlarm := c.alarmConfigTime }, r.2.getD regs)
    else (k.setTask pid { c with ticksToAlarm := ticks }, regs)
  else (k, regs)

/-- `handle_timer_tick`; the registers are on the stack of the interrupt. -/
def handleTimerTick (pid : Nat) : Kernel :=
  let r := ({ k with table := k.table.doSleepAccount } : Kernel).alarmAccount pid k.cpu
  let k := r.1
  let t := k.table.setState pid .ready
  let new := t.pickNextContext pid
  if new = pid then { k with table := t, cpu := r.2 }
  else
    let k := k.setTask pid { k.task pid with regs := r.2 }
    { k with table := t.schedule new, cpu := (k.task new).regs }

def doSleep (ticks : UInt32) (pid : Nat) : Kernel :=
  let t := k.table.setCtx pid { k.table.ctxList pid with ticksToSleep := ticks, state := .waiting }
  ({ k with table := t } : Kernel).schedule (t.pickNextContext pid)

/-- `do_fork` and `do_cfork`: the child is a copy of the caller. -/
def copied (pid : Nat) (made : Option (Nat × Table)) : Option (Nat × Kernel) :=
  made.map fun (child, t) => (child, { k with table := t, task := update k.task child (k.task pid) })

def doFork (pgd pid : Nat) : Option (Nat × Kernel) := k.copied pid (k.table.doFork pgd pid)

def doCfork (pgd vmArea pid : Nat) : Option (Nat × Kernel) := k.copied pid (k.table.doCfork pgd vmArea pid)

/-- vfork_copy_mm moves the child's stack pointer and frame pointer. -/
def vforkRegs (regs : UserRegs) (offset : UInt64) : UserRegs :=
  { regs with entryRsp := regs.entryRsp - offset, rbp := regs.rbp - offset }

/-- `do_vfork`: the caller's return value is put into its saved registers, and the child runs. -/
def doVfork (pid : Nat) : Option Kernel :=
  k.table.getNewCtx.map fun child =>
    let ctx := k.table.ctxList pid
    let offset := vforkOffset ctx.stack
    let stack := { ctx.stack with nextFree := Vm.minus ctx.stack.nextFree offset }
    let t := k.table.setCtx child { ctx with ppid := pid, stack := stack, state := .ready }
    let c := k.task pid
    let k := k.setTask child { c with regs := vforkRegs c.regs (.ofNat offset) }
    let k := k.setTask pid { c with regs := { c.regs with rax := .ofNat child } }
    ({ k with table := t.setState pid .waiting } : Kernel).schedule child

/-- `do_clone` -/
def doClone (thFunc userStack : UInt64) (pid : Nat) : Option Kernel :=
  (k.table.doClone pid).map fun (child, t) =>
    let c := k.task pid
    { k with
      table := t
      task := update k.task child
        { c with regs := { c.regs with entryRip := thFunc, entryRsp := userStack, rbp := userStack } } }

/-- `do_signal` -/
def doSignal (signo : Int) (handler : UInt64) (pid : Nat) : Int × Kernel :=
  match Signal.ofInt signo with
  | some sig =>
    let c := k.task pid
    (0, k.setTask pid { c with sighandlers := update c.sighandlers sig handler })
  | none => (-1, k)

/-- `do_alarm` -/
def doAlarm (ticks : UInt32) (pid : Nat) : Int × Kernel :=
  if 0 < ticks then (0, k.setTask pid { k.task pid with alarmConfigTime := ticks, ticksToAlarm := ticks }) else (-1, k)

/-- do_syscall first saves the registers. -/
def enter (pid : Nat) : Kernel := k.setTask pid { k.task pid with regs := k.cpu }

/-- A signal for what the process has done: the return from the fault takes the registers from the stack. -/
def raise (pid : Nat) (signo : Signal) : Kernel :=
  let r := k.invokeSyncSignal pid signo k.cpu
  match r.2 with
  | some regs => { r.1 with cpu := regs }
  | none => r.1

/-- The return of a system call: rax is not taken from the stack. -/
def leave (ret : UInt64) : Kernel := { k with cpu := { k.cpu with rax := ret } }

end Kernel

/-! ## Runs -/

/-- A value of type long in rax. -/
def retval (ret : Int) : UInt64 := .ofInt ret

namespace Kernel

inductive Ev where
  /-- Instructions in user mode. -/
  | user (regs : UserRegs)
  | tick
  | exit
  | sleep (ticks : UInt32)
  | fork (pgd : Nat)
  | cfork (pgd vmArea : Nat)
  | vfork
  | clone (thFunc userStack : UInt64)
  | signal (signo : Int) (handler : UInt64)
  | alarm (ticks : UInt32)
  | getpid
  /-- Any other system call: what it returns, and what it leaves of the address space. -/
  | call (ret : UInt64) (code rodata data stack : MmSegment) (vmArea : Nat)
  /-- A page fault that is resolved. -/
  | fault (code rodata data stack : MmSegment) (vmArea : Nat)
  /-- A page fault that is not resolved. -/
  | segv
  | divByZero
  /-- A general protection fault. -/
  | gp

/-- `none`: nobody is there to take the step, or the table is full. -/
def step (k : Kernel) : Ev → Option Kernel
  | .user regs => k.table.current.map fun _ => { k with cpu := regs }
  | .tick => k.table.current.map k.handleTimerTick
  | .exit => k.table.caller.map fun pid => (k.enter pid).doExit pid
  | .sleep ticks => k.table.caller.map fun pid => (k.enter pid).doSleep ticks pid
  | .fork pgd => k.table.caller.bind fun pid => ((k.enter pid).doFork pgd pid).map fun r => r.2.leave (.ofNat r.1)
  | .cfork pgd vmArea =>
    k.table.caller.bind fun pid => ((k.enter pid).doCfork pgd vmArea pid).map fun r => r.2.leave (.ofNat r.1)
  | .vfork => k.table.caller.bind fun pid => (k.enter pid).doVfork pid
  | .clone thFunc userStack =>
    k.table.caller.bind fun pid => ((k.enter pid).doClone thFunc userStack pid).map fun k => k.leave 0
  | .signal signo handler => k.table.caller.map fun pid =>
    let r := (k.enter pid).doSignal signo handler pid
    r.2.leave (retval r.1)
  | .alarm ticks => k.table.caller.map fun pid =>
    let r := (k.enter pid).doAlarm ticks pid
    r.2.leave (retval r.1)
  | .getpid => k.table.caller.map fun pid => (k.enter pid).leave (.ofNat pid)
  | .call ret code rodata data stack vmArea => k.table.caller.map fun pid =>
    ({ k.enter pid with table := k.table.remap code rodata data stack vmArea pid } : Kernel).leave ret
  | .fault code rodata data stack vmArea => k.table.caller.map fun pid =>
    { k with table := k.table.remap code rodata data stack vmArea pid }
  | .segv => k.table.caller.map fun pid => k.raise pid .segv
  | .divByZero => k.table.caller.map fun pid => k.raise pid .fpe
  | .gp => k.table.caller.map k.doExit

def Start (k : Kernel) : Prop := k.table.Start

def machine : Machine Kernel Ev := ⟨Start, step⟩

end Kernel

end Cs330.Proc
