/-
  Cs330.Mm.Vfork — vfork, next to the calls of Cs330.Mm.Machine.

  vfork_copy_mm gives the child its parent's page table. It copies the stack to pages below
  the stack, as many bytes down as the stack is long and one page more (`vforkOffset`), and
  moves the child's `next_free` there; pages that are mapped there already are reused. The
  parent is WAITING until vfork_exit_handle makes it READY, with the child's DATA segment
  and areas.

  `awaits a = some c` (not in the code) says that `a` has called do_vfork and the child `c`
  of that call has not exited.
-/
import Cs330.Mm.Machine

namespace Cs330.Mm

open Lib Vm

/-- Where the loop over the stack stops, below its end. -/
def vforkOffset (seg : MmSegment) : Nat := 4096 * ((seg.stop - seg.nextFree) / 4096 + 1)

namespace Sys

/-- One page of the stack, `offset` bytes further down. -/
def vforkPage (s : Sys) (pick : Finset Nat → Nat) (child parent : Nat) (seg : MmSegment) (offset vaddr : Nat) : Sys :=
  match s.getUserPte parent vaddr with
  | none => s
  | some e =>
    match s.getUserPte child (minus vaddr offset) with
    | some curr => s.copyFrame curr.frame e.frame
    | none =>
      let r := s.installPtable pick child seg (minus vaddr offset) 0
      r.2.copyFrame r.1 e.frame

/-- `vfork_copy_mm` -/
def vforkCopyMm (s : Sys) (pick : Finset Nat → Nat) (child parent : Nat) : Sys :=
  let s := s.setCtx parent { s.ctxList parent with state := .waiting }
  let seg := (s.ctxList child).stack
  let offset := vforkOffset seg
  let s := (vaddrsDown seg.nextFree seg.stop).foldl (fun s v => s.vforkPage pick child parent seg offset v) s
  s.setCtx child { s.ctxList child with stack := { seg with nextFree := minus seg.nextFree offset } }

/-- `do_vfork`: the child's pid, if there is a slot. The child runs next. -/
def doVfork (s : Sys) (pick : Finset Nat → Nat) (pid : Nat) : Option (Nat × Sys) :=
  s.getNewCtx.map fun child =>
    let s' := (s.setCtx child { s.ctxList pid with ppid := pid }).vforkCopyMm pick child pid
    (child, s'.setCtx child { s'.ctxList child with state := .running })

end Sys

/-! ## Runs with vfork -/

structure Vsys where
  sys : Sys
  awaits : Nat → Option Nat

namespace Vsys

inductive Ev where
  | call (e : Mm.Ev)
  | vfork (pid : Nat) (pick : Finset Nat → Nat)

def Ev.pid : Ev → Nat
  | .call e => e.pid
  | .vfork pid _ => pid

/-- A process that has exited is awaited no more. -/
def settle (v : Vsys) (pid : Nat) (s : Sys) : Vsys where
  sys := s
  awaits := fun a => if (s.ctxList pid).state = .unused ∧ v.awaits a = some pid then none else v.awaits a

def stepAt (v : Vsys) : Ev → Option Vsys
  | .call e => (v.sys.step e).map (v.settle e.pid)
  | .vfork pid pick => (v.sys.doVfork pick pid).map fun r => ⟨r.2, Function.update v.awaits pid (some r.1)⟩

/-- A step of a process that is not WAITING. -/
def step (v : Vsys) (e : Ev) : Option Vsys :=
  if v.sys.Live e.pid ∧ (v.sys.ctxList e.pid).state ≠ .waiting then v.stepAt e else none

def Start (v : Vsys) : Prop := v.sys.Start ∧ v.awaits = fun _ => none

def machine : Machine Vsys Ev := ⟨Start, step⟩

def Promised (v : Vsys) : Ev → Prop
  | .call e => v.sys.Promised e
  | .vfork _ pick => Sys.Picks pick

/-- A vfork child that has not exited. -/
def IsChild (v : Vsys) (i : Nat) : Prop := ∃ a, v.awaits a = some i

/-- Neither a suspended vfork parent nor a running vfork child. -/
def Free (v : Vsys) (i : Nat) : Prop := v.awaits i = none ∧ ¬ v.IsChild i

/-- A vfork child whose parent is not one itself. -/
def IsOuterChild (v : Vsys) (i : Nat) : Prop := ∃ a, v.awaits a = some i ∧ ¬ v.IsChild a

/-- The step ends the process that takes it: an exit, or a fault that is not resolved. -/
def Ends (v : Vsys) : Ev → Prop
  | .call e => ∃ s, v.sys.step e = some s ∧ (s.ctxList e.pid).state = .unused
  | .vfork _ _ => False

end Vsys

end Cs330.Mm
