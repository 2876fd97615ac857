/-
  Cs330.Files.Channels — bounded channels of bytes, shared through descriptors: what pipes
  are for.

  A channel is the bytes that have been sent and how many of them have been taken; what
  is pending is at most PIPE_MAX_SIZE bytes. A descriptor is a side of a channel, or
  nothing of ours (`Side.other`): what calls on those give back is left open. dup, dup2,
  fork and open_standard_IO copy what a descriptor is, so the two sides of a channel get
  to other processes; a read takes the next bytes, whoever sent them and whoever else
  reads, and a channel lasts while one side of it is open somewhere.

  Nothing here is shut by closing: a side that somebody still has works as before.
-/
import Cs330.Files.Calls

namespace Cs330.Files

open Lib Function
open Kernel (Call Ev)

structure Channel where
  sent : List UInt8
  taken : Nat
  sentFirst : taken ≤ sent.length

namespace Channel

def empty : Channel := ⟨[], 0, Nat.le_refl 0⟩

def pending (c : Channel) : List UInt8 := c.sent.drop c.taken

theorem pending_length (c : Channel) : c.taken + c.pending.length = c.sent.length := by
  have := c.sentFirst
  unfold pending
  rw [List.length_drop]
  omega

def take (c : Channel) (count : Nat) (h : count ≤ c.pending.length) : Channel :=
  ⟨c.sent, c.taken + count, by have := c.pending_length; omega⟩

def send (c : Channel) (data : List UInt8) : Channel :=
  ⟨c.sent ++ data, c.taken, by have := c.sentFirst; rw [List.length_append]; omega⟩

@[simp] theorem pending_take (c : Channel) (count : Nat) (h : count ≤ c.pending.length) :
    (c.take count h).pending = c.pending.drop count := List.drop_drop.symm

@[simp] theorem pending_send (c : Channel) (data : List UInt8) : (c.send data).pending = c.pending ++ data :=
  List.drop_append_of_le_length c.sentFirst

@[simp] theorem pending_empty : empty.pending = [] := rfl

end Channel

inductive Side where
  | other
  | reads (c : Nat)
  | writes (c : Nat)
  deriving DecidableEq

structure Channels where
  used : Nat → Bool
  desc : Nat → Nat → Option Side
  channel : Nat → Channel
  /-- How many channels there have been. -/
  made : Nat

namespace Channels

/-- One process, its standard descriptors open, and no channels. -/
def start : Channels where
  used := fun pid => decide (pid = 0 ∨ pid = 1)
  desc := fun pid fd => if pid = 1 ∧ fd < 3 then some .other else none
  channel := fun _ => .empty
  made := 0

def setDesc (r : Channels) (pid fd : Nat) (d : Option Side) : Channels :=
  { r with desc := update r.desc pid (update (r.desc pid) fd d) }

def setChannel (r : Channels) (c : Nat) (ch : Channel) : Channels := { r with channel := update r.channel c ch }

/-- The lowest descriptor from `low` on that is not open. -/
def lowest (r : Channels) (pid low : Nat) : Option Nat :=
  (List.range' low (MAX_OPEN_FILES - low)).find? fun fd => (r.desc pid fd).isNone

/-- An open that gives back `ret`. -/
def openOther (r : Channels) (pid : Nat) (ret : Ret) : Option (Ret × Channels) :=
  if 0 ≤ ret.value.getD (-1) then (r.lowest pid 3).map fun (fd : Nat) => (.of fd, r.setDesc pid fd (some .other))
  else some (ret, r)

def openStandard (r : Channels) (pid num : Nat) : Option (Ret × Channels) :=
  match r.desc pid num with
  | none => some (.of num, r.setDesc pid num (some .other))
  | some d => (r.lowest pid 3).map fun (fd : Nat) => (.of fd, r.setDesc pid fd (some d))

/-- A channel, and its two sides in two descriptors. -/
def pipe (r : Channels) (pid : Nat) : Ret × Channels :=
  match r.lowest pid 3 with
  | none => (.of (-EINVAL), r)
  | some fd0 =>
    match r.lowest pid (fd0 + 1) with
    | none => (⟨some (-EINVAL), [], [fd0]⟩, r)
    | some fd1 => (⟨some 0, [], [fd0, fd1]⟩,
        (({ r with channel := update r.channel r.made .empty, made := r.made + 1 }.setDesc pid fd0
          (some (.reads r.made))).setDesc pid fd1 (some (.writes r.made))))

def dup (r : Channels) (pid : Nat) (oldfd : Int) : Ret × Channels :=
  if ¬ (0 ≤ oldfd ∧ oldfd < MAX_OPEN_FILES) then (.of (-EINVAL), r)
  else
    match r.desc pid oldfd.toNat, r.lowest pid 0 with
    | some d, some fd => (.of fd, r.setDesc pid fd (some d))
    | _, _ => (.of (-EINVAL), r)

def dup2 (r : Channels) (pid : Nat) (oldfd newfd : Int) : Ret × Channels :=
  if ¬ (0 ≤ oldfd ∧ oldfd < MAX_OPEN_FILES) then (.of (-EINVAL), r)
  else if ¬ (0 ≤ newfd ∧ newfd < MAX_OPEN_FILES) then (.of (-EINVAL), r)
  else
    match r.desc pid oldfd.toNat with
    | none => (.of (-EINVAL), r)
    | some d => (.of newfd, r.setDesc pid newfd.toNat (some d))

def close (r : Channels) (pid fd : Nat) : Ret × Channels :=
  match r.desc pid fd with
  | none => (.of (-EINVAL), r)
  | some _ => (⟨none, [], []⟩, r.setDesc pid fd none)

/-- The child has the lowest number there is, and its parent's descriptors. -/
def fork (r : Channels) (pid : Nat) : Option (Ret × Channels) :=
  ((List.range MAX_PROCESSES).find? fun child => !r.used child).map fun (child : Nat) =>
    (.of child, { r with used := update r.used child true, desc := update r.desc child (r.desc pid) })

def exit (r : Channels) (pid : Nat) : Channels :=
  { r with used := update r.used pid false, desc := update r.desc pid fun _ => none }

/-- All the bytes asked for, or none. -/
def read (r : Channels) (pid fd count : Nat) (ret : Ret) : Ret × Channels :=
  match r.desc pid fd with
  | some .other => (ret, r)
  | some (.reads c) =>
    if h : count ≤ (r.channel c).pending.length then
      (⟨some count, (r.channel c).pending.take count, []⟩, r.setChannel c ((r.channel c).take count h))
    else (.of (-EOTHERS), r)
  | _ => (.of (-EINVAL), r)

def write (r : Channels) (pid fd : Nat) (data : List UInt8) (ret : Ret) : Ret × Channels :=
  match r.desc pid fd with
  | some .other => (ret, r)
  | some (.writes c) =>
    if (r.channel c).pending.length + data.length ≤ PIPE_MAX_SIZE then
      (.of data.length, r.setChannel c ((r.channel c).send data))
    else (.of (-EOTHERS), r)
  | _ => (.of (-EINVAL), r)

/-- A channel has no offset. -/
def lseek (r : Channels) (pid fd : Nat) (ret : Ret) : Ret × Channels :=
  match r.desc pid fd with
  | some .other => (ret, r)
  | _ => (.of (-EINVAL), r)

/-- A call that gives back `ret`, where that is not ours to say. -/
def call (r : Channels) (pid : Nat) (ret : Ret) : Call → Option (Ret × Channels)
  | .openRegular .. => r.openOther pid ret
  | .openStandard type .. => r.openStandard pid type.num
  | .pipe _ => some (r.pipe pid)
  | .dup oldfd => some (r.dup pid oldfd)
  | .dup2 oldfd newfd => some (r.dup2 pid oldfd newfd)
  | .close fd => some (r.close pid fd)
  | .fork => r.fork pid
  | .exit => some (⟨none, [], []⟩, r.exit pid)
  | .read fd count => some (r.read pid fd count ret)
  | .write fd buff count => some (r.write pid fd ((List.range count).map buff) ret)
  | .lseek fd _ _ => some (r.lseek pid fd ret)

def step (r : Channels) (e : Ev) : Option Channels :=
  if e.pid < MAX_PROCESSES ∧ r.used e.pid then
    (r.call e.pid e.ret e.call).bind fun x => if x.1 = e.ret then some x.2 else none
  else none

def machine : Machine Channels Ev := ⟨(· = start), step⟩

end Channels

end Cs330.Files
