/-
  Cs330.Files.Named — named byte arrays with shared offsets: what the calls on regular
  files are for.

  A directory has at most 32 files, each with the mode it was made with and at most
  FILE_SIZE bytes. Every open makes an object with an offset of its own; dup, dup2 and
  fork copy what a descriptor is, so copies of one descriptor share the offset. A read is
  all there and a write fits, or they are refused; a write behind the end of a file fills
  the gap with zeros, also one of no bytes.

  The standard descriptors are here because dup, dup2 and close work on them too.
-/
import Cs330.Files.Calls
import Mathlib.Data.List.GetD

namespace Cs330.Files

open Lib Function
open Kernel (Call Ev SEEK_CUR SEEK_END)

/-- The bytes of a file after `data` is written at `offset`. -/
def splice (bytes : List UInt8) (offset : Nat) (data : List UInt8) : List UInt8 :=
  (bytes ++ List.replicate (offset - bytes.length) 0).take offset ++ data ++ bytes.drop (offset + data.length)

theorem splice_length (bytes : List UInt8) (offset : Nat) (data : List UInt8) :
    (splice bytes offset data).length = max bytes.length (offset + data.length) := by
  unfold splice
  simp only [List.length_append, List.length_take, List.length_replicate, List.length_drop]
  omega

theorem splice_getD (bytes : List UInt8) (offset : Nat) (data : List UInt8) (k : Nat) :
    (splice bytes offset data).getD k 0 =
      if offset ≤ k ∧ k < offset + data.length then data.getD (k - offset) 0 else bytes.getD k 0 := by
  have hlen : ((bytes ++ List.replicate (offset - bytes.length) 0).take offset).length = offset := by
    simp only [List.length_take, List.length_append, List.length_replicate]
    omega
  unfold splice
  by_cases h1 : k < offset
  · rw [if_neg (by omega), List.append_assoc, List.getD_append _ _ _ _ (by omega)]
    simp only [List.getD_eq_getElem?_getD, List.getElem?_take, if_pos h1]
    by_cases h2 : k < bytes.length
    · rw [List.getElem?_append_left h2]
    · rw [List.getElem?_append_right (by omega), List.getElem?_eq_none (Nat.le_of_not_lt h2), List.getElem?_replicate]
      split <;> rfl
  · by_cases h2 : k < offset + data.length
    · rw [if_pos ⟨by omega, h2⟩, List.append_assoc, List.getD_append_right _ _ _ _ (by omega), hlen,
        List.getD_append _ _ _ _ (by omega)]
    · rw [if_neg (by omega), List.getD_append_right _ _ _ _ (by rw [List.length_append]; omega), List.length_append, hlen]
      simp only [List.getD_eq_getElem?_getD, List.getElem?_drop]
      rw [show offset + data.length + (k - (offset + data.length)) = k by omega]

/-- A file's mode and its bytes. -/
structure Bytes where
  mode : UInt32
  bytes : List UInt8
  short : bytes.length ≤ FILE_SIZE

def Bytes.empty (mode : UInt32) : Bytes := ⟨mode, [], Nat.zero_le _⟩

def Bytes.write (f : Bytes) (offset : Nat) (data : List UInt8) (h : offset + data.length ≤ FILE_SIZE) : Bytes :=
  ⟨f.mode, splice f.bytes offset data, by rw [splice_length]; exact Nat.max_le.mpr ⟨f.short, h⟩⟩

/-- The files there are, by name. -/
structure Dir where
  names : List (List UInt8)
  file : List UInt8 → Bytes
  nodup : names.Nodup
  few : names.length ≤ NUM_FILES

def Dir.create (d : Dir) (name : List UInt8) (mode : UInt32) (hnew : name ∉ d.names) (hfew : d.names.length < NUM_FILES) : Dir :=
  ⟨d.names ++ [name], update d.file name (.empty mode), List.nodup_append.mpr ⟨d.nodup, List.nodup_singleton name,
    fun a ha b hb e => hnew (List.mem_singleton.mp hb ▸ e ▸ ha)⟩, by rw [List.length_append]; exact hfew⟩

def Dir.put (d : Dir) (name : List UInt8) (f : Bytes) : Dir := { d with file := update d.file name f }

/-- What an open made. -/
structure Opened where
  name : List UInt8
  flags : UInt32
  offset : Nat

inductive Desc where
  | input
  | output
  | opened (id : Nat)
  deriving DecidableEq

structure Named where
  dir : Dir
  opened : Nat → Opened
  /-- How many opens there have been. -/
  opens : Nat
  used : Nat → Bool
  desc : Nat → Nat → Option Desc

namespace Named

/-- One process, its standard descriptors open, and no files. -/
def start : Named where
  dir := ⟨[], fun _ => .empty 0, List.nodup_nil, Nat.zero_le _⟩
  opened := fun _ => ⟨[], 0, 0⟩
  opens := 0
  used := fun pid => decide (pid = 0 ∨ pid = 1)
  desc := fun pid fd => if pid = 1 then [some .input, some .output, some .output].getD fd none else none

def setDesc (r : Named) (pid fd : Nat) (d : Option Desc) : Named :=
  { r with desc := update r.desc pid (update (r.desc pid) fd d) }

/-- The lowest descriptor from `low` on that is not open. -/
def lowest (r : Named) (pid low : Nat) : Option Nat :=
  (List.range' low (MAX_OPEN_FILES - low)).find? fun fd => (r.desc pid fd).isNone

/-- A file that is there is opened. -/
def openNamed (r : Named) (pid : Nat) (name : List UInt8) (flags : UInt32) : Ret × Named :=
  let mode := (r.dir.file name).mode
  if (has flags O_READ && !has mode O_READ) || (has flags O_WRITE && !has mode O_WRITE) then (.of (-EACCES), r)
  else
    match r.lowest pid 3 with
    | none => (.of (-EINVAL), r)
    | some fd => (.of fd, { r with opened := update r.opened r.opens ⟨name, flags, 0⟩, opens := r.opens + 1 }.setDesc pid fd
        (some (.opened r.opens)))

def openFile (r : Named) (pid : Nat) (name : List UInt8) (flags mode : UInt32) : Ret × Named :=
  if 256 ≤ name.length then (.of (-EOTHERS), r)
  else if hold : name ∈ r.dir.names then
    if has flags O_CREAT then (.of (-EOTHERS), r) else r.openNamed pid name flags
  else if has flags O_CREAT then
    if hfew : r.dir.names.length < NUM_FILES then { r with dir := r.dir.create name mode hold hfew }.openNamed pid name flags
    else (.of (-ENOMEM), r)
  else (.of (-EINVAL), r)

def dup (r : Named) (pid : Nat) (oldfd : Int) : Ret × Named :=
  if ¬ (0 ≤ oldfd ∧ oldfd < MAX_OPEN_FILES) then (.of (-EINVAL), r)
  else
    match r.desc pid oldfd.toNat, r.lowest pid 0 with
    | some d, some fd => (.of fd, r.setDesc pid fd (some d))
    | _, _ => (.of (-EINVAL), r)

def dup2 (r : Named) (pid : Nat) (oldfd newfd : Int) : Ret × Named :=
  if ¬ (0 ≤ oldfd ∧ oldfd < MAX_OPEN_FILES) then (.of (-EINVAL), r)
  else if ¬ (0 ≤ newfd ∧ newfd < MAX_OPEN_FILES) then (.of (-EINVAL), r)
  else
    match r.desc pid oldfd.toNat with
    | none => (.of (-EINVAL), r)
    | some d => (.of newfd, r.setDesc pid newfd.toNat (some d))

def close (r : Named) (pid fd : Nat) : Ret × Named :=
  match r.desc pid fd with
  | none => (.of (-EINVAL), r)
  | some _ => (⟨none, [], []⟩, r.setDesc pid fd none)

/-- The child has the lowest number there is, and its parent's descriptors. -/
def fork (r : Named) (pid : Nat) : Option (Ret × Named) :=
  ((List.range MAX_PROCESSES).find? fun child => !r.used child).map fun (child : Nat) =>
    (.of child, { r with used := update r.used child true, desc := update r.desc child (r.desc pid) })

def moveTo (r : Named) (id offset : Nat) : Named := { r with opened := update r.opened id { r.opened id with offset := offset } }

/-- The keyboard is not read here. -/
def read (r : Named) (pid fd count : Nat) : Option (Ret × Named) :=
  match r.desc pid fd with
  | none | some .output => some (.of (-EINVAL), r)
  | some .input => none
  | some (.opened id) =>
    let o := r.opened id
    let f := r.dir.file o.name
    if f.bytes.length < o.offset + count then some (.of (-EOTHERS), r)
    else if !(has o.flags O_READ && has f.mode O_READ) then some (.of (-EACCES), r)
    else some (⟨some count, (f.bytes.drop o.offset).take count, []⟩, r.moveTo id (o.offset + count))

/-- Nor is the console written. -/
def write (r : Named) (pid fd : Nat) (data : List UInt8) : Option (Ret × Named) :=
  match r.desc pid fd with
  | none | some .input => some (.of (-EINVAL), r)
  | some .output => none
  | some (.opened id) =>
    let o := r.opened id
    let f := r.dir.file o.name
    if hfit : o.offset + data.length ≤ FILE_SIZE then
      if !(has o.flags O_WRITE && has f.mode O_WRITE) then some (.of (-EACCES), r)
      else some (.of data.length,
        { r with dir := r.dir.put o.name (f.write o.offset data hfit) }.moveTo id (o.offset + data.length))
    else some (.of (-EOTHERS), r)

/-- Where an lseek goes. -/
def target (r : Named) (id : Nat) (offset whence : Int) : Int :=
  if whence = SEEK_CUR then (r.opened id).offset + offset
  else if whence = SEEK_END then (r.dir.file (r.opened id).name).bytes.length + offset
  else offset

def lseek (r : Named) (pid fd : Nat) (offset whence : Int) : Ret × Named :=
  match r.desc pid fd with
  | some (.opened id) => (.of (r.target id offset whence), r.moveTo id (r.target id offset whence).toNat)
  | _ => (.of (-EINVAL), r)

/-- Pages are nothing to it, and other calls are not its own. -/
def call (r : Named) (pid : Nat) : Call → Option (Ret × Named)
  | .openRegular filename flags mode _ _ => some (r.openFile pid filename flags.toUInt32 mode.toUInt32)
  | .dup oldfd => some (r.dup pid oldfd)
  | .dup2 oldfd newfd => some (r.dup2 pid oldfd newfd)
  | .close fd => some (r.close pid fd)
  | .fork => r.fork pid
  | .read fd count => r.read pid fd count
  | .write fd buff count => r.write pid fd ((List.range count).map buff)
  | .lseek fd offset whence => some (r.lseek pid fd offset whence)
  | _ => none

def step (r : Named) (e : Ev) : Option Named :=
  if e.pid < MAX_PROCESSES ∧ r.used e.pid then
    (r.call e.pid e.call).bind fun x => if x.1 = e.ret then some x.2 else none
  else none

def machine : Machine Named Ev := ⟨(· = start), step⟩

end Named

end Cs330.Files
