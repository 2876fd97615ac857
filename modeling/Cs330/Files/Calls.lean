/-
  Cs330.Files.Calls — the calls on descriptors (file.c, pipe.c, entry.c), fork and exit,
  and the machine they make.

  A process is a used slot of the process table. The allocator's answers are part of a
  call: any pages it names, which `Promised` wants unused and not NULL. Descriptors the
  code does not check are taken from the table's range, and open_standard_IO from states
  where its search for a slot ends. Reading the keyboard and writing the console are left
  out; do_close has no return statement, so a close that succeeds has no value.
-/
import Cs330.Files.Flat
import Cs330.Files.Pipe
import Cs330.Lib.Machine

namespace Cs330.Files

open Lib Lib.CInt Function

namespace FileType

def num : FileType → Nat
  | STDIN => 0
  | STDOUT => 1
  | STDERR => 2
  | REGULAR => 3
  | PIPE => 4

end FileType

namespace Kernel

/-! ## File objects -/

def noFops : Fileops := ⟨none, none, false, false⟩

def allocFile (s : Kernel) (page : Nat) (junk : File) : Kernel :=
  { (s.setUse page .file).setFile page { junk with fops := noFops } with
    fileObjects := u64 (s.fileObjects + 1)
    count := { s.count with fileAllocs := bump s.count.fileAllocs page } }

def freeFileObject (s : Kernel) (a : Nat) : Kernel :=
  { s.setUse a .free with
    fileObjects := u64 (s.fileObjects - 1)
    count := { s.count with fileFrees := bump s.count.fileFrees a } }

/-- alloc_pipe_info, and what create_pipe stores in it. -/
def allocPipeInfo (s : Kernel) (page buffPage : Nat) (pipeBuff : Nat → UInt8) : Kernel :=
  { ((s.setUse page .pipe).setUse buffPage (.buff page)).setPipe page (newPipe buffPage pipeBuff) with
    count := { s.count with pipeAllocs := bump s.count.pipeAllocs page } }

def freePipeInfo (s : Kernel) (p : Nat) : Kernel :=
  { (s.setUse (s.pipe p).buffPage .free).setUse p .free with
    count := { s.count with pipeFrees := bump s.count.pipeFrees p } }

def createStandardIO (s : Kernel) (type : FileType) (page : Nat) (junk : File) : Kernel :=
  (s.allocFile page junk).setFile page { junk with
    type := type
    mode := if type = .STDIN then O_READ else O_WRITE
    refCount := 1
    fops := if type = .STDIN then ⟨some .doReadKbd, none, false, true⟩ else ⟨none, some .doWriteConsole, false, true⟩ }

/-- `filep->pipe->is_ropen = 0` for the read end, `is_wopen = 0` for the write end. -/
def closeEnd (s : Kernel) (filep : File) : Kernel :=
  s.setPipe filep.pipe { s.pipe filep.pipe with
    isRopen := if filep.mode = O_READ then 0 else (s.pipe filep.pipe).isRopen
    isWopen := if filep.mode = O_WRITE then 0 else (s.pipe filep.pipe).isWopen }

def genericClose (s : Kernel) (a : Nat) : Kernel :=
  let filep := s.file a
  if filep.refCount = 1 then
    if filep.type = .PIPE then
      let t := s.closeEnd filep
      if (t.pipe filep.pipe).isWopen = 0 ∧ (t.pipe filep.pipe).isRopen = 0 then
        (t.freePipeInfo filep.pipe).freeFileObject a
      else t.freeFileObject a
    else s.freeFileObject a
  else s.setFile a { filep with refCount := u32 (filep.refCount - 1) }

/-- `ref_count++` -/
def addRef (s : Kernel) (a : Nat) : Kernel := s.setFile a { s.file a with refCount := u32 ((s.file a).refCount + 1) }

/-! ## Descriptors -/

/-- `while(fd<MAX_OPEN_FILES && ctx->files[fd]) fd++;` from `first` on. -/
def freeSlot (files : Nat → Option Nat) (first : Nat) : Option Nat :=
  (List.range' first (MAX_OPEN_FILES - first)).find? fun fd => (files fd).isNone

def openStandardIO (s : Kernel) (pid : Nat) (type : FileType) (page : Nat) (junk : File) : Option (Ret × Kernel) :=
  match (s.ctx pid).files type.num with
  | none => some (.of type.num, (s.createStandardIO type page junk).setSlot pid type.num (some page))
  | some a => (freeSlot (s.ctx pid).files 3).map fun (fd : Nat) => (.of fd, (s.addRef a).setSlot pid fd (some a))

/-- `filep` as do_regular_file_open fills it in. -/
def regularFile (i : Nat) (flags : UInt64) : File :=
  ⟨.REGULAR, flags.toUInt32, 0, 1, some i, ⟨some .doReadRegular, some .doWriteRegular, true, true⟩, 0⟩

/-- From `if(temp->file_size > FILE_SIZE)` on, with inode `i`. -/
def openInode (s : Kernel) (pid i : Nat) (flags : UInt64) (page : Nat) (junk : File) : Ret × Kernel :=
  let temp := s.fs.inode i
  if FILE_SIZE < temp.fileSize then (.of (-EOTHERS), s)
  else if (has flags.toUInt32 O_READ && !has temp.mode O_READ) || (has flags.toUInt32 O_WRITE && !has temp.mode O_WRITE) then
    (.of (-EACCES), s)
  else
    match freeSlot (s.ctx pid).files 3 with
    | none => (.of (-EINVAL), s)
    | some fd =>
      if page = 0 then (.of (-ENOMEM), s.allocFile page junk)
      else (.of fd, ((s.allocFile page junk).setSlot pid fd (some page)).setFile page (regularFile i flags))

def doRegularFileOpen (s : Kernel) (pid : Nat) (filename : List UInt8) (flags mode : UInt64) (page : Nat) (junk : File) :
    Ret × Kernel :=
  if 256 ≤ filename.length then (.of (-EOTHERS), s)
  else
    match s.fs.lookupInode filename with
    | none =>
      if has flags.toUInt32 O_CREAT then
        match s.fs.createInode filename mode.toUInt32 with
        | (none, fs) => (.of (-ENOMEM), { s with fs := fs })
        | (some i, fs) => { s with fs := fs }.openInode pid i flags page junk
      else (.of (-EINVAL), s)
    | some i => if has flags.toUInt32 O_CREAT then (.of (-EOTHERS), s) else s.openInode pid i flags page junk

/-- The two ends as create_pipe fills them in; `offp` keeps what was in the page. -/
def readEnd (p : Nat) (junk : File) : File := ⟨.PIPE, O_READ, junk.offp, 1, none, ⟨some .pipeRead, none, false, true⟩, p⟩
def writeEnd (p : Nat) (junk : File) : File := ⟨.PIPE, O_WRITE, junk.offp, 1, none, ⟨none, some .pipeWrite, false, true⟩, p⟩

/-- What the allocator gives create_pipe, and what is in the pages. -/
structure PipePages where
  file1 : Nat
  file2 : Nat
  info : Nat
  buff : Nat
  junk1 : File
  junk2 : File
  bytes : Nat → UInt8

def createPipe (s : Kernel) (pid : Nat) (pages : PipePages) : Ret × Kernel :=
  match freeSlot (s.ctx pid).files 3 with
  | none => (.of (-EINVAL), s)
  | some fd0 =>
    match freeSlot (s.ctx pid).files (fd0 + 1) with
    | none => (⟨some (-EINVAL), [], [fd0]⟩, s)
    | some fd1 =>
      let t := (((s.allocFile pages.file1 pages.junk1).allocFile pages.file2 pages.junk2).setSlot pid fd0
        (some pages.file1)).setSlot pid fd1 (some pages.file2)
      (⟨some 0, [], [fd0, fd1]⟩, ((t.allocPipeInfo pages.info pages.buff pages.bytes).setFile pages.file1
        (readEnd pages.info pages.junk1)).setFile pages.file2 (writeEnd pages.info pages.junk2))

def fdDup (s : Kernel) (pid : Nat) (oldfd : Int) : Ret × Kernel :=
  if ¬ (0 ≤ oldfd ∧ oldfd < MAX_OPEN_FILES) then (.of (-EINVAL), s)
  else
    match (s.ctx pid).files oldfd.toNat with
    | none => (.of (-EINVAL), s)
    | some a =>
      match freeSlot (s.ctx pid).files 0 with
      | none => (.of (-EINVAL), s)
      | some fd => (.of fd, (s.setSlot pid fd (some a)).addRef a)

def fdDup2 (s : Kernel) (pid : Nat) (oldfd newfd : Int) : Ret × Kernel :=
  if ¬ (0 ≤ oldfd ∧ oldfd < MAX_OPEN_FILES) then (.of (-EINVAL), s)
  else if ¬ (0 ≤ newfd ∧ newfd < MAX_OPEN_FILES) then (.of (-EINVAL), s)
  else
    match (s.ctx pid).files oldfd.toNat with
    | none => (.of (-EINVAL), s)
    | some a =>
      if oldfd = newfd then (.of newfd, s)
      else
        let t := match (s.ctx pid).files newfd.toNat with
          | none => s
          | some b => s.genericClose b
        (.of newfd, (t.setSlot pid newfd.toNat (some a)).addRef a)

def doClose (s : Kernel) (pid fd : Nat) : Ret × Kernel :=
  match (s.ctx pid).files fd with
  | none => (.of (-EINVAL), s)
  | some a =>
    if (s.file a).fops.close then (⟨none, [], []⟩, (s.setSlot pid fd none).genericClose a) else (.of (-EINVAL), s)

/-! ## fork and exit -/

def getNewCtx (s : Kernel) : Option Nat := (List.range MAX_PROCESSES).find? fun pid => !(s.ctx pid).used

def doFileFork (s : Kernel) (child : Nat) : Kernel :=
  (List.range MAX_OPEN_FILES).foldl (fun s i => match (s.ctx child).files i with
    | none => s
    | some a => s.addRef a) s

def doFork (s : Kernel) (pid : Nat) : Option (Ret × Kernel) :=
  s.getNewCtx.map fun (child : Nat) =>
    (.of child, { s with ctx := update s.ctx child { s.ctx pid with used := true } }.doFileFork child)

def doFileExit (s : Kernel) (pid : Nat) : Kernel :=
  (List.range MAX_OPEN_FILES).foldl (fun s i => match (s.ctx pid).files i with
    | none => s
    | some a => (s.genericClose a).setSlot pid i none) s

def doExit (s : Kernel) (pid : Nat) : Kernel :=
  let t := s.doFileExit pid
  { t with ctx := update t.ctx pid { t.ctx pid with used := false } }

/-! ## read, write and lseek -/

def doFileRead (s : Kernel) (pid fd count : Nat) : Option (Ret × Kernel) :=
  match (s.ctx pid).files fd with
  | none => some (.of (-EINVAL), s)
  | some a =>
    match (s.file a).fops.read with
    | none => some (.of (-EINVAL), s)
    | some .doReadRegular => some (s.doReadRegular a (u32 count))
    | some .pipeRead =>
      if (s.file a).pipe = 0 then some (.of (-EINVAL), s)
      else
        let r := Files.pipeRead (s.file a).mode (s.pipe (s.file a).pipe) (u32 count)
        some (⟨some r.1.1, r.1.2, []⟩, s.setPipe (s.file a).pipe r.2)
    | some .doReadKbd => none

def doFileWrite (s : Kernel) (pid fd : Nat) (buff : Nat → UInt8) (count : Nat) : Option (Ret × Kernel) :=
  match (s.ctx pid).files fd with
  | none => some (.of (-EINVAL), s)
  | some a =>
    match (s.file a).fops.write with
    | none => some (.of (-EINVAL), s)
    | some .doWriteRegular => some (s.doWriteRegular a buff (u32 count))
    | some .pipeWrite =>
      if (s.file a).pipe = 0 then some (.of (-EINVAL), s)
      else
        let r := Files.pipeWrite (s.file a).mode (s.pipe (s.file a).pipe) buff (u32 count)
        some (.of r.1, s.setPipe (s.file a).pipe r.2)
    | some .doWriteConsole => none

def doLseek (s : Kernel) (pid fd : Nat) (offset whence : Int) : Ret × Kernel :=
  match (s.ctx pid).files fd with
  | none => (.of (-EINVAL), s)
  | some a => if (s.file a).fops.lseek then s.doLseekRegular a offset whence else (.of (-EINVAL), s)

/-! ## The machine -/

/-- create_context, as far as descriptors go: a new process with the three standard files. -/
def createContext (s : Kernel) (pid : Nat) (page1 page2 page3 : Nat) (junk1 junk2 junk3 : File) : Kernel :=
  let t := (s.createStandardIO .STDIN page1 junk1).setSlot pid 0 (some page1)
  let t := (t.createStandardIO .STDOUT page2 junk2).setSlot pid 1 (some page2)
  let t := (t.createStandardIO .STDERR page3 junk3).setSlot pid 2 (some page3)
  { t with ctx := update t.ctx pid { t.ctx pid with used := true } }

inductive Call where
  | openRegular (filename : List UInt8) (flags mode : UInt64) (page : Nat) (junk : File)
  | openStandard (type : FileType) (page : Nat) (junk : File)
  | pipe (pages : PipePages)
  | dup (oldfd : Int)
  | dup2 (oldfd newfd : Int)
  | close (fd : Nat)
  | fork
  | exit
  | read (fd count : Nat)
  | write (fd : Nat) (buff : Nat → UInt8) (count : Nat)
  | lseek (fd : Nat) (offset whence : Int)

def call (s : Kernel) (pid : Nat) : Call → Option (Ret × Kernel)
  | .openRegular filename flags mode page junk => some (s.doRegularFileOpen pid filename flags mode page junk)
  | .openStandard type page junk => s.openStandardIO pid type page junk
  | .pipe pages => some (s.createPipe pid pages)
  | .dup oldfd => some (s.fdDup pid oldfd)
  | .dup2 oldfd newfd => some (s.fdDup2 pid oldfd newfd)
  | .close fd => some (s.doClose pid fd)
  | .fork => s.doFork pid
  | .exit => some (⟨none, [], []⟩, s.doExit pid)
  | .read fd count => s.doFileRead pid fd count
  | .write fd buff count => s.doFileWrite pid fd buff count
  | .lseek fd offset whence => some (s.doLseek pid fd offset whence)

/-- A call by a process, and what it gives back. -/
structure Ev where
  pid : Nat
  call : Call
  ret : Ret

def step (s : Kernel) (e : Ev) : Option Kernel :=
  if e.pid < MAX_PROCESSES ∧ (s.ctx e.pid).used then
    (s.call e.pid e.call).bind fun r => if r.1 = e.ret then some r.2 else none
  else none

/-- What the allocator gives is unused, and not NULL. -/
def Fresh (s : Kernel) (pages : List Nat) : Prop := pages.Nodup ∧ ∀ a ∈ pages, s.use a = .free ∧ a ≠ 0

/-- The promises of the allocator, and descriptors in the table's range. -/
def Promised (s : Kernel) (e : Ev) : Prop :=
  match e.call with
  | .openRegular _ _ _ page _ => s.Fresh [page]
  | .openStandard type page _ => type.num < 3 ∧ s.Fresh [page]
  | .pipe pages => s.Fresh [pages.file1, pages.file2, pages.info, pages.buff]
  | .close fd | .read fd _ | .write fd _ _ | .lseek fd _ _ => fd < MAX_OPEN_FILES
  | _ => True

instance (s : Kernel) (pages : List Nat) : Decidable (s.Fresh pages) :=
  inferInstanceAs (Decidable (pages.Nodup ∧ ∀ a ∈ pages, s.use a = .free ∧ a ≠ 0))

instance (s : Kernel) (e : Ev) : Decidable (s.Promised e) :=
  match e with
  | ⟨_, .openRegular _ _ _ page _, _⟩ => inferInstanceAs (Decidable (s.Fresh [page]))
  | ⟨_, .openStandard type page _, _⟩ => inferInstanceAs (Decidable (type.num < 3 ∧ s.Fresh [page]))
  | ⟨_, .pipe pages, _⟩ => inferInstanceAs (Decidable (s.Fresh [pages.file1, pages.file2, pages.info, pages.buff]))
  | ⟨_, .close fd, _⟩ | ⟨_, .read fd _, _⟩ | ⟨_, .write fd _ _, _⟩ | ⟨_, .lseek fd _ _, _⟩ =>
    inferInstanceAs (Decidable (fd < MAX_OPEN_FILES))
  | ⟨_, .dup _, _⟩ | ⟨_, .dup2 _ _, _⟩ | ⟨_, .fork, _⟩ | ⟨_, .exit, _⟩ => inferInstanceAs (Decidable True)

/-- Before the first process: no page holds a file object or a pipe, the swapper has no
    files, and init_file_system has made 32 free inodes, each with a page of zeros. -/
structure Boot (s : Kernel) : Prop where
  used : ∀ pid, (s.ctx pid).used = decide (pid = 0)
  files : ∀ pid fd, (s.ctx pid).files fd = none
  use : ∀ a, s.use a = .free ∨ s.use a = .other
  fileObjects : s.fileObjects = 0
  count : s.count = ⟨fun _ => 0, fun _ => 0, fun _ => 0, fun _ => 0⟩
  numFiles : s.fs.numFiles = 0
  invalid : ∀ i < NUM_FILES, (s.fs.inode i).isValid = false
  bounds : ∀ i < NUM_FILES, (s.fs.inode i).ePos = (s.fs.inode i).sPos + FILE_SIZE ∧ (s.fs.inode i).ePos < 2 ^ 32
  apart : ∀ i < NUM_FILES, ∀ j < NUM_FILES, i ≠ j →
    (s.fs.inode i).ePos ≤ (s.fs.inode j).sPos ∨ (s.fs.inode j).ePos ≤ (s.fs.inode i).sPos
  zero : ∀ i < NUM_FILES, ∀ k < FILE_SIZE, s.fs.store ((s.fs.inode i).sPos + k) = 0

/-- With the first process. -/
def Start (s : Kernel) : Prop :=
  ∃ (b : Kernel) (page1 page2 page3 : Nat) (junk1 junk2 junk3 : File), b.Boot ∧ b.Fresh [page1, page2, page3] ∧
    s = b.createContext 1 page1 page2 page3 junk1 junk2 junk3

def machine : Machine Kernel Ev := ⟨Start, step⟩

end Kernel

end Cs330.Files
