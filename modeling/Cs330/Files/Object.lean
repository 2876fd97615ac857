/-
  Cs330.Files.Object — gemOS's open files (file.h, pipe.h, fs.h): file objects, pipes and
  inodes, and the process table they are reached from.

  A pointer to a file object or a pipe is the page it lies in; `use` says what a page of
  the OS_DS region holds, which the source's bitmap only knows to be in use or not. How
  often a page has become a file object or a pipe, and stopped being one, is kept beside
  the state (`Count`): the code does not read it.

  A descriptor table is 32 slots, a NULL slot is `none`. alloc_file does not clear the
  page, so what a new object's fields hold before they are set is `junk`.
-/
import Cs330.Lib.CInt

namespace Cs330.Files

open Lib.CInt Function

def MAX_PROCESSES : Nat := 7
def MAX_OPEN_FILES : Nat := 32
def NUM_FILES : Nat := 32
def FILE_SIZE : Nat := 0x1000
def PIPE_MAX_SIZE : Nat := 4096

def EINVAL : Int := 1
def EACCES : Int := 4
def ENOMEM : Int := 5
def EOTHERS : Int := 6

def O_READ : UInt32 := 1
def O_WRITE : UInt32 := 2
def O_CREAT : UInt32 := 8

inductive FileType where
  | STDIN
  | STDOUT
  | STDERR
  | REGULAR
  | PIPE
  deriving DecidableEq, Repr

inductive ReadOp where
  | doReadKbd
  | doReadRegular
  | pipeRead
  deriving DecidableEq, Repr

inductive WriteOp where
  | doWriteConsole
  | doWriteRegular
  | pipeWrite
  deriving DecidableEq, Repr

/-- `struct fileops`: lseek can only be do_lseek_regular, close only generic_close. -/
structure Fileops where
  read : Option ReadOp
  write : Option WriteOp
  lseek : Bool
  close : Bool
  deriving DecidableEq, Repr

/-- `struct file`; `inode` is an index of the super block's inodes, `pipe` 0 for NULL. -/
structure File where
  type : FileType
  mode : UInt32
  offp : Nat
  refCount : Nat
  inode : Option Nat
  fops : Fileops
  pipe : Nat
  deriving DecidableEq, Repr

/-- `struct pipe_info`, with the bytes of the page `buffPage` that its pipe_buff points to. -/
structure PipeInfo where
  readPos : Int
  writePos : Int
  bufferOffset : Int
  isRopen : Int
  isWopen : Int
  buffPage : Nat
  pipeBuff : Nat → UInt8

/-- `struct inode`. -/
structure Inode where
  isValid : Bool
  filename : List UInt8
  mode : UInt32
  sPos : Nat
  ePos : Nat
  maxPos : Nat
  fileSize : Nat
  deriving DecidableEq, Repr

/-- The super block, and the memory the files lie in. -/
structure FlatFs where
  inode : Nat → Inode
  numFiles : Int
  store : Nat → UInt8

/-- `struct exec_context`: `used` if its state is not UNUSED. -/
structure Ctx where
  used : Bool
  files : Nat → Option Nat

/-- What a page of the OS_DS region is for. -/
inductive Use where
  | free
  | file
  | pipe
  /-- The pipe_buff of the pipe in page `p`. -/
  | buff (p : Nat)
  | other
  deriving DecidableEq, Repr

/-- For every page, how often it has become a file object or a pipe and stopped being one. -/
structure Count where
  fileAllocs : Nat → Nat
  fileFrees : Nat → Nat
  pipeAllocs : Nat → Nat
  pipeFrees : Nat → Nat

def bump (f : Nat → Nat) (a : Nat) : Nat → Nat := update f a (f a + 1)

structure Kernel where
  ctx : Nat → Ctx
  file : Nat → File
  pipe : Nat → PipeInfo
  use : Nat → Use
  fileObjects : Nat
  count : Count
  fs : FlatFs

/-- What a system call gives back: its value, if it returns one, the bytes it reads and the
    descriptors it stores. -/
structure Ret where
  value : Option Int
  data : List UInt8
  fds : List Nat
  deriving DecidableEq, Repr

def Ret.of (value : Int) : Ret := ⟨some value, [], []⟩

namespace Kernel

def setFile (s : Kernel) (a : Nat) (f : File) : Kernel := { s with file := update s.file a f }

def setPipe (s : Kernel) (p : Nat) (q : PipeInfo) : Kernel := { s with pipe := update s.pipe p q }

def setUse (s : Kernel) (a : Nat) (u : Use) : Kernel := { s with use := update s.use a u }

def setFiles (s : Kernel) (pid : Nat) (files : Nat → Option Nat) : Kernel :=
  { s with ctx := update s.ctx pid { s.ctx pid with files := files } }

/-- `ctx->files[fd] = v` -/
def setSlot (s : Kernel) (pid fd : Nat) (v : Option Nat) : Kernel := s.setFiles pid (update (s.ctx pid).files fd v)

end Kernel

end Cs330.Files
