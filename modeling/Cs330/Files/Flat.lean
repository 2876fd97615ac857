/-
  Cs330.Files.Flat — the flat file system (fs.c) and what file.c does with an inode:
  reading, writing and moving the offset of a regular file.

  A file lies in the memory from its inode's s_pos, and max_pos is behind its last byte.
  Counts come as u32 and are int from flat_read and flat_write on, offsets are u32 in the
  file object and int there.
-/
import Cs330.Files.Object

namespace Cs330.Files

open Lib.CInt Function

namespace FlatFs

def lookupInode (fs : FlatFs) (filename : List UInt8) : Option Nat :=
  (List.range NUM_FILES).find? fun i => (fs.inode i).isValid && (fs.inode i).filename == filename

def getFreeInode (fs : FlatFs) : Option Nat := (List.range NUM_FILES).find? fun i => !(fs.inode i).isValid

/-- create_inode and flat_create_inode; `none` for NULL. -/
def createInode (fs : FlatFs) (filename : List UInt8) (mode : UInt32) : Option Nat × FlatFs :=
  if fs.lookupInode filename ≠ none then (none, fs)
  else
    match fs.getFreeInode with
    | none => (none, fs)
    | some i =>
      (some i, { fs with
        inode := update fs.inode i { fs.inode i with
          isValid := true, mode := mode, filename := filename, maxPos := (fs.inode i).sPos, fileSize := 0 }
        numFiles := fs.numFiles + 1 })

/-- The bytes flat_read copies; it returns how many. -/
def flatRead (fs : FlatFs) (inode : Inode) (count offp : Nat) : List UInt8 :=
  let remainLen : Int := inode.fileSize - int32 offp
  if remainLen ≤ 0 then []
  else
    (List.range (u64 (if remainLen < int32 count then remainLen else int32 count))).map fun (i : Nat) =>
      fs.store (u64 (inode.sPos + int32 offp + i))

def flatWrite (fs : FlatFs) (i : Nat) (buff : Nat → UInt8) (count offp : Nat) : Int × FlatFs :=
  let inode := fs.inode i
  let maxLen : Int := inode.ePos - int32 offp - inode.sPos
  if maxLen < int32 count then (-1, fs)
  else
    let store := (List.range (u64 (int32 count))).foldl
      (fun (store : Nat → UInt8) (k : Nat) => update store (u64 (inode.sPos + int32 offp + k)) (buff k)) fs.store
    let last := u32 (inode.sPos + int32 offp + int32 count)
    let maxPos := if inode.maxPos < last then last else inode.maxPos
    (int32 count, { fs with
      inode := update fs.inode i { inode with maxPos := maxPos, fileSize := u32 (maxPos - inode.sPos) }
      store := store })

end FlatFs

/-- `flags & O_READ` -/
def has (flags flag : UInt32) : Bool := flags &&& flag != 0

namespace Kernel

def doReadRegular (s : Kernel) (a count : Nat) : Ret × Kernel :=
  match (s.file a).inode with
  | none => (.of (-EINVAL), s)
  | some i =>
    let filep := s.file a
    let temp := s.fs.inode i
    if temp.fileSize < u32 (filep.offp + count) then (.of (-EOTHERS), s)
    else if has filep.mode O_READ && !has temp.mode O_READ then (.of (-EACCES), s)
    else if !has filep.mode O_READ then (.of (-EACCES), s)
    else if FILE_SIZE < temp.fileSize then (.of (-EOTHERS), s)
    else
      let data := s.fs.flatRead temp count filep.offp
      (⟨some (int32 data.length), data, []⟩, s.setFile a { filep with offp := u32 (filep.offp + int32 data.length) })

def doWriteRegular (s : Kernel) (a : Nat) (buff : Nat → UInt8) (count : Nat) : Ret × Kernel :=
  match (s.file a).inode with
  | none => (.of (-EINVAL), s)
  | some i =>
    let filep := s.file a
    let temp := s.fs.inode i
    if FILE_SIZE < u32 (filep.offp + count) then (.of (-EOTHERS), s)
    else if has filep.mode O_WRITE && !has temp.mode O_WRITE then (.of (-EACCES), s)
    else if !has filep.mode O_WRITE then (.of (-EACCES), s)
    else if FILE_SIZE < temp.fileSize then (.of (-EOTHERS), s)
    else
      let r := s.fs.flatWrite i buff count filep.offp
      if r.1 = -1 then (.of (-EOTHERS), { s with fs := r.2 })
      else (.of r.1, { s with fs := r.2 }.setFile a { filep with offp := u32 (filep.offp + r.1) })

def SEEK_SET : Int := 0
def SEEK_CUR : Int := 1
def SEEK_END : Int := 2

def doLseekRegular (s : Kernel) (a : Nat) (offset whence : Int) : Ret × Kernel :=
  let filep := s.file a
  let newoffset : Int :=
    if whence = SEEK_CUR then int32 (int32 filep.offp + offset)
    else if whence = SEEK_END then int32 ((match filep.inode with | some i => (s.fs.inode i).fileSize | none => 0) + offset)
    else if whence = SEEK_SET then int32 offset
    else int32 filep.offp
  if FILE_SIZE ≤ newoffset then (.of (-EOTHERS), s)
  else (.of (u32 newoffset), s.setFile a { filep with offp := u32 newoffset })

end Kernel

end Cs330.Files
