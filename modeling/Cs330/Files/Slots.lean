/-
  Cs330.Files.Slots — which slots of the descriptor table a call looks at.

  The calls are those of `Files.Calls`, written again with every access to ctx->files as a
  step of its own that stops at an index the table does not have (`Access`). The searches
  of do_regular_file_open, create_pipe and fd_dup stay in the table, and fd_dup and fd_dup2
  check their arguments; read, write, close and lseek check nothing, and open_standard_IO
  looks for a free slot until it finds one. `slots_exact`: a call stays in the table, and
  fails cleanly when it lacks a slot, if and only if its descriptor is one or its search
  ends; `outside_table` has one of each kind. A call that stays in the table is the call of
  `Files.Calls` (`tableCall_eq`).
-/
import Cs330.Files.OpenFails

namespace Cs330.Files

open Lib Lib.CInt Function
open Kernel (freeSlot freeSlot_spec)

/-- A computation that stops, with the index, where it would leave the table. -/
abbrev Access := Except Int

def InTable (i : Int) : Prop := 0 ≤ i ∧ i < MAX_OPEN_FILES

instance (i : Int) : Decidable (InTable i) := inferInstanceAs (Decidable (_ ∧ _))

/-- `ctx->files[i]` -/
def slotAt (files : Nat → Option Nat) (i : Int) : Access (Option Nat) :=
  if InTable i then .ok (files i.toNat) else .error i

/-- `while(fd<MAX_OPEN_FILES && ctx->files[fd]) fd++;` -/
def searchSlot (files : Nat → Option Nat) : Nat → Nat → Access Nat
  | 0, fd => .ok fd
  | fuel + 1, fd =>
    if fd < MAX_OPEN_FILES then do
      match ← slotAt files fd with
      | none => return fd
      | some _ => searchSlot files fuel (fd + 1)
    else return fd

/-- `while(ctx->files[fd]) fd++;` -/
def searchAny (files : Nat → Option Nat) : Nat → Nat → Access Nat
  | 0, fd => .ok fd
  | fuel + 1, fd => do
    match ← slotAt files fd with
    | none => return fd
    | some _ => searchAny files fuel (fd + 1)

/-- A page as a pointer. -/
def pointer (page : Nat) : Option Nat := if page = 0 then none else some page

/-- What do_file_open compares the name with. -/
def standardType (filename : List UInt8) : Option FileType :=
  if filename = [115, 116, 100, 105, 110] then some .STDIN
  else if filename = [115, 116, 100, 111, 117, 116] then some .STDOUT
  else if filename = [115, 116, 100, 101, 114, 114] then some .STDERR
  else none

namespace Kernel

/-- `ctx->files[i] = v` -/
def slotPut (s : Kernel) (pid : Nat) (i : Int) (v : Option Nat) : Access Kernel :=
  if InTable i then .ok (s.setSlot pid i.toNat v) else .error i

/-! ## The calls -/

namespace Slots

def openStandardIO (s : Kernel) (pid : Nat) (type : FileType) (page : Nat) (junk : File) : Access (Ret × Kernel) := do
  match ← slotAt (s.ctx pid).files type.num with
  | none =>
    let t ← (s.createStandardIO type page junk).slotPut pid type.num (some page)
    return (.of type.num, t)
  | some a =>
    let fd ← searchAny (s.ctx pid).files MAX_OPEN_FILES 3
    let t ← (s.addRef a).slotPut pid fd (some a)
    return (.of fd, t)

def openInode (s : Kernel) (pid i : Nat) (flags : UInt64) (page : Nat) (junk : File) : Access (Ret × Kernel) :=
  let temp := s.fs.inode i
  if FILE_SIZE < temp.fileSize then return (.of (-EOTHERS), s)
  else if (has flags.toUInt32 O_READ && !has temp.mode O_READ) || (has flags.toUInt32 O_WRITE && !has temp.mode O_WRITE) then
    return (.of (-EACCES), s)
  else do
    let fd ← searchSlot (s.ctx pid).files MAX_OPEN_FILES 3
    if fd = MAX_OPEN_FILES then return (.of (-EINVAL), s)
    else
      let t ← (s.allocFile page junk).slotPut pid fd (pointer page)
      match ← slotAt (t.ctx pid).files fd with
      | none => return (.of (-ENOMEM), t)
      | some a => return (.of fd, t.setFile a (regularFile i flags))

def doRegularFileOpen (s : Kernel) (pid : Nat) (filename : List UInt8) (flags mode : UInt64) (page : Nat) (junk : File) :
    Access (Ret × Kernel) :=
  if 256 ≤ filename.length then return (.of (-EOTHERS), s)
  else
    match s.fs.lookupInode filename with
    | none =>
      if has flags.toUInt32 O_CREAT then
        match s.fs.createInode filename mode.toUInt32 with
        | (none, fs) => return (.of (-ENOMEM), { s with fs := fs })
        | (some i, fs) => openInode { s with fs := fs } pid i flags page junk
      else return (.of (-EINVAL), s)
    | some i => if has flags.toUInt32 O_CREAT then return (.of (-EOTHERS), s) else openInode s pid i flags page junk

def doFileOpen (s : Kernel) (pid : Nat) (filename : List UInt8) (flags mode : UInt64) (page : Nat) (junk : File) :
    Access (Ret × Kernel) :=
  match standardType filename with
  | some type => openStandardIO s pid type page junk
  | none => doRegularFileOpen s pid filename flags mode page junk

def createPipe (s : Kernel) (pid : Nat) (pages : PipePages) : Access (Ret × Kernel) := do
  let fd0 ← searchSlot (s.ctx pid).files MAX_OPEN_FILES 3
  if fd0 = MAX_OPEN_FILES then return (.of (-EINVAL), s)
  else
    let fd1 ← searchSlot (s.ctx pid).files MAX_OPEN_FILES (fd0 + 1)
    if fd1 = MAX_OPEN_FILES then return (⟨some (-EINVAL), [], [fd0]⟩, s)
    else
      let t ← (s.allocFile pages.file1 pages.junk1).slotPut pid fd0 (pointer pages.file1)
      let t ← (t.allocFile pages.file2 pages.junk2).slotPut pid fd1 (pointer pages.file2)
      match ← slotAt (t.ctx pid).files fd0, ← slotAt (t.ctx pid).files fd1 with
      | some a, some b => return (⟨some 0, [], [fd0, fd1]⟩,
          ((t.allocPipeInfo pages.info pages.buff pages.bytes).setFile a (readEnd pages.info pages.junk1)).setFile b
            (writeEnd pages.info pages.junk2))
      | _, _ => return (⟨some (-ENOMEM), [], [fd0, fd1]⟩, t)

def fdDup (s : Kernel) (pid : Nat) (oldfd : Int) : Access (Ret × Kernel) :=
  if ¬ (0 ≤ oldfd ∧ oldfd < MAX_OPEN_FILES) then return (.of (-EINVAL), s)
  else do
    match ← slotAt (s.ctx pid).files oldfd with
    | none => return (.of (-EINVAL), s)
    | some a =>
      let fd ← searchSlot (s.ctx pid).files MAX_OPEN_FILES 0
      if fd = MAX_OPEN_FILES then return (.of (-EINVAL), s)
      else
        let t ← s.slotPut pid fd (some a)
        return (.of fd, t.addRef a)

def fdDup2 (s : Kernel) (pid : Nat) (oldfd newfd : Int) : Access (Ret × Kernel) :=
  if ¬ (0 ≤ oldfd ∧ oldfd < MAX_OPEN_FILES) then return (.of (-EINVAL), s)
  else if ¬ (0 ≤ newfd ∧ newfd < MAX_OPEN_FILES) then return (.of (-EINVAL), s)
  else do
    match ← slotAt (s.ctx pid).files oldfd with
    | none => return (.of (-EINVAL), s)
    | some a =>
      if oldfd = newfd then return (.of newfd, s)
      else
        let b ← slotAt (s.ctx pid).files newfd
        let t := match b with
          | none => s
          | some b => s.genericClose b
        let t ← t.slotPut pid newfd (some a)
        return (.of newfd, t.addRef a)

def doClose (s : Kernel) (pid : Nat) (fd : Int) : Access (Ret × Kernel) := do
  match ← slotAt (s.ctx pid).files fd with
  | none => return (.of (-EINVAL), s)
  | some a =>
    if (s.file a).fops.close then
      let t ← s.slotPut pid fd none
      return (⟨none, [], []⟩, t.genericClose a)
    else return (.of (-EINVAL), s)

def doFileRead (s : Kernel) (pid fd count : Nat) : Access (Option (Ret × Kernel)) := do
  match ← slotAt (s.ctx pid).files fd with
  | none => return some (.of (-EINVAL), s)
  | some a =>
    match (s.file a).fops.read with
    | none => return some (.of (-EINVAL), s)
    | some .doReadRegular => return some (s.doReadRegular a (u32 count))
    | some .pipeRead =>
      if (s.file a).pipe = 0 then return some (.of (-EINVAL), s)
      else
        let r := Files.pipeRead (s.file a).mode (s.pipe (s.file a).pipe) (u32 count)
        return some (⟨some r.1.1, r.1.2, []⟩, s.setPipe (s.file a).pipe r.2)
    | some .doReadKbd => return none

def doFileWrite (s : Kernel) (pid fd : Nat) (buff : Nat → UInt8) (count : Nat) : Access (Option (Ret × Kernel)) := do
  match ← slotAt (s.ctx pid).files fd with
  | none => return some (.of (-EINVAL), s)
  | some a =>
    match (s.file a).fops.write with
    | none => return some (.of (-EINVAL), s)
    | some .doWriteRegular => return some (s.doWriteRegular a buff (u32 count))
    | some .pipeWrite =>
      if (s.file a).pipe = 0 then return some (.of (-EINVAL), s)
      else
        let r := Files.pipeWrite (s.file a).mode (s.pipe (s.file a).pipe) buff (u32 count)
        return some (.of r.1, s.setPipe (s.file a).pipe r.2)
    | some .doWriteConsole => return none

def doLseek (s : Kernel) (pid : Nat) (fd offset whence : Int) : Access (Ret × Kernel) := do
  match ← slotAt (s.ctx pid).files fd with
  | none => return (.of (-EINVAL), s)
  | some a => if (s.file a).fops.lseek then return s.doLseekRegular a offset whence else return (.of (-EINVAL), s)

end Slots

/-- A call with whatever arguments; the allocator's answers are part of it. -/
inductive TableCall where
  | fileOpen (filename : List UInt8) (flags mode : UInt64) (page : Nat) (junk : File)
  | pipe (pages : PipePages)
  | dup (oldfd : Int)
  | dup2 (oldfd newfd : Int)
  | close (fd : Int)
  | read (fd count : Nat)
  | write (fd : Nat) (buff : Nat → UInt8) (count : Nat)
  | lseek (fd offset whence : Int)

/-- `none` where the keyboard is read or the console written. -/
def tableCall (s : Kernel) (pid : Nat) : TableCall → Access (Option (Ret × Kernel))
  | .fileOpen filename flags mode page junk => some <$> Slots.doFileOpen s pid filename flags mode page junk
  | .pipe pages => some <$> Slots.createPipe s pid pages
  | .dup oldfd => some <$> Slots.fdDup s pid oldfd
  | .dup2 oldfd newfd => some <$> Slots.fdDup2 s pid oldfd newfd
  | .close fd => some <$> Slots.doClose s pid fd
  | .read fd count => Slots.doFileRead s pid fd count
  | .write fd buff count => Slots.doFileWrite s pid fd buff count
  | .lseek fd offset whence => some <$> Slots.doLseek s pid fd offset whence

end Kernel

/-! ## The searches -/

theorem slotAt_in {files : Nat → Option Nat} {i : Int} (h : InTable i) : slotAt files i = .ok (files i.toNat) := if_pos h

theorem slotAt_nat {fd : Nat} (h : fd < MAX_OPEN_FILES) (files : Nat → Option Nat) : slotAt files fd = .ok (files fd) := by
  rw [slotAt_in ⟨Int.natCast_nonneg fd, Int.ofNat_lt.mpr h⟩, Int.toNat_natCast]

theorem inTable_nat {fd : Nat} : InTable fd ↔ fd < MAX_OPEN_FILES :=
  ⟨fun h => Int.ofNat_lt.mp h.2, fun h => ⟨Int.natCast_nonneg fd, Int.ofNat_lt.mpr h⟩⟩

theorem freeSlot_here {files : Nat → Option Nat} {fd : Nat} (h : fd < MAX_OPEN_FILES) (hf : files fd = none) :
    freeSlot files fd = some fd := by
  unfold freeSlot
  rw [show MAX_OPEN_FILES - fd = MAX_OPEN_FILES - (fd + 1) + 1 by omega, List.range'_succ, List.find?_cons_of_pos]
  simp [hf]

theorem freeSlot_next {files : Nat → Option Nat} {fd a : Nat} (h : fd < MAX_OPEN_FILES) (hf : files fd = some a) :
    freeSlot files fd = freeSlot files (fd + 1) := by
  unfold freeSlot
  rw [show MAX_OPEN_FILES - fd = MAX_OPEN_FILES - (fd + 1) + 1 by omega, List.range'_succ, List.find?_cons_of_neg]
  simp [hf]

theorem freeSlot_end (files : Nat → Option Nat) {fd : Nat} (h : MAX_OPEN_FILES ≤ fd) : freeSlot files fd = none := by
  unfold freeSlot
  rw [Nat.sub_eq_zero_of_le h]
  rfl

theorem freeSlot_none_iff {files : Nat → Option Nat} {first : Nat} :
    freeSlot files first = none ↔ ∀ fd, first ≤ fd → fd < MAX_OPEN_FILES → files fd ≠ none := by
  unfold freeSlot
  rw [List.find?_eq_none]
  constructor
  · intro h fd hle hlt hf
    exact h fd (List.mem_range'_1.mpr ⟨hle, by omega⟩) (by simp [hf])
  · intro h fd hmem hf
    obtain ⟨hle, hlt⟩ := List.mem_range'_1.mp hmem
    unfold MAX_OPEN_FILES at *
    exact h fd hle (by omega) (Option.isNone_iff_eq_none.mp hf)

/-- The search that stops at the end of the table is `freeSlot`. -/
theorem searchSlot_eq (files : Nat → Option Nat) : ∀ (fuel fd : Nat), MAX_OPEN_FILES ≤ fuel + fd → fd ≤ MAX_OPEN_FILES →
    searchSlot files fuel fd = .ok ((freeSlot files fd).getD MAX_OPEN_FILES) := by
  intro fuel
  induction fuel with
  | zero =>
    intro fd hfuel hle
    obtain rfl : fd = MAX_OPEN_FILES := by omega
    rw [freeSlot_end files (Nat.le_refl _)]
    rfl
  | succ fuel ih =>
    intro fd hfuel hle
    unfold searchSlot
    by_cases hlt : fd < MAX_OPEN_FILES
    · rw [if_pos hlt, slotAt_nat hlt]
      cases hf : files fd with
      | none =>
        rw [freeSlot_here hlt hf]
        rfl
      | some a =>
        rw [freeSlot_next hlt hf]
        exact ih (fd + 1) (by omega) hlt
    · rw [if_neg hlt, freeSlot_end files (by omega), Nat.le_antisymm hle (by omega)]
      rfl

/-- The search that does not stops where `freeSlot` does, or behind the table. -/
theorem searchAny_eq (files : Nat → Option Nat) : ∀ (fuel fd : Nat), MAX_OPEN_FILES < fuel + fd → fd ≤ MAX_OPEN_FILES →
    searchAny files fuel fd = match freeSlot files fd with
      | some k => .ok k
      | none => .error MAX_OPEN_FILES := by
  intro fuel
  induction fuel with
  | zero =>
    intro fd hfuel hle
    omega
  | succ fuel ih =>
    intro fd hfuel hle
    unfold searchAny
    by_cases hlt : fd < MAX_OPEN_FILES
    · rw [slotAt_nat hlt]
      cases hf : files fd with
      | none =>
        rw [freeSlot_here hlt hf]
        rfl
      | some a =>
        rw [freeSlot_next hlt hf]
        exact ih (fd + 1) (by omega) hlt
    · obtain rfl : fd = MAX_OPEN_FILES := by omega
      rw [freeSlot_end files (Nat.le_refl _)]
      rfl

theorem search_cases (files : Nat → Option Nat) {first : Nat} (h : first ≤ MAX_OPEN_FILES) :
    (freeSlot files first = none ∧ searchSlot files MAX_OPEN_FILES first = .ok MAX_OPEN_FILES) ∨
    ∃ fd, freeSlot files first = some fd ∧ fd < MAX_OPEN_FILES ∧ files fd = none ∧
      searchSlot files MAX_OPEN_FILES first = .ok fd := by
  rw [searchSlot_eq files MAX_OPEN_FILES first (by omega) h]
  cases hf : freeSlot files first with
  | none => exact .inl ⟨rfl, rfl⟩
  | some fd =>
    obtain ⟨-, hlt, hnone⟩ := freeSlot_spec hf
    exact .inr ⟨fd, rfl, hlt, hnone, rfl⟩

namespace Kernel

variable {s : Kernel} {pid : Nat}

theorem slotPut_in (s : Kernel) (pid : Nat) {i : Int} (v : Option Nat) (h : InTable i) :
    s.slotPut pid i v = .ok (s.setSlot pid i.toNat v) := if_pos h

theorem slotPut_nat (s : Kernel) (pid : Nat) {fd : Nat} (v : Option Nat) (h : fd < MAX_OPEN_FILES) :
    s.slotPut pid fd v = .ok (s.setSlot pid fd v) := by
  rw [slotPut_in s pid v (inTable_nat.mpr h), Int.toNat_natCast]

@[simp] theorem setSlot_self (s : Kernel) (pid fd : Nat) (v : Option Nat) : ((s.setSlot pid fd v).ctx pid).files fd = v := by
  simp [setSlot, setFiles]

theorem setSlot_none {fd : Nat} (h : (s.ctx pid).files fd = none) : s.setSlot pid fd none = s := by
  unfold setSlot setFiles
  rw [← h, update_eq_self]
  simp

theorem allocFile_ctx (s : Kernel) (page : Nat) (junk : File) : (s.allocFile page junk).ctx = s.ctx := rfl

/-! ## What the calls do -/

theorem openStandardIO_eq (s : Kernel) (pid : Nat) {type : FileType} (ht : type.num < MAX_OPEN_FILES) (page : Nat) (junk : File) :
    Slots.openStandardIO s pid type page junk = match s.openStandardIO pid type page junk with
      | some r => .ok r
      | none => .error MAX_OPEN_FILES := by
  unfold Slots.openStandardIO openStandardIO
  rw [slotAt_nat ht]
  cases hf : (s.ctx pid).files type.num with
  | none =>
    simp only [slotPut_nat _ _ _ ht]
    rfl
  | some a =>
    have hsearch := searchAny_eq (s.ctx pid).files MAX_OPEN_FILES 3 (by decide) (by decide)
    cases hs : freeSlot (s.ctx pid).files 3 with
    | none =>
      rw [hs] at hsearch
      simp only [hsearch]
      rfl
    | some fd =>
      rw [hs] at hsearch
      obtain ⟨-, hlt, -⟩ := freeSlot_spec hs
      have hput := slotPut_nat (s.addRef a) pid (some a) hlt
      simp only [hsearch, Bind.bind, Except.bind, hput]
      rfl

theorem openInode_eq (s : Kernel) (pid i : Nat) (flags : UInt64) (page : Nat) (junk : File) :
    Slots.openInode s pid i flags page junk = .ok (s.openInode pid i flags page junk) := by
  unfold Slots.openInode openInode
  dsimp only
  split
  · rfl
  split
  · rfl
  rcases search_cases (s.ctx pid).files (show 3 ≤ MAX_OPEN_FILES by decide) with ⟨hs, hsearch⟩ | ⟨fd, hs, hlt, hnone, hsearch⟩
  · rw [hs, hsearch]
    rfl
  · have hput := slotPut_nat (s.allocFile page junk) pid (pointer page) hlt
    have hat := slotAt_nat hlt (((s.allocFile page junk).setSlot pid fd (pointer page)).ctx pid).files
    rw [setSlot_self] at hat
    simp only [hs, hsearch, Bind.bind, Except.bind, Nat.ne_of_lt hlt, if_false, hput, hat]
    by_cases hp : page = 0
    · simp only [pointer, if_pos hp]
      rw [setSlot_none (by rw [allocFile_ctx]; exact hnone)]
      rfl
    · simp only [pointer, if_neg hp]
      rfl

theorem doRegularFileOpen_eq (s : Kernel) (pid : Nat) (filename : List UInt8) (flags mode : UInt64) (page : Nat) (junk : File) :
    Slots.doRegularFileOpen s pid filename flags mode page junk = .ok (s.doRegularFileOpen pid filename flags mode page junk) := by
  unfold Slots.doRegularFileOpen doRegularFileOpen
  by_cases hlen : 256 ≤ filename.length
  · rw [if_pos hlen, if_pos hlen]
    rfl
  rw [if_neg hlen, if_neg hlen]
  cases hl : s.fs.lookupInode filename with
  | none =>
    by_cases hc : has flags.toUInt32 O_CREAT = true
    · simp only [if_pos hc]
      rcases s.fs.createInode filename mode.toUInt32 with ⟨_ | i, fs⟩
      · rfl
      · exact openInode_eq _ pid i flags page junk
    · simp only [if_neg hc]
      rfl
  | some i =>
    by_cases hc : has flags.toUInt32 O_CREAT = true
    · simp only [if_pos hc]
      rfl
    · simp only [if_neg hc]
      exact openInode_eq s pid i flags page junk

/-- create_pipe stays in the table; with both file objects it is the call of `Files.Calls`. -/
theorem createPipe_eq (s : Kernel) (pid : Nat) (pages : PipePages) : ∃ r, Slots.createPipe s pid pages = .ok r ∧
    (pages.file1 ≠ 0 → pages.file2 ≠ 0 → r = s.createPipe pid pages) ∧
    ((¬ ∃ i j, 3 ≤ i ∧ i < j ∧ j < MAX_OPEN_FILES ∧ (s.ctx pid).files i = none ∧ (s.ctx pid).files j = none) →
      r.1.Error ∧ r.2.ctx = s.ctx) := by
  unfold Slots.createPipe createPipe
  rcases search_cases (s.ctx pid).files (show 3 ≤ MAX_OPEN_FILES by decide) with ⟨hs, hsearch⟩ | ⟨fd0, hs, hlt, hnone, hsearch⟩
  · rw [hs, hsearch]
    exact ⟨_, rfl, fun _ _ => rfl, fun _ => ⟨error_of.mpr (by decide), rfl⟩⟩
  obtain ⟨hlow, -, -⟩ := freeSlot_spec hs
  simp only [hs, hsearch, Bind.bind, Except.bind, if_neg (Nat.ne_of_lt hlt)]
  rcases search_cases (s.ctx pid).files (show fd0 + 1 ≤ MAX_OPEN_FILES from hlt) with ⟨hs', hsearch'⟩ | ⟨fd1, hs', hlt', hnone', hsearch'⟩
  · rw [hs', hsearch']
    exact ⟨_, rfl, fun _ _ => rfl, fun _ => ⟨⟨_, rfl, by decide⟩, rfl⟩⟩
  obtain ⟨hlow', -, -⟩ := freeSlot_spec hs'
  have hput := slotPut_nat (s.allocFile pages.file1 pages.junk1) pid (pointer pages.file1) hlt
  have hput' := slotPut_nat (((s.allocFile pages.file1 pages.junk1).setSlot pid fd0 (pointer pages.file1)).allocFile
    pages.file2 pages.junk2) pid (pointer pages.file2) hlt'
  have hne : fd0 ≠ fd1 := by omega
  have hat : ∀ (t : Kernel) (v w : Option Nat), slotAt (((((t.setSlot pid fd0 v).allocFile pages.file2 pages.junk2).setSlot pid
      fd1 w).ctx pid).files) fd0 = .ok v := by
    intro t v w
    rw [slotAt_nat hlt]
    simp [setSlot, setFiles, allocFile, setFile, setUse, update_of_ne hne]
  have hat' : ∀ (t : Kernel) (w : Option Nat), slotAt (((t.setSlot pid fd1 w).ctx pid).files) fd1 = .ok w := by
    intro t w
    rw [slotAt_nat hlt', setSlot_self]
  simp only [hs', hsearch', if_neg (Nat.ne_of_lt hlt'), hput, hput', hat, hat']
  by_cases h1 : pages.file1 = 0
  · simp only [pointer, if_pos h1]
    exact ⟨_, rfl, fun h => absurd h1 h, fun h => absurd ⟨fd0, fd1, hlow, by omega, hlt', hnone, hnone'⟩ h⟩
  by_cases h2 : pages.file2 = 0
  · simp only [pointer, if_neg h1, if_pos h2]
    exact ⟨_, rfl, fun _ h => absurd h2 h, fun h => absurd ⟨fd0, fd1, hlow, by omega, hlt', hnone, hnone'⟩ h⟩
  · simp only [pointer, if_neg h1, if_neg h2]
    exact ⟨_, rfl, fun _ _ => rfl, fun h => absurd ⟨fd0, fd1, hlow, by omega, hlt', hnone, hnone'⟩ h⟩

theorem fdDup_eq (s : Kernel) (pid : Nat) (oldfd : Int) : Slots.fdDup s pid oldfd = .ok (s.fdDup pid oldfd) := by
  unfold Slots.fdDup fdDup
  by_cases hold : 0 ≤ oldfd ∧ oldfd < MAX_OPEN_FILES
  · rw [if_neg (not_not.mpr hold), if_neg (not_not.mpr hold), slotAt_in hold]
    cases hf : (s.ctx pid).files oldfd.toNat with
    | none => rfl
    | some a =>
      rcases search_cases (s.ctx pid).files (Nat.zero_le MAX_OPEN_FILES) with ⟨hs, hsearch⟩ | ⟨fd, hs, hlt, hnone, hsearch⟩
      · simp only [hs, hsearch]
        rfl
      · have hput := slotPut_nat s pid (some a) hlt
        simp only [hs, hsearch, Bind.bind, Except.bind, if_neg (Nat.ne_of_lt hlt), hput]
        rfl
  · rw [if_pos hold, if_pos hold]
    rfl

theorem fdDup2_eq (s : Kernel) (pid : Nat) (oldfd newfd : Int) : Slots.fdDup2 s pid oldfd newfd = .ok (s.fdDup2 pid oldfd newfd) := by
  unfold Slots.fdDup2 fdDup2
  by_cases hold : 0 ≤ oldfd ∧ oldfd < MAX_OPEN_FILES
  · by_cases hnew : 0 ≤ newfd ∧ newfd < MAX_OPEN_FILES
    · rw [if_neg (not_not.mpr hold), if_neg (not_not.mpr hnew), if_neg (not_not.mpr hold), if_neg (not_not.mpr hnew),
        slotAt_in hold, slotAt_in hnew]
      cases hf : (s.ctx pid).files oldfd.toNat with
      | none => rfl
      | some a =>
        by_cases heq : oldfd = newfd
        · simp only [Bind.bind, Except.bind, if_pos heq]
          rfl
        · simp only [Bind.bind, Except.bind, if_neg heq, slotPut_in _ _ _ hnew]
          rfl
    · rw [if_neg (not_not.mpr hold), if_pos hnew, if_neg (not_not.mpr hold), if_pos hnew]
      rfl
  · rw [if_pos hold, if_pos hold]
    rfl

/-- The calls that look at their descriptor's slot first. -/
theorem doClose_eq (s : Kernel) (pid : Nat) (fd : Int) :
    Slots.doClose s pid fd = if InTable fd then .ok (s.doClose pid fd.toNat) else .error fd := by
  unfold Slots.doClose doClose
  by_cases h : InTable fd
  · rw [slotAt_in h, if_pos h]
    cases hf : (s.ctx pid).files fd.toNat with
    | none => rfl
    | some a =>
      cases hc : (s.file a).fops.close with
      | false => simp [Bind.bind, Except.bind, hc, Pure.pure, Except.pure]
      | true => simp [Bind.bind, Except.bind, hc, slotPut_in _ _ _ h, Pure.pure, Except.pure]
  · rw [if_neg h]
    unfold slotAt
    rw [if_neg h]
    rfl

theorem doLseek_eq (s : Kernel) (pid : Nat) (fd offset whence : Int) : Slots.doLseek s pid fd offset whence =
    if InTable fd then .ok (s.doLseek pid fd.toNat offset whence) else .error fd := by
  unfold Slots.doLseek doLseek
  by_cases h : InTable fd
  · rw [slotAt_in h, if_pos h]
    cases hf : (s.ctx pid).files fd.toNat with
    | none => rfl
    | some a =>
      cases hc : (s.file a).fops.lseek with
      | false => simp [Bind.bind, Except.bind, hc, Pure.pure, Except.pure]
      | true => simp [Bind.bind, Except.bind, hc, Pure.pure, Except.pure]
  · rw [if_neg h, slotAt, if_neg h]
    rfl

theorem doFileRead_eq (s : Kernel) (pid fd count : Nat) : Slots.doFileRead s pid fd count =
    if fd < MAX_OPEN_FILES then .ok (s.doFileRead pid fd count) else .error fd := by
  unfold Slots.doFileRead doFileRead
  by_cases h : fd < MAX_OPEN_FILES
  · rw [slotAt_nat h, if_pos h]
    cases hf : (s.ctx pid).files fd with
    | none => rfl
    | some a =>
      simp only [Bind.bind, Except.bind]
      rcases (s.file a).fops.read with _ | _ | _ | _
      · rfl
      · rfl
      · rfl
      · dsimp only
        split
        · rfl
        · rfl
  · rw [if_neg h, slotAt, if_neg (mt inTable_nat.mp h)]
    rfl

theorem doFileWrite_eq (s : Kernel) (pid fd : Nat) (buff : Nat → UInt8) (count : Nat) : Slots.doFileWrite s pid fd buff count =
    if fd < MAX_OPEN_FILES then .ok (s.doFileWrite pid fd buff count) else .error fd := by
  unfold Slots.doFileWrite doFileWrite
  by_cases h : fd < MAX_OPEN_FILES
  · rw [slotAt_nat h, if_pos h]
    cases hf : (s.ctx pid).files fd with
    | none => rfl
    | some a =>
      simp only [Bind.bind, Except.bind]
      rcases (s.file a).fops.write with _ | _ | _ | _
      · rfl
      · rfl
      · rfl
      · dsimp only
        split
        · rfl
        · rfl
  · rw [if_neg h, slotAt, if_neg (mt inTable_nat.mp h)]
    rfl

/-! ## The calls that stay in the table -/

namespace TableCall

/-- The call of `Files.Calls`. -/
def plain : TableCall → Call
  | fileOpen filename flags mode page junk =>
    match standardType filename with
    | some type => .openStandard type page junk
    | none => .openRegular filename flags mode page junk
  | pipe pages => .pipe pages
  | dup oldfd => .dup oldfd
  | dup2 oldfd newfd => .dup2 oldfd newfd
  | close fd => .close fd.toNat
  | read fd count => .read fd count
  | write fd buff count => .write fd buff count
  | lseek fd offset whence => .lseek fd.toNat offset whence

/-- There is a page for each file object of a pipe. -/
def Given : TableCall → Prop
  | pipe pages => pages.file1 ≠ 0 ∧ pages.file2 ≠ 0
  | _ => True

end TableCall

/-- A free slot from `first` on. -/
def FreeFrom (s : Kernel) (pid first : Nat) : Prop := ∃ fd, first ≤ fd ∧ fd < MAX_OPEN_FILES ∧ (s.ctx pid).files fd = none

/-- The call wants an index that the table does not have, or a free slot that is not there. -/
def Lacks (s : Kernel) (pid : Nat) : TableCall → Prop
  | .fileOpen filename .. =>
    match standardType filename with
    | some type => (s.ctx pid).files type.num ≠ none ∧ ¬ s.FreeFrom pid 3
    | none => ¬ s.FreeFrom pid 3
  | .pipe _ => ¬ ∃ i j, 3 ≤ i ∧ i < j ∧ j < MAX_OPEN_FILES ∧ (s.ctx pid).files i = none ∧ (s.ctx pid).files j = none
  | .dup oldfd => ¬ InTable oldfd ∨ ¬ s.FreeFrom pid 0
  | .dup2 oldfd newfd => ¬ InTable oldfd ∨ ¬ InTable newfd
  | .close fd => ¬ InTable fd
  | .read fd _ => ¬ fd < MAX_OPEN_FILES
  | .write fd _ _ => ¬ fd < MAX_OPEN_FILES
  | .lseek fd _ _ => ¬ InTable fd

/-- The call looks at slots of the table only; and where it lacks one it returns an error, with
    the tables as they were. -/
def StaysInTable (s : Kernel) (pid : Nat) (c : TableCall) : Prop :=
  ∃ r, s.tableCall pid c = .ok r ∧ (s.Lacks pid c → ∃ ret t, r = some (ret, t) ∧ ret.Error ∧ t.ctx = s.ctx)

/-- What the calls need that check nothing. -/
def Checked (s : Kernel) (pid : Nat) : TableCall → Prop
  | .fileOpen filename .. => ∀ type, standardType filename = some type → (s.ctx pid).files type.num = none ∨ s.FreeFrom pid 3
  | .close fd => InTable fd
  | .read fd _ => fd < MAX_OPEN_FILES
  | .write fd _ _ => fd < MAX_OPEN_FILES
  | .lseek fd _ _ => InTable fd
  | _ => True

theorem freeFrom_iff {first : Nat} : ¬ s.FreeFrom pid first ↔ freeSlot (s.ctx pid).files first = none := by
  rw [freeSlot_none_iff]
  unfold FreeFrom
  simp only [not_exists, not_and, ne_eq]

theorem num_lt (type : FileType) : type.num < MAX_OPEN_FILES := by
  cases type <;> decide

theorem map_some_eq {x : Access (Ret × Kernel)} {r : Ret × Kernel} (h : some <$> x = .ok (some r)) : x = .ok r := by
  cases x with
  | error i => cases h
  | ok y =>
    cases h
    rfl

/-- A call that stays in the table does what `Files.Calls` says it does. -/
theorem tableCall_eq {c : TableCall} (hg : c.Given) {r : Ret × Kernel} (h : s.tableCall pid c = .ok (some r)) :
    s.call pid c.plain = some r := by
  cases c with
  | fileOpen filename flags mode page junk =>
    have h := map_some_eq h
    unfold Slots.doFileOpen at h
    cases ht : standardType filename with
    | none =>
      simp only [ht, doRegularFileOpen_eq] at h
      simp only [TableCall.plain, ht]
      cases h
      rfl
    | some type =>
      simp only [ht, openStandardIO_eq s pid (num_lt type)] at h
      simp only [TableCall.plain, ht, call]
      cases ho : s.openStandardIO pid type page junk with
      | none => simp [ho] at h
      | some q =>
        simp only [ho] at h
        cases h
        rfl
  | pipe pages =>
    have h := map_some_eq h
    obtain ⟨q, hq, heq, -⟩ := createPipe_eq s pid pages
    rw [hq] at h
    cases h
    exact congrArg some (heq hg.1 hg.2).symm
  | dup oldfd =>
    have h := map_some_eq h
    rw [fdDup_eq] at h
    cases h
    rfl
  | dup2 oldfd newfd =>
    have h := map_some_eq h
    rw [fdDup2_eq] at h
    cases h
    rfl
  | close fd =>
    have h := map_some_eq h
    rw [doClose_eq] at h
    split at h
    · cases h
      rfl
    · cases h
  | read fd count =>
    simp only [tableCall, doFileRead_eq] at h
    split at h
    · exact Except.ok.inj h
    · cases h
  | write fd buff count =>
    simp only [tableCall, doFileWrite_eq] at h
    split at h
    · exact Except.ok.inj h
    · cases h
  | lseek fd offset whence =>
    have h := map_some_eq h
    rw [doLseek_eq] at h
    split at h
    · cases h
      rfl
    · cases h

/-! ## When they do -/

/-- A call whose value is known and which lacks nothing, or fails with the tables as they were. -/
theorem stays {c : TableCall} {x : Access (Ret × Kernel)} {r : Ret × Kernel} (hc : s.tableCall pid c = some <$> x) (hx : x = .ok r)
    (hl : s.Lacks pid c → r.1.Error ∧ r.2.ctx = s.ctx) : s.StaysInTable pid c := by
  refine ⟨some r, ?_, fun h => ⟨r.1, r.2, rfl, hl h⟩⟩
  rw [hc, hx]
  rfl

theorem not_stays {c : TableCall} {i : Int} (hc : s.tableCall pid c = .error i) : ¬ s.StaysInTable pid c := by
  rintro ⟨r, hr, -⟩
  rw [hc] at hr
  cases hr

/-- No slot is free: an open of a file fails, whatever the name. -/
theorem doRegularFileOpen_full (h : ¬ s.FreeFrom pid 3) (filename : List UInt8) (flags mode : UInt64) (page : Nat) (junk : File) :
    (s.doRegularFileOpen pid filename flags mode page junk).1.Error ∧
      (s.doRegularFileOpen pid filename flags mode page junk).2.ctx = s.ctx := by
  have hfull := freeFrom_iff.mp h
  have hopen : ∀ (fs : FlatFs) i, ({ s with fs := fs }.openInode pid i flags page junk).1.Error ∧
      ({ s with fs := fs }.openInode pid i flags page junk).2.ctx = s.ctx := by
    intro fs i
    rcases openInode_cases { s with fs := fs } pid i flags page junk with ⟨-, v, hv, he⟩ | ⟨⟨-, -, hnot⟩, -⟩
    · rw [he]
      exact ⟨error_of.mpr hv, rfl⟩
    · exact absurd hfull hnot
  unfold doRegularFileOpen
  by_cases hlen : 256 ≤ filename.length
  · rw [if_pos hlen]
    exact ⟨error_of.mpr (by decide), rfl⟩
  rw [if_neg hlen]
  cases hl : s.fs.lookupInode filename with
  | none =>
    by_cases hc : has flags.toUInt32 O_CREAT = true
    · simp only [if_pos hc]
      rcases s.fs.createInode filename mode.toUInt32 with ⟨_ | i, fs⟩
      · exact ⟨error_of.mpr (by decide), rfl⟩
      · exact hopen fs i
    · simp only [if_neg hc]
      exact ⟨error_of.mpr (by decide), trivial⟩
  | some i =>
    by_cases hc : has flags.toUInt32 O_CREAT = true
    · simp only [if_pos hc]
      exact ⟨error_of.mpr (by decide), trivial⟩
    · simp only [if_neg hc]
      exact hopen s.fs i

/-- The search of open_standard_IO leaves the table. -/
theorem open_runs_out {filename : List UInt8} {type : FileType} (ht : standardType filename = some type)
    (hf : (s.ctx pid).files type.num ≠ none) (hfree : ¬ s.FreeFrom pid 3) (flags mode : UInt64) (page : Nat) (junk : File) :
    s.tableCall pid (.fileOpen filename flags mode page junk) = .error MAX_OPEN_FILES := by
  obtain ⟨a, ha⟩ := Option.ne_none_iff_exists'.mp hf
  have ho : s.openStandardIO pid type page junk = none := by
    unfold openStandardIO
    simp only [ha, freeFrom_iff.mp hfree]
    rfl
  simp only [tableCall, Slots.doFileOpen, ht, openStandardIO_eq s pid (num_lt type), ho]
  rfl

theorem open_stays_iff (s : Kernel) (pid : Nat) (filename : List UInt8) (flags mode : UInt64) (page : Nat) (junk : File) :
    s.StaysInTable pid (.fileOpen filename flags mode page junk) ↔ s.Checked pid (.fileOpen filename flags mode page junk) := by
  have hcall : s.tableCall pid (.fileOpen filename flags mode page junk) =
      some <$> Slots.doFileOpen s pid filename flags mode page junk := rfl
  unfold Slots.doFileOpen at hcall
  cases ht : standardType filename with
  | none =>
    simp only [ht] at hcall
    refine iff_of_true (stays hcall (doRegularFileOpen_eq s pid filename flags mode page junk) fun hl => ?_)
      fun type h => by rw [ht] at h; cases h
    simp only [Lacks, ht] at hl
    exact doRegularFileOpen_full hl filename flags mode page junk
  | some type =>
    simp only [ht, openStandardIO_eq s pid (num_lt type)] at hcall
    cases hf : (s.ctx pid).files type.num with
    | none =>
      have ho : s.openStandardIO pid type page junk =
          some (.of type.num, (s.createStandardIO type page junk).setSlot pid type.num (some page)) := by
        unfold openStandardIO
        rw [hf]
      refine iff_of_true (stays hcall (by rw [ho]) fun hl => ?_) fun type' h => ?_
      · simp only [Lacks, ht] at hl
        exact absurd hf hl.1
      · rw [ht] at h
        cases h
        exact .inl hf
    | some a =>
      by_cases hfree : s.FreeFrom pid 3
      · cases hs : freeSlot (s.ctx pid).files 3 with
        | none => exact absurd hfree (freeFrom_iff.mpr hs)
        | some fd =>
          have ho : s.openStandardIO pid type page junk = some (.of fd, (s.addRef a).setSlot pid fd (some a)) := by
            unfold openStandardIO
            simp only [hf, hs]
            rfl
          refine iff_of_true (stays hcall (by rw [ho]) fun hl => ?_) fun _ _ => .inr hfree
          simp only [Lacks, ht] at hl
          exact absurd hfree hl.2
      · have hout := open_runs_out ht (by rw [hf]; simp) hfree flags mode page junk
        refine iff_of_false (not_stays hout) fun h => ?_
        rcases h type ht with h | h
        · rw [hf] at h
          cases h
        · exact hfree h

/-- A call stays in the table, and fails cleanly where it lacks a slot, if and only if its
    descriptor is in the table, or, for a standard name, the search has an end. -/
theorem slots_exact (s : Kernel) (pid : Nat) (c : TableCall) : s.StaysInTable pid c ↔ s.Checked pid c := by
  cases c with
  | fileOpen filename flags mode page junk => exact open_stays_iff s pid filename flags mode page junk
  | pipe pages =>
    obtain ⟨r, hr, -, hl⟩ := createPipe_eq s pid pages
    exact iff_of_true (stays rfl hr hl) trivial
  | dup oldfd =>
    refine iff_of_true (stays rfl (fdDup_eq s pid oldfd) fun hl => ?_) trivial
    unfold fdDup
    by_cases hold : 0 ≤ oldfd ∧ oldfd < MAX_OPEN_FILES
    · rw [if_neg (not_not.mpr hold)]
      cases hf : (s.ctx pid).files oldfd.toNat with
      | none => exact ⟨error_of.mpr (by decide), rfl⟩
      | some a =>
        rcases hl with hl | hl
        · exact absurd hold hl
        · simp only [freeFrom_iff.mp hl]
          exact ⟨error_of.mpr (by decide), trivial⟩
    · rw [if_pos hold]
      exact ⟨error_of.mpr (by decide), rfl⟩
  | dup2 oldfd newfd =>
    refine iff_of_true (stays rfl (fdDup2_eq s pid oldfd newfd) fun hl => ?_) trivial
    unfold fdDup2
    by_cases hold : 0 ≤ oldfd ∧ oldfd < MAX_OPEN_FILES
    · have hnew : ¬ (0 ≤ newfd ∧ newfd < MAX_OPEN_FILES) := hl.resolve_left (not_not.mpr hold)
      rw [if_neg (not_not.mpr hold), if_pos hnew]
      exact ⟨error_of.mpr (by decide), rfl⟩
    · rw [if_pos hold]
      exact ⟨error_of.mpr (by decide), rfl⟩
  | close fd =>
    by_cases h : InTable fd
    · exact iff_of_true (stays rfl ((doClose_eq s pid fd).trans (if_pos h)) fun hl => absurd h hl) h
    · exact iff_of_false (not_stays (congrArg (some <$> ·) ((doClose_eq s pid fd).trans (if_neg h)))) h
  | read fd count =>
    by_cases h : fd < MAX_OPEN_FILES
    · exact iff_of_true ⟨_, (doFileRead_eq s pid fd count).trans (if_pos h), fun hl => absurd h hl⟩ h
    · exact iff_of_false (not_stays ((doFileRead_eq s pid fd count).trans (if_neg h))) h
  | write fd buff count =>
    by_cases h : fd < MAX_OPEN_FILES
    · exact iff_of_true ⟨_, (doFileWrite_eq s pid fd buff count).trans (if_pos h), fun hl => absurd h hl⟩ h
    · exact iff_of_false (not_stays ((doFileWrite_eq s pid fd buff count).trans (if_neg h))) h
  | lseek fd offset whence =>
    by_cases h : InTable fd
    · exact iff_of_true (stays rfl ((doLseek_eq s pid fd offset whence).trans (if_pos h)) fun hl => absurd h hl) h
    · exact iff_of_false (not_stays (congrArg (some <$> ·) ((doLseek_eq s pid fd offset whence).trans (if_neg h)))) h

/-- The first process after it has duplicated descriptor 0 into every slot. -/
def fullTable : Kernel := (List.range 29).foldl (fun s _ => (s.fdDup 1 0).2) first

/-- A read from descriptor 32, a close of -1, and an open of `stdin` with every slot in use. -/
theorem outside_table : ¬ first.StaysInTable 1 (.read 32 1) ∧ ¬ first.StaysInTable 1 (.close (-1)) ∧
    (∀ fd < MAX_OPEN_FILES, (fullTable.ctx 1).files fd ≠ none) ∧
    fullTable.tableCall 1 (.fileOpen [115, 116, 100, 105, 110] 0 0 4 blankFile) = .error 32 ∧
    ¬ fullTable.StaysInTable 1 (.fileOpen [115, 116, 100, 105, 110] 0 0 4 blankFile) := by
  have hfull : ∀ fd < MAX_OPEN_FILES, (fullTable.ctx 1).files fd ≠ none := by decide +kernel
  have hstdin : standardType [115, 116, 100, 105, 110] = some .STDIN := rfl
  have hcall : fullTable.tableCall 1 (.fileOpen [115, 116, 100, 105, 110] 0 0 4 blankFile) = .error 32 :=
    open_runs_out hstdin (hfull 0 (by decide)) (fun ⟨fd, _, hlt, hf⟩ => hfull fd hlt hf) 0 0 4 blankFile
  refine ⟨fun h => ?_, fun h => ?_, hfull, hcall, not_stays hcall⟩
  · exact absurd ((slots_exact first 1 (.read 32 1)).mp h) (by simp [Checked, MAX_OPEN_FILES])
  · exact absurd ((slots_exact first 1 (.close (-1))).mp h) (by simp [Checked, InTable])

end Kernel

end Cs330.Files
