/-
  Cs330.Files.OpenFails — what an open that fails leaves behind.

  do_regular_file_open looks the name up, makes the file, and only then compares flags and
  mode, looks for a descriptor and allocates the file object; nothing is undone. So an open
  with O_CREAT that fails after create_inode leaves the file (`leaves_file`), and one for
  which os_page_alloc has no page leaves `file_objects` too high, since alloc_file counts
  first. `open_traceless_iff`: there are no other cases.
-/
import Cs330.Files.Exact

namespace Cs330.Files

open Lib.CInt Function

/-- The bytes of file `i`. -/
def FlatFs.contents (fs : FlatFs) (i : Nat) : List UInt8 :=
  (List.range (fs.inode i).fileSize).map fun k => fs.store ((fs.inode i).sPos + k)

def Ret.Error (r : Ret) : Prop := ∃ v, r.value = some v ∧ v < 0

/-- `mode` gives the rights that `flags` asks for. -/
def Permits (flags mode : UInt32) : Prop :=
  (has flags O_READ = true → has mode O_READ = true) ∧ (has flags O_WRITE = true → has mode O_WRITE = true)

theorem error_of {v : Int} : (Ret.of v).Error ↔ v < 0 :=
  ⟨fun ⟨_, h, hlt⟩ => Option.some.inj h ▸ hlt, fun h => ⟨v, rfl, h⟩⟩

namespace Kernel

/-- Nothing that process `pid` could see of an open differs between `s` and `t`. -/
structure Untouched (s t : Kernel) (pid : Nat) : Prop where
  valid : ∀ i < NUM_FILES, (t.fs.inode i).isValid = (s.fs.inode i).isValid
  names : ∀ i < NUM_FILES, (s.fs.inode i).isValid = true → (t.fs.inode i).filename = (s.fs.inode i).filename
  modes : ∀ i < NUM_FILES, (s.fs.inode i).isValid = true → (t.fs.inode i).mode = (s.fs.inode i).mode
  contents : ∀ i < NUM_FILES, (s.fs.inode i).isValid = true → t.fs.contents i = s.fs.contents i
  numFiles : t.fs.numFiles = s.fs.numFiles
  files : ∀ fd < MAX_OPEN_FILES, (t.ctx pid).files fd = (s.ctx pid).files fd
  fileObjects : t.fileObjects = s.fileObjects

/-- All descriptors from 3 on are in use. -/
def Full (s : Kernel) (pid : Nat) : Prop := freeSlot (s.ctx pid).files 3 = none

/-- The opens that fail after something has changed: a new file was made and cannot be opened, or an existing one
    could be opened if there were a page for its file object. -/
inductive Leaves (s : Kernel) (pid : Nat) (filename : List UInt8) (flags mode : UInt64) (page : Nat) : Prop
  | made (hlen : filename.length < 256) (hnew : s.fs.lookupInode filename = none) (hcreat : has flags.toUInt32 O_CREAT = true)
      (hroom : s.fs.getFreeInode ≠ none) (hfails : ¬ Permits flags.toUInt32 mode.toUInt32 ∨ s.Full pid ∨ page = 0)
  | counted (i : Nat) (hlen : filename.length < 256) (hold : s.fs.lookupInode filename = some i)
      (hcreat : has flags.toUInt32 O_CREAT = false) (hsize : (s.fs.inode i).fileSize ≤ FILE_SIZE)
      (hperm : Permits flags.toUInt32 (s.fs.inode i).mode) (hslot : ¬ s.Full pid) (hpage : page = 0)

variable {s t : Kernel} {pid i page : Nat} {filename : List UInt8} {flags mode : UInt64} {junk : File}

theorem Untouched.refl (s : Kernel) (pid : Nat) : s.Untouched s pid :=
  ⟨fun _ _ => rfl, fun _ _ _ => rfl, fun _ _ _ => rfl, fun _ _ _ => rfl, rfl, fun _ _ => rfl, rfl⟩

theorem u64_succ_ne (n : Nat) : u64 (n + 1) ≠ n := by
  unfold u64
  omega

@[simp] theorem allocFile_fileObjects : (s.allocFile page junk).fileObjects = u64 (s.fileObjects + 1) := rfl
@[simp] theorem allocFile_numFiles : (s.allocFile page junk).fs.numFiles = s.fs.numFiles := rfl

theorem not_untouched_of_numFiles (h : t.fs.numFiles = s.fs.numFiles + 1) : ¬ s.Untouched t pid := fun hu => by
  have hn := hu.numFiles
  omega

theorem not_untouched_allocFile : ¬ s.Untouched (s.allocFile page junk) pid := fun hu =>
  u64_succ_ne _ hu.fileObjects

theorem permits_iff (flags mode : UInt32) :
    ((has flags O_READ && !has mode O_READ) || (has flags O_WRITE && !has mode O_WRITE)) = true ↔ ¬ Permits flags mode := by
  unfold Permits
  cases has flags O_READ <;> cases has flags O_WRITE <;> cases has mode O_READ <;> cases has mode O_WRITE <;> decide

/-! ## One inode -/

/-- What an open of inode `i` does: it is refused with nothing changed, it finds no page, or it opens. -/
theorem openInode_cases (s : Kernel) (pid i : Nat) (flags : UInt64) (page : Nat) (junk : File) :
    ((FILE_SIZE < (s.fs.inode i).fileSize ∨ ¬ Permits flags.toUInt32 (s.fs.inode i).mode ∨ s.Full pid) ∧
      ∃ v : Int, v < 0 ∧ s.openInode pid i flags page junk = (.of v, s)) ∨
    (((s.fs.inode i).fileSize ≤ FILE_SIZE ∧ Permits flags.toUInt32 (s.fs.inode i).mode ∧ ¬ s.Full pid) ∧
      ((page = 0 ∧ s.openInode pid i flags page junk = (.of (-ENOMEM), s.allocFile page junk)) ∨
        page ≠ 0 ∧ ∃ fd : Nat, (s.openInode pid i flags page junk).1 = .of fd)) := by
  unfold openInode
  by_cases hsize : FILE_SIZE < (s.fs.inode i).fileSize
  · rw [if_pos hsize]
    exact .inl ⟨.inl hsize, _, by decide, rfl⟩
  rw [if_neg hsize]
  by_cases hperm : Permits flags.toUInt32 (s.fs.inode i).mode
  · rw [if_neg (mt (permits_iff _ _).mp (not_not.mpr hperm))]
    cases hslot : freeSlot (s.ctx pid).files 3 with
    | none => exact .inl ⟨.inr (.inr hslot), _, by decide, rfl⟩
    | some fd =>
      have hfull : ¬ s.Full pid := fun h => Option.some_ne_none fd (hslot.symm.trans h)
      refine .inr ⟨⟨Nat.le_of_not_lt hsize, hperm, hfull⟩, ?_⟩
      by_cases hpage : page = 0
      · exact .inl ⟨hpage, if_pos hpage⟩
      · refine .inr ⟨hpage, fd, ?_⟩
        simp only [if_neg hpage]
  · rw [if_pos ((permits_iff _ _).mpr hperm)]
    exact .inl ⟨.inr (.inl hperm), _, by decide, rfl⟩

theorem not_error_nat (fd : Nat) : ¬ (Ret.of (fd : Int)).Error := by
  rw [error_of]
  omega

/-! ## The call -/

theorem createInode_new {name : List UInt8} (mode : UInt32) {fs : FlatFs} (hnew : fs.lookupInode name = none)
    (hfree : fs.getFreeInode = some i) : ∃ fs', fs.createInode name mode = (some i, fs') ∧ fs'.numFiles = fs.numFiles + 1 ∧
      (fs'.inode i).mode = mode ∧ (fs'.inode i).fileSize = 0 := by
  unfold FlatFs.createInode
  rw [if_neg (not_not.mpr hnew), hfree]
  refine ⟨_, rfl, rfl, ?_, ?_⟩ <;> simp only [update_self]

/-- A file that has just been made: the open fails after that, or opens it. -/
theorem open_made (s : Kernel) (pid : Nat) (flags mode : UInt64) (page : Nat) (junk : File) (hlen : filename.length < 256)
    (hnew : s.fs.lookupInode filename = none) (hcreat : has flags.toUInt32 O_CREAT = true) (hfree : s.fs.getFreeInode = some i) :
    ((¬ Permits flags.toUInt32 mode.toUInt32 ∨ s.Full pid ∨ page = 0) ∧
      (s.doRegularFileOpen pid filename flags mode page junk).1.Error ∧
      ¬ s.Untouched (s.doRegularFileOpen pid filename flags mode page junk).2 pid) ∨
    (¬ (¬ Permits flags.toUInt32 mode.toUInt32 ∨ s.Full pid ∨ page = 0) ∧
      ¬ (s.doRegularFileOpen pid filename flags mode page junk).1.Error) := by
  obtain ⟨fs, hcreate, hnum, hmode, hsize⟩ := createInode_new mode.toUInt32 hnew hfree
  have hopen : s.doRegularFileOpen pid filename flags mode page junk = { s with fs := fs }.openInode pid i flags page junk := by
    unfold doRegularFileOpen
    rw [if_neg (Nat.not_le.mpr hlen)]
    simp only [hnew, hcreat, hcreate, if_true]
  rw [hopen]
  have hcases := openInode_cases { s with fs := fs } pid i flags page junk
  simp only [hmode, hsize] at hcases
  rcases hcases with ⟨hwhy, v, hv, he⟩ | ⟨⟨-, hperm, hslot⟩, ⟨hpage, he⟩ | ⟨hpage, fd, he⟩⟩
  · rw [he]
    refine .inl ⟨?_, error_of.mpr hv, not_untouched_of_numFiles hnum⟩
    rcases hwhy with h | h | h
    · exact absurd h (Nat.not_lt_zero _)
    · exact .inl h
    · exact .inr (.inl h)
  · rw [he]
    exact .inl ⟨.inr (.inr hpage), error_of.mpr (by decide), not_untouched_of_numFiles hnum⟩
  · rw [he]
    refine .inr ⟨?_, not_error_nat fd⟩
    rintro (h | h | h)
    · exact h hperm
    · exact hslot h
    · exact hpage h

theorem leaves_new (hnew : s.fs.lookupInode filename = none) : s.Leaves pid filename flags mode page ↔
    filename.length < 256 ∧ has flags.toUInt32 O_CREAT = true ∧ s.fs.getFreeInode ≠ none ∧
      (¬ Permits flags.toUInt32 mode.toUInt32 ∨ s.Full pid ∨ page = 0) := by
  constructor
  · rintro (⟨hlen, -, hcreat, hroom, hfails⟩ | ⟨i, -, hold, -⟩)
    · exact ⟨hlen, hcreat, hroom, hfails⟩
    · exact absurd (hnew.symm.trans hold) (by simp)
  · rintro ⟨hlen, hcreat, hroom, hfails⟩
    exact .made hlen hnew hcreat hroom hfails

theorem leaves_old (hold : s.fs.lookupInode filename = some i) : s.Leaves pid filename flags mode page ↔
    filename.length < 256 ∧ has flags.toUInt32 O_CREAT = false ∧
      ((s.fs.inode i).fileSize ≤ FILE_SIZE ∧ Permits flags.toUInt32 (s.fs.inode i).mode ∧ ¬ s.Full pid) ∧ page = 0 := by
  constructor
  · rintro (⟨-, hnew, -⟩ | ⟨j, hlen, hold', hcreat, hsize, hperm, hslot, hpage⟩)
    · exact absurd (hnew.symm.trans hold) (by simp)
    · cases Option.some.inj (hold.symm.trans hold')
      exact ⟨hlen, hcreat, ⟨hsize, hperm, hslot⟩, hpage⟩
  · rintro ⟨hlen, hcreat, ⟨hsize, hperm, hslot⟩, hpage⟩
    exact .counted i hlen hold hcreat hsize hperm hslot hpage

/-- The call and what it leaves, when nothing has changed. -/
theorem traceless_of_eq {r : Ret × Kernel} (h : r.2 = s) : r.1.Error → s.Untouched r.2 pid := fun _ => by
  rw [h]
  exact .refl s pid

theorem traceless_new (hlen : filename.length < 256) (hnew : s.fs.lookupInode filename = none) :
    ((s.doRegularFileOpen pid filename flags mode page junk).1.Error →
      s.Untouched (s.doRegularFileOpen pid filename flags mode page junk).2 pid) ↔ ¬ s.Leaves pid filename flags mode page := by
  rw [leaves_new hnew]
  cases hcreat : has flags.toUInt32 O_CREAT with
  | false =>
    refine iff_of_true (traceless_of_eq ?_) fun h => absurd h.2.1 (by simp)
    unfold doRegularFileOpen
    rw [if_neg (Nat.not_le.mpr hlen)]
    simp [hnew, hcreat]
  | true =>
    cases hfree : s.fs.getFreeInode with
    | none =>
      refine iff_of_true (traceless_of_eq ?_) fun h => h.2.2.1 rfl
      unfold doRegularFileOpen FlatFs.createInode
      rw [if_neg (Nat.not_le.mpr hlen)]
      simp [hnew, hcreat, hfree]
    | some i =>
      rcases open_made s pid flags mode page junk hlen hnew hcreat hfree with ⟨hfails, herr, htrace⟩ | ⟨hopens, herr⟩
      · exact iff_of_false (fun h => htrace (h herr)) fun h => h ⟨hlen, rfl, by simp, hfails⟩
      · exact iff_of_true (fun h => absurd h herr) fun h => hopens h.2.2.2

theorem traceless_old (hlen : filename.length < 256) (hold : s.fs.lookupInode filename = some i) :
    ((s.doRegularFileOpen pid filename flags mode page junk).1.Error →
      s.Untouched (s.doRegularFileOpen pid filename flags mode page junk).2 pid) ↔ ¬ s.Leaves pid filename flags mode page := by
  have hopen : s.doRegularFileOpen pid filename flags mode page junk =
      if has flags.toUInt32 O_CREAT = true then (.of (-EOTHERS), s) else s.openInode pid i flags page junk := by
    unfold doRegularFileOpen
    rw [if_neg (Nat.not_le.mpr hlen)]
    simp only [hold]
  rw [leaves_old hold, hopen]
  cases hcreat : has flags.toUInt32 O_CREAT with
  | true => exact iff_of_true (traceless_of_eq rfl) fun h => absurd h.2.1 (by simp)
  | false =>
    rw [if_neg (by simp)]
    rcases openInode_cases s pid i flags page junk with ⟨hwhy, v, -, he⟩ | ⟨hopens, ⟨hpage, he⟩ | ⟨hpage, fd, he⟩⟩
    · refine iff_of_true (traceless_of_eq (congrArg Prod.snd he)) ?_
      rintro ⟨-, -, ⟨hsize, hperm, hslot⟩, -⟩
      rcases hwhy with h | h | h
      · exact Nat.not_lt.mpr hsize h
      · exact h hperm
      · exact hslot h
    · rw [he]
      exact iff_of_false (fun h => not_untouched_allocFile (h (error_of.mpr (by decide)))) fun h => h ⟨hlen, rfl, hopens, hpage⟩
    · rw [he]
      exact iff_of_true (fun h => absurd h (not_error_nat fd)) fun h => hpage h.2.2.2

/-- A failed open leaves no trace, unless it fails after it has made the file or for want of a page. -/
theorem open_traceless_iff (s : Kernel) (pid : Nat) (filename : List UInt8) (flags mode : UInt64) (page : Nat) (junk : File) :
    ((s.doRegularFileOpen pid filename flags mode page junk).1.Error →
      s.Untouched (s.doRegularFileOpen pid filename flags mode page junk).2 pid) ↔
    ¬ s.Leaves pid filename flags mode page := by
  by_cases hlen : filename.length < 256
  · cases hlook : s.fs.lookupInode filename with
    | none => exact traceless_new hlen hlook
    | some i => exact traceless_old hlen hlook
  · refine iff_of_true (traceless_of_eq ?_) ?_
    · unfold doRegularFileOpen
      rw [if_pos (Nat.le_of_not_lt hlen)]
    · rintro (⟨h, -⟩ | ⟨_, h, -⟩) <;> exact hlen h

/-- A file made without the right to read it, opened for reading: the open fails, the file is there, and the same
    open with a mode that would do is refused from then on. -/
theorem leaves_file : machine.Reach Promised first ∧
    (first.doRegularFileOpen 1 [97] 9 0 4 blankFile).1 = .of (-EACCES) ∧
    ¬ first.Untouched (first.doRegularFileOpen 1 [97] 9 0 4 blankFile).2 1 ∧
    (first.doRegularFileOpen 1 [97] 9 1 4 blankFile).1 = .of 3 ∧
    ((first.doRegularFileOpen 1 [97] 9 0 4 blankFile).2.doRegularFileOpen 1 [97] 9 1 4 blankFile).1 = .of (-EOTHERS) := by
  refine ⟨.init first_start, by decide, fun h => ?_, by decide, by decide⟩
  exact absurd h.numFiles (by decide)

end Kernel

end Cs330.Files
