/-
  Cs330.Files.Exact — reference counting over runs.

  `Exact s hand` is kept by every call: descriptors are taken, put, duplicated and dropped
  one at a time, fork and exit slot by slot. `refcounts_exact` reads off what it says of
  every reachable state.
-/
import Cs330.Files.Ends

namespace Cs330.Files

open Lib Lib.CInt Function

namespace Kernel

end Kernel

/-- A file object as one of the functions that make one leaves it. -/
def File.Shaped (f : File) : Prop :=
  match f.type with
  | .STDIN => f.mode = O_READ ∧ f.fops = ⟨some .doReadKbd, none, false, true⟩
  | .STDOUT | .STDERR => f.mode = O_WRITE ∧ f.fops = ⟨none, some .doWriteConsole, false, true⟩
  | .REGULAR => f.inode ≠ none ∧ f.fops = ⟨some .doReadRegular, some .doWriteRegular, true, true⟩
  | .PIPE => (f.mode = O_READ ∧ f.fops = ⟨some .pipeRead, none, false, true⟩) ∨
      (f.mode = O_WRITE ∧ f.fops = ⟨none, some .pipeWrite, false, true⟩)

/-- Only pipes have the operations on pipes. -/
theorem File.Shaped.pipe {f : File} (h : f.Shaped) (hops : f.fops.read = some .pipeRead ∨ f.fops.write = some .pipeWrite) :
    f.type = .PIPE := by
  unfold File.Shaped at h
  split at h
  · rw [h.2] at hops
    exact absurd hops (by decide)
  · rw [h.2] at hops
    exact absurd hops (by decide)
  · rw [h.2] at hops
    exact absurd hops (by decide)
  · rw [h.2] at hops
    exact absurd hops (by decide)
  · assumption

namespace Kernel

def Shapes (s : Kernel) : Prop := ∀ a, s.use a = .file → (s.file a).Shaped

structure Exact (s : Kernel) (hand : Option Nat) : Prop where
  refs : s.Refs hand
  pipes : s.Pipes
  shapes : s.Shapes

section
variable {s : Kernel} {a pid fd : Nat}

theorem setSlot_pipes (h : s.Pipes) (v : Option Nat) : (s.setSlot pid fd v).Pipes :=
  h.congr (fun _ _ => Iff.rfl) (fun _ _ _ => rfl) (fun _ => Iff.rfl) (fun _ _ hb => hb) (fun _ _ => ⟨fun _ => rfl, rfl⟩) rfl rfl

@[simp] theorem setSlot_used (s : Kernel) (pid fd : Nat) (v : Option Nat) (i : Nat) :
    ((s.setSlot pid fd v).ctx i).used = (s.ctx i).used := by
  show (update s.ctx pid _ i).used = _
  by_cases e : i = pid
  · rw [e, update_self]
  · rw [update_of_ne e]

theorem setSlot_files_self (s : Kernel) (pid fd : Nat) (v : Option Nat) : ((s.setSlot pid fd v).ctx pid).files fd = v := by
  show (update s.ctx pid _ pid).files fd = v
  rw [update_self]
  exact update_self ..

theorem setSlot_files_of_ne (s : Kernel) (pid : Nat) {fd d : Nat} (v : Option Nat) (h : d ≠ fd) :
    ((s.setSlot pid fd v).ctx pid).files d = (s.ctx pid).files d := by
  show (update s.ctx pid _ pid).files d = _
  rw [update_self]
  exact update_of_ne h ..

theorem Exact.take (h : s.Exact none) (hpid : pid < MAX_PROCESSES) (hfd : fd < MAX_OPEN_FILES)
    (ha : (s.ctx pid).files fd = some a) : (s.setSlot pid fd none).Exact (some a) :=
  ⟨h.refs.take hpid hfd ha, setSlot_pipes h.pipes none, h.shapes⟩

theorem Exact.put (h : s.Exact (some a)) (hpid : pid < MAX_PROCESSES) (hfd : fd < MAX_OPEN_FILES)
    (hu : (s.ctx pid).used = true) (ha : (s.ctx pid).files fd = none) : (s.setSlot pid fd (some a)).Exact none :=
  ⟨h.refs.put hpid hfd hu ha, setSlot_pipes h.pipes (some a), h.shapes⟩

/-- A field of a file object that says nothing of pipes. -/
theorem setFile_pipes (h : s.Pipes) {f : File} (ht : f.type = (s.file a).type) (hm : f.mode = (s.file a).mode)
    (hp : f.pipe = (s.file a).pipe) : (s.setFile a f).Pipes := by
  have hsame : ∀ b, ((s.setFile a f).file b).type = (s.file b).type ∧ ((s.setFile a f).file b).mode = (s.file b).mode ∧
      ((s.setFile a f).file b).pipe = (s.file b).pipe := by
    intro b
    show (update s.file a f b).type = _ ∧ (update s.file a f b).mode = _ ∧ (update s.file a f b).pipe = _
    by_cases e : b = a
    · rw [e, update_self]
      exact ⟨ht, hm, hp⟩
    · rw [update_of_ne e]
      exact ⟨rfl, rfl, rfl⟩
  refine h.congr (fun b p => ?_) (fun b p _ => (hsame b).2.1) (fun _ => Iff.rfl) (fun _ _ hb => hb)
    (fun _ _ => ⟨fun _ => rfl, rfl⟩) rfl rfl
  unfold End
  rw [(hsame b).1, (hsame b).2.2]
  exact Iff.rfl

theorem setFile_shapes (h : s.Shapes) {f : File} (hf : (s.file a).Shaped → f.Shaped) : (s.setFile a f).Shapes := by
  intro b hb
  show (update s.file a f b).Shaped
  by_cases e : b = a
  · rw [e, update_self]
    exact hf (h a (e ▸ hb))
  · rw [update_of_ne e]
    exact h b hb

theorem Exact.addRef (h : s.Exact none) (ha : s.use a = .file) : (s.addRef a).Exact (some a) :=
  ⟨h.refs.addRef ha, setFile_pipes h.pipes rfl rfl rfl, setFile_shapes h.shapes id⟩

theorem allocFile_shapes (h : s.Shapes) {page : Nat} {junk f : File} (hf : f.Shaped) :
    ((s.allocFile page junk).setFile page f).Shapes := by
  intro b hb
  show (update (update s.file page _) page f b).Shaped
  by_cases e : b = page
  · rw [e, update_self]
    exact hf
  · rw [update_of_ne e, update_of_ne e]
    exact h b ((update_of_ne e ..).symm.trans hb)

/-- A page becomes a file object that is no end of a pipe. -/
theorem Exact.alloc (h : s.Exact none) {page : Nat} (hfree : s.use page = .free) (junk : File) {f : File} (hf : f.refCount = 1)
    (ht : f.type ≠ .PIPE) (hshape : f.Shaped) : ((s.allocFile page junk).setFile page f).Exact (some page) := by
  refine ⟨h.refs.alloc hfree junk hf, ?_, allocFile_shapes h.shapes hshape⟩
  have huse : ∀ (u : Use), u ≠ .file → u ≠ .free → ∀ b, ((s.allocFile page junk).setFile page f).use b = u ↔ s.use b = u := by
    intro u hu hu2 b
    show update s.use page .file b = u ↔ _
    by_cases e : b = page
    · rw [e, update_self, hfree]
      exact iff_of_false (Ne.symm hu) (Ne.symm hu2)
    · rw [update_of_ne e]
  have hEnd : ∀ b p, ((s.allocFile page junk).setFile page f).End b p ↔ s.End b p := by
    intro b p
    show update s.use page .file b = .file ∧ (update (update s.file page _) page f b).type = .PIPE ∧
      (update (update s.file page _) page f b).pipe = p ↔ _
    unfold End
    by_cases e : b = page
    · rw [e, update_self, update_self, hfree]
      exact iff_of_false (fun hb => ht hb.2.1) fun hb => nomatch hb.1
    · rw [update_of_ne e, update_of_ne e, update_of_ne e]
  refine h.pipes.congr hEnd (fun b p hb => ?_) (huse .pipe nofun nofun) (fun b p hb => (huse (.buff p) nofun nofun b).mpr hb)
    (fun _ _ => ⟨fun _ => rfl, rfl⟩) rfl rfl
  have e : b ≠ page := fun e => by
    have hub := hb.1
    rw [e, hfree] at hub
    cases hub
  show (update (update s.file page _) page f b).mode = _
  rw [update_of_ne e, update_of_ne e]

/-! ## Closing -/

theorem closeEnd_refs (h : s.Refs (some a)) (f : File) : (s.closeEnd f).Refs (some a) :=
  h.congr (fun _ => rfl) h.empty (fun _ => Iff.rfl) (fun _ _ => rfl) rfl rfl rfl

theorem Refs.freePipeInfo {hand : Option Nat} {p : Nat} (h : s.Refs hand) (hp : s.use p = .pipe)
    (hb : s.use (s.pipe p).buffPage = .buff p) : (s.freePipeInfo p).Refs hand := by
  refine h.congr (fun _ => rfl) h.empty (fun b => ?_) (fun _ _ => rfl) rfl rfl rfl
  rw [freePipeInfo_use s p .file nofun]
  refine and_iff_right_of_imp fun hf => ⟨fun e => ?_, fun e => ?_⟩
  · rw [e, hp] at hf
    cases hf
  · rw [e, hb] at hf
    cases hf

theorem Pipes.freeFileObject (h : s.Pipes) (hlive : s.use a = .file) (ht : (s.file a).type ≠ .PIPE) :
    (s.freeFileObject a).Pipes := by
  have hne : ∀ {b u}, s.use b = u → u ≠ .file → b ≠ a := fun hb hu e => hu (hb.symm.trans (e ▸ hlive))
  have huse : ∀ (u : Use), u ≠ .free → u ≠ .file → ∀ b, (s.freeFileObject a).use b = u ↔ s.use b = u := fun u hu hu2 b =>
    (freeFileObject_use s a u hu b).trans (and_iff_right_of_imp fun hb => hne hb hu2)
  refine h.congr (fun b p => ?_) (fun _ _ _ => rfl) (huse .pipe nofun nofun) (fun b p => (huse (.buff p) nofun nofun b).mpr)
    (fun _ _ => ⟨fun _ => rfl, rfl⟩) rfl rfl
  refine (freeFileObject_End s a b p).trans (and_iff_right_of_imp fun hb e => ?_)
  exact ht (e ▸ hb.2.1)

theorem freeFileObject_shapes (h : s.Shapes) : (s.freeFileObject a).Shapes := fun b hb =>
  h b ((freeFileObject_use s a .file nofun b).mp hb).2

theorem freePipeInfo_shapes (h : s.Shapes) (p : Nat) : (s.freePipeInfo p).Shapes := fun b hb =>
  h b ((freePipeInfo_use s p .file nofun b).mp hb).2

theorem Exact.close (h : s.Exact (some a)) : (s.genericClose a).Exact none := by
  have hlive : s.use a = .file := (h.refs.live a).mpr (by rw [held_some]; exact Nat.succ_pos _)
  unfold genericClose
  by_cases h1 : (s.file a).refCount = 1
  · by_cases ht : (s.file a).type = .PIPE
    · have hEnd : s.End a (s.file a).pipe := ⟨hlive, ht, rfl⟩
      have hp := h.pipes.live a _ hEnd
      have hW := @Pipes.closed _ _ _ h.pipes hEnd O_WRITE (Or.inr rfl)
      have hR := @Pipes.closed _ _ _ h.pipes hEnd O_READ (Or.inl rfl)
      rw [if_pos h1, if_pos ht]
      by_cases hboth : ((s.closeEnd (s.file a)).pipe (s.file a).pipe).isWopen = 0 ∧
          ((s.closeEnd (s.file a)).pipe (s.file a).pipe).isRopen = 0
      · rw [if_pos hboth]
        refine ⟨Refs.free ((closeEnd_refs h.refs _).freePipeInfo hp ?_) h1, h.pipes.freePipe hEnd fun b hb => ?_,
          freeFileObject_shapes (freePipeInfo_shapes (s := s.closeEnd (s.file a)) h.shapes _)⟩
        · rw [closeEnd_buffPage]
          exact h.pipes.buff _ hp
        · by_contra hne
          obtain hm | hm := h.pipes.mode b _ hb
          · exact hR.mp hboth.2 b hne hb hm
          · exact hW.mp hboth.1 b hne hb hm
      · rw [if_neg hboth]
        refine ⟨Refs.free (closeEnd_refs h.refs _) h1, ?_, freeFileObject_shapes h.shapes⟩
        obtain ⟨b, hb, hne⟩ : ∃ b, s.End b (s.file a).pipe ∧ b ≠ a := by
          by_contra hno
          have hall : ∀ b, b ≠ a → ¬ s.End b (s.file a).pipe := fun b hne hb => hno ⟨b, hb, hne⟩
          exact hboth ⟨hW.mpr fun b hne hb => absurd hb (hall b hne), hR.mpr fun b hne hb => absurd hb (hall b hne)⟩
        exact h.pipes.closeEnd hEnd hb hne
    · rw [if_pos h1, if_neg ht]
      exact ⟨h.refs.free h1, h.pipes.freeFileObject hlive ht, freeFileObject_shapes h.shapes⟩
  · rw [if_neg h1]
    exact ⟨h.refs.release h1, setFile_pipes h.pipes rfl rfl rfl, setFile_shapes h.shapes id⟩

theorem genericClose_ctx (s : Kernel) (a : Nat) : (s.genericClose a).ctx = s.ctx := by
  unfold genericClose
  dsimp only
  split
  · split
    · split <;> rfl
    · rfl
  · rfl

theorem genericClose_setSlot (s : Kernel) (a pid fd : Nat) (v : Option Nat) :
    (s.genericClose a).setSlot pid fd v = (s.setSlot pid fd v).genericClose a := by
  unfold genericClose
  dsimp only
  by_cases h1 : (s.file a).refCount = 1
  · by_cases ht : (s.file a).type = .PIPE
    · by_cases hboth : ((s.closeEnd (s.file a)).pipe (s.file a).pipe).isWopen = 0 ∧
          ((s.closeEnd (s.file a)).pipe (s.file a).pipe).isRopen = 0
      · rw [if_pos h1, if_pos ht, if_pos hboth]
        exact ((if_pos h1).trans ((if_pos ht).trans (if_pos hboth))).symm
      · rw [if_pos h1, if_pos ht, if_neg hboth]
        exact ((if_pos h1).trans ((if_pos ht).trans (if_neg hboth))).symm
    · rw [if_pos h1, if_neg ht]
      exact ((if_pos h1).trans (if_neg ht)).symm
  · rw [if_neg h1]
    exact (if_neg h1).symm

/-! ## The calls -/

theorem freeSlot_spec {files : Nat → Option Nat} {first fd : Nat} (h : freeSlot files first = some fd) :
    first ≤ fd ∧ fd < MAX_OPEN_FILES ∧ files fd = none := by
  have hmem := List.mem_range'_1.mp (List.mem_of_find?_eq_some h)
  have hnone := List.find?_some h
  refine ⟨hmem.1, ?_, Option.isNone_iff_eq_none.mp hnone⟩
  unfold MAX_OPEN_FILES at *
  omega

/-- What a slot points to is there. -/
theorem Exact.live (h : s.Exact none) (hpid : pid < MAX_PROCESSES) (hfd : fd < MAX_OPEN_FILES)
    (ha : (s.ctx pid).files fd = some a) : s.use a = .file :=
  (h.refs.live a).mpr (by rw [held_none, Nat.add_zero]; exact slots_pos hpid hfd ha)

theorem Exact.setFs {hand : Option Nat} (h : s.Exact hand) (fs : FlatFs) : { s with fs := fs }.Exact hand :=
  ⟨h.refs.congr (fun _ => rfl) h.refs.empty (fun _ => Iff.rfl) (fun _ _ => rfl) rfl rfl rfl,
    h.pipes.congr (fun _ _ => Iff.rfl) (fun _ _ _ => rfl) (fun _ => Iff.rfl) (fun _ _ hb => hb)
      (fun _ _ => ⟨fun _ => rfl, rfl⟩) rfl rfl, h.shapes⟩

/-- An offset moves. -/
theorem Exact.setOffp (h : s.Exact none) (a offp : Nat) : (s.setFile a { s.file a with offp := offp }).Exact none := by
  refine ⟨h.refs.congr (fun _ => rfl) h.refs.empty (fun _ => Iff.rfl) (fun b _ => ?_) rfl rfl rfl,
    setFile_pipes h.pipes rfl rfl rfl, setFile_shapes h.shapes id⟩
  show (update s.file a _ b).refCount = _
  by_cases e : b = a
  · rw [e, update_self]
  · rw [update_of_ne e]

theorem Exact.setPipe (h : s.Exact none) {p : Nat} {q : PipeInfo} (hr : q.isRopen = (s.pipe p).isRopen)
    (hw : q.isWopen = (s.pipe p).isWopen) (hb : q.buffPage = (s.pipe p).buffPage) : (s.setPipe p q).Exact none := by
  refine ⟨h.refs.congr (fun _ => rfl) h.refs.empty (fun _ => Iff.rfl) (fun _ _ => rfl) rfl rfl rfl,
    h.pipes.congr (fun _ _ => Iff.rfl) (fun _ _ _ => rfl) (fun _ => Iff.rfl) (fun _ _ hb => hb) (fun p' _ => ?_) rfl rfl,
    h.shapes⟩
  show (∀ m, (update s.pipe p q p').isOpen m = _) ∧ (update s.pipe p q p').buffPage = _
  by_cases e : p' = p
  · rw [e, update_self]
    unfold PipeInfo.isOpen
    exact ⟨fun m => by rw [hr, hw], hb⟩
  · rw [update_of_ne e]
    exact ⟨fun _ => rfl, rfl⟩

variable {page : Nat} {junk : File}

theorem Exact.openInode (h : s.Exact none) (hpid : pid < MAX_PROCESSES) (hu : (s.ctx pid).used = true)
    (hf : s.Fresh [page]) (i : Nat) (flags : UInt64) : (s.openInode pid i flags page junk).2.Exact none := by
  have hpage := hf.2 page (by simp)
  unfold Kernel.openInode
  dsimp only
  split
  · exact h
  split
  · exact h
  cases hs : freeSlot (s.ctx pid).files 3 with
  | none => exact h
  | some fd =>
    obtain ⟨-, hfd, hnone⟩ := freeSlot_spec hs
    dsimp only
    rw [if_neg hpage.2]
    exact (h.alloc hpage.1 junk (f := regularFile i flags) rfl nofun ⟨nofun, rfl⟩).put hpid hfd hu hnone

theorem Exact.doRegularFileOpen (h : s.Exact none) (hpid : pid < MAX_PROCESSES) (hu : (s.ctx pid).used = true)
    (hf : s.Fresh [page]) (filename : List UInt8) (flags mode : UInt64) :
    (s.doRegularFileOpen pid filename flags mode page junk).2.Exact none := by
  unfold Kernel.doRegularFileOpen
  split
  · exact h
  cases s.fs.lookupInode filename with
  | none =>
    dsimp only
    split
    · rcases s.fs.createInode filename mode.toUInt32 with ⟨i | i, fs⟩
      · exact h.setFs fs
      · exact (h.setFs fs).openInode hpid hu hf i flags
    · exact h
  | some i =>
    dsimp only
    split
    · exact h
    · exact h.openInode hpid hu hf i flags

theorem Exact.createStandardIO (h : s.Exact none) (hfree : s.use page = .free) (type : FileType) (junk : File)
    (ht : type ≠ .PIPE ∧ type ≠ .REGULAR) : (s.createStandardIO type page junk).Exact (some page) := by
  refine h.alloc hfree junk rfl ht.1 ?_
  cases type with
  | STDIN | STDOUT | STDERR => exact ⟨rfl, rfl⟩
  | REGULAR => exact absurd rfl ht.2
  | PIPE => exact absurd rfl ht.1

theorem Exact.openStandardIO (h : s.Exact none) (hpid : pid < MAX_PROCESSES) (hu : (s.ctx pid).used = true)
    (hf : s.Fresh [page]) {type : FileType} (ht : type.num < 3) {r : Ret × Kernel}
    (hr : s.openStandardIO pid type page junk = some r) : r.2.Exact none := by
  have htype : type ≠ .PIPE ∧ type ≠ .REGULAR := by
    refine ⟨fun e => ?_, fun e => ?_⟩ <;> rw [e] at ht <;> exact absurd ht (by decide)
  have hfd : type.num < MAX_OPEN_FILES := Nat.lt_trans ht (by decide)
  unfold Kernel.openStandardIO at hr
  cases hs : (s.ctx pid).files type.num with
  | none =>
    rw [hs] at hr
    cases hr
    exact (h.createStandardIO (hf.2 page (by simp)).1 type junk htype).put hpid hfd hu hs
  | some a =>
    rw [hs] at hr
    obtain ⟨fd, hfree, rfl⟩ := Option.map_eq_some_iff.mp hr
    obtain ⟨-, hlt, hnone⟩ := freeSlot_spec hfree
    exact (h.addRef (h.live hpid hfd hs)).put hpid hlt hu hnone

theorem Exact.fdDup (h : s.Exact none) (hpid : pid < MAX_PROCESSES) (hu : (s.ctx pid).used = true) (oldfd : Int) :
    (s.fdDup pid oldfd).2.Exact none := by
  unfold Kernel.fdDup
  by_cases hold : 0 ≤ oldfd ∧ oldfd < MAX_OPEN_FILES
  · rw [if_neg (not_not.mpr hold)]
    cases ha : (s.ctx pid).files oldfd.toNat with
    | none => exact h
    | some a =>
      cases hs : freeSlot (s.ctx pid).files 0 with
      | none => exact h
      | some fd =>
        obtain ⟨-, hlt, hnone⟩ := freeSlot_spec hs
        exact (h.addRef (h.live hpid (by omega) ha)).put hpid hlt hu hnone
  · rw [if_pos hold]
    exact h

/-- What is in a slot is closed, if there is something in it. -/
def closeSlot (s : Kernel) (pid fd : Nat) : Kernel :=
  match (s.ctx pid).files fd with
  | none => s
  | some b => s.genericClose b

theorem closeSlot_ctx (s : Kernel) (pid fd : Nat) : (s.closeSlot pid fd).ctx = s.ctx := by
  unfold closeSlot
  split
  · rfl
  · exact genericClose_ctx ..

theorem Exact.closeSlot (h : s.Exact none) (hpid : pid < MAX_PROCESSES) (hfd : fd < MAX_OPEN_FILES) :
    ((s.closeSlot pid fd).setSlot pid fd none).Exact none := by
  unfold Kernel.closeSlot
  cases hs : (s.ctx pid).files fd with
  | none =>
    have hsame : s.setSlot pid fd none = s := by
      unfold setSlot setFiles
      rw [← hs, update_eq_self, update_eq_self]
    dsimp only
    rw [hsame]
    exact h
  | some b =>
    dsimp only
    rw [genericClose_setSlot]
    exact (h.take hpid hfd hs).close

theorem Exact.fdDup2 (h : s.Exact none) (hpid : pid < MAX_PROCESSES) (hu : (s.ctx pid).used = true) (oldfd newfd : Int) :
    (s.fdDup2 pid oldfd newfd).2.Exact none := by
  unfold Kernel.fdDup2
  by_cases hold : 0 ≤ oldfd ∧ oldfd < MAX_OPEN_FILES
  · by_cases hnew : 0 ≤ newfd ∧ newfd < MAX_OPEN_FILES
    · rw [if_neg (not_not.mpr hold), if_neg (not_not.mpr hnew)]
      cases ha : (s.ctx pid).files oldfd.toNat with
      | none => exact h
      | some a =>
        dsimp only
        by_cases e : oldfd = newfd
        · rw [if_pos e]
          exact h
        · rw [if_neg e]
          have hlt : newfd.toNat < MAX_OPEN_FILES := by omega
          have hdrop := h.closeSlot hpid hlt
          have hctx := s.closeSlot_ctx pid newfd.toNat
          show (((s.closeSlot pid newfd.toNat).setSlot pid newfd.toNat (some a)).addRef a).Exact none
          generalize s.closeSlot pid newfd.toNat = t at hdrop hctx ⊢
          have hslot : ((t.setSlot pid newfd.toNat none).ctx pid).files oldfd.toNat = some a := by
            rw [setSlot_files_of_ne t pid none (by omega), hctx]
            exact ha
          have hused : ((t.setSlot pid newfd.toNat none).ctx pid).used = true := by
            rw [setSlot_used, hctx]
            exact hu
          have hnone : ((t.setSlot pid newfd.toNat none).ctx pid).files newfd.toNat = none := setSlot_files_self ..
          have hput := (hdrop.addRef (hdrop.live hpid (by omega) hslot)).put hpid hlt hused hnone
          have hset : ((t.setSlot pid newfd.toNat none).addRef a).setSlot pid newfd.toNat (some a) =
              (t.setSlot pid newfd.toNat (some a)).addRef a := by
            unfold Kernel.addRef setFile setSlot setFiles
            dsimp only
            rw [update_self, update_idem, update_idem]
          rw [← hset]
          exact hput
    · rw [if_neg (not_not.mpr hold), if_pos hnew]
      exact h
  · rw [if_pos hold]
    exact h

theorem Exact.doClose (h : s.Exact none) (hpid : pid < MAX_PROCESSES) (hfd : fd < MAX_OPEN_FILES) :
    (s.doClose pid fd).2.Exact none := by
  unfold Kernel.doClose
  cases ha : (s.ctx pid).files fd with
  | none => exact h
  | some a =>
    dsimp only
    split
    · exact (h.take hpid hfd ha).close
    · exact h

theorem madePipe_shapes (h : s.Shapes) {fd0 fd1 : Nat} {pages : PipePages}
    (hf : s.Fresh [pages.file1, pages.file2, pages.info, pages.buff]) : (s.madePipe pid fd0 fd1 pages).Shapes := by
  intro b hb
  obtain (e | e) | hb := (madePipe_file_iff hf b).mp hb
  · rw [e, madePipe_file1 hf]
    exact Or.inl ⟨rfl, rfl⟩
  · rw [e, madePipe_file2]
    exact Or.inr ⟨rfl, rfl⟩
  · rw [madePipe_file hf (by rw [hb]; exact nofun)]
    exact h b hb

theorem Exact.createPipe (h : s.Exact none) (hpid : pid < MAX_PROCESSES) (hu : (s.ctx pid).used = true) {pages : PipePages}
    (hf : s.Fresh [pages.file1, pages.file2, pages.info, pages.buff]) : (s.createPipe pid pages).2.Exact none := by
  unfold Kernel.createPipe
  cases hs0 : freeSlot (s.ctx pid).files 3 with
  | none => exact h
  | some fd0 =>
    dsimp only
    cases hs1 : freeSlot (s.ctx pid).files (fd0 + 1) with
    | none => exact h
    | some fd1 =>
      obtain ⟨-, hlt0, hnone0⟩ := freeSlot_spec hs0
      obtain ⟨hle, hlt1, hnone1⟩ := freeSlot_spec hs1
      refine ⟨?_, h.pipes.create hf, madePipe_shapes h.shapes hf⟩
      have hnd := hf.1
      simp only [List.nodup_cons, List.mem_cons, List.not_mem_nil, or_false, not_or] at hnd
      have hfree1 := (hf.2 pages.file1 (by simp)).1
      have hfree2 := (hf.2 pages.file2 (by simp)).1
      -- the two objects one after the other
      have ht := (h.refs.alloc hfree1 pages.junk1 (f := readEnd pages.info pages.junk1) rfl).put hpid hlt0 hu hnone0
      generalize hteq : ((s.allocFile pages.file1 pages.junk1).setFile pages.file1 (readEnd pages.info pages.junk1)).setSlot
        pid fd0 (some pages.file1) = t at ht
      have hfree2' : t.use pages.file2 = .free := by
        rw [← hteq]
        exact (update_of_ne (Ne.symm hnd.1.1) ..).trans hfree2
      have hused : (t.ctx pid).used = true := by
        rw [← hteq, setSlot_used]
        exact hu
      have hnone : (t.ctx pid).files fd1 = none := by
        rw [← hteq, setSlot_files_of_ne _ pid _ (by omega)]
        exact hnone1
      have hput := (ht.alloc hfree2' pages.junk2 (f := writeEnd pages.info pages.junk2) rfl).put hpid hlt1 hused hnone
      rw [← hteq] at hput
      show (s.madePipe pid fd0 fd1 pages).Refs none
      refine hput.congr (fun _ => rfl) hput.empty (fun b => ?_) (fun b _ => ?_) rfl rfl rfl
      · rw [madePipe_file_iff hf]
        show _ ↔ update (update s.use pages.file1 .file) pages.file2 .file b = .file
        by_cases e2 : b = pages.file2
        · rw [e2, update_self]
          exact iff_of_true (Or.inl (Or.inr rfl)) rfl
        · rw [update_of_ne e2]
          by_cases e1 : b = pages.file1
          · rw [e1, update_self]
            exact iff_of_true (Or.inl (Or.inl rfl)) rfl
          · rw [update_of_ne e1]
            exact or_iff_right fun hb => hb.elim e1 e2
      · show (update (update (update (update s.file pages.file1 _) pages.file2 _) pages.file1 _) pages.file2 _ b).refCount =
          (update (update (update (update s.file pages.file1 _) pages.file1 _) pages.file2 _) pages.file2 _ b).refCount
        by_cases e2 : b = pages.file2
        · rw [e2, update_self, update_self]
        · rw [update_of_ne e2, update_of_ne e2, update_of_ne e2]
          by_cases e1 : b = pages.file1
          · rw [e1, update_self, update_self]
          · rw [update_of_ne e1, update_of_ne e1, update_of_ne e2, update_of_ne e1]

/-! ## fork and exit -/

/-- A table's first `n` slots. -/
def firstSlots (files : Nat → Option Nat) (n : Nat) : Nat → Option Nat := fun fd => if fd < n then files fd else none

theorem refs_congr {f g : Nat → Option Nat} (h : ∀ fd < MAX_OPEN_FILES, f fd = g fd) (a : Nat) : refs f a = refs g a :=
  Nat.le_antisymm (total_le fun fd hfd => by rw [h fd hfd]) (total_le fun fd hfd => by rw [h fd hfd])

/-- Tables that agree on their slots. -/
theorem Exact.congr_ctx {hand : Option Nat} (h : s.Exact hand) (ctx : Nat → Ctx)
    (hfiles : ∀ pid, ∀ fd < MAX_OPEN_FILES, (ctx pid).files fd = (s.ctx pid).files fd)
    (hempty : ∀ pid, (ctx pid).used = false → ∀ fd < MAX_OPEN_FILES, (ctx pid).files fd = none) :
    { s with ctx := ctx }.Exact hand := by
  refine ⟨h.refs.congr (fun b => ?_) hempty (fun _ => Iff.rfl) (fun _ _ => rfl) rfl rfl rfl,
    h.pipes.congr (fun _ _ => Iff.rfl) (fun _ _ _ => rfl) (fun _ => Iff.rfl) (fun _ _ hb => hb)
      (fun _ _ => ⟨fun _ => rfl, rfl⟩) rfl rfl, h.shapes⟩
  have hsame : ∀ pid, Files.refs (ctx pid).files b = Files.refs (s.ctx pid).files b := fun pid => refs_congr (hfiles pid) b
  unfold slots
  simp only [hsame]

/-- What do_file_fork does with a slot. -/
def countSlot (child : Nat) (s : Kernel) (i : Nat) : Kernel :=
  match (s.ctx child).files i with
  | none => s
  | some a => s.addRef a

/-- What do_file_exit does with a slot. -/
def emptySlot (pid : Nat) (s : Kernel) (i : Nat) : Kernel :=
  match (s.ctx pid).files i with
  | none => s
  | some a => (s.genericClose a).setSlot pid i none

/-- The slots do_file_fork has been to count; the others do not yet. -/
theorem forkSlots (h : s.Exact none) {child : Nat} (hpid : pid < MAX_PROCESSES) (hchild : child < MAX_PROCESSES)
    (hne : pid ≠ child) {t : Kernel} (ht : t = { s with ctx := update s.ctx child { s.ctx pid with used := true } })
    (hunused : (s.ctx child).used = false) {n : Nat} (hn : n ≤ MAX_OPEN_FILES) :
    ∃ u, (List.range n).foldl (countSlot child) t = u ∧ u.ctx = t.ctx ∧
      { u with ctx := update t.ctx child ⟨true, firstSlots (s.ctx pid).files n⟩ }.Exact none := by
  have hfiles : (t.ctx child).files = (s.ctx pid).files := by
    rw [ht]
    dsimp only
    rw [update_self]
  have hcpid : t.ctx pid = s.ctx pid := by
    rw [ht]
    exact update_of_ne hne ..
  induction n with
  | zero =>
    refine ⟨t, rfl, rfl, ?_⟩
    have hz := h.congr_ctx (update s.ctx child ⟨true, firstSlots (s.ctx pid).files 0⟩) (fun i fd hfd => ?_)
      (fun i hi fd hfd => ?_)
    · rw [ht]
      dsimp only
      rw [update_idem]
      exact hz
    · by_cases e : i = child
      · rw [e, update_self, h.refs.empty child hunused fd hfd]
        rfl
      · rw [update_of_ne e]
    · by_cases e : i = child
      · rw [e, update_self] at hi
        cases hi
      · rw [update_of_ne e] at hi ⊢
        exact h.refs.empty i hi fd hfd
  | succ n ih =>
    obtain ⟨u, hu, hctx, hexact⟩ := ih (Nat.le_of_succ_le hn)
    rw [List.range_succ, List.foldl_append, hu]
    show ∃ v, countSlot child u n = v ∧ _
    unfold countSlot
    rw [hctx, hfiles]
    have hsucc : firstSlots (s.ctx pid).files (n + 1) = update (firstSlots (s.ctx pid).files n) n ((s.ctx pid).files n) := by
      funext fd
      unfold firstSlots
      by_cases e : fd = n
      · rw [e, if_pos (Nat.lt_succ_self n), update_self]
      · rw [update_of_ne e]
        by_cases hlt : fd < n
        · rw [if_pos hlt, if_pos (Nat.lt_succ_of_lt hlt)]
        · rw [if_neg hlt, if_neg (by omega)]
    have hlast : firstSlots (s.ctx pid).files n n = none := if_neg (Nat.lt_irrefl n)
    cases ha : (s.ctx pid).files n with
    | none =>
      refine ⟨u, rfl, hctx, ?_⟩
      have hsame : update (firstSlots (s.ctx pid).files n) n none = firstSlots (s.ctx pid).files n :=
        update_eq_self_iff.mpr hlast.symm
      rw [hsucc, ha, hsame]
      exact hexact
    | some a =>
      refine ⟨u.addRef a, rfl, hctx, ?_⟩
      have hslot : ((update t.ctx child ⟨true, firstSlots (s.ctx pid).files n⟩) pid).files n = some a := by
        rw [update_of_ne hne, hcpid]
        exact ha
      have hput := (hexact.addRef (hexact.live hpid hn hslot)).put hchild hn
        (show (update t.ctx child _ child).used = true by rw [update_self])
        (show (update t.ctx child _ child).files n = none by rw [update_self]; exact hlast)
      unfold setSlot setFiles Kernel.addRef setFile at hput
      dsimp only at hput
      rw [update_self, update_idem] at hput
      rw [hsucc, ha]
      exact hput

theorem Exact.doFork (h : s.Exact none) (hpid : pid < MAX_PROCESSES) (hu : (s.ctx pid).used = true) {r : Ret × Kernel}
    (hr : s.doFork pid = some r) : r.2.Exact none := by
  obtain ⟨child, hget, rfl⟩ := Option.map_eq_some_iff.mp hr
  have hchild : child < MAX_PROCESSES := List.mem_range.mp (List.mem_of_find?_eq_some hget)
  have hunused : (s.ctx child).used = false := by
    have hfound := List.find?_some hget
    rw [Bool.not_eq_true'] at hfound
    exact hfound
  have hne : pid ≠ child := fun e => by
    rw [e, hunused] at hu
    cases hu
  obtain ⟨u, hfold, hctx, hexact⟩ := forkSlots h hpid hchild hne rfl hunused (Nat.le_refl MAX_OPEN_FILES)
  have hall := hexact.congr_ctx u.ctx (fun i fd hfd => ?_) (fun i hi fd hfd => ?_)
  · show ((List.range MAX_OPEN_FILES).foldl (countSlot child) _).Exact none
    rw [hfold]
    exact hall
  · rw [hctx]
    dsimp only
    by_cases e : i = child
    · rw [e, update_self, update_self]
      exact (if_pos hfd).symm
    · rw [update_of_ne e, update_of_ne e, update_of_ne e]
  · rw [hctx] at hi ⊢
    dsimp only at hi ⊢
    by_cases e : i = child
    · rw [e, update_self] at hi
      cases hi
    · rw [update_of_ne e] at hi ⊢
      exact h.refs.empty i hi fd hfd

/-- The slots do_file_exit has been to are empty. -/
theorem exitSlots (h : s.Exact none) (hpid : pid < MAX_PROCESSES) {n : Nat} (hn : n ≤ MAX_OPEN_FILES) :
    ∃ t, (List.range n).foldl (emptySlot pid) s = t ∧ t.Exact none ∧
      (∀ i, (t.ctx i).used = (s.ctx i).used) ∧ ∀ fd < n, (t.ctx pid).files fd = none := by
  induction n with
  | zero => exact ⟨s, rfl, h, fun _ => rfl, fun _ hfd => absurd hfd (Nat.not_lt_zero _)⟩
  | succ n ih =>
    obtain ⟨t, ht, hexact, hused, hnone⟩ := ih (Nat.le_of_succ_le hn)
    rw [List.range_succ, List.foldl_append, ht]
    show ∃ v, emptySlot pid t n = v ∧ _
    unfold emptySlot
    cases ha : (t.ctx pid).files n with
    | none =>
      refine ⟨t, rfl, hexact, hused, fun fd hfd => ?_⟩
      by_cases e : fd = n
      · rw [e]
        exact ha
      · exact hnone fd (by omega)
    | some a =>
      have hctx : ((t.genericClose a).setSlot pid n none).ctx =
          update t.ctx pid { t.ctx pid with files := update (t.ctx pid).files n none } := by
        unfold setSlot setFiles
        rw [genericClose_ctx]
      refine ⟨_, rfl, ?_, fun i => ?_, fun fd hfd => ?_⟩
      · dsimp only
        rw [genericClose_setSlot]
        exact (hexact.take hpid hn ha).close
      · rw [hctx]
        by_cases e : i = pid
        · rw [e, update_self]
          exact hused pid
        · rw [update_of_ne e]
          exact hused i
      · rw [hctx, update_self]
        dsimp only
        by_cases e : fd = n
        · rw [e, update_self]
        · rw [update_of_ne e]
          exact hnone fd (by omega)

theorem Exact.doExit (h : s.Exact none) (hpid : pid < MAX_PROCESSES) : (s.doExit pid).Exact none := by
  obtain ⟨t, hfold, hexact, -, hnone⟩ := exitSlots h hpid (Nat.le_refl MAX_OPEN_FILES)
  have hexit : s.doFileExit pid = t := hfold
  unfold Kernel.doExit
  rw [hexit]
  refine hexact.congr_ctx _ (fun i fd _ => ?_) fun i hi fd hfd => ?_
  · by_cases e : i = pid
    · rw [e, update_self]
    · rw [update_of_ne e]
  · by_cases e : i = pid
    · rw [e, update_self]
      exact hnone fd hfd
    · rw [update_of_ne e] at hi ⊢
      exact hexact.refs.empty i hi fd hfd

/-! ## read, write and lseek -/

theorem pipeRead_keeps (mode : UInt32) (q : PipeInfo) (count : Nat) : (pipeRead mode q count).2.isRopen = q.isRopen ∧
    (pipeRead mode q count).2.isWopen = q.isWopen ∧ (pipeRead mode q count).2.buffPage = q.buffPage := by
  unfold pipeRead
  split
  · exact ⟨rfl, rfl, rfl⟩
  · split <;> exact ⟨rfl, rfl, rfl⟩

theorem pipeWrite_keeps (mode : UInt32) (q : PipeInfo) (buff : Nat → UInt8) (count : Nat) :
    (pipeWrite mode q buff count).2.isRopen = q.isRopen ∧ (pipeWrite mode q buff count).2.isWopen = q.isWopen ∧
      (pipeWrite mode q buff count).2.buffPage = q.buffPage := by
  unfold pipeWrite
  split
  · exact ⟨rfl, rfl, rfl⟩
  · split <;> exact ⟨rfl, rfl, rfl⟩

theorem Exact.doReadRegular (h : s.Exact none) (a count : Nat) : (s.doReadRegular a count).2.Exact none := by
  unfold Kernel.doReadRegular
  cases (s.file a).inode with
  | none => exact h
  | some i =>
    dsimp only
    iterate 4 (split; exact h)
    exact h.setOffp a _

theorem Exact.doWriteRegular (h : s.Exact none) (a : Nat) (buff : Nat → UInt8) (count : Nat) :
    (s.doWriteRegular a buff count).2.Exact none := by
  unfold Kernel.doWriteRegular
  cases (s.file a).inode with
  | none => exact h
  | some i =>
    dsimp only
    iterate 4 (split; exact h)
    split
    · exact h.setFs _
    · exact (h.setFs _).setOffp a _

theorem Exact.doFileRead (h : s.Exact none) {count : Nat} {r : Ret × Kernel} (hr : s.doFileRead pid fd count = some r) :
    r.2.Exact none := by
  unfold Kernel.doFileRead at hr
  split at hr
  · cases hr
    exact h
  · rename_i a _
    split at hr
    · cases hr
      exact h
    · cases hr
      exact h.doReadRegular a _
    · split at hr
      · cases hr
        exact h
      · cases hr
        have hk := pipeRead_keeps (s.file a).mode (s.pipe (s.file a).pipe) (u32 count)
        exact h.setPipe hk.1 hk.2.1 hk.2.2
    · cases hr

theorem Exact.doFileWrite (h : s.Exact none) {buff : Nat → UInt8} {count : Nat} {r : Ret × Kernel}
    (hr : s.doFileWrite pid fd buff count = some r) : r.2.Exact none := by
  unfold Kernel.doFileWrite at hr
  split at hr
  · cases hr
    exact h
  · rename_i a _
    split at hr
    · cases hr
      exact h
    · cases hr
      exact h.doWriteRegular a buff _
    · split at hr
      · cases hr
        exact h
      · cases hr
        have hk := pipeWrite_keeps (s.file a).mode (s.pipe (s.file a).pipe) buff (u32 count)
        exact h.setPipe hk.1 hk.2.1 hk.2.2
    · cases hr

theorem Exact.doLseek (h : s.Exact none) (offset whence : Int) : (s.doLseek pid fd offset whence).2.Exact none := by
  unfold Kernel.doLseek
  cases (s.ctx pid).files fd with
  | none => exact h
  | some a =>
    dsimp only
    split
    · unfold Kernel.doLseekRegular
      extract_lets filep newoffset
      split
      · exact h
      · exact h.setOffp a _
    · exact h

/-! ## Runs -/

theorem step_exact {t : Kernel} {e : Ev} (h : s.Exact none) (hok : s.Promised e) (he : s.step e = some t) : t.Exact none := by
  unfold step at he
  split at he
  · rename_i hpid
    obtain ⟨r, hcall, hr⟩ := Option.bind_eq_some_iff.mp he
    split at hr
    · cases hr
      obtain ⟨pid, c, ret⟩ := e
      obtain ⟨hpid, hu⟩ := hpid
      cases c with
      | openRegular filename flags mode page junk =>
        cases hcall
        exact h.doRegularFileOpen hpid hu hok filename flags mode
      | openStandard type page junk => exact h.openStandardIO hpid hu hok.2 hok.1 hcall
      | pipe pages =>
        cases hcall
        exact h.createPipe hpid hu hok
      | dup oldfd =>
        cases hcall
        exact h.fdDup hpid hu oldfd
      | dup2 oldfd newfd =>
        cases hcall
        exact h.fdDup2 hpid hu oldfd newfd
      | close fd =>
        cases hcall
        exact h.doClose hpid hok
      | fork => exact h.doFork hpid hu hcall
      | exit =>
        cases hcall
        exact h.doExit hpid
      | read fd count => exact h.doFileRead hcall
      | write fd buff count => exact h.doFileWrite hcall
      | lseek fd offset whence =>
        cases hcall
        exact h.doLseek offset whence
    · cases hr
  · cases he

theorem boot_exact (h : s.Boot) : s.Exact none := by
  have hnone : ∀ a, s.slots a = 0 := fun a => Nat.eq_zero_of_not_pos fun hp => by
    obtain ⟨pid, -, fd, -, hs⟩ := exists_slot hp
    rw [h.files] at hs
    cases hs
  have huse : ∀ a u, u ≠ .free → u ≠ .other → s.use a ≠ u := fun a u hu hu2 e =>
    (h.use a).elim (fun hf => hu (e.symm.trans hf)) fun ho => hu2 (e.symm.trans ho)
  have hfile : ∀ a, s.use a ≠ .file := fun a => huse a .file nofun nofun
  have hpipe : ∀ a, s.use a ≠ .pipe := fun a => huse a .pipe nofun nofun
  have hEnd : ∀ a p, ¬ s.End a p := fun a p he => hfile a he.1
  refine ⟨⟨fun a ha => absurd ha (hfile a), fun a => ?_, fun a => ?_, fun pid _ fd _ => h.files pid fd, ∅, fun a => ?_, h.fileObjects⟩,
    ⟨fun p => ?_, fun a p he => absurd he (hEnd a p), fun a p he => absurd he (hEnd a p), fun p hp => absurd hp (hpipe p),
      fun a _ p he => absurd he (hEnd a p), fun p _ hp => absurd hp (hpipe p), fun p hp => absurd hp (hpipe p)⟩,
    fun a ha => absurd ha (hfile a)⟩
  · rw [hnone, held_none]
    exact iff_of_false (hfile a) (Nat.lt_irrefl 0)
  · rw [h.count, if_neg (hfile a)]
  · exact iff_of_false (Finset.notMem_empty a) (hfile a)
  · rw [h.count, if_neg (hpipe p)]

theorem start_exact (h : Start s) : s.Exact none := by
  obtain ⟨b, page1, page2, page3, junk1, junk2, junk3, hb, hf, rfl⟩ := h
  have hnd := hf.1
  simp only [List.nodup_cons, List.mem_cons, List.not_mem_nil, or_false, not_or] at hnd
  -- as if the process had been in use before it got its files
  have h0 := (boot_exact hb).congr_ctx (update b.ctx 1 ⟨true, (b.ctx 1).files⟩) (fun i fd _ => ?_) (fun i _ fd _ => ?_)
  · have hu : ((update b.ctx 1 ⟨true, (b.ctx 1).files⟩) 1).used = true := by rw [update_self]
    have hnone : ∀ fd, ((update b.ctx 1 ⟨true, (b.ctx 1).files⟩) 1).files fd = none := fun fd => by
      rw [update_self]
      exact hb.files 1 fd
    have h1 := (h0.createStandardIO (hf.2 page1 (by simp)).1 .STDIN junk1 ⟨nofun, nofun⟩).put (by decide : 1 < MAX_PROCESSES)
      (by decide : 0 < MAX_OPEN_FILES) hu (hnone 0)
    have hf2 : update b.use page1 .file page2 = .free := (update_of_ne (Ne.symm hnd.1.1) ..).trans (hf.2 page2 (by simp)).1
    have h2 := (h1.createStandardIO hf2 .STDOUT junk2 ⟨nofun, nofun⟩).put (by decide : 1 < MAX_PROCESSES)
      (by decide : 1 < MAX_OPEN_FILES) ((setSlot_used ..).trans hu) ((setSlot_files_of_ne _ 1 _ (by decide)).trans (hnone 1))
    have hf3 : update (update b.use page1 .file) page2 .file page3 = .free :=
      (update_of_ne (Ne.symm hnd.2.1) ..).trans ((update_of_ne (Ne.symm hnd.1.2) ..).trans (hf.2 page3 (by simp)).1)
    have h3 := (h2.createStandardIO hf3 .STDERR junk3 ⟨nofun, nofun⟩).put (by decide : 1 < MAX_PROCESSES)
      (by decide : 2 < MAX_OPEN_FILES) ((setSlot_used ..).trans ((setSlot_used ..).trans hu))
      ((setSlot_files_of_ne _ 1 _ (by decide)).trans ((setSlot_files_of_ne _ 1 _ (by decide)).trans (hnone 2)))
    unfold createContext
    unfold setSlot setFiles at h3 ⊢
    dsimp only [Kernel.createStandardIO, allocFile, setUse, setFile] at h3 ⊢
    simp only [update_self, update_idem] at h3 ⊢
    exact h3
  · by_cases e : i = 1
    · rw [e, update_self]
    · rw [update_of_ne e]
  · by_cases e : i = 1
    · rw [e, update_self]
      exact hb.files 1 fd
    · rw [update_of_ne e]
      exact hb.files i fd

theorem reach_exact (h : machine.Reach Promised s) : s.Exact none :=
  h.inv (fun s => s.Exact none) (fun _ => start_exact) fun _ _ _ hi hok he => step_exact hi hok he

/-- A file object the code may follow to pipe `p`. -/
def Refers (s : Kernel) (a p : Nat) : Prop :=
  s.use a = .file ∧ ((s.file a).type = .PIPE ∨ (s.file a).fops.read = some .pipeRead ∨ (s.file a).fops.write = some .pipeWrite) ∧
    (s.file a).pipe = p

theorem Exact.refers (h : s.Exact none) (p : Nat) : (∃ a, s.Refers a p) ↔ s.use p = .pipe := by
  refine ⟨fun ⟨a, ha, htype, hp⟩ => ?_, fun hp => ?_⟩
  · exact h.pipes.live a p ⟨ha, htype.elim id fun hops => (h.shapes a ha).pipe hops, hp⟩
  · obtain ⟨a, ha, ht, hp⟩ := h.pipes.some p hp
    exact ⟨a, ha, Or.inl ht, hp⟩

end

/-! ## A run -/

def blankFile : File := ⟨.STDIN, 0, 0, 0, none, noFops, 0⟩

/-- Where alloc_inodes puts the files: behind the bitmap of FILE_STORE_REG, a page each. The page behind the first
    belongs to none, since get_contigous_pages takes one even where it is asked for none. -/
def startPos (i : Nat) : Nat := if i = 0 then 0x2200C000 else 0x2200C000 + (i + 1) * FILE_SIZE

/-- Nothing is open, and the files lie where alloc_inodes has put them. -/
def blank : Kernel where
  ctx := fun pid => ⟨decide (pid = 0), fun _ => none⟩
  file := fun _ => blankFile
  pipe := fun _ => newPipe 0 fun _ => 0
  use := fun _ => .free
  fileObjects := 0
  count := ⟨fun _ => 0, fun _ => 0, fun _ => 0, fun _ => 0⟩
  fs := ⟨fun i => ⟨false, [], 0, startPos i, startPos i + FILE_SIZE, startPos i, 0⟩, 0, fun _ => 0⟩

theorem blank_boot : blank.Boot where
  used _ := rfl
  files _ _ := rfl
  use _ := Or.inl rfl
  fileObjects := rfl
  count := rfl
  numFiles := rfl
  invalid _ _ := rfl
  bounds i hi := by
    refine ⟨rfl, ?_⟩
    show startPos i + FILE_SIZE < 2 ^ 32
    unfold NUM_FILES at hi
    unfold startPos FILE_SIZE
    split <;> omega
  apart i _ j _ hne := by
    show startPos i + FILE_SIZE ≤ startPos j ∨ startPos j + FILE_SIZE ≤ startPos i
    unfold startPos FILE_SIZE
    split <;> split <;> omega
  zero _ _ _ _ := rfl

/-- The first process, with its three standard files in pages 1, 2 and 3. -/
def first : Kernel := blank.createContext 1 1 2 3 blankFile blankFile blankFile

theorem first_start : Start first := ⟨blank, 1, 2, 3, blankFile, blankFile, blankFile, blank_boot, by decide, rfl⟩

end Kernel

end Cs330.Files
