/-
  Cs330.Files.Refine — the calls on regular files are those of `Named`.

  `Matches s r id` relates the kernel to named byte arrays: `id` gives the file object in a
  page the number of the open that made it. Each call gives back the same and leaves the
  two related (`Agree`); `files_refine` is the run.
-/
import Cs330.Files.Exact
import Cs330.Files.Inodes
import Mathlib.Data.List.Find

namespace Cs330.Files

open Lib Lib.CInt Function

namespace Kernel

def descOf (s : Kernel) (id : Nat → Nat) (a : Nat) : Desc :=
  match (s.file a).type with
  | .STDIN => .input
  | .REGULAR => .opened (id a)
  | _ => .output

structure Matches (s : Kernel) (r : Named) (id : Nat → Nat) : Prop where
  used : ∀ pid, r.used pid = (s.ctx pid).used
  desc : ∀ pid < MAX_PROCESSES, ∀ fd < MAX_OPEN_FILES, r.desc pid fd = ((s.ctx pid).files fd).map (s.descOf id)
  holds : Holds s.fs r.dir
  noPipe : ∀ a, s.use a = .file → (s.file a).type ≠ .PIPE
  opened : ∀ a, s.use a = .file → (s.file a).type = .REGULAR → ∃ i, (s.file a).inode = some i ∧ i < r.dir.names.length ∧
    r.opened (id a) = ⟨(s.fs.inode i).filename, (s.file a).mode, (s.file a).offp⟩
  offset : ∀ a, s.use a = .file → (s.file a).type = .REGULAR → (s.file a).offp ≤ FILE_SIZE ∧ id a < r.opens
  inj : ∀ a b, s.use a = .file → (s.file a).type = .REGULAR → s.use b = .file → (s.file b).type = .REGULAR → id a = id b → a = b

/-- The same value, and states that match. -/
def Agree (x : Ret × Kernel) (y : Ret × Named) (id : Nat → Nat) : Prop := x.1 = y.1 ∧ x.2.Matches y.2 id

/-- Nothing has changed but reference counts, and what is no file object any more. -/
structure Same (s t : Kernel) : Prop where
  ctx : t.ctx = s.ctx
  fs : t.fs = s.fs
  live : ∀ b, t.use b = .file → s.use b = .file
  file : ∀ b, (t.file b).type = (s.file b).type ∧ (t.file b).mode = (s.file b).mode ∧ (t.file b).offp = (s.file b).offp ∧
    (t.file b).inode = (s.file b).inode

section
variable {s t u : Kernel} {r : Named} {id : Nat → Nat} {pid fd a : Nat}

theorem Same.refl (s : Kernel) : s.Same s := ⟨rfl, rfl, fun _ h => h, fun _ => ⟨rfl, rfl, rfl, rfl⟩⟩

theorem Same.trans (h1 : s.Same t) (h2 : t.Same u) : s.Same u :=
  ⟨h2.ctx.trans h1.ctx, h2.fs.trans h1.fs, fun b hb => h1.live b (h2.live b hb), fun b =>
    ⟨(h2.file b).1.trans (h1.file b).1, (h2.file b).2.1.trans (h1.file b).2.1, (h2.file b).2.2.1.trans (h1.file b).2.2.1,
      (h2.file b).2.2.2.trans (h1.file b).2.2.2⟩⟩

theorem same_setRefCount (s : Kernel) (a n : Nat) : s.Same (s.setFile a { s.file a with refCount := n }) := by
  refine ⟨rfl, rfl, fun _ h => h, fun b => ?_⟩
  show (update s.file a _ b).type = _ ∧ (update s.file a _ b).mode = _ ∧ (update s.file a _ b).offp = _ ∧
    (update s.file a _ b).inode = _
  by_cases e : b = a
  · rw [e, update_self]
    exact ⟨rfl, rfl, rfl, rfl⟩
  · rw [update_of_ne e]
    exact ⟨rfl, rfl, rfl, rfl⟩

theorem same_genericClose (s : Kernel) (a : Nat) : s.Same (s.genericClose a) := by
  have hfree : ∀ (t : Kernel), s.Same t → s.Same (t.freeFileObject a) := fun t h =>
    ⟨h.ctx, h.fs, fun b hb => h.live b ((freeFileObject_use t a .file nofun b).mp hb).2, h.file⟩
  have hend : s.Same (s.closeEnd (s.file a)) := ⟨rfl, rfl, fun _ h => h, fun _ => ⟨rfl, rfl, rfl, rfl⟩⟩
  unfold genericClose
  dsimp only
  split
  · split
    · split
      · refine hfree _ ⟨rfl, rfl, fun b hb => ?_, hend.file⟩
        exact ((freePipeInfo_use _ _ .file nofun b).mp hb).2
      · exact hfree _ hend
    · exact hfree s (.refl s)
  · exact same_setRefCount s a _

theorem Matches.same (hm : s.Matches r id) (h : s.Same t) : t.Matches r id := by
  have hdesc : t.descOf id = s.descOf id := by
    funext a
    unfold descOf
    rw [(h.file a).1]
  refine ⟨fun pid => ?_, fun pid hp fd hfd => ?_, ?_, fun a ha => ?_, fun a ha ht => ?_, fun a ha ht => ?_,
    fun a b ha hta hb htb => ?_⟩
  · rw [h.ctx]
    exact hm.used pid
  · rw [h.ctx, hdesc]
    exact hm.desc pid hp fd hfd
  · rw [h.fs]
    exact hm.holds
  · rw [(h.file a).1]
    exact hm.noPipe a (h.live a ha)
  · rw [(h.file a).1] at ht
    rw [(h.file a).2.1, (h.file a).2.2.1, (h.file a).2.2.2, h.fs]
    exact hm.opened a (h.live a ha) ht
  · rw [(h.file a).1] at ht
    rw [(h.file a).2.2.1]
    exact hm.offset a (h.live a ha) ht
  · rw [(h.file a).1] at hta
    rw [(h.file b).1] at htb
    exact hm.inj a b (h.live a ha) hta (h.live b hb) htb

/-! ## Descriptors -/

theorem Matches.lowest (hm : s.Matches r id) (hpid : pid < MAX_PROCESSES) (low : Nat) :
    r.lowest pid low = freeSlot (s.ctx pid).files low := by
  unfold Named.lowest freeSlot
  refine List.find?_congr fun fd hfd => ?_
  have hlt : fd < MAX_OPEN_FILES := by
    have := List.mem_range'_1.mp hfd
    omega
  rw [hm.desc pid hpid fd hlt, Option.isNone_map]

theorem Matches.setSlot (hm : s.Matches r id) (pid fd : Nat) (v : Option Nat) :
    (s.setSlot pid fd v).Matches (r.setDesc pid fd (v.map (s.descOf id))) id := by
  refine ⟨fun i => ?_, fun i hi d hd => ?_, hm.holds, hm.noPipe, hm.opened, hm.offset, hm.inj⟩
  · rw [setSlot_used]
    exact hm.used i
  · have hdesc : (s.setSlot pid fd v).descOf id = s.descOf id := rfl
    rw [hdesc]
    show update r.desc pid _ i d = ((update s.ctx pid _ i).files d).map _
    by_cases e : i = pid
    · subst e
      rw [update_self, update_self]
      dsimp only
      by_cases e : d = fd
      · rw [e, update_self, update_self]
      · rw [update_of_ne e, update_of_ne e]
        exact hm.desc i hi d hd
    · rw [update_of_ne e, update_of_ne e]
      exact hm.desc i hi d hd

theorem Matches.dup (hm : s.Matches r id) (hpid : pid < MAX_PROCESSES) (oldfd : Int) :
    Agree (s.fdDup pid oldfd) (r.dup pid oldfd) id := by
  unfold fdDup Named.dup
  by_cases hold : 0 ≤ oldfd ∧ oldfd < MAX_OPEN_FILES
  · rw [if_neg (not_not.mpr hold), if_neg (not_not.mpr hold), hm.desc pid hpid oldfd.toNat (by omega), hm.lowest hpid]
    cases (s.ctx pid).files oldfd.toNat with
    | none => exact ⟨rfl, hm⟩
    | some a =>
      cases freeSlot (s.ctx pid).files 0 with
      | none => exact ⟨rfl, hm⟩
      | some fd => exact ⟨rfl, (hm.setSlot pid fd (some a)).same (same_setRefCount _ a _)⟩
  · rw [if_pos hold, if_pos hold]
    exact ⟨rfl, hm⟩

theorem same_closeSlot (s : Kernel) (pid fd : Nat) : s.Same (s.closeSlot pid fd) := by
  unfold Kernel.closeSlot
  split
  · exact .refl s
  · exact same_genericClose ..

theorem Matches.dup2 (hm : s.Matches r id) (hpid : pid < MAX_PROCESSES) (oldfd newfd : Int) :
    Agree (s.fdDup2 pid oldfd newfd) (r.dup2 pid oldfd newfd) id := by
  unfold fdDup2 Named.dup2
  by_cases hold : 0 ≤ oldfd ∧ oldfd < MAX_OPEN_FILES
  · rw [if_neg (not_not.mpr hold), if_neg (not_not.mpr hold)]
    by_cases hnew : 0 ≤ newfd ∧ newfd < MAX_OPEN_FILES
    · rw [if_neg (not_not.mpr hnew), if_neg (not_not.mpr hnew), hm.desc pid hpid oldfd.toNat (by omega)]
      cases ha : (s.ctx pid).files oldfd.toNat with
      | none => exact ⟨rfl, hm⟩
      | some a =>
        by_cases e : oldfd = newfd
        · have hsame : s.setSlot pid newfd.toNat (some a) = s := by
            unfold Kernel.setSlot setFiles
            rw [← e, ← ha, update_eq_self, update_eq_self]
          have hset := hm.setSlot pid newfd.toNat (some a)
          rw [hsame] at hset
          dsimp only
          rw [if_pos e]
          exact ⟨rfl, hset⟩
        · dsimp only
          rw [if_neg e]
          refine ⟨rfl, ?_⟩
          have hclosed := hm.same (s.same_closeSlot pid newfd.toNat)
          have hset := hclosed.setSlot pid newfd.toNat (some a)
          have hdesc : (s.closeSlot pid newfd.toNat).descOf id a = s.descOf id a := by
            unfold descOf
            rw [((s.same_closeSlot pid newfd.toNat).file a).1]
          rw [Option.map_some, hdesc] at hset
          exact hset.same (same_setRefCount _ a _)
    · rw [if_pos hnew, if_pos hnew]
      exact ⟨rfl, hm⟩
  · rw [if_pos hold, if_pos hold]
    exact ⟨rfl, hm⟩

theorem Matches.close (hm : s.Matches r id) (hx : s.Exact none) (hpid : pid < MAX_PROCESSES) (hfd : fd < MAX_OPEN_FILES) :
    Agree (s.doClose pid fd) (r.close pid fd) id := by
  unfold doClose Named.close
  rw [hm.desc pid hpid fd hfd]
  cases ha : (s.ctx pid).files fd with
  | none => exact ⟨rfl, hm⟩
  | some a =>
    have hclose : (s.file a).fops.close = true := by
      have hshape := hx.shapes a (hx.live hpid hfd ha)
      have hnp := hm.noPipe a (hx.live hpid hfd ha)
      unfold File.Shaped at hshape
      split at hshape
      · rw [hshape.2]
      · rw [hshape.2]
      · rw [hshape.2]
      · rw [hshape.2]
      · exact absurd ‹_› hnp
    dsimp only [Option.map_some]
    rw [if_pos hclose]
    exact ⟨rfl, (hm.setSlot pid fd none).same (same_genericClose _ a)⟩

/-! ## Opening -/

/-- `t` has the object `x` in `page`, and the other objects of `s`. -/
structure Made (s t : Kernel) (page : Nat) (x : File) : Prop where
  use : ∀ b, t.use b = .file ↔ b = page ∨ s.use b = .file
  self : t.file page = x
  other : ∀ {b}, b ≠ page → t.file b = s.file b
  fs : t.fs = s.fs

theorem made_object (s : Kernel) (pid fd page : Nat) (junk x : File) :
    Made s (((s.allocFile page junk).setSlot pid fd (some page)).setFile page x) page x := by
  refine ⟨fun b => ?_, update_self .., fun {b} hb => ?_, rfl⟩
  · show update s.use page .file b = .file ↔ _
    by_cases e : b = page
    · rw [e, update_self]
      exact iff_of_true rfl (Or.inl rfl)
    · rw [update_of_ne e, or_iff_right e]
  · show update (update s.file page _) page _ b = _
    rw [update_of_ne hb, update_of_ne hb]

/-- An object that was there before, and its number. -/
theorem Made.before {page : Nat} {x : File} (h : Made s t page x) {b : Nat} (hb : t.use b = .file) (e : b ≠ page) (n : Nat) :
    s.use b = .file ∧ t.file b = s.file b ∧ update id page n b = id b :=
  ⟨((h.use b).mp hb).resolve_left e, h.other e, update_of_ne e ..⟩

theorem Made.descOf {page : Nat} {x : File} (h : Made s t page x) {b : Nat} (e : b ≠ page) (n : Nat) :
    t.descOf (update id page n) b = s.descOf id b := by
  unfold Kernel.descOf
  rw [h.other e, update_of_ne e]

/-- A new object in `page`, for the file in inode `i`. -/
theorem Matches.make (hm : s.Matches r id) (hx : s.Exact none) {page : Nat} (hfree : s.use page = .free) (junk : File) {i : Nat}
    (hi : i < r.dir.names.length) (flags : UInt64) :
    (((s.allocFile page junk).setSlot pid fd (some page)).setFile page (regularFile i flags)).Matches
      ({ r with
        opened := update r.opened r.opens ⟨(s.fs.inode i).filename, flags.toUInt32, 0⟩, opens := r.opens + 1 }.setDesc pid fd
          (some (.opened r.opens))) (update id page r.opens) := by
  have hmade : Made s _ page (regularFile i flags) := made_object s pid fd page junk (regularFile i flags)
  generalize ht : ((s.allocFile page junk).setSlot pid fd (some page)).setFile page (regularFile i flags) = t at hmade ⊢
  have hctx : t.ctx = (s.setSlot pid fd (some page)).ctx := by
    rw [← ht]
    rfl
  have hold : ∀ {b}, s.use b = .file → b ≠ page := fun hb e => by
    rw [e, hfree] at hb
    cases hb
  have hdescSelf : t.descOf (update id page r.opens) page = .opened r.opens := by
    unfold descOf
    rw [hmade.self, update_self]
    rfl
  refine ⟨fun j => ?_, fun j hj d hd => ?_, ?_, fun b hb => ?_, fun b hb hty => ?_, fun b hb hty => ?_,
    fun b c hb hbt hc hct he => ?_⟩
  · rw [hctx, setSlot_used]
    exact hm.used j
  · have hmap : ((s.ctx j).files d).map (t.descOf (update id page r.opens)) = ((s.ctx j).files d).map (s.descOf id) :=
      Option.map_congr fun b hb => hmade.descOf (hold (hx.live hj hd hb)) r.opens
    rw [hctx]
    show update r.desc pid _ j d = ((update s.ctx pid _ j).files d).map _
    by_cases e : j = pid
    · subst e
      rw [update_self, update_self]
      dsimp only
      by_cases e : d = fd
      · rw [e, update_self, update_self, Option.map_some, hdescSelf]
      · rw [update_of_ne e, update_of_ne e, hmap]
        exact hm.desc j hj d hd
    · rw [update_of_ne e, update_of_ne e, hmap]
      exact hm.desc j hj d hd
  · rw [hmade.fs]
    exact hm.holds
  · by_cases e : b = page
    · rw [e, hmade.self]
      exact nofun
    · rw [hmade.other e]
      exact hm.noPipe b (((hmade.use b).mp hb).resolve_left e)
  · rw [hmade.fs]
    show ∃ i', _ ∧ _ ∧ update r.opened r.opens _ (update id page r.opens b) = _
    by_cases e : b = page
    · rw [e, hmade.self, update_self, update_self]
      exact ⟨i, rfl, hi, rfl⟩
    · obtain ⟨hb, hfile, hid⟩ := hmade.before hb e r.opens
      rw [hfile] at hty ⊢
      rw [hid, update_of_ne (Nat.ne_of_lt (hm.offset b hb hty).2)]
      exact hm.opened b hb hty
  · show _ ∧ update id page r.opens b < r.opens + 1
    by_cases e : b = page
    · rw [e, hmade.self, update_self]
      exact ⟨Nat.zero_le _, Nat.lt_succ_self _⟩
    · obtain ⟨hb, hfile, hid⟩ := hmade.before hb e r.opens
      rw [hfile] at hty ⊢
      rw [hid]
      exact ⟨(hm.offset b hb hty).1, Nat.lt_succ_of_lt (hm.offset b hb hty).2⟩
  · -- the new object has a number of its own
    have hlt : ∀ {d}, t.use d = .file → (t.file d).type = .REGULAR → d ≠ page → update id page r.opens d < r.opens := by
      intro d hd hdt e
      obtain ⟨hd, hfile, hid⟩ := hmade.before hd e r.opens
      rw [hfile] at hdt
      rw [hid]
      exact (hm.offset d hd hdt).2
    by_cases eb : b = page
    · by_cases ec : c = page
      · exact eb.trans ec.symm
      · have hc' := hlt hc hct ec
        rw [← he, eb, update_self] at hc'
        exact absurd hc' (Nat.lt_irrefl _)
    · by_cases ec : c = page
      · have hb' := hlt hb hbt eb
        rw [he, ec, update_self] at hb'
        exact absurd hb' (Nat.lt_irrefl _)
      · obtain ⟨hb, hbf, hbi⟩ := hmade.before hb eb r.opens
        obtain ⟨hc, hcf, hci⟩ := hmade.before hc ec r.opens
        rw [hbf] at hbt
        rw [hcf] at hct
        rw [hbi, hci] at he
        exact hm.inj b c hb hbt hc hct he

theorem Matches.openInode (hm : s.Matches r id) (hx : s.Exact none) (hpid : pid < MAX_PROCESSES) {page : Nat}
    (hf : s.Fresh [page]) (junk : File) {i : Nat} (hi : i < r.dir.names.length) (flags : UInt64) :
    ∃ id', Agree (s.openInode pid i flags page junk) (r.openNamed pid (s.fs.inode i).filename flags.toUInt32) id' := by
  have hpage := hf.2 page (List.mem_singleton_self page)
  unfold Kernel.openInode Named.openNamed
  dsimp only
  rw [if_neg (Nat.not_lt.mpr (hm.holds.long hi)), hm.holds.mode i hi, hm.lowest hpid]
  split
  · exact ⟨id, rfl, hm⟩
  · cases freeSlot (s.ctx pid).files 3 with
    | none => exact ⟨id, rfl, hm⟩
    | some fd =>
      dsimp only
      rw [if_neg hpage.2]
      exact ⟨_, rfl, hm.make hx hpage.1 junk hi flags⟩

/-- A file is made. -/
theorem Matches.create (hm : s.Matches r id) {name : List UInt8} {mode : UInt32} {hnew : name ∉ r.dir.names}
    {hfew : r.dir.names.length < NUM_FILES} {fs : FlatFs} (hh : Holds fs (r.dir.create name mode hnew hfew))
    (hkeep : ∀ i < r.dir.names.length, fs.inode i = s.fs.inode i) :
    { s with fs := fs }.Matches { r with dir := r.dir.create name mode hnew hfew } id := by
  have hlen : (r.dir.create name mode hnew hfew).names.length = r.dir.names.length + 1 := List.length_append
  refine ⟨hm.used, hm.desc, hh, hm.noPipe, fun a ha ht => ?_, hm.offset, hm.inj⟩
  obtain ⟨i, hinode, hi, ho⟩ := hm.opened a ha ht
  refine ⟨i, hinode, by rw [hlen]; omega, ?_⟩
  show r.opened (id a) = ⟨(fs.inode i).filename, (s.file a).mode, (s.file a).offp⟩
  rw [hkeep i hi]
  exact ho

theorem Matches.openRegular (hm : s.Matches r id) (hx : s.Exact none) (hpid : pid < MAX_PROCESSES) {page : Nat}
    (hf : s.Fresh [page]) (junk : File) (filename : List UInt8) (flags mode : UInt64) :
    ∃ id', Agree (s.doRegularFileOpen pid filename flags mode page junk)
      (r.openFile pid filename flags.toUInt32 mode.toUInt32) id' := by
  unfold doRegularFileOpen Named.openFile
  by_cases hlong : 256 ≤ filename.length
  · rw [if_pos hlong, if_pos hlong]
    exact ⟨id, rfl, hm⟩
  rw [if_neg hlong, if_neg hlong]
  cases hl : s.fs.lookupInode filename with
  | none =>
    have hnew := hm.holds.lookup_none hl
    rw [dif_neg hnew]
    dsimp only
    by_cases hcreat : has flags.toUInt32 O_CREAT
    · rw [if_pos hcreat, if_pos hcreat]
      by_cases hfew : r.dir.names.length < NUM_FILES
      · obtain ⟨fs, hcreate, hh, hname, hkeep⟩ := hm.holds.create mode.toUInt32 hnew hfew
        have hlt : r.dir.names.length < (r.dir.create filename mode.toUInt32 hnew hfew).names.length := by
          rw [show (r.dir.create filename mode.toUInt32 hnew hfew).names.length = r.dir.names.length + 1 from List.length_append]
          exact Nat.lt_succ_self _
        have hopen := (hm.create hh hkeep).openInode (hx.setFs fs) hpid hf junk hlt flags
        rw [dif_pos hfew, hcreate]
        dsimp only at hopen ⊢
        rw [hname] at hopen
        exact hopen
      · have hnone : s.fs.createInode filename mode.toUInt32 = (none, s.fs) := by
          unfold FlatFs.createInode
          rw [if_neg (not_not.mpr hl), hm.holds.getFreeInode, if_neg hfew]
        rw [dif_neg hfew, hnone]
        exact ⟨id, rfl, hm⟩
    · rw [if_neg hcreat, if_neg hcreat]
      exact ⟨id, rfl, hm⟩
  | some i =>
    obtain ⟨hi, hname⟩ := hm.holds.lookup_some hl
    rw [dif_pos (hname ▸ hm.holds.name_mem hi)]
    dsimp only
    by_cases hcreat : has flags.toUInt32 O_CREAT
    · rw [if_pos hcreat, if_pos hcreat]
      exact ⟨id, rfl, hm⟩
    · rw [if_neg hcreat, if_neg hcreat, ← hname]
      exact hm.openInode hx hpid hf junk hi flags

/-! ## fork -/

theorem same_countSlots (child : Nat) : ∀ (l : List Nat) (s : Kernel), s.Same (l.foldl (countSlot child) s) := by
  intro l
  induction l with
  | nil => exact fun s => .refl s
  | cons i l ih =>
    intro s
    refine Same.trans ?_ (ih _)
    unfold countSlot
    split
    · exact .refl s
    · exact same_setRefCount ..

theorem Matches.fork (hm : s.Matches r id) (hpid : pid < MAX_PROCESSES) {x : Ret × Kernel} (hx : s.doFork pid = some x) :
    ∃ y, r.fork pid = some y ∧ Agree x y id := by
  obtain ⟨child, hget, rfl⟩ := Option.map_eq_some_iff.mp hx
  have hfind : (List.range MAX_PROCESSES).find? (fun child => !r.used child) = some child := by
    rw [← hget]
    exact List.find?_congr fun i _ => by rw [hm.used i]
  refine ⟨_, by unfold Named.fork; rw [hfind]; rfl, rfl, ?_⟩
  show Kernel.Matches ((List.range MAX_OPEN_FILES).foldl (countSlot child) _) _ id
  refine Matches.same ?_ (same_countSlots child _ _)
  refine ⟨fun i => ?_, fun i hi d hd => ?_, hm.holds, hm.noPipe, hm.opened, hm.offset, hm.inj⟩
  · show update r.used child true i = (update s.ctx child _ i).used
    by_cases e : i = child
    · rw [e, update_self, update_self]
    · rw [update_of_ne e, update_of_ne e]
      exact hm.used i
  · show update r.desc child _ i d = ((update s.ctx child _ i).files d).map (s.descOf id)
    by_cases e : i = child
    · rw [e, update_self, update_self]
      exact hm.desc pid hpid d hd
    · rw [update_of_ne e, update_of_ne e]
      exact hm.desc i hi d hd

/-! ## read, write and lseek -/

theorem Matches.move (hm : s.Matches r id) (ha : s.use a = .file) (ht : (s.file a).type = .REGULAR) {o : Nat}
    (ho : o ≤ FILE_SIZE) : (s.setFile a { s.file a with offp := o }).Matches (r.moveTo (id a) o) id := by
  generalize hs : s.setFile a { s.file a with offp := o } = t
  have hself : t.file a = { s.file a with offp := o } := by
    rw [← hs]
    exact update_self ..
  have hother : ∀ {b}, b ≠ a → t.file b = s.file b := fun hb => by
    rw [← hs]
    exact update_of_ne hb ..
  have htype : ∀ b, (t.file b).type = (s.file b).type := fun b => by
    by_cases e : b = a
    · rw [e, hself]
    · rw [hother e]
  have hdesc : t.descOf id = s.descOf id := by
    funext b
    unfold descOf
    rw [htype]
  have huse : t.use = s.use := by
    rw [← hs]
    rfl
  have hctx : t.ctx = s.ctx := by
    rw [← hs]
    rfl
  have hfs : t.fs = s.fs := by
    rw [← hs]
    rfl
  refine ⟨by rw [hctx]; exact hm.used, fun i hi d hd => ?_, by rw [hfs]; exact hm.holds, fun b hb => ?_, fun b hb hty => ?_,
    fun b hb hty => ?_, fun b c hb hbt hc hct he => ?_⟩
  · rw [hctx, hdesc]
    exact hm.desc i hi d hd
  · rw [htype]
    exact hm.noPipe b (huse ▸ hb)
  · rw [huse] at hb
    rw [htype] at hty
    obtain ⟨i, hinode, hi, hopen⟩ := hm.opened b hb hty
    rw [hfs]
    show ∃ i, _ ∧ _ ∧ update r.opened (id a) _ (id b) = _
    by_cases e : b = a
    · subst e
      rw [hself, update_self, hopen]
      exact ⟨i, hinode, hi, rfl⟩
    · rw [hother e, update_of_ne fun he => e (hm.inj b a hb hty ha ht he)]
      exact ⟨i, hinode, hi, hopen⟩
  · rw [huse] at hb
    rw [htype] at hty
    by_cases e : b = a
    · rw [e, hself]
      exact ⟨ho, (hm.offset a ha ht).2⟩
    · rw [hother e]
      exact hm.offset b hb hty
  · rw [huse] at hb hc
    rw [htype] at hbt hct
    exact hm.inj b c hb hbt hc hct he

theorem Matches.readRegular (hm : s.Matches r id) (ha : s.use a = .file) (ht : (s.file a).type = .REGULAR) {count : Nat}
    (hc : count < 2 ^ 31) (hd : r.desc pid fd = some (.opened (id a))) :
    ∃ y, r.read pid fd count = some y ∧ Agree (s.doReadRegular a (u32 count)) y id := by
  obtain ⟨i, hinode, hi, hopen⟩ := hm.opened a ha ht
  obtain ⟨hoff, -⟩ := hm.offset a ha ht
  have hlong := hm.holds.long hi
  unfold FILE_SIZE at hoff hlong
  have hsum : u32 ((s.file a).offp + count) = (s.file a).offp + count := by
    unfold u32
    omega
  unfold doReadRegular Named.read
  rw [hinode, hd, u32_eq (by omega)]
  dsimp only
  rw [hopen, hsum, ← (hm.holds.size i hi).1, hm.holds.mode i hi]
  by_cases hle : (s.file a).offp + count ≤ (s.fs.inode i).fileSize
  · rw [if_neg (Nat.not_lt.mpr hle), if_neg (Nat.not_lt.mpr hle), if_neg (Nat.not_lt.mpr (hm.holds.long hi)),
      hm.holds.read hi hle]
    have hbytes := (hm.holds.size i hi).1
    have hlen : (((r.dir.file (s.fs.inode i).filename).bytes.drop (s.file a).offp).take count).length = count := by
      rw [List.length_take, List.length_drop]
      omega
    have hval : int32 count = count := int32_eq (by omega) (by omega)
    rw [hlen, hval, hsum]
    cases has (s.file a).mode O_READ with
    | false => exact ⟨_, rfl, rfl, hm⟩
    | true =>
      cases has (r.dir.file (s.fs.inode i).filename).mode O_READ with
      | false => exact ⟨_, rfl, rfl, hm⟩
      | true => exact ⟨_, rfl, rfl, hm.move ha ht (Nat.le_trans hle hlong)⟩
  · rw [if_pos (Nat.lt_of_not_le hle), if_pos (Nat.lt_of_not_le hle)]
    exact ⟨_, rfl, rfl, hm⟩

/-- A file gets other bytes. -/
theorem Matches.put (hm : s.Matches r id) {name : List UInt8} {f : Bytes} {fs : FlatFs} (hh : Holds fs (r.dir.put name f))
    (hname : ∀ j, (fs.inode j).filename = (s.fs.inode j).filename) :
    { s with fs := fs }.Matches { r with dir := r.dir.put name f } id := by
  refine ⟨hm.used, hm.desc, hh, hm.noPipe, fun a ha ht => ?_, hm.offset, hm.inj⟩
  obtain ⟨i, hinode, hi, ho⟩ := hm.opened a ha ht
  refine ⟨i, hinode, hi, ?_⟩
  show r.opened (id a) = ⟨(fs.inode i).filename, (s.file a).mode, (s.file a).offp⟩
  rw [hname]
  exact ho

theorem Matches.writeRegular (hm : s.Matches r id) (ha : s.use a = .file) (ht : (s.file a).type = .REGULAR)
    (buff : Nat → UInt8) {count : Nat} (hc : count < 2 ^ 31) (hd : r.desc pid fd = some (.opened (id a))) :
    ∃ y, r.write pid fd ((List.range count).map buff) = some y ∧ Agree (s.doWriteRegular a buff (u32 count)) y id := by
  obtain ⟨i, hinode, hi, hopen⟩ := hm.opened a ha ht
  obtain ⟨hoff, -⟩ := hm.offset a ha ht
  generalize hdata : (List.range count).map buff = data
  have hlen : data.length = count := by rw [← hdata, List.length_map, List.length_range]
  have hsum : u32 ((s.file a).offp + count) = (s.file a).offp + count := by
    unfold FILE_SIZE at hoff
    unfold u32
    omega
  have hcount : u32 count = count := u32_eq (by omega)
  unfold doWriteRegular Named.write
  rw [hinode, hd, hcount]
  dsimp only
  rw [hsum, hm.holds.mode i hi]
  simp only [hopen, hlen]
  by_cases hle : (s.file a).offp + count ≤ FILE_SIZE
  · have hfit : (s.file a).offp + data.length ≤ FILE_SIZE := hlen ▸ hle
    obtain ⟨fs, hwrite, hh, hname⟩ := hm.holds.write hi buff hdata.symm hfit
    have hne : ¬ ((count : Int) = -1) := by omega
    have hput := (hm.put hh hname).move (a := a) ha ht hle
    rw [if_neg (Nat.not_lt.mpr hle), dif_pos hle, if_neg (Nat.not_lt.mpr (hm.holds.long hi)), hwrite]
    dsimp only
    rw [if_neg hne, hsum]
    cases has (s.file a).mode O_WRITE with
    | false => exact ⟨_, rfl, rfl, hm⟩
    | true =>
      cases has (r.dir.file (s.fs.inode i).filename).mode O_WRITE with
      | false => exact ⟨_, rfl, rfl, hm⟩
      | true => exact ⟨_, rfl, rfl, hput⟩
  · rw [if_pos (Nat.lt_of_not_le hle), dif_neg hle]
    exact ⟨_, rfl, rfl, hm⟩

theorem Matches.read (hm : s.Matches r id) (hx : s.Exact none) (hpid : pid < MAX_PROCESSES) (hfd : fd < MAX_OPEN_FILES)
    {count : Nat} (hc : count < 2 ^ 31) {x : Ret × Kernel} (hr : s.doFileRead pid fd count = some x) :
    ∃ y, r.read pid fd count = some y ∧ Agree x y id := by
  have hd := hm.desc pid hpid fd hfd
  unfold doFileRead at hr
  cases ha : (s.ctx pid).files fd with
  | none =>
    rw [ha] at hr hd
    cases hr
    exact ⟨_, by unfold Named.read; rw [hd]; rfl, rfl, hm⟩
  | some a =>
    have hlive := hx.live hpid hfd ha
    have hshape := hx.shapes a hlive
    rw [ha, Option.map_some] at hd
    rw [ha] at hr
    unfold File.Shaped at hshape
    unfold descOf at hd
    cases ht : (s.file a).type with
    | STDIN =>
      rw [ht] at hshape
      simp only [hshape.2] at hr
      cases hr
    | STDOUT | STDERR =>
      rw [ht] at hshape hd
      simp only [hshape.2] at hr
      cases hr
      exact ⟨_, by unfold Named.read; rw [hd], rfl, hm⟩
    | REGULAR =>
      rw [ht] at hshape hd
      simp only [hshape.2] at hr
      cases hr
      exact hm.readRegular hlive ht hc hd
    | PIPE => exact absurd ht (hm.noPipe a hlive)

theorem Matches.write (hm : s.Matches r id) (hx : s.Exact none) (hpid : pid < MAX_PROCESSES) (hfd : fd < MAX_OPEN_FILES)
    {buff : Nat → UInt8} {count : Nat} (hc : count < 2 ^ 31) {x : Ret × Kernel}
    (hr : s.doFileWrite pid fd buff count = some x) :
    ∃ y, r.write pid fd ((List.range count).map buff) = some y ∧ Agree x y id := by
  have hd := hm.desc pid hpid fd hfd
  unfold doFileWrite at hr
  cases ha : (s.ctx pid).files fd with
  | none =>
    rw [ha] at hr hd
    cases hr
    exact ⟨_, by unfold Named.write; rw [hd]; rfl, rfl, hm⟩
  | some a =>
    have hlive := hx.live hpid hfd ha
    have hshape := hx.shapes a hlive
    rw [ha, Option.map_some] at hd
    rw [ha] at hr
    unfold File.Shaped at hshape
    unfold descOf at hd
    cases ht : (s.file a).type with
    | STDIN =>
      rw [ht] at hshape hd
      simp only [hshape.2] at hr
      cases hr
      exact ⟨_, by unfold Named.write; rw [hd], rfl, hm⟩
    | STDOUT | STDERR =>
      rw [ht] at hshape
      simp only [hshape.2] at hr
      cases hr
    | REGULAR =>
      rw [ht] at hshape hd
      simp only [hshape.2] at hr
      cases hr
      exact hm.writeRegular hlive ht buff hc hd
    | PIPE => exact absurd ht (hm.noPipe a hlive)

/-- Where an lseek of the file object in page `a` goes. -/
def lseekTarget (s : Kernel) (a : Nat) (offset whence : Int) : Int :=
  if whence = SEEK_CUR then (s.file a).offp + offset
  else if whence = SEEK_END then (match (s.file a).inode with | some i => (s.fs.inode i).fileSize | none => 0) + offset
  else offset

theorem Matches.target (hm : s.Matches r id) (ha : s.use a = .file) (ht : (s.file a).type = .REGULAR) (offset whence : Int) :
    r.target (id a) offset whence = s.lseekTarget a offset whence := by
  obtain ⟨i, hinode, hi, hopen⟩ := hm.opened a ha ht
  unfold Named.target lseekTarget
  rw [hopen, hinode]
  dsimp only
  rw [(hm.holds.size i hi).1]

/-- The target is the offset, when it is one of the file's. -/
theorem doLseekRegular_eq {offset whence : Int} (hw : whence = SEEK_SET ∨ whence = SEEK_CUR ∨ whence = SEEK_END)
    (h0 : 0 ≤ s.lseekTarget a offset whence) (h1 : s.lseekTarget a offset whence < FILE_SIZE)
    (hoff : (s.file a).offp ≤ FILE_SIZE) : s.doLseekRegular a offset whence = (.of (s.lseekTarget a offset whence),
      s.setFile a { s.file a with offp := (s.lseekTarget a offset whence).toNat }) := by
  generalize htarget : s.lseekTarget a offset whence = target at h0 h1
  have hF : (FILE_SIZE : Int) = 4096 := rfl
  have hexact : int32 target = target := int32_eq (by omega) (by omega)
  have hu : u32 target = target.toNat := by
    unfold u32
    omega
  have hold : int32 (s.file a).offp = (s.file a).offp := by
    unfold FILE_SIZE at hoff
    exact int32_eq (by omega) (by omega)
  unfold lseekTarget at htarget
  have hne1 : ¬ SEEK_SET = SEEK_CUR := by decide
  have hne2 : ¬ SEEK_SET = SEEK_END := by decide
  have hne3 : ¬ SEEK_END = SEEK_CUR := by decide
  have hnew : (if whence = SEEK_CUR then int32 (int32 (s.file a).offp + offset)
      else if whence = SEEK_END then
        int32 ((match (s.file a).inode with | some i => ((s.fs.inode i).fileSize : Int) | none => 0) + offset)
      else if whence = SEEK_SET then int32 offset else int32 (s.file a).offp) = target := by
    obtain e | e | e := hw
    · rw [e, if_neg hne1, if_neg hne2] at htarget
      rw [e, if_neg hne1, if_neg hne2, if_pos rfl, htarget, hexact]
    · rw [e, if_pos rfl] at htarget
      rw [e, if_pos rfl, hold, htarget, hexact]
    · rw [e, if_neg hne3, if_pos rfl] at htarget
      rw [e, if_neg hne3, if_pos rfl, ← hexact, ← htarget]
  unfold doLseekRegular
  extract_lets filep newoffset
  have hsame : newoffset = target := hnew
  rw [hsame, if_neg (Int.not_le.mpr h1), hu, Int.toNat_of_nonneg h0]

theorem Matches.lseek (hm : s.Matches r id) (hx : s.Exact none) (hpid : pid < MAX_PROCESSES) (hfd : fd < MAX_OPEN_FILES)
    {offset whence : Int} (hw : whence = SEEK_SET ∨ whence = SEEK_CUR ∨ whence = SEEK_END)
    (htarget : ∀ a, (s.ctx pid).files fd = some a → (s.file a).type = .REGULAR →
      0 ≤ s.lseekTarget a offset whence ∧ s.lseekTarget a offset whence < FILE_SIZE) :
    Agree (s.doLseek pid fd offset whence) (r.lseek pid fd offset whence) id := by
  have hd := hm.desc pid hpid fd hfd
  unfold doLseek Named.lseek
  rw [hd]
  cases ha : (s.ctx pid).files fd with
  | none => exact ⟨rfl, hm⟩
  | some a =>
    have hlive := hx.live hpid hfd ha
    have hshape := hx.shapes a hlive
    rw [Option.map_some]
    unfold descOf
    unfold File.Shaped at hshape
    cases ht : (s.file a).type with
    | STDIN | STDOUT | STDERR =>
      rw [ht] at hshape
      simp only [hshape.2]
      exact ⟨rfl, hm⟩
    | REGULAR =>
      rw [ht] at hshape
      obtain ⟨h0, h1⟩ := htarget a ha ht
      have hlt : (s.lseekTarget a offset whence).toNat ≤ FILE_SIZE := by omega
      simp only [hshape.2]
      rw [if_pos trivial, doLseekRegular_eq hw h0 h1 (hm.offset a hlive ht).1, hm.target hlive ht]
      exact ⟨rfl, hm.move hlive ht hlt⟩
    | PIPE => exact absurd ht (hm.noPipe a hlive)

/-! ## Runs -/

/-- The calls on regular files: counts below 2^31, and lseek to an offset of the file. -/
def Regular (s : Kernel) (e : Ev) : Prop :=
  s.Promised e ∧ match e.call with
    | .openRegular .. | .dup _ | .dup2 .. | .close _ | .fork => True
    | .read _ count | .write _ _ count => count < 2 ^ 31
    | .lseek fd offset whence => (whence = SEEK_SET ∨ whence = SEEK_CUR ∨ whence = SEEK_END) ∧
        ∀ a, (s.ctx e.pid).files fd = some a → (s.file a).type = .REGULAR →
          0 ≤ s.lseekTarget a offset whence ∧ s.lseekTarget a offset whence < FILE_SIZE
    | .openStandard .. | .pipe _ | .exit => False

theorem call_agree (hm : s.Matches r id) (hx : s.Exact none) {e : Ev} (hpid : e.pid < MAX_PROCESSES) (hok : s.Regular e)
    {x : Ret × Kernel} (hc : s.call e.pid e.call = some x) : ∃ y id', r.call e.pid e.call = some y ∧ Agree x y id' := by
  obtain ⟨pid, c, ret⟩ := e
  obtain ⟨hp, hok⟩ := hok
  cases c with
  | openRegular filename flags mode page junk =>
    cases hc
    obtain ⟨id', hagree⟩ := hm.openRegular hx hpid hp junk filename flags mode
    exact ⟨_, id', rfl, hagree⟩
  | dup oldfd =>
    cases hc
    exact ⟨_, id, rfl, hm.dup hpid oldfd⟩
  | dup2 oldfd newfd =>
    cases hc
    exact ⟨_, id, rfl, hm.dup2 hpid oldfd newfd⟩
  | close fd =>
    cases hc
    exact ⟨_, id, rfl, hm.close hx hpid hp⟩
  | fork =>
    obtain ⟨y, hy, hagree⟩ := hm.fork hpid hc
    exact ⟨y, id, hy, hagree⟩
  | read fd count =>
    obtain ⟨y, hy, hagree⟩ := hm.read hx hpid hp hok hc
    exact ⟨y, id, hy, hagree⟩
  | write fd buff count =>
    obtain ⟨y, hy, hagree⟩ := hm.write hx hpid hp hok hc
    exact ⟨y, id, hy, hagree⟩
  | lseek fd offset whence =>
    cases hc
    exact ⟨_, id, rfl, hm.lseek hx hpid hp hok.1 hok.2⟩
  | openStandard type page junk => cases hok
  | pipe pages => cases hok
  | exit => cases hok

theorem step_matches (hm : s.Matches r id) (hx : s.Exact none) {e : Ev} (hok : s.Regular e) (he : s.step e = some t) :
    ∃ r' id', r.step e = some r' ∧ t.Matches r' id' := by
  unfold step at he
  split at he
  · rename_i hpid
    obtain ⟨x, hcall, hret⟩ := Option.bind_eq_some_iff.mp he
    split at hret
    · rename_i hval
      cases hret
      obtain ⟨y, id', hy, hsame, hmatch⟩ := call_agree hm hx hpid.1 hok hcall
      refine ⟨y.2, id', ?_, hmatch⟩
      unfold Named.step
      rw [if_pos ⟨hpid.1, (hm.used e.pid).trans hpid.2⟩, hy, Option.bind_some, if_pos (hsame.symm.trans hval)]
    · cases hret
  · cases he

theorem createStandardIO_type (s : Kernel) (type : FileType) (page : Nat) (junk : File) :
    ((s.createStandardIO type page junk).file page).type = type := by
  show (update (update s.file page _) page _ page).type = _
  rw [update_self]

theorem createStandardIO_file_of_ne (s : Kernel) (type : FileType) {page b : Nat} (junk : File) (h : b ≠ page) :
    (s.createStandardIO type page junk).file b = s.file b := by
  show update (update s.file page _) page _ b = _
  rw [update_of_ne h, update_of_ne h]

theorem start_matches (h : Start s) : s.Matches Named.start id := by
  obtain ⟨b, page1, page2, page3, junk1, junk2, junk3, hb, hf, rfl⟩ := h
  have hnd := hf.1
  simp only [List.nodup_cons, List.mem_cons, List.not_mem_nil, or_false, not_or] at hnd
  generalize ht : b.createContext 1 page1 page2 page3 junk1 junk2 junk3 = t
  have hctx : t.ctx = update b.ctx 1 ⟨true, update (update (update (b.ctx 1).files 0 (some page1)) 1 (some page2)) 2
      (some page3)⟩ := by
    rw [← ht]
    unfold createContext setSlot setFiles createStandardIO allocFile setUse setFile
    dsimp only
    simp only [update_self, update_idem]
  have hfs : t.fs = b.fs := by
    rw [← ht]
    rfl
  have hfile3 : (t.file page3).type = .STDERR := by
    rw [← ht]
    exact createStandardIO_type _ .STDERR page3 junk3
  have hfile2 : (t.file page2).type = .STDOUT := by
    rw [← ht]
    refine (congrArg File.type (createStandardIO_file_of_ne _ .STDERR junk3 hnd.2.1)).trans ?_
    exact createStandardIO_type _ .STDOUT page2 junk2
  have hfile1 : (t.file page1).type = .STDIN := by
    rw [← ht]
    refine (congrArg File.type (createStandardIO_file_of_ne _ .STDERR junk3 hnd.1.2)).trans ?_
    refine (congrArg File.type (createStandardIO_file_of_ne _ .STDOUT junk2 hnd.1.1)).trans ?_
    exact createStandardIO_type _ .STDIN page1 junk1
  have huse : ∀ a, t.use a = .file → a = page1 ∨ a = page2 ∨ a = page3 := fun a ha => by
    by_contra hne
    simp only [not_or] at hne
    have hsame : t.use a = b.use a := by
      rw [← ht]
      show update (update (update b.use page1 .file) page2 .file) page3 .file a = _
      rw [update_of_ne hne.2.2, update_of_ne hne.2.1, update_of_ne hne.1]
    rw [hsame] at ha
    obtain h | h := hb.use a
    · rw [h] at ha
      cases ha
    · rw [h] at ha
      cases ha
  have htype : ∀ a, t.use a = .file → (t.file a).type ≠ .PIPE ∧ (t.file a).type ≠ .REGULAR := fun a ha => by
    obtain e | e | e := huse a ha
    · rw [e, hfile1]
      exact ⟨nofun, nofun⟩
    · rw [e, hfile2]
      exact ⟨nofun, nofun⟩
    · rw [e, hfile3]
      exact ⟨nofun, nofun⟩
  refine ⟨fun i => ?_, fun i _ d _ => ?_, ?_, fun a ha => (htype a ha).1, fun a ha ht => absurd ht (htype a ha).2,
    fun a ha ht => absurd ht (htype a ha).2, fun a _ ha ht => absurd ht (htype a ha).2⟩
  · rw [hctx]
    show decide (i = 0 ∨ i = 1) = _
    by_cases e : i = 1
    · rw [e, update_self]
      rfl
    · rw [update_of_ne e, hb.used]
      exact decide_eq_decide.mpr (or_iff_left e)
  · rw [hctx]
    show (if i = 1 then _ else none) = _
    by_cases e : i = 1
    · rw [if_pos e, e, update_self]
      dsimp only
      by_cases e2 : d = 2
      · rw [e2, update_self, Option.map_some]
        unfold descOf
        rw [hfile3]
        rfl
      by_cases e1 : d = 1
      · rw [e1, update_of_ne (by decide), update_self, Option.map_some]
        unfold descOf
        rw [hfile2]
        rfl
      by_cases e0 : d = 0
      · rw [e0, update_of_ne (by decide), update_of_ne (by decide), update_self, Option.map_some]
        unfold descOf
        rw [hfile1]
        rfl
      · rw [update_of_ne e2, update_of_ne e1, update_of_ne e0, hb.files]
        exact List.getD_eq_default _ _ (by simp only [List.length_cons, List.length_nil]; omega)
    · rw [if_neg e, update_of_ne e, hb.files]
      rfl
  · rw [hfs]
    refine ⟨fun i hi => absurd hi (Nat.not_lt_zero i), fun i hi => ?_, hb.bounds, hb.apart, fun i hi => absurd hi (Nat.not_lt_zero i),
      fun i hi => absurd hi (Nat.not_lt_zero i), fun i hi => absurd hi (Nat.not_lt_zero i), fun i _ hi k hk => hb.zero i hi k hk⟩
    rw [hb.invalid i hi]
    rfl

theorem run_matches {es : List Ev} (hr : machine.Run Regular s es t) (hx : s.Exact none) (hm : s.Matches r id) :
    ∃ u id', Named.machine.Run Machine.any r es u ∧ t.Matches u id' := by
  induction hr generalizing r id with
  | nil s => exact ⟨r, id, .nil r, hm⟩
  | cons hok he _ ih =>
    obtain ⟨r', id', hstep, hm'⟩ := step_matches hm hx hok he
    obtain ⟨u, id'', hrun, hmu⟩ := ih (step_exact hx hok.1 he) hm'
    exact ⟨u, id'', .cons trivial hstep hrun, hmu⟩

end

/-- A file is made and written; after a fork the child moves the offset, and its parent reads from there. -/
def sharedOffset : List Ev :=
  [⟨1, .openRegular [97] 11 3 4 blankFile, .of 3⟩, ⟨1, .write 3 (fun k => UInt8.ofNat (7 + k)) 3, .of 3⟩, ⟨1, .fork, .of 2⟩,
    ⟨2, .lseek 3 1 SEEK_SET, .of 1⟩, ⟨1, .read 3 2, ⟨some 2, [8, 9], []⟩⟩]

theorem lseekTarget_set (s : Kernel) (a : Nat) (offset : Int) : s.lseekTarget a offset SEEK_SET = offset := rfl

end Kernel

end Cs330.Files
