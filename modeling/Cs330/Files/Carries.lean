/-
  Cs330.Files.Carries — pipes are the channels of `Channels`.

  `Carries s r id` relates the kernel to channels: `id` gives the pipe in a page the number
  of the create_pipe that made it, so a page that holds one pipe after another does not
  mix them up. Each call gives back the same and leaves the two related (`Sends`). A call
  that moves no byte keeps what is pending in every pipe that is still there (`Kept`);
  the two that do are `PipeInfo.Delivers.read` and `PipeInfo.Delivers.write`; the run is
  `pipes_refine`.
-/
import Cs330.Files.Channels
import Cs330.Files.Refine

namespace Cs330.Files

open Lib Lib.CInt Function

/-- A pipe of which an end is there, and the channel it is. -/
structure PipeInfo.Delivers (q : PipeInfo) (c : Channel) : Prop where
  wellFormed : q.WellFormed
  bytes : q.bytes = c.pending
  ropen : q.isRopen = 0 ∨ q.isRopen = 1
  wopen : q.isWopen = 0 ∨ q.isWopen = 1

namespace PipeInfo.Delivers

variable {q : PipeInfo} {c : Channel} (h : q.Delivers c)
include h

theorem length : q.bufferOffset = c.pending.length := by
  have hlow := h.wellFormed.low
  rw [← h.bytes]
  simp only [PipeInfo.bytes, List.length_map, List.length_range]
  omega

/-- All that a read of an open read end can do. -/
theorem read (hopen : q.isRopen = 1) {count : Nat} (hc : count < 2 ^ 31) :
    (¬ count ≤ c.pending.length ∧ pipeRead O_READ q count = ((-EOTHERS, []), q)) ∨
    ∃ (hle : count ≤ c.pending.length) (q' : PipeInfo),
      pipeRead O_READ q count = (((count : Int), c.pending.take count), q') ∧ q'.Delivers (c.take count hle) := by
  have hlen := h.length
  have hhigh := h.wellFormed.high
  have hu : u32 (q.readPos + count) = count := by
    rw [h.wellFormed.read, Int.zero_add]
    exact u32_eq (by omega)
  have hun : u32 q.bufferOffset = c.pending.length := by
    rw [hlen]
    exact u32_eq (by unfold PIPE_MAX_SIZE at hhigh; omega)
  have hmode : ¬ (q.isRopen ≠ 1 ∨ O_READ ≠ O_READ) := by simp [hopen]
  obtain ⟨e, he, hr⟩ | ⟨q', hr, hle, hw, hb⟩ := pipeRead_spec h.wellFormed (show count < 2 ^ 32 by omega) O_READ
  · refine Or.inl ?_
    unfold pipeRead at hr ⊢
    rw [if_neg hmode, hu, hun] at hr ⊢
    by_cases hlt : c.pending.length < count
    · rw [if_pos hlt]
      exact ⟨Nat.not_le.mpr hlt, rfl⟩
    · -- a read that gets past the check gives back how many bytes it has taken
      rw [if_neg hlt] at hr
      have hval := congrArg (fun x : (Int × List UInt8) × PipeInfo => x.1.1) hr
      simp only at hval
      omega
  · rw [h.bytes] at hr hle hb
    have hkeep := Kernel.pipeRead_keeps O_READ q count
    rw [hr] at hkeep
    refine Or.inr ⟨hle, q', hr, hw, ?_, ?_, ?_⟩
    · rw [hb, Channel.pending_take]
    · rw [hkeep.1]
      exact h.ropen
    · rw [hkeep.2.1]
      exact h.wopen

/-- All that a write to an open write end can do. -/
theorem write (hopen : q.isWopen = 1) (buff : Nat → UInt8) {count : Nat} (hc : count < 2 ^ 31) :
    (¬ c.pending.length + count ≤ PIPE_MAX_SIZE ∧ pipeWrite O_WRITE q buff count = (-EOTHERS, q)) ∨
    ∃ q' : PipeInfo, c.pending.length + count ≤ PIPE_MAX_SIZE ∧ pipeWrite O_WRITE q buff count = ((count : Int), q') ∧
      q'.Delivers (c.send ((List.range count).map buff)) := by
  have hlen := h.length
  have hhigh := h.wellFormed.high
  have hpos := h.wellFormed.write
  have hu : u32 (q.writePos + count) = c.pending.length + count := by
    rw [hpos, hlen, ← Int.natCast_add]
    exact u32_eq (by unfold PIPE_MAX_SIZE at hhigh; omega)
  have hmode : ¬ (q.isWopen ≠ 1 ∨ O_WRITE ≠ O_WRITE) := by simp [hopen]
  by_cases hle : c.pending.length + count ≤ PIPE_MAX_SIZE
  · have hs : q.writePos + count < 2 ^ 32 := by
      unfold PIPE_MAX_SIZE at hle
      omega
    obtain ⟨e, he, hr⟩ | ⟨q', hr, hw, hb⟩ := pipeWrite_spec h.wellFormed hs O_WRITE buff
    · unfold pipeWrite at hr
      rw [if_neg hmode, hu, if_neg (Nat.not_lt.mpr hle)] at hr
      have hval := congrArg Prod.fst hr
      simp only at hval
      omega
    · have hkeep := Kernel.pipeWrite_keeps O_WRITE q buff count
      rw [hr] at hkeep
      refine Or.inr ⟨q', hle, hr, hw, ?_, ?_, ?_⟩
      · rw [hb, h.bytes, Channel.pending_send]
      · rw [hkeep.1]
        exact h.ropen
      · rw [hkeep.2.1]
        exact h.wopen
  · refine Or.inl ⟨hle, ?_⟩
    unfold pipeWrite
    rw [if_neg hmode, hu, if_pos (Nat.lt_of_not_le hle)]

end PipeInfo.Delivers

theorem newPipe_delivers (page : Nat) (junk : Nat → UInt8) : (newPipe page junk).Delivers .empty :=
  ⟨⟨rfl, rfl, Int.le_refl _, Int.natCast_nonneg _⟩, rfl, Or.inr rfl, Or.inr rfl⟩

/-- Every object can be closed. -/
theorem File.Shaped.close {f : File} (h : f.Shaped) : f.fops.close = true := by
  unfold File.Shaped at h
  cases ht : f.type with
  | PIPE =>
    rw [ht] at h
    rcases h with ⟨-, hops⟩ | ⟨-, hops⟩ <;> rw [hops]
  | STDIN | STDOUT | STDERR | REGULAR =>
    rw [ht] at h
    rw [h.2]

namespace Kernel

/-- What the file object in page `a` is to whoever has a descriptor for it. -/
def sideOf (s : Kernel) (id : Nat → Nat) (a : Nat) : Side :=
  if (s.file a).type = .PIPE then
    if (s.file a).mode = O_READ then .reads (id (s.file a).pipe) else .writes (id (s.file a).pipe)
  else .other

structure Carries (s : Kernel) (r : Channels) (id : Nat → Nat) : Prop where
  used : ∀ pid, r.used pid = (s.ctx pid).used
  desc : ∀ pid < MAX_PROCESSES, ∀ fd < MAX_OPEN_FILES, r.desc pid fd = ((s.ctx pid).files fd).map (s.sideOf id)
  delivers : ∀ p, s.use p = .pipe → (s.pipe p).Delivers (r.channel (id p))
  made : ∀ p, s.use p = .pipe → id p < r.made
  inj : ∀ p q, s.use p = .pipe → s.use q = .pipe → id p = id q → p = q
  notNull : s.use 0 ≠ .pipe

/-- The same value, and states that carry on alike. -/
def Sends (x : Ret × Kernel) (y : Ret × Channels) (id : Nat → Nat) : Prop := x.1 = y.1 ∧ x.2.Carries y.2 id

/-- No byte has moved, and no end has become another. -/
structure Kept (s t : Kernel) : Prop where
  ctx : t.ctx = s.ctx
  file : ∀ b, (t.file b).type = (s.file b).type ∧ (t.file b).mode = (s.file b).mode ∧ (t.file b).pipe = (s.file b).pipe
  live : ∀ p, t.use p = .pipe → s.use p = .pipe
  pipe : ∀ p c, (s.pipe p).Delivers c → (t.pipe p).Delivers c

section
variable {s t u : Kernel} {r : Channels} {id : Nat → Nat} {pid fd a : Nat}

theorem Kept.refl (s : Kernel) : s.Kept s := ⟨rfl, fun _ => ⟨rfl, rfl, rfl⟩, fun _ h => h, fun _ _ h => h⟩

theorem Kept.trans (h1 : s.Kept t) (h2 : t.Kept u) : s.Kept u where
  ctx := h2.ctx.trans h1.ctx
  file b := ⟨(h2.file b).1.trans (h1.file b).1, (h2.file b).2.1.trans (h1.file b).2.1, (h2.file b).2.2.trans (h1.file b).2.2⟩
  live p hp := h1.live p (h2.live p hp)
  pipe p c hc := h2.pipe p c (h1.pipe p c hc)

theorem kept_setFile {f : File} (ht : f.type = (s.file a).type) (hm : f.mode = (s.file a).mode) (hp : f.pipe = (s.file a).pipe) :
    s.Kept (s.setFile a f) := by
  refine ⟨rfl, fun b => ?_, fun _ h => h, fun _ _ h => h⟩
  show (update s.file a f b).type = _ ∧ (update s.file a f b).mode = _ ∧ (update s.file a f b).pipe = _
  by_cases e : b = a
  · rw [e, update_self]
    exact ⟨ht, hm, hp⟩
  · rw [update_of_ne e]
    exact ⟨rfl, rfl, rfl⟩

theorem kept_setFs (fs : FlatFs) : s.Kept { s with fs := fs } :=
  ⟨rfl, fun _ => ⟨rfl, rfl, rfl⟩, fun _ h => h, fun _ _ h => h⟩

theorem kept_closeEnd (s : Kernel) (f : File) : s.Kept (s.closeEnd f) := by
  refine ⟨rfl, fun _ => ⟨rfl, rfl, rfl⟩, fun _ h => h, fun p c hc => ?_⟩
  show (update s.pipe f.pipe _ p).Delivers c
  by_cases e : p = f.pipe
  · subst e
    rw [update_self]
    have hw := hc.wellFormed
    refine ⟨⟨hw.read, hw.write, hw.low, hw.high⟩, hc.bytes, ?_, ?_⟩
    · show (if f.mode = O_READ then (0 : Int) else _) = 0 ∨ _
      split
      · exact Or.inl rfl
      · exact hc.ropen
    · show (if f.mode = O_WRITE then (0 : Int) else _) = 0 ∨ _
      split
      · exact Or.inl rfl
      · exact hc.wopen
  · rw [update_of_ne e]
    exact hc

theorem kept_freeFileObject (s : Kernel) (a : Nat) : s.Kept (s.freeFileObject a) :=
  ⟨rfl, fun _ => ⟨rfl, rfl, rfl⟩, fun p hp => ((freeFileObject_use s a .pipe nofun p).mp hp).2, fun _ _ h => h⟩

theorem kept_freePipeInfo (s : Kernel) (p : Nat) : s.Kept (s.freePipeInfo p) :=
  ⟨rfl, fun _ => ⟨rfl, rfl, rfl⟩, fun q hq => ((freePipeInfo_use s p .pipe nofun q).mp hq).2, fun _ _ h => h⟩

/-- The bytes in a pipe outlive each end but the last. -/
theorem kept_genericClose (s : Kernel) (a : Nat) : s.Kept (s.genericClose a) := by
  have hend := s.kept_closeEnd (s.file a)
  unfold genericClose
  dsimp only
  split
  · split
    · split
      · exact (hend.trans (kept_freePipeInfo _ _)).trans (kept_freeFileObject _ a)
      · exact hend.trans (kept_freeFileObject _ a)
    · exact kept_freeFileObject s a
  · exact kept_setFile rfl rfl rfl

theorem kept_closeSlot (s : Kernel) (pid fd : Nat) : s.Kept (s.closeSlot pid fd) := by
  unfold Kernel.closeSlot
  split
  · exact .refl s
  · exact kept_genericClose ..

theorem Kept.sideOf (h : s.Kept t) (id : Nat → Nat) : t.sideOf id = s.sideOf id := by
  funext b
  obtain ⟨htype, hmode, hpipe⟩ := h.file b
  unfold Kernel.sideOf
  rw [htype, hmode, hpipe]

theorem Carries.same (hm : s.Carries r id) (h : s.Kept t) : t.Carries r id := by
  refine ⟨fun i => ?_, fun i hi d hd => ?_, fun p hp => ?_, fun p hp => ?_, fun p q hp hq he => ?_, fun h0 => ?_⟩
  · rw [h.ctx]
    exact hm.used i
  · rw [h.ctx, h.sideOf]
    exact hm.desc i hi d hd
  · exact h.pipe p _ (hm.delivers p (h.live p hp))
  · exact hm.made p (h.live p hp)
  · exact hm.inj p q (h.live p hp) (h.live q hq) he
  · exact hm.notNull (h.live 0 h0)

/-! ## Descriptors -/

/-- Other tables. -/
theorem Carries.setCtx (hm : s.Carries r id) {ctx : Nat → Ctx} {used : Nat → Bool} {desc : Nat → Nat → Option Side}
    (hused : ∀ pid, used pid = (ctx pid).used)
    (hdesc : ∀ pid < MAX_PROCESSES, ∀ fd < MAX_OPEN_FILES, desc pid fd = ((ctx pid).files fd).map (s.sideOf id)) :
    { s with ctx := ctx }.Carries { r with used := used, desc := desc } id :=
  ⟨hused, hdesc, hm.delivers, hm.made, hm.inj, hm.notNull⟩

theorem Carries.lowest (hm : s.Carries r id) (hpid : pid < MAX_PROCESSES) (low : Nat) :
    r.lowest pid low = freeSlot (s.ctx pid).files low := by
  unfold Channels.lowest freeSlot
  refine List.find?_congr fun fd hfd => ?_
  have hlt : fd < MAX_OPEN_FILES := by
    have := List.mem_range'_1.mp hfd
    omega
  rw [hm.desc pid hpid fd hlt, Option.isNone_map]

theorem Carries.setSlot (hm : s.Carries r id) (pid fd : Nat) (v : Option Nat) :
    (s.setSlot pid fd v).Carries (r.setDesc pid fd (v.map (s.sideOf id))) id := by
  have hused : ∀ i, r.used i = ((s.setSlot pid fd v).ctx i).used := fun i => by
    rw [setSlot_used]
    exact hm.used i
  refine hm.setCtx hused fun i hi d hd => ?_
  · show update r.desc pid _ i d = ((update s.ctx pid _ i).files d).map _
    by_cases e : i = pid
    · subst e
      rw [update_self, update_self]
      dsimp only
      by_cases e : d = fd
      · rw [e, update_self, update_self]
      · rw [update_of_ne e, update_of_ne e]
        exact hm.desc i hi d hd
    · rw [update_of_ne e, update_of_ne e]
      exact hm.desc i hi d hd

theorem Carries.dup (hm : s.Carries r id) (hpid : pid < MAX_PROCESSES) (oldfd : Int) :
    Sends (s.fdDup pid oldfd) (r.dup pid oldfd) id := by
  unfold fdDup Channels.dup
  by_cases hold : 0 ≤ oldfd ∧ oldfd < MAX_OPEN_FILES
  · rw [if_neg (not_not.mpr hold), if_neg (not_not.mpr hold), hm.desc pid hpid oldfd.toNat (by omega), hm.lowest hpid]
    cases (s.ctx pid).files oldfd.toNat with
    | none => exact ⟨rfl, hm⟩
    | some a =>
      cases freeSlot (s.ctx pid).files 0 with
      | none => exact ⟨rfl, hm⟩
      | some fd => exact ⟨rfl, (hm.setSlot pid fd (some a)).same (kept_setFile rfl rfl rfl)⟩
  · rw [if_pos hold, if_pos hold]
    exact ⟨rfl, hm⟩

/-- A slot with something in it, closed and filled again. -/
theorem Carries.refill (hm : s.Carries r id) (pid fd : Nat) (v : Option Nat) :
    ((s.closeSlot pid fd).setSlot pid fd v).Carries (r.setDesc pid fd (v.map (s.sideOf id))) id := by
  have hclosed := s.kept_closeSlot pid fd
  rw [← hclosed.sideOf id]
  exact (hm.same hclosed).setSlot pid fd v

theorem Carries.dup2 (hm : s.Carries r id) (hpid : pid < MAX_PROCESSES) (oldfd newfd : Int) :
    Sends (s.fdDup2 pid oldfd newfd) (r.dup2 pid oldfd newfd) id := by
  unfold fdDup2 Channels.dup2
  by_cases hold : 0 ≤ oldfd ∧ oldfd < MAX_OPEN_FILES
  · rw [if_neg (not_not.mpr hold), if_neg (not_not.mpr hold)]
    by_cases hnew : 0 ≤ newfd ∧ newfd < MAX_OPEN_FILES
    · rw [if_neg (not_not.mpr hnew), if_neg (not_not.mpr hnew), hm.desc pid hpid oldfd.toNat (by omega)]
      cases ha : (s.ctx pid).files oldfd.toNat with
      | none => exact ⟨rfl, hm⟩
      | some a =>
        dsimp only
        by_cases e : oldfd = newfd
        · have hsame : s.setSlot pid newfd.toNat (some a) = s := by
            unfold Kernel.setSlot setFiles
            rw [← e, ← ha, update_eq_self, update_eq_self]
          have hset := hm.setSlot pid newfd.toNat (some a)
          rw [hsame] at hset
          rw [if_pos e]
          exact ⟨rfl, hset⟩
        · rw [if_neg e]
          exact ⟨rfl, (hm.refill pid newfd.toNat (some a)).same (kept_setFile rfl rfl rfl)⟩
    · rw [if_pos hnew, if_pos hnew]
      exact ⟨rfl, hm⟩
  · rw [if_pos hold, if_pos hold]
    exact ⟨rfl, hm⟩

theorem Carries.close (hm : s.Carries r id) (hx : s.Exact none) (hpid : pid < MAX_PROCESSES) (hfd : fd < MAX_OPEN_FILES) :
    Sends (s.doClose pid fd) (r.close pid fd) id := by
  unfold doClose Channels.close
  rw [hm.desc pid hpid fd hfd]
  cases ha : (s.ctx pid).files fd with
  | none => exact ⟨rfl, hm⟩
  | some a =>
    dsimp only [Option.map_some]
    rw [if_pos (hx.shapes a (hx.live hpid hfd ha)).close]
    exact ⟨rfl, (hm.setSlot pid fd none).same (kept_genericClose _ a)⟩

/-! ## fork and exit -/

theorem kept_countSlots (child : Nat) (l : List Nat) : ∀ s : Kernel, s.Kept (l.foldl (countSlot child) s) := by
  induction l with
  | nil => exact .refl
  | cons i l ih =>
    intro s
    refine Kept.trans ?_ (ih _)
    unfold countSlot
    split
    · exact .refl s
    · exact kept_setFile rfl rfl rfl

theorem Carries.fork (hm : s.Carries r id) (hpid : pid < MAX_PROCESSES) {x : Ret × Kernel} (hx : s.doFork pid = some x) :
    ∃ y, r.fork pid = some y ∧ Sends x y id := by
  obtain ⟨child, hget, rfl⟩ := Option.map_eq_some_iff.mp hx
  have hfind : (List.range MAX_PROCESSES).find? (fun child => !r.used child) = some child := by
    rw [← hget]
    exact List.find?_congr fun i _ => by rw [hm.used i]
  refine ⟨_, by unfold Channels.fork; rw [hfind]; rfl, rfl, ?_⟩
  show Kernel.Carries ((List.range MAX_OPEN_FILES).foldl (countSlot child) _) _ id
  refine Carries.same ?_ (kept_countSlots child _ _)
  refine hm.setCtx (fun i => ?_) fun i hi d hd => ?_
  · by_cases e : i = child
    · rw [e, update_self, update_self]
    · rw [update_of_ne e, update_of_ne e]
      exact hm.used i
  · by_cases e : i = child
    · rw [e, update_self, update_self]
      exact hm.desc pid hpid d hd
    · rw [update_of_ne e, update_of_ne e]
      exact hm.desc i hi d hd

theorem emptySlot_eq (pid : Nat) (s : Kernel) (i : Nat) : emptySlot pid s i = (s.closeSlot pid i).setSlot pid i none := by
  unfold emptySlot Kernel.closeSlot
  cases hs : (s.ctx pid).files i with
  | none =>
    have hsame : s.setSlot pid i none = s := by
      unfold Kernel.setSlot setFiles
      rw [← hs, update_eq_self, update_eq_self]
    exact hsame.symm
  | some a => rfl

/-- The slots do_file_exit has been to are empty. -/
theorem Carries.emptySlots (hm : s.Carries r id) (pid n : Nat) : ((List.range n).foldl (emptySlot pid) s).Carries
    { r with desc := update r.desc pid fun fd => if fd < n then none else r.desc pid fd } id := by
  induction n with
  | zero =>
    have hsame : update r.desc pid (fun fd => if fd < 0 then none else r.desc pid fd) = r.desc := update_eq_self pid r.desc
    rw [hsame]
    exact hm
  | succ n ih =>
    rw [List.range_succ, List.foldl_append]
    show (emptySlot pid _ n).Carries _ id
    rw [emptySlot_eq]
    have hset := ih.refill pid n none
    unfold Channels.setDesc at hset
    dsimp only [Option.map_none] at hset
    rw [update_self, update_idem] at hset
    have hdesc : update (fun fd => if fd < n then none else r.desc pid fd) n none =
        fun fd => if fd < n + 1 then none else r.desc pid fd := by
      funext fd
      by_cases e : fd = n
      · rw [e, update_self, if_pos (Nat.lt_succ_self n)]
      · rw [update_of_ne e]
        exact ite_congr (propext (by omega)) (fun _ => rfl) fun _ => rfl
    rw [hdesc] at hset
    exact hset

theorem Carries.exit (hm : s.Carries r id) (pid : Nat) : (s.doExit pid).Carries (r.exit pid) id := by
  have hempty := hm.emptySlots pid MAX_OPEN_FILES
  unfold Kernel.doExit Channels.exit
  refine hempty.setCtx (fun i => ?_) fun i hi d hd => ?_
  · by_cases e : i = pid
    · rw [e, update_self, update_self]
    · rw [update_of_ne e, update_of_ne e]
      exact hempty.used i
  · have hslot := hempty.desc i hi d hd
    dsimp only at hslot
    by_cases e : i = pid
    · subst e
      rw [update_self, if_pos hd] at hslot
      rw [update_self, update_self]
      exact hslot
    · rw [update_of_ne e] at hslot
      rw [update_of_ne e, update_of_ne e]
      exact hslot

/-! ## Opening -/

/-- Objects and pipes in pages that were free. -/
theorem Carries.grow (hm : s.Carries r id) (hx : s.Exact none) {id' : Nat → Nat} {channel : Nat → Channel} {made : Nat}
    (hctx : t.ctx = s.ctx) (hfile : ∀ b, s.use b = .file → t.file b = s.file b) (hid : ∀ p, s.use p = .pipe → id' p = id p)
    (hpipe : ∀ p, t.use p = .pipe → (t.pipe p).Delivers (channel (id' p)) ∧ id' p < made)
    (hinj : ∀ p q, t.use p = .pipe → t.use q = .pipe → id' p = id' q → p = q) (h0 : t.use 0 ≠ .pipe) :
    t.Carries { r with channel := channel, made := made } id' := by
  refine ⟨fun i => ?_, fun i hi d hd => ?_, fun p hp => (hpipe p hp).1, fun p hp => (hpipe p hp).2, hinj, h0⟩
  · rw [hctx]
    exact hm.used i
  · rw [hctx]
    refine (hm.desc i hi d hd).trans (Option.map_congr fun b hb => ?_)
    have hlive := hx.live hi hd hb
    unfold sideOf
    rw [hfile b hlive]
    -- the pipe of an end is there, so its number has not changed
    by_cases ht : (s.file b).type = .PIPE
    · rw [if_pos ht, if_pos ht, hid _ (hx.pipes.live b _ ⟨hlive, ht, rfl⟩)]
    · rw [if_neg ht, if_neg ht]

/-- A new object that is no end of a pipe, in a slot. -/
theorem Carries.make (hm : s.Carries r id) (hx : s.Exact none) {page : Nat} (hfree : s.use page = .free) (junk : File) {f : File}
    (hf : f.type ≠ .PIPE) (pid fd : Nat) :
    (((s.allocFile page junk).setFile page f).setSlot pid fd (some page)).Carries (r.setDesc pid fd (some .other)) id := by
  have huse : ∀ p, ((s.allocFile page junk).setFile page f).use p = .pipe → s.use p = .pipe := fun p hp => by
    have hp : update s.use page .file p = .pipe := hp
    by_cases e : p = page
    · rw [e, update_self] at hp
      cases hp
    · rw [update_of_ne e] at hp
      exact hp
  have hgrown : ((s.allocFile page junk).setFile page f).Carries r id := by
    refine hm.grow hx rfl (fun b hb => ?_) (fun _ _ => rfl) (fun p hp => ?_) (fun p q hp hq => ?_) fun h0 => ?_
    · have e : b ≠ page := fun e => by
        rw [e, hfree] at hb
        cases hb
      show update (update s.file page _) page f b = _
      rw [update_of_ne e, update_of_ne e]
    · exact ⟨hm.delivers p (huse p hp), hm.made p (huse p hp)⟩
    · exact hm.inj p q (huse p hp) (huse q hq)
    · exact hm.notNull (huse 0 h0)
  have hside : ((s.allocFile page junk).setFile page f).sideOf id page = .other := by
    unfold sideOf
    rw [show ((s.allocFile page junk).setFile page f).file page = f from update_self ..]
    exact if_neg hf
  have hset := hgrown.setSlot pid fd (some page)
  rw [Option.map_some, hside] at hset
  exact hset

theorem Carries.openInode (hm : s.Carries r id) (hx : s.Exact none) (hpid : pid < MAX_PROCESSES) {page : Nat}
    (hf : s.Fresh [page]) (junk : File) (i : Nat) (flags : UInt64) : ∃ y,
    r.openOther pid (s.openInode pid i flags page junk).1 = some y ∧ Sends (s.openInode pid i flags page junk) y id := by
  obtain ⟨hfree, hne⟩ := hf.2 page (List.mem_singleton_self page)
  have hrefuse : ∀ e : Int, e < 0 → r.openOther pid (.of e) = some (.of e, r) := fun e he => if_neg (Int.not_le.mpr he)
  unfold Kernel.openInode
  dsimp only
  split
  · exact ⟨_, hrefuse _ (by decide), rfl, hm⟩
  split
  · exact ⟨_, hrefuse _ (by decide), rfl, hm⟩
  cases hslot : freeSlot (s.ctx pid).files 3 with
  | none => exact ⟨_, hrefuse _ (by decide), rfl, hm⟩
  | some fd =>
    refine ⟨(.of fd, r.setDesc pid fd (some .other)), ?_, rfl, ?_⟩
    · refine (if_pos (Int.natCast_nonneg fd)).trans ?_
      rw [hm.lowest hpid, hslot]
      rfl
    · exact hm.make hx hfree junk (f := regularFile i flags) nofun pid fd

theorem Carries.openRegular (hm : s.Carries r id) (hx : s.Exact none) (hpid : pid < MAX_PROCESSES) {page : Nat}
    (hf : s.Fresh [page]) (junk : File) (filename : List UInt8) (flags mode : UInt64) : ∃ y,
    r.openOther pid (s.doRegularFileOpen pid filename flags mode page junk).1 = some y ∧
      Sends (s.doRegularFileOpen pid filename flags mode page junk) y id := by
  have hrefuse : ∀ e : Int, e < 0 → r.openOther pid (.of e) = some (.of e, r) := fun e he => if_neg (Int.not_le.mpr he)
  unfold doRegularFileOpen
  split
  · exact ⟨_, hrefuse _ (by decide), rfl, hm⟩
  cases s.fs.lookupInode filename with
  | none =>
    dsimp only
    split
    · rcases s.fs.createInode filename mode.toUInt32 with ⟨i | i, fs⟩
      · exact ⟨_, hrefuse _ (by decide), rfl, hm.same (kept_setFs fs)⟩
      · exact (hm.same (kept_setFs fs)).openInode (hx.setFs fs) hpid hf junk i flags
    · exact ⟨_, hrefuse _ (by decide), rfl, hm⟩
  | some i =>
    dsimp only
    split
    · exact ⟨_, hrefuse _ (by decide), rfl, hm⟩
    · exact hm.openInode hx hpid hf junk i flags

theorem Carries.openStandard (hm : s.Carries r id) (hx : s.Exact none) (hpid : pid < MAX_PROCESSES) {page : Nat}
    (hf : s.Fresh [page]) {junk : File} {type : FileType} (ht : type.num < 3) {x : Ret × Kernel}
    (hr : s.openStandardIO pid type page junk = some x) : ∃ y, r.openStandard pid type.num = some y ∧ Sends x y id := by
  have hnum : type.num < MAX_OPEN_FILES := Nat.lt_trans ht (by decide)
  have hnp : type ≠ .PIPE := fun e => by
    rw [e] at ht
    exact absurd ht (by decide)
  unfold Kernel.openStandardIO at hr
  unfold Channels.openStandard
  rw [hm.desc pid hpid type.num hnum]
  cases hs : (s.ctx pid).files type.num with
  | none =>
    rw [hs] at hr
    cases hr
    exact ⟨_, rfl, rfl, hm.make hx (hf.2 page (List.mem_singleton_self page)).1 junk hnp pid type.num⟩
  | some a =>
    rw [hs] at hr
    obtain ⟨fd, hfree, rfl⟩ := Option.map_eq_some_iff.mp hr
    dsimp only [Option.map_some]
    rw [hm.lowest hpid, hfree]
    -- open_standard_IO gives a second descriptor for whatever is there
    have hkept : s.Kept (s.addRef a) := kept_setFile rfl rfl rfl
    have hset := (hm.same hkept).setSlot pid fd (some a)
    rw [hkept.sideOf id] at hset
    exact ⟨_, rfl, rfl, hset⟩

theorem Carries.pipe (hm : s.Carries r id) (hx : s.Exact none) (hpid : pid < MAX_PROCESSES) {pages : PipePages}
    (hf : s.Fresh [pages.file1, pages.file2, pages.info, pages.buff]) :
    ∃ id', Sends (s.createPipe pid pages) (r.pipe pid) id' := by
  unfold createPipe Channels.pipe
  rw [hm.lowest hpid]
  cases freeSlot (s.ctx pid).files 3 with
  | none => exact ⟨id, rfl, hm⟩
  | some fd0 =>
    dsimp only
    rw [hm.lowest hpid]
    cases freeSlot (s.ctx pid).files (fd0 + 1) with
    | none => exact ⟨id, rfl, hm⟩
    | some fd1 =>
      refine ⟨update id pages.info r.made, rfl, ?_⟩
      show (s.madePipe pid fd0 fd1 pages).Carries _ _
      have hinfo := (hf.2 pages.info (by simp)).1
      have hold : ∀ {p}, s.use p = .pipe → p ≠ pages.info := fun hp e => by
        rw [e, hinfo] at hp
        cases hp
      have huse := @madePipe_pipe_iff s pid fd0 fd1 pages hf
      -- first with the tables as they were
      have hgrown : { s.madePipe pid fd0 fd1 pages with ctx := s.ctx }.Carries
          { r with channel := update r.channel r.made .empty, made := r.made + 1 } (update id pages.info r.made) := by
        refine hm.grow hx rfl (fun b hb => madePipe_file hf (by rw [hb]; exact nofun)) (fun p hp => update_of_ne (hold hp) ..)
          (fun p hp => ?_) (fun p q hp hq he => ?_) fun h0 => ?_
        · show (update s.pipe pages.info _ p).Delivers _ ∧ _
          rcases (huse p).mp hp with e | hp
          · rw [e, update_self, update_self, update_self]
            exact ⟨newPipe_delivers .., Nat.lt_succ_self _⟩
          · have hlt := hm.made p hp
            rw [update_of_ne (hold hp), update_of_ne (hold hp), update_of_ne (Nat.ne_of_lt hlt)]
            exact ⟨hm.delivers p hp, Nat.lt_succ_of_lt hlt⟩
        · rcases (huse p).mp hp with ep | hp
          · rcases (huse q).mp hq with eq | hq
            · exact ep.trans eq.symm
            · rw [ep, update_self, update_of_ne (hold hq)] at he
              exact absurd he (Nat.ne_of_gt (hm.made q hq))
          · rcases (huse q).mp hq with eq | hq
            · rw [eq, update_self, update_of_ne (hold hp)] at he
              exact absurd he (Nat.ne_of_lt (hm.made p hp))
            · rw [update_of_ne (hold hp), update_of_ne (hold hq)] at he
              exact hm.inj p q hp hq he
        · rcases (huse 0).mp h0 with e | h0
          · exact (hf.2 pages.info (by simp)).2 e.symm
          · exact hm.notNull h0
      have hside1 : { s.madePipe pid fd0 fd1 pages with ctx := s.ctx }.sideOf (update id pages.info r.made) pages.file1 =
          .reads r.made := by
        unfold sideOf
        dsimp only
        rw [madePipe_file1 hf]
        simp [readEnd]
      have hside2 : { s.madePipe pid fd0 fd1 pages with ctx := s.ctx }.sideOf (update id pages.info r.made) pages.file2 =
          .writes r.made := by
        unfold sideOf
        dsimp only
        rw [madePipe_file2]
        simp [writeEnd, O_READ, O_WRITE]
      have hset := (hgrown.setSlot pid fd0 (some pages.file1)).setSlot pid fd1 (some pages.file2)
      rw [Option.map_some, Option.map_some, hside1] at hset
      exact hside2 ▸ hset

/-! ## read, write and lseek -/

/-- A pipe whose channel has moved on. -/
theorem Carries.setPipe (hm : s.Carries r id) {p : Nat} (hp : s.use p = .pipe) {q : PipeInfo} {c : Channel} (hq : q.Delivers c) :
    (s.setPipe p q).Carries (r.setChannel (id p) c) id := by
  refine ⟨hm.used, hm.desc, fun p' hp' => ?_, hm.made, hm.inj, hm.notNull⟩
  show (update s.pipe p q p').Delivers (update r.channel (id p) c (id p'))
  by_cases e : p' = p
  · rw [e, update_self, update_self]
    exact hq
  · rw [update_of_ne e, update_of_ne fun he => e (hm.inj p' p hp' hp he)]
    exact hm.delivers p' hp'

/-- A pipe's end is open as long as somebody has a descriptor for it. -/
theorem Carries.isOpen (hm : s.Carries r id) (hx : s.Exact none) {p : Nat} (ha : s.End a p) :
    ((s.file a).mode = O_READ → (s.pipe p).isRopen = 1) ∧ ((s.file a).mode = O_WRITE → (s.pipe p).isWopen = 1) := by
  have hp := hx.pipes.live a p ha
  have hflags := hm.delivers p hp
  have hne : O_WRITE ≠ O_READ := by decide
  refine ⟨fun hmode => ?_, fun hmode => ?_⟩
  · have hopen := hx.pipes.isOpen p O_READ hp (Or.inl rfl)
    refine hflags.ropen.resolve_left fun h0 => ?_
    exact hopen.mp ((if_pos rfl).trans h0) a ha hmode
  · have hopen := hx.pipes.isOpen p O_WRITE hp (Or.inr rfl)
    refine hflags.wopen.resolve_left fun h0 => ?_
    exact hopen.mp ((if_neg hne).trans h0) a ha hmode

theorem kept_doReadRegular (s : Kernel) (a count : Nat) : s.Kept (s.doReadRegular a count).2 := by
  unfold doReadRegular
  cases (s.file a).inode with
  | none => exact .refl s
  | some i =>
    dsimp only
    iterate 4 (split; exact .refl s)
    exact kept_setFile rfl rfl rfl

theorem kept_doWriteRegular (s : Kernel) (a : Nat) (buff : Nat → UInt8) (count : Nat) :
    s.Kept (s.doWriteRegular a buff count).2 := by
  unfold doWriteRegular
  cases (s.file a).inode with
  | none => exact .refl s
  | some i =>
    dsimp only
    iterate 4 (split; exact .refl s)
    split
    · exact kept_setFs _
    · exact (kept_setFs _).trans (kept_setFile rfl rfl rfl)

theorem kept_doLseek (s : Kernel) (pid fd : Nat) (offset whence : Int) : s.Kept (s.doLseek pid fd offset whence).2 := by
  unfold doLseek
  cases (s.ctx pid).files fd with
  | none => exact .refl s
  | some a =>
    dsimp only
    split
    · unfold doLseekRegular
      extract_lets filep newoffset
      split
      · exact .refl s
      · exact kept_setFile rfl rfl rfl
    · exact .refl s

theorem Carries.read (hm : s.Carries r id) (hx : s.Exact none) (hpid : pid < MAX_PROCESSES) (hfd : fd < MAX_OPEN_FILES)
    {count : Nat} (hc : count < 2 ^ 31) {x : Ret × Kernel} (hr : s.doFileRead pid fd count = some x) :
    Sends x (r.read pid fd count x.1) id := by
  have hd := hm.desc pid hpid fd hfd
  unfold doFileRead at hr
  unfold Channels.read
  rw [hd]
  cases ha : (s.ctx pid).files fd with
  | none =>
    rw [ha] at hr
    cases hr
    exact ⟨rfl, hm⟩
  | some a =>
    have hlive := hx.live hpid hfd ha
    have hshape := hx.shapes a hlive
    rw [ha] at hr
    rw [Option.map_some]
    unfold File.Shaped at hshape
    unfold sideOf
    cases ht : (s.file a).type with
    | STDIN =>
      rw [ht] at hshape
      simp only [hshape.2] at hr
      cases hr
    | STDOUT | STDERR =>
      rw [ht] at hshape
      simp only [hshape.2] at hr
      cases hr
      exact ⟨rfl, hm⟩
    | REGULAR =>
      rw [ht] at hshape
      simp only [hshape.2] at hr
      cases hr
      exact ⟨rfl, hm.same (kept_doReadRegular s a _)⟩
    | PIPE =>
      rw [ht] at hshape
      rw [if_pos rfl]
      rcases hshape with ⟨hmode, hops⟩ | ⟨hmode, hops⟩
      · -- the read end: the channel has the bytes asked for, or it has not
        have hEnd : s.End a (s.file a).pipe := ⟨hlive, ht, rfl⟩
        have hp := hx.pipes.live a _ hEnd
        have hne : (s.file a).pipe ≠ 0 := fun e => hm.notNull (e ▸ hp)
        have hu : u32 count = count := u32_eq (by omega)
        rw [hmode, if_pos rfl]
        simp only [hops, if_neg hne, hmode, hu] at hr
        dsimp only
        rcases (hm.delivers _ hp).read ((hm.isOpen hx hEnd).1 hmode) hc with ⟨hgt, hread⟩ | ⟨hle, q, hread, hq⟩
        · rw [hread] at hr
          cases hr
          rw [dif_neg hgt]
          refine ⟨rfl, ?_⟩
          have hsame : s.setPipe (s.file a).pipe (s.pipe (s.file a).pipe) = s := by
            unfold Kernel.setPipe
            rw [update_eq_self]
          rw [hsame]
          exact hm
        · rw [hread] at hr
          cases hr
          rw [dif_pos hle]
          exact ⟨rfl, hm.setPipe hp hq⟩
      · have hnr : ¬ (s.file a).mode = O_READ := by
          rw [hmode]
          decide
        simp only [hops] at hr
        cases hr
        rw [if_neg hnr]
        exact ⟨rfl, hm⟩

theorem Carries.write (hm : s.Carries r id) (hx : s.Exact none) (hpid : pid < MAX_PROCESSES) (hfd : fd < MAX_OPEN_FILES)
    {buff : Nat → UInt8} {count : Nat} (hc : count < 2 ^ 31) {x : Ret × Kernel}
    (hr : s.doFileWrite pid fd buff count = some x) : Sends x (r.write pid fd ((List.range count).map buff) x.1) id := by
  have hd := hm.desc pid hpid fd hfd
  have hlen : ((List.range count).map buff).length = count := by rw [List.length_map, List.length_range]
  unfold doFileWrite at hr
  unfold Channels.write
  rw [hd, hlen]
  cases ha : (s.ctx pid).files fd with
  | none =>
    rw [ha] at hr
    cases hr
    exact ⟨rfl, hm⟩
  | some a =>
    have hlive := hx.live hpid hfd ha
    have hshape := hx.shapes a hlive
    rw [ha] at hr
    rw [Option.map_some]
    unfold File.Shaped at hshape
    unfold sideOf
    cases ht : (s.file a).type with
    | STDIN =>
      rw [ht] at hshape
      simp only [hshape.2] at hr
      cases hr
      exact ⟨rfl, hm⟩
    | STDOUT | STDERR =>
      rw [ht] at hshape
      simp only [hshape.2] at hr
      cases hr
    | REGULAR =>
      rw [ht] at hshape
      simp only [hshape.2] at hr
      cases hr
      exact ⟨rfl, hm.same (kept_doWriteRegular s a buff _)⟩
    | PIPE =>
      rw [ht] at hshape
      rw [if_pos rfl]
      rcases hshape with ⟨hmode, hops⟩ | ⟨hmode, hops⟩
      · simp only [hops] at hr
        cases hr
        rw [if_pos hmode]
        exact ⟨rfl, hm⟩
      · -- the write end: there is room for all of it, or there is not
        have hEnd : s.End a (s.file a).pipe := ⟨hlive, ht, rfl⟩
        have hp := hx.pipes.live a _ hEnd
        have hne : (s.file a).pipe ≠ 0 := fun e => hm.notNull (e ▸ hp)
        have hu : u32 count = count := u32_eq (by omega)
        have hnr : ¬ (s.file a).mode = O_READ := by
          rw [hmode]
          decide
        rw [if_neg hnr]
        simp only [hops, if_neg hne, hmode, hu] at hr
        dsimp only
        rcases (hm.delivers _ hp).write ((hm.isOpen hx hEnd).2 hmode) buff hc with ⟨hgt, hwrite⟩ | ⟨q, hle, hwrite, hq⟩
        · rw [hwrite] at hr
          cases hr
          rw [if_neg hgt]
          refine ⟨rfl, ?_⟩
          have hsame : s.setPipe (s.file a).pipe (s.pipe (s.file a).pipe) = s := by
            unfold Kernel.setPipe
            rw [update_eq_self]
          rw [hsame]
          exact hm
        · rw [hwrite] at hr
          cases hr
          rw [if_pos hle]
          exact ⟨rfl, hm.setPipe hp hq⟩

theorem Carries.lseek (hm : s.Carries r id) (hx : s.Exact none) (hpid : pid < MAX_PROCESSES) (hfd : fd < MAX_OPEN_FILES)
    (offset whence : Int) : Sends (s.doLseek pid fd offset whence) (r.lseek pid fd (s.doLseek pid fd offset whence).1) id := by
  have hkept := hm.same (s.kept_doLseek pid fd offset whence)
  have hd := hm.desc pid hpid fd hfd
  unfold Channels.lseek
  rw [hd]
  cases ha : (s.ctx pid).files fd with
  | none =>
    refine ⟨?_, hkept⟩
    unfold doLseek
    rw [ha]
    rfl
  | some a =>
    have hshape := hx.shapes a (hx.live hpid hfd ha)
    rw [Option.map_some]
    unfold sideOf
    by_cases ht : (s.file a).type = .PIPE
    · have hno : (s.file a).fops.lseek = false := by
        unfold File.Shaped at hshape
        rw [ht] at hshape
        rcases hshape with ⟨-, hops⟩ | ⟨-, hops⟩ <;> rw [hops]
      have hret : (s.doLseek pid fd offset whence).1 = .of (-EINVAL) := by
        unfold doLseek
        rw [ha]
        simp [hno]
      rw [if_pos ht]
      by_cases hmode : (s.file a).mode = O_READ
      · rw [if_pos hmode]
        exact ⟨hret, hkept⟩
      · rw [if_neg hmode]
        exact ⟨hret, hkept⟩
    · rw [if_neg ht]
      exact ⟨rfl, hkept⟩

/-! ## Runs -/

/-- Counts that a read or a write can give back. -/
def Counted (s : Kernel) (e : Ev) : Prop :=
  s.Promised e ∧ match e.call with
    | .read _ count | .write _ _ count => count < 2 ^ 31
    | _ => True

theorem call_sends (hm : s.Carries r id) (hx : s.Exact none) {e : Ev} (hpid : e.pid < MAX_PROCESSES) (hok : s.Counted e)
    {x : Ret × Kernel} (hc : s.call e.pid e.call = some x) : ∃ y id', r.call e.pid x.1 e.call = some y ∧ Sends x y id' := by
  obtain ⟨pid, c, ret⟩ := e
  obtain ⟨hp, hok⟩ := hok
  cases c with
  | openRegular filename flags mode page junk =>
    cases hc
    obtain ⟨y, hy, hsends⟩ := hm.openRegular hx hpid hp junk filename flags mode
    exact ⟨y, id, hy, hsends⟩
  | openStandard type page junk =>
    obtain ⟨y, hy, hsends⟩ := hm.openStandard hx hpid hp.2 hp.1 hc
    exact ⟨y, id, hy, hsends⟩
  | pipe pages =>
    cases hc
    obtain ⟨id', hsends⟩ := hm.pipe hx hpid hp
    exact ⟨_, id', rfl, hsends⟩
  | dup oldfd =>
    cases hc
    exact ⟨_, id, rfl, hm.dup hpid oldfd⟩
  | dup2 oldfd newfd =>
    cases hc
    exact ⟨_, id, rfl, hm.dup2 hpid oldfd newfd⟩
  | close fd =>
    cases hc
    exact ⟨_, id, rfl, hm.close hx hpid hp⟩
  | fork =>
    obtain ⟨y, hy, hsends⟩ := hm.fork hpid hc
    exact ⟨y, id, hy, hsends⟩
  | exit =>
    cases hc
    exact ⟨_, id, rfl, rfl, hm.exit pid⟩
  | read fd count => exact ⟨_, id, rfl, hm.read hx hpid hp hok hc⟩
  | write fd buff count => exact ⟨_, id, rfl, hm.write hx hpid hp hok hc⟩
  | lseek fd offset whence =>
    cases hc
    exact ⟨_, id, rfl, hm.lseek hx hpid hp offset whence⟩

theorem step_carries (hm : s.Carries r id) (hx : s.Exact none) {e : Ev} (hok : s.Counted e) (he : s.step e = some t) :
    ∃ r' id', r.step e = some r' ∧ t.Carries r' id' := by
  unfold step at he
  split at he
  · rename_i hpid
    obtain ⟨x, hcall, hret⟩ := Option.bind_eq_some_iff.mp he
    split at hret
    · rename_i hval
      cases hret
      obtain ⟨y, id', hy, hsame, hcarries⟩ := call_sends hm hx hpid.1 hok hcall
      rw [hval] at hy
      refine ⟨y.2, id', ?_, hcarries⟩
      unfold Channels.step
      rw [if_pos ⟨hpid.1, (hm.used e.pid).trans hpid.2⟩, hy, Option.bind_some, if_pos (hsame.symm.trans hval)]
    · cases hret
  · cases he

theorem start_carries (h : Start s) : s.Carries Channels.start id := by
  have hm : s.Matches Named.start id := start_matches h
  have hx := start_exact h
  have hno : ∀ p, s.use p ≠ .pipe := fun p hp => by
    obtain ⟨a, ha⟩ := hx.pipes.some p hp
    exact hm.noPipe a ha.1 ha.2.1
  refine ⟨hm.used, fun i hi d hd => ?_, fun p hp => absurd hp (hno p), fun p hp => absurd hp (hno p),
    fun p _ hp => absurd hp (hno p), hno 0⟩
  have hdesc := hm.desc i hi d hd
  have hopen : (Named.start.desc i d).isSome = decide (i = 1 ∧ d < 3) := by
    show (if i = 1 then _ else none : Option Desc).isSome = _
    by_cases e : i = 1
    · rw [if_pos e]
      match d with
      | 0 | 1 | 2 => simp [e]
      | d + 3 => simp [e]
    · simp [e]
  rw [hdesc, Option.isSome_map] at hopen
  show (if i = 1 ∧ d < 3 then some Side.other else none) = _
  cases hs : (s.ctx i).files d with
  | none =>
    rw [hs] at hopen
    exact if_neg (of_decide_eq_false hopen.symm)
  | some a =>
    rw [hs] at hopen
    have hside : s.sideOf id a = .other := if_neg (hm.noPipe a (hx.live hi hd hs))
    rw [Option.map_some, hside]
    exact if_pos (of_decide_eq_true hopen.symm)

theorem run_carries {es : List Ev} (hr : machine.Run Counted s es t) (hx : s.Exact none) (hm : s.Carries r id) :
    ∃ u id', Channels.machine.Run Machine.any r es u ∧ t.Carries u id' := by
  induction hr generalizing r id with
  | nil s => exact ⟨r, id, .nil r, hm⟩
  | cons hok he _ ih =>
    obtain ⟨r', id', hstep, hm'⟩ := step_carries hm hx hok he
    obtain ⟨u, id'', hrun, hmu⟩ := ih (step_exact hx hok.1 he) hm'
    exact ⟨u, id'', .cons trivial hstep hrun, hmu⟩

/-- Whatever any processes open, duplicate, close, leave to children, read and write: the
    same calls of `Channels` give back the same, and each pipe that is left holds what is
    pending in its channel. -/
theorem pipes_refine {es : List Ev} (h0 : Start s) (hr : machine.Run Counted s es t) :
    ∃ u id, Channels.machine.Run Machine.any Channels.start es u ∧ t.Carries u id := by
  have hm : s.Carries Channels.start fun _ => 0 := start_carries h0
  exact run_carries hr (start_exact h0) hm

end

/-- A pipe between a parent, which writes, and its child, which reads after the parent has closed its ends. -/
def pipeToChild : List Ev :=
  [⟨1, .pipe ⟨4, 5, 6, 7, blankFile, blankFile, fun _ => 0⟩, ⟨some 0, [], [3, 4]⟩⟩, ⟨1, .fork, .of 2⟩,
    ⟨1, .write 4 (fun k => UInt8.ofNat (7 + k)) 3, .of 3⟩, ⟨1, .close 3, ⟨none, [], []⟩⟩, ⟨1, .close 4, ⟨none, [], []⟩⟩,
    ⟨2, .read 3 2, ⟨some 2, [7, 8], []⟩⟩]

theorem pipes_refine_child : ∃ s, Start first ∧ machine.Run Counted first pipeToChild s ∧
    ∃ u id, Channels.machine.Run Machine.any Channels.start pipeToChild u ∧ s.Carries u id := by
  obtain ⟨s, hrun, hread⟩ : ∃ s, machine.Run Counted first (pipeToChild.take 5) s ∧
      (s.step ⟨2, .read 3 2, ⟨some 2, [7, 8], []⟩⟩).isSome :=
    ⟨_, .cons ⟨by decide, trivial⟩ rfl <| .cons ⟨by decide, trivial⟩ rfl <| .cons ⟨by decide, by decide⟩ rfl <|
      .cons ⟨by decide, trivial⟩ rfl <| .cons ⟨by decide, trivial⟩ rfl <| .nil _, by decide +kernel⟩
  obtain ⟨t, ht⟩ := Option.isSome_iff_exists.mp hread
  have hok : s.Counted ⟨2, .read 3 2, ⟨some 2, [7, 8], []⟩⟩ := ⟨(by decide : 3 < MAX_OPEN_FILES), (by decide : 2 < 2 ^ 31)⟩
  have hall := hrun.append (.cons hok ht (.nil t))
  exact ⟨t, first_start, hall, pipes_refine first_start hall⟩

end Kernel

end Cs330.Files
