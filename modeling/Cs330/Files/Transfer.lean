/-
  Cs330.Files.Transfer — how many bytes read and write transfer.

  The four calls add the count to an offset in 32 bits and compare the sum with what is
  there or fits. A sum that wraps passes the check (except that of a pipe's read, whose
  read_pos is 0): a pipe then takes what still fits and reports that, and flat_read and
  flat_write get a negative count, which their loops compare as an unsigned 64-bit number
  (`wrapped_counts`). Where no sum wraps, or another check refuses the call, it transfers
  exactly what was asked for or nothing (`transfers_exact`).

  The loops of pipe.c are those of `Lib.Loop`; `takeLoop_run` and its like say so.
-/
import Cs330.Files.Offsets
import Cs330.Lib.Loop

namespace Cs330.Files

open Lib Lib.CInt Function

/-! ## The loops of pipe.c -/

/-- One round of the first loop of pipe_read. -/
def takeBody (p : PipeInfo) (readStart : Int) (count : Nat) (s : Int × List UInt8) : Option (Int × List UInt8) :=
  if s.1 < readStart + p.bufferOffset then
    if u32 (s.1 - readStart) = count then none else some (s.1 + 1, s.2 ++ [p.pipeBuff s.1.toNat])
  else none

/-- One round of the second. -/
def shiftBody (bound j : Int) (s : Int × (Nat → UInt8)) : Option (Int × (Nat → UInt8)) :=
  if s.1 < bound then some (s.1 + 1, update s.2 (s.1 - j).toNat (s.2 s.1.toNat)) else none

/-- One round of the loop of pipe_write. -/
def putBody (buff : Nat → UInt8) (count : Nat) (s : Int × Nat × (Nat → UInt8)) : Option (Int × Nat × (Nat → UInt8)) :=
  if s.1 < PIPE_MAX_SIZE then
    if s.2.1 = count then none else some (s.1 + 1, s.2.1 + 1, update s.2.2 s.1.toNat (buff s.2.1))
  else none

section
variable {p : PipeInfo} {readStart bound j : Int} {count : Nat} {buff : Nat → UInt8}

theorem takeLoop_run (fuel : Nat) (i : Int) (taken : List UInt8) :
    takeLoop p readStart count fuel i taken = Loop.run (takeBody p readStart count) fuel (i, taken) := by
  induction fuel generalizing i taken with
  | zero => rfl
  | succ fuel ih =>
    simp only [takeLoop, Loop.run, takeBody]
    by_cases hi : i < readStart + p.bufferOffset
    · by_cases hc : u32 (i - readStart) = count
      · simp [hi, hc]
      · simp [hi, hc, ih]
    · simp [hi]

theorem shiftLoop_run (fuel : Nat) (i : Int) (f : Nat → UInt8) :
    shiftLoop bound j fuel i f = (Loop.run (shiftBody bound j) fuel (i, f)).2 := by
  induction fuel generalizing i f with
  | zero => rfl
  | succ fuel ih =>
    simp only [shiftLoop, Loop.run, shiftBody]
    by_cases hi : i < bound
    · simp [hi, ih]
    · simp [hi]

theorem putLoop_run (fuel : Nat) (i : Int) (j : Nat) (f : Nat → UInt8) :
    putLoop buff count fuel i j f = Loop.run (putBody buff count) fuel (i, j, f) := by
  induction fuel generalizing i j f with
  | zero => rfl
  | succ fuel ih =>
    simp only [putLoop, Loop.run, putBody]
    by_cases hi : i < PIPE_MAX_SIZE
    · by_cases hc : j = count
      · simp [hi, hc]
      · simp [hi, hc, ih]
    · simp [hi]

/-- A loop that counts up to a bound is left after the rounds to it at most. -/
theorem counted_rounds {α : Type} {body : Int × α → Option (Int × α)} (bound : Int)
    (hbody : ∀ s t, body s = some t → s.1 < bound ∧ t.1 = s.1 + 1) (s : Int × α) :
    ∃ n t, n ≤ (bound - s.1).toNat ∧ Loop.Leaves body n s t := by
  have hstep : ∀ s t : Int × α, True → body s = some t → True ∧ (bound - t.1).toNat < (bound - s.1).toNat := by
    intro s t _ hb
    obtain ⟨hlt, ht⟩ := hbody s t hb
    refine ⟨trivial, ?_⟩
    rw [ht]
    omega
  obtain ⟨n, t, hn, hl, -⟩ := Loop.leaves_of_variant (fun s : Int × α => (bound - s.1).toNat) (fun _ => True) hstep
    (show (fun _ => True) s from trivial)
  exact ⟨n, t, hn, hl⟩

theorem take_rounds (p : PipeInfo) (readStart : Int) (count : Nat) (s : Int × List UInt8) :
    ∃ n t, n ≤ (readStart + p.bufferOffset - s.1).toNat ∧ Loop.Leaves (takeBody p readStart count) n s t := by
  apply counted_rounds
  intro s t h
  unfold takeBody at h
  split at h
  · rename_i hlt
    split at h
    · cases h
    · cases h
      exact ⟨hlt, rfl⟩
  · cases h

theorem shift_rounds (bound j : Int) (s : Int × (Nat → UInt8)) :
    ∃ n t, n ≤ (bound - s.1).toNat ∧ Loop.Leaves (shiftBody bound j) n s t := by
  apply counted_rounds
  intro s t h
  unfold shiftBody at h
  split at h
  · rename_i hlt
    cases h
    exact ⟨hlt, rfl⟩
  · cases h

theorem put_rounds (buff : Nat → UInt8) (count : Nat) (s : Int × Nat × (Nat → UInt8)) :
    ∃ n t, n ≤ (PIPE_MAX_SIZE - s.1).toNat ∧ Loop.Leaves (putBody buff count) n s t := by
  apply counted_rounds
  intro s t h
  unfold putBody at h
  split at h
  · rename_i hlt
    split at h
    · cases h
    · cases h
      exact ⟨hlt, rfl⟩
  · cases h

end

/-! ## Pipes -/

/-- The read takes `count` bytes when the end is open and they are there, and else fails without a
    trace; and both its loops are left after at most FILE_SIZE rounds. -/
structure PipeReadRight (mode : UInt32) (p : PipeInfo) (count : Nat) : Prop where
  all : p.isRopen = 1 ∧ mode = O_READ ∧ (count : Int) ≤ p.bufferOffset →
    ∃ p', pipeRead mode p count = (((count : Int), p.bytes.take count), p') ∧ p'.WellFormed ∧ p'.bytes = p.bytes.drop count
  none : ¬ (p.isRopen = 1 ∧ mode = O_READ ∧ (count : Int) ≤ p.bufferOffset) → ∃ v : Int, v < 0 ∧ pipeRead mode p count = ((v, []), p)
  rounds : ∃ n t m u, n ≤ FILE_SIZE ∧ m ≤ FILE_SIZE ∧ Loop.Leaves (takeBody p p.readPos count) n (p.readPos, []) t ∧
    Loop.Leaves (shiftBody (p.readPos + p.bufferOffset) t.2.length) m (t.1, p.pipeBuff) u

structure PipeWriteRight (mode : UInt32) (p : PipeInfo) (buff : Nat → UInt8) (count : Nat) : Prop where
  all : p.isWopen = 1 ∧ mode = O_WRITE ∧ p.writePos + count ≤ PIPE_MAX_SIZE →
    ∃ p', pipeWrite mode p buff count = ((count : Int), p') ∧ p'.WellFormed ∧ p'.bytes = p.bytes ++ (List.range count).map buff
  none : ¬ (p.isWopen = 1 ∧ mode = O_WRITE ∧ p.writePos + count ≤ PIPE_MAX_SIZE) →
    ∃ v : Int, v < 0 ∧ pipeWrite mode p buff count = (v, p)
  rounds : ∃ n t, n ≤ FILE_SIZE ∧ Loop.Leaves (putBody buff count) n (p.writePos, 0, p.pipeBuff) t

section
variable {p : PipeInfo} (hw : p.WellFormed) {count : Nat} (hc : count < 2 ^ 32)
include hw hc

theorem pipeRead_right (mode : UInt32) : PipeReadRight mode p count := by
  obtain ⟨n, hn⟩ := Int.eq_ofNat_of_zero_le hw.low
  have hhigh := hw.high
  have hlen : p.bytes.length = n := by simp [PipeInfo.bytes, hn]
  unfold PIPE_MAX_SIZE at hhigh
  refine ⟨?_, fun hnot => ?_, ?_⟩
  · rintro ⟨hopen, hmode, hle⟩
    rcases pipeRead_spec hw hc mode with ⟨v, hv, hr⟩ | ⟨p', hr, -, hw', hb⟩
    · -- the read gets past both checks, and then returns how many bytes it took
      exfalso
      have hsum : u32 (p.readPos + count) = count := by rw [hw.read, Int.zero_add]; exact u32_eq hc
      have hoff : u32 p.bufferOffset = n := by rw [hn]; exact u32_eq (by omega)
      unfold pipeRead at hr
      rw [if_neg (by simp [hopen, hmode]), hsum, hoff, if_neg (by omega)] at hr
      have hval := (Prod.mk.inj (Prod.mk.inj hr).1).1
      omega
    · exact ⟨p', hr, hw', hb⟩
  · rcases pipeRead_spec hw hc mode with ⟨v, hv, hr⟩ | ⟨p', hr, hle, -⟩
    · exact ⟨v, hv, hr⟩
    · refine ⟨-EACCES, by decide, ?_⟩
      unfold pipeRead
      rw [if_pos]
      by_contra hopen
      simp only [ne_eq, not_or, not_not] at hopen
      exact hnot ⟨hopen.1, hopen.2, by omega⟩
  · obtain ⟨k, t, hk, ht⟩ := take_rounds p p.readPos count (p.readPos, [])
    obtain ⟨m, u, hm, hu⟩ := shift_rounds (p.readPos + p.bufferOffset) t.2.length (t.1, p.pipeBuff)
    have hlow : p.readPos ≤ t.1 := by
      refine ht.inv (fun s => p.readPos ≤ s.1) (fun s t hs hb => ?_) (Int.le_refl _)
      unfold takeBody at hb
      split at hb
      · split at hb
        · cases hb
        · cases hb
          exact Int.le_trans hs (by simp)
      · cases hb
    unfold FILE_SIZE
    dsimp only at hk hm
    exact ⟨k, t, m, u, by omega, by omega, ht, hu⟩

/-- A write into a pipe is right if and only if its sum does not wrap or its end is closed. -/
theorem pipeWrite_right_iff (mode : UInt32) (buff : Nat → UInt8) :
    PipeWriteRight mode p buff count ↔ p.writePos + count < 2 ^ 32 ∨ ¬ (p.isWopen = 1 ∧ mode = O_WRITE) := by
  obtain ⟨n, hn⟩ := Int.eq_ofNat_of_zero_le hw.low
  have hhigh := hw.high
  have hwrite := hw.write
  unfold PIPE_MAX_SIZE at hhigh
  have hrounds : ∃ n t, n ≤ FILE_SIZE ∧ Loop.Leaves (putBody buff count) n (p.writePos, 0, p.pipeBuff) t := by
    obtain ⟨m, t, hm, ht⟩ := put_rounds buff count (p.writePos, 0, p.pipeBuff)
    unfold PIPE_MAX_SIZE at hm
    unfold FILE_SIZE
    dsimp only at hm
    exact ⟨m, t, by omega, ht⟩
  by_cases hopen : p.isWopen = 1 ∧ mode = O_WRITE
  · have hguard : ¬ (p.isWopen ≠ 1 ∨ mode ≠ O_WRITE) := by simp [hopen.1, hopen.2]
    rw [or_iff_left (not_not.mpr hopen)]
    constructor
    · intro h
      by_contra hwrap
      obtain ⟨v, hv, hr⟩ := h.none fun hfit => by
        have := hfit.2.2
        unfold PIPE_MAX_SIZE at this
        omega
      -- the wrapped sum is small, and what fits is written
      have hsum : ¬ PIPE_MAX_SIZE < u32 (p.writePos + count) := by
        unfold PIPE_MAX_SIZE u32
        omega
      unfold pipeWrite at hr
      rw [if_neg hguard, if_neg hsum] at hr
      have hval := (Prod.mk.inj hr).1
      omega
    · intro hs
      refine ⟨fun hfit => ?_, fun hnot => ?_, hrounds⟩
      · rcases pipeWrite_spec hw hs mode buff with ⟨v, hv, hr⟩ | hr
        · exfalso
          have hsum : ¬ PIPE_MAX_SIZE < u32 (p.writePos + count) := by
            have := hfit.2.2
            unfold PIPE_MAX_SIZE at this ⊢
            unfold u32
            omega
          unfold pipeWrite at hr
          rw [if_neg hguard, if_neg hsum] at hr
          have hval := (Prod.mk.inj hr).1
          omega
        · exact hr
      · refine ⟨-EOTHERS, by decide, ?_⟩
        have hsum : PIPE_MAX_SIZE < u32 (p.writePos + count) := by
          have : ¬ p.writePos + count ≤ PIPE_MAX_SIZE := fun h => hnot ⟨hopen.1, hopen.2, h⟩
          unfold PIPE_MAX_SIZE at this ⊢
          unfold u32
          omega
        unfold pipeWrite
        rw [if_neg hguard, if_pos hsum]
  · refine iff_of_true ⟨fun h => absurd ⟨h.1, h.2.1⟩ hopen, fun _ => ⟨-EACCES, by decide, ?_⟩, hrounds⟩ (.inr hopen)
    unfold pipeWrite
    rw [if_pos]
    by_contra h
    simp only [ne_eq, not_or, not_not] at h
    exact hopen h

end

/-! ## Regular files -/

namespace FlatFs

theorem flatRead_exact (fs : FlatFs) {inode : Inode} {count offp : Nat} (hlong : inode.fileSize ≤ FILE_SIZE)
    (hle : offp + count ≤ inode.fileSize) (h32 : inode.sPos + FILE_SIZE < 2 ^ 32) :
    fs.flatRead inode count offp = (List.range count).map fun k => fs.store (inode.sPos + offp + k) := by
  unfold FILE_SIZE at hlong h32
  have hoff : int32 offp = offp := int32_eq (by omega) (by omega)
  have hcount : int32 count = count := int32_eq (by omega) (by omega)
  unfold flatRead
  simp only [hoff, hcount]
  by_cases hz : (inode.fileSize : Int) - offp ≤ 0
  · have h0 : count = 0 := by omega
    simp [hz, h0]
  · rw [if_neg hz, if_neg (by omega), u64_eq (by omega)]
    refine List.map_congr_left fun k hk => ?_
    have hk := List.mem_range.mp hk
    have hat : u64 ((inode.sPos : Int) + offp + k) = inode.sPos + offp + k := by
      unfold u64
      omega
    rw [hat]

/-- At the end of the file there is nothing to read, however many bytes are asked for. -/
theorem flatRead_end (fs : FlatFs) {inode : Inode} {count offp : Nat} (hz : (inode.fileSize : Int) - int32 offp ≤ 0) :
    fs.flatRead inode count offp = [] := by
  unfold flatRead
  generalize int32 offp = o at hz ⊢
  generalize int32 count = c
  dsimp only
  rw [if_pos hz]

/-- Before the end, a negative count is the number of rounds, as a u64. -/
theorem readAddrs_negative {inode : Inode} {count offp : Nat} (hz : ¬ (inode.fileSize : Int) - int32 offp ≤ 0)
    (hneg : int32 count < 0) : (readAddrs inode count offp).length = u64 (int32 count) := by
  unfold readAddrs
  generalize int32 offp = o at hz ⊢
  generalize int32 count = c at hneg ⊢
  dsimp only
  rw [if_neg hz, if_neg (by omega), List.length_map, List.length_range]

end FlatFs

namespace Kernel

/-- The object is of file `i`, whose storage is as init_file_system made it, and its offset is in there. -/
structure Opens (s : Kernel) (a i : Nat) : Prop where
  inode : (s.file a).inode = some i
  bounds : (s.fs.inode i).ePos = (s.fs.inode i).sPos + FILE_SIZE ∧ (s.fs.inode i).ePos < 2 ^ 32
  maxPos : (s.fs.inode i).maxPos = (s.fs.inode i).sPos + (s.fs.inode i).fileSize
  short : (s.fs.inode i).fileSize ≤ FILE_SIZE
  offp : (s.file a).offp ≤ FILE_SIZE

def MayRead (s : Kernel) (a i : Nat) : Prop := has (s.file a).mode O_READ = true ∧ has (s.fs.inode i).mode O_READ = true

def MayWrite (s : Kernel) (a i : Nat) : Prop := has (s.file a).mode O_WRITE = true ∧ has (s.fs.inode i).mode O_WRITE = true

/-- The rounds of flat_read's loop, if it is called. -/
def readRounds (s : Kernel) (a i count : Nat) : Nat :=
  if s.CanRead a i count then (FlatFs.readAddrs (s.fs.inode i) count (s.file a).offp).length else 0

def writeRounds (s : Kernel) (a i count : Nat) : Nat :=
  if s.CanWrite a i count then (FlatFs.writeAddrs (s.fs.inode i) count (s.file a).offp).length else 0

structure ReadRight (s : Kernel) (a i count : Nat) : Prop where
  all : (s.file a).offp + count ≤ (s.fs.inode i).fileSize ∧ s.MayRead a i → s.doReadRegular a count =
    (⟨some count, (List.range count).map fun k => s.fs.store ((s.fs.inode i).sPos + (s.file a).offp + k), []⟩,
      s.setFile a { s.file a with offp := (s.file a).offp + count })
  none : ¬ ((s.file a).offp + count ≤ (s.fs.inode i).fileSize ∧ s.MayRead a i) →
    ∃ v : Int, v < 0 ∧ s.doReadRegular a count = (.of v, s)
  rounds : s.readRounds a i count ≤ FILE_SIZE

structure WriteRight (s : Kernel) (a i : Nat) (buff : Nat → UInt8) (count : Nat) : Prop where
  all : (s.file a).offp + count ≤ FILE_SIZE ∧ s.MayWrite a i → ∃ fs', s.doWriteRegular a buff count =
      (.of count, { s with fs := fs' }.setFile a { s.file a with offp := (s.file a).offp + count }) ∧
    fs'.inode i = { s.fs.inode i with
      maxPos := (s.fs.inode i).sPos + max (s.fs.inode i).fileSize ((s.file a).offp + count)
      fileSize := max (s.fs.inode i).fileSize ((s.file a).offp + count) } ∧
    (∀ j, j ≠ i → fs'.inode j = s.fs.inode j) ∧
    ∀ x, fs'.store x = if (s.fs.inode i).sPos + (s.file a).offp ≤ x ∧ x < (s.fs.inode i).sPos + (s.file a).offp + count then
      buff (x - ((s.fs.inode i).sPos + (s.file a).offp)) else s.fs.store x
  none : ¬ ((s.file a).offp + count ≤ FILE_SIZE ∧ s.MayWrite a i) →
    ∃ v : Int, v < 0 ∧ s.doWriteRegular a buff count = (.of v, s)
  rounds : s.writeRounds a i count ≤ FILE_SIZE

section
variable {s : Kernel} {a i count : Nat} (ho : s.Opens a i) (hc : count < 2 ^ 32)
include ho hc

/-- A sum that does not wrap is the sum. -/
theorem sum_exact (hs : (s.file a).offp + count < 2 ^ 32) : u32 ((s.file a).offp + count) = (s.file a).offp + count := by
  have hoff := ho.offp
  unfold FILE_SIZE at hoff
  unfold u32
  omega

/-- A count whose sum wraps is negative as an int, and huge as an unsigned 64-bit number. -/
theorem wrapped_count (hs : 2 ^ 32 ≤ (s.file a).offp + count) : int32 count < 0 ∧ -4096 ≤ int32 count ∧ FILE_SIZE < u64 (int32 count) ∧
    (u32 ((s.file a).offp + count) : Int) = (s.file a).offp + count - 2 ^ 32 := by
  have hoff := ho.offp
  unfold FILE_SIZE at hoff ⊢
  have hval : int32 count = (count : Int) - 2 ^ 32 := by
    unfold int32
    omega
  rw [hval]
  unfold u64 u32
  omega

theorem readRegular_right_iff : s.ReadRight a i count ↔ (s.file a).offp + count < 2 ^ 32 ∨
    (s.fs.inode i).fileSize + 2 ^ 32 < (s.file a).offp + count ∨ ¬ s.MayRead a i := by
  have hcases := doReadRegular_cases ho.inode count
  have hshort := ho.short
  have hend := ho.bounds
  -- a call that may not transfer and is refused is right
  have hrefused : ¬ s.CanRead a i count → ¬ ((s.file a).offp + count ≤ (s.fs.inode i).fileSize ∧ s.MayRead a i) →
      s.ReadRight a i count := by
    intro hcan hnot
    rcases hcases with ⟨-, v, hv, hr⟩ | ⟨h, -⟩
    · refine ⟨fun h => absurd h hnot, fun _ => ⟨v, hv, hr⟩, ?_⟩
      unfold readRounds
      rw [if_neg hcan]
      exact Nat.zero_le _
    · exact absurd h hcan
  by_cases hmay : s.MayRead a i
  swap
  · exact iff_of_true (hrefused (fun h => hmay ⟨h.asked, h.given⟩) fun h => hmay h.2) (.inr (.inr hmay))
  by_cases hs : (s.file a).offp + count < 2 ^ 32
  · refine iff_of_true ?_ (.inl hs)
    have hsum := sum_exact ho hc hs
    by_cases hle : (s.file a).offp + count ≤ (s.fs.inode i).fileSize
    · have hcan : s.CanRead a i count := ⟨by rw [hsum]; exact hle, hmay.1, hmay.2, hshort⟩
      have hlen := FlatFs.readAddrs_length hshort hle
      unfold FILE_SIZE at hshort
      refine ⟨fun _ => ?_, fun h => absurd ⟨hle, hmay⟩ h, ?_⟩
      · rcases hcases with ⟨h, -⟩ | ⟨-, hr⟩
        · exact absurd hcan h
        · rw [hr, FlatFs.flatRead_exact s.fs ho.short hle (by omega), List.length_map, List.length_range,
            int32_eq (by omega) (by omega), hsum]
      · unfold readRounds FILE_SIZE
        rw [if_pos hcan, hlen]
        omega
    · exact hrefused (fun h => hle (by rw [← hsum]; exact h.there)) fun h => hle h.1
  · obtain ⟨hneg, -, hhuge, hsum⟩ := wrapped_count ho hc (Nat.le_of_not_lt hs)
    rw [or_iff_right hs, or_iff_left (not_not.mpr hmay)]
    unfold FILE_SIZE at hshort
    constructor
    · intro h
      by_contra hgt
      have hcan : s.CanRead a i count := ⟨by omega, hmay.1, hmay.2, ho.short⟩
      obtain ⟨v, hv, hr⟩ := h.none fun h => by omega
      have hrounds := h.rounds
      unfold readRounds at hrounds
      rw [if_pos hcan] at hrounds
      rcases hcases with ⟨h, -⟩ | ⟨-, hr'⟩
      · exact h hcan
      by_cases hz : ((s.fs.inode i).fileSize : Int) - int32 (s.file a).offp ≤ 0
      · -- nothing is left to read, and the call succeeds with nothing
        rw [FlatFs.flatRead_end s.fs hz] at hr'
        have hval := Option.some.inj (congrArg (fun r => r.1.value) (hr'.symm.trans hr))
        simp at hval
        unfold int32 at hval
        omega
      · rw [FlatFs.readAddrs_negative hz hneg] at hrounds
        omega
    · intro hgt
      exact hrefused (fun h => by have := h.there; omega) fun h => by omega

theorem writeRegular_right_iff (buff : Nat → UInt8) :
    s.WriteRight a i buff count ↔ (s.file a).offp + count < 2 ^ 32 ∨ ¬ s.MayWrite a i := by
  have hcases := doWriteRegular_cases ho.inode buff count
  have hoff := ho.offp
  have hshort := ho.short
  obtain ⟨hend, h32⟩ := ho.bounds
  have hrefused : ¬ s.CanWrite a i count → ¬ ((s.file a).offp + count ≤ FILE_SIZE ∧ s.MayWrite a i) →
      s.WriteRight a i buff count := by
    intro hcan hnot
    rcases hcases with ⟨-, v, hv, hr⟩ | ⟨h, -⟩
    · refine ⟨fun h => absurd h hnot, fun _ => ⟨v, hv, hr⟩, ?_⟩
      unfold writeRounds
      rw [if_neg hcan]
      exact Nat.zero_le _
    · exact absurd h hcan
  by_cases hmay : s.MayWrite a i
  swap
  · exact iff_of_true (hrefused (fun h => hmay ⟨h.asked, h.given⟩) fun h => hmay h.2) (.inr hmay)
  rw [or_iff_left (not_not.mpr hmay)]
  by_cases hs : (s.file a).offp + count < 2 ^ 32
  · refine iff_of_true ?_ hs
    have hsum := sum_exact ho hc hs
    by_cases hfit : (s.file a).offp + count ≤ FILE_SIZE
    · have hcan : s.CanWrite a i count := ⟨by rw [hsum]; exact hfit, hmay.1, hmay.2, hshort⟩
      refine ⟨fun _ => ?_, fun h => absurd ⟨hfit, hmay⟩ h, ?_⟩
      · rcases hcases with ⟨h, -⟩ | ⟨-, hr⟩
        · exact absurd hcan h
        · obtain ⟨fs', hwrite, hself, hother, hstore⟩ := flatWrite_eq hend h32 ho.maxPos hshort buff hfit
          refine ⟨fs', ?_, hself, hother, hstore⟩
          rw [hr, hwrite]
          dsimp only
          rw [if_neg (by omega), hsum]
      · unfold writeRounds FlatFs.writeAddrs
        unfold FILE_SIZE at hfit hend
        have hcount : int32 count = count := int32_eq (by omega) (by omega)
        have hoffp : int32 (s.file a).offp = (s.file a).offp := int32_eq (by omega) (by omega)
        simp only [hcount, hoffp]
        rw [if_pos hcan, if_neg (by omega), u64_eq (by omega), List.length_map, List.length_range]
        unfold FILE_SIZE
        omega
    · exact hrefused (fun h => hfit (by rw [← hsum]; exact h.fits)) fun h => hfit h.1
  · obtain ⟨hneg, -, hhuge, hsum⟩ := wrapped_count ho hc (Nat.le_of_not_lt hs)
    refine iff_of_false (fun h => ?_) hs
    unfold FILE_SIZE at hoff hend
    have hcan : s.CanWrite a i count := ⟨by unfold FILE_SIZE; omega, hmay.1, hmay.2, hshort⟩
    have hoffp : int32 (s.file a).offp = (s.file a).offp := int32_eq (by omega) (by omega)
    have hrounds := h.rounds
    unfold writeRounds FlatFs.writeAddrs at hrounds
    dsimp only at hrounds
    rw [if_pos hcan, if_neg (by omega), List.length_map, List.length_range] at hrounds
    omega

end

/-! ## All four -/

/-- When each of the four calls is right, whatever the count: the read of a pipe always, the others
    if and only if the sum does not wrap or something else refuses the call. -/
theorem transfers_exact {count : Nat} (hc : count < 2 ^ 32) :
    (∀ (s : Kernel) (a i : Nat), s.Opens a i →
      (s.ReadRight a i count ↔ (s.file a).offp + count < 2 ^ 32 ∨
        (s.fs.inode i).fileSize + 2 ^ 32 < (s.file a).offp + count ∨ ¬ s.MayRead a i) ∧
      ∀ buff, s.WriteRight a i buff count ↔ (s.file a).offp + count < 2 ^ 32 ∨ ¬ s.MayWrite a i) ∧
    ∀ (mode : UInt32) (p : PipeInfo), p.WellFormed →
      PipeReadRight mode p count ∧
      ∀ buff, PipeWriteRight mode p buff count ↔ p.writePos + count < 2 ^ 32 ∨ ¬ (p.isWopen = 1 ∧ mode = O_WRITE) :=
  ⟨fun _ _ _ ho => ⟨readRegular_right_iff ho hc, writeRegular_right_iff ho hc⟩,
    fun mode _ hw => ⟨pipeRead_right hw hc mode, pipeWrite_right_iff hw hc mode⟩⟩

/-- A file is opened, two bytes are written, and the offset is set between them. -/
def twoBytes : Kernel :=
  ((((first.doRegularFileOpen 1 [97] 11 3 4 blankFile).2.doWriteRegular 4 (fun _ => 7) 2).2).doLseekRegular 4 1 SEEK_SET).2

theorem twoBytes_opens : twoBytes.Opens 4 0 :=
  ⟨by decide +kernel, by decide +kernel, by decide +kernel, by decide +kernel, by decide +kernel⟩

theorem twoBytes_may : twoBytes.MayRead 4 0 ∧ twoBytes.MayWrite 4 0 :=
  ⟨⟨by decide +kernel, by decide +kernel⟩, by decide +kernel, by decide +kernel⟩

theorem twoBytes_offsets : (twoBytes.file 4).offp = 1 ∧ (twoBytes.fs.inode 0).fileSize = 2 ∧
    (twoBytes.fs.inode 0).sPos = 0x2200C000 ∧ (twoBytes.fs.inode 0).ePos = 0x2200D000 := by
  refine ⟨?_, ?_, ?_, ?_⟩ <;> decide +kernel

/-- A pipe with one byte in it. -/
def oneByte : PipeInfo := ⟨0, 1, 1, 1, 1, 9, fun _ => 0⟩

theorem oneByte_wellFormed : oneByte.WellFormed := ⟨rfl, rfl, by decide, by decide⟩

theorem transfers_exact_small : twoBytes.Opens 4 0 ∧ twoBytes.ReadRight 4 0 1 ∧ (∀ buff, twoBytes.WriteRight 4 0 buff 4095) ∧
    oneByte.WellFormed ∧ PipeReadRight O_READ oneByte 1 ∧ ∀ buff, PipeWriteRight O_WRITE oneByte buff 4095 := by
  obtain ⟨hoff, -⟩ := twoBytes_offsets
  obtain ⟨hfile, hpipe⟩ := transfers_exact (show 1 < 2 ^ 32 by decide)
  obtain ⟨hfile', hpipe'⟩ := transfers_exact (show 4095 < 2 ^ 32 by decide)
  obtain ⟨hread, -⟩ := hfile twoBytes 4 0 twoBytes_opens
  obtain ⟨-, hwrite⟩ := hfile' twoBytes 4 0 twoBytes_opens
  obtain ⟨hpread, -⟩ := hpipe O_READ oneByte oneByte_wellFormed
  obtain ⟨-, hpwrite⟩ := hpipe' O_WRITE oneByte oneByte_wellFormed
  refine ⟨twoBytes_opens, hread.mpr (.inl ?_), fun buff => (hwrite buff).mpr (.inl ?_), oneByte_wellFormed, hpread,
    fun buff => (hpwrite buff).mpr (.inl (by decide))⟩
  · rw [hoff]
    decide
  · rw [hoff]
    decide

/-- With the count 0xFFFFFFFF the read, the write and the write into the pipe all get past their
    checks; the pipe takes the 4095 bytes that fit. -/
theorem wrapped_counts : twoBytes.Opens 4 0 ∧ oneByte.WellFormed ∧ ¬ twoBytes.ReadRight 4 0 4294967295 ∧
    twoBytes.readRounds 4 0 4294967295 = 2 ^ 64 - 1 ∧ (∀ buff, ¬ twoBytes.WriteRight 4 0 buff 4294967295) ∧
    twoBytes.writeRounds 4 0 4294967295 = 2 ^ 64 - 1 ∧ (∀ buff, ¬ PipeWriteRight O_WRITE oneByte buff 4294967295) ∧
    (pipeWrite O_WRITE oneByte (fun _ => 7) 4294967295).1 = 4095 := by
  obtain ⟨hmayRead, hmayWrite⟩ := twoBytes_may
  obtain ⟨hoff, hsize, hstart, hend⟩ := twoBytes_offsets
  have hval : int32 ((4294967295 : Nat) : Int) = -1 := by decide +kernel
  refine ⟨twoBytes_opens, oneByte_wellFormed, fun h => ?_, ?_, fun buff h => ?_, ?_, fun buff h => ?_, by decide +kernel⟩
  · rcases (readRegular_right_iff twoBytes_opens (by decide)).mp h with hlt | hgt | hno
    · rw [hoff] at hlt
      omega
    · rw [hoff, hsize] at hgt
      omega
    · exact hno hmayRead
  · have hcan : twoBytes.CanRead 4 0 4294967295 := ⟨by rw [hoff, hsize]; decide, hmayRead.1, hmayRead.2, by rw [hsize]; decide⟩
    have hleft : ¬ ((twoBytes.fs.inode 0).fileSize : Int) - int32 (twoBytes.file 4).offp ≤ 0 := by
      rw [hoff, hsize]
      decide +kernel
    unfold readRounds
    rw [if_pos hcan, FlatFs.readAddrs_negative hleft (by rw [hval]; decide), hval]
    decide +kernel
  · rcases (writeRegular_right_iff twoBytes_opens (by decide) buff).mp h with hlt | hno
    · rw [hoff] at hlt
      omega
    · exact hno hmayWrite
  · have hcan : twoBytes.CanWrite 4 0 4294967295 := ⟨by rw [hoff]; decide, hmayWrite.1, hmayWrite.2, by rw [hsize]; decide⟩
    have hoffp : int32 (twoBytes.file 4).offp = 1 := by
      rw [hoff]
      decide +kernel
    unfold writeRounds FlatFs.writeAddrs
    simp only [hoffp, hstart, hend]
    rw [if_pos hcan, if_neg (by decide), List.length_map, List.length_range]
    decide +kernel
  · have hcond := (pipeWrite_right_iff oneByte_wellFormed (by decide) O_WRITE buff).mp h
    exact absurd hcond (by decide)

end Kernel

end Cs330.Files
