/-
  Cs330.Files.Pipe — pipe_read and pipe_write (pipe.c).

  A read takes bytes from the front of pipe_buff and moves the rest there, so read_pos
  stays 0 and write_pos is always buffer_offset; a call asks for all of its bytes or is
  refused. Proved: over any calls, what the reads have delivered followed by what is in
  the pipe is what the writes have put in (`pipe_fifo`). One call is `pipeRead_spec` and
  `pipeWrite_spec`, from what the loops leave (`takeLoop_eq`, `shiftLoop_eq`,
  `putLoop_eq`).
-/
import Cs330.Files.Object
import Cs330.Lib.Machine

namespace Cs330.Files

open Lib Lib.CInt Function

/-- `while(i<read_start+(filep->pipe->buffer_offset)){ if(i-read_start == count) break;
    buff[j] = filep->pipe->pipe_buff[i]; i++;j++; }` -/
def takeLoop (p : PipeInfo) (readStart : Int) (count : Nat) : Nat → Int → List UInt8 → Int × List UInt8
  | 0, i, buff => (i, buff)
  | fuel + 1, i, buff =>
    if i < readStart + p.bufferOffset then
      if u32 (i - readStart) = count then (i, buff)
      else takeLoop p readStart count fuel (i + 1) (buff ++ [p.pipeBuff i.toNat])
    else (i, buff)

/-- `while(i<read_start+(filep->pipe->buffer_offset)){
    filep->pipe->pipe_buff[i-j] = filep->pipe->pipe_buff[i]; i++; }` -/
def shiftLoop (bound j : Int) : Nat → Int → (Nat → UInt8) → Nat → UInt8
  | 0, _, pipeBuff => pipeBuff
  | fuel + 1, i, pipeBuff =>
    if i < bound then shiftLoop bound j fuel (i + 1) (update pipeBuff (i - j).toNat (pipeBuff i.toNat)) else pipeBuff

/-- The value, the bytes for the caller, and the pipe; each loop has the fuel for all the
    bytes in the pipe. -/
def pipeRead (mode : UInt32) (p : PipeInfo) (count : Nat) : (Int × List UInt8) × PipeInfo :=
  if p.isRopen ≠ 1 ∨ mode ≠ O_READ then ((-EACCES, []), p)
  else if u32 p.bufferOffset < u32 (p.readPos + count) then ((-EOTHERS, []), p)
  else
    let taken := takeLoop p p.readPos count p.bufferOffset.toNat p.readPos []
    let j : Int := taken.2.length
    let pipeBuff := shiftLoop (p.readPos + p.bufferOffset) j (p.bufferOffset - j).toNat taken.1 p.pipeBuff
    ((j, taken.2), { p with pipeBuff := pipeBuff, bufferOffset := p.bufferOffset - j, writePos := p.writePos - j })

/-- `while(i<PIPE_MAX_SIZE){ if(j == count) break; filep->pipe->pipe_buff[i] = buff[j]; i++;j++; }` -/
def putLoop (buff : Nat → UInt8) (count : Nat) : Nat → Int → Nat → (Nat → UInt8) → Int × Nat × (Nat → UInt8)
  | 0, i, j, pipeBuff => (i, j, pipeBuff)
  | fuel + 1, i, j, pipeBuff =>
    if i < PIPE_MAX_SIZE then
      if j = count then (i, j, pipeBuff)
      else putLoop buff count fuel (i + 1) (j + 1) (update pipeBuff i.toNat (buff j))
    else (i, j, pipeBuff)

def pipeWrite (mode : UInt32) (p : PipeInfo) (buff : Nat → UInt8) (count : Nat) : Int × PipeInfo :=
  if p.isWopen ≠ 1 ∨ mode ≠ O_WRITE then (-EACCES, p)
  else if PIPE_MAX_SIZE < u32 (p.writePos + count) then (-EOTHERS, p)
  else
    let put := putLoop buff count (PIPE_MAX_SIZE - p.writePos).toNat p.writePos 0 p.pipeBuff
    (put.2.1, { p with pipeBuff := put.2.2, bufferOffset := p.bufferOffset + put.2.1, writePos := put.1 })

/-- What create_pipe stores. -/
def newPipe (buffPage : Nat) (pipeBuff : Nat → UInt8) : PipeInfo := ⟨0, 0, 0, 1, 1, buffPage, pipeBuff⟩

namespace PipeInfo

/-- `pipe_buff[0 .. buffer_offset)` -/
def bytes (p : PipeInfo) : List UInt8 := (List.range p.bufferOffset.toNat).map p.pipeBuff

structure WellFormed (p : PipeInfo) : Prop where
  read : p.readPos = 0
  write : p.writePos = p.bufferOffset
  low : 0 ≤ p.bufferOffset
  high : p.bufferOffset ≤ PIPE_MAX_SIZE

end PipeInfo

/-! ## The loops -/

theorem takeLoop_eq {p : PipeInfo} {n count : Nat} (hn : p.bufferOffset = n) (hc : count ≤ n) (h32 : n < 2 ^ 32) :
    ∀ (fuel i : Nat) (buff : List UInt8), fuel = n - i → i ≤ count →
      takeLoop p 0 count fuel i buff = ((count : Int), buff ++ (List.range' i (count - i)).map p.pipeBuff) := by
  intro fuel
  induction fuel with
  | zero =>
    intro i buff hf hi
    obtain rfl : i = count := by omega
    simp [takeLoop]
  | succ fuel ih =>
    intro i buff hf hi
    have hlt : (i : Int) < 0 + p.bufferOffset := by omega
    have hu : u32 ((i : Int) - 0) = i := by rw [Int.sub_zero]; exact u32_eq (by omega)
    rw [takeLoop, if_pos hlt, hu]
    by_cases he : i = count
    · rw [if_pos he, he]
      simp
    · rw [if_neg he]
      have h := ih (i + 1) (buff ++ [p.pipeBuff i]) (by omega) (by omega)
      have hr : List.range' i (count - i) = i :: List.range' (i + 1) (count - (i + 1)) := by
        rw [show count - i = count - (i + 1) + 1 by omega, List.range'_succ]
      rw [Int.toNat_natCast, hr, List.map_cons]
      refine h.trans ?_
      rw [List.append_assoc]
      rfl

theorem shiftLoop_eq {n j : Nat} : ∀ (fuel i : Nat) (f : Nat → UInt8), fuel = n - i → j ≤ i →
    ∀ k, shiftLoop n j fuel i f k = if i ≤ k + j ∧ k + j < n then f (k + j) else f k := by
  intro fuel
  induction fuel with
  | zero =>
    intro i f hf _ k
    rw [if_neg (by omega)]
    rfl
  | succ fuel ih =>
    intro i f hf hj k
    have hlt : (i : Int) < (n : Int) := by omega
    rw [shiftLoop, if_pos hlt]
    have h := ih (i + 1) (update f (i - j) (f i)) (by omega) (by omega) k
    have hsub : ((i : Int) - j).toNat = i - j := by omega
    rw [hsub, Int.toNat_natCast]
    refine h.trans ?_
    -- the slot written now is behind every slot still to be read
    by_cases hk : k = i - j
    · have hkj : k + j = i := by omega
      rw [if_neg (by omega), if_pos (by omega), hkj, hk, update_self]
    · rw [update_of_ne hk]
      by_cases hin : i + 1 ≤ k + j ∧ k + j < n
      · rw [if_pos hin, if_pos (by omega), update_of_ne (by omega)]
      · rw [if_neg hin, if_neg (by omega)]

theorem putLoop_eq {buff : Nat → UInt8} {count start : Nat} (hs : start + count ≤ PIPE_MAX_SIZE) :
    ∀ (fuel j : Nat) (f : Nat → UInt8), fuel = PIPE_MAX_SIZE - (start + j) → j ≤ count →
      ∃ g, putLoop buff count fuel ((start + j : Nat) : Int) j f = (((start + count : Nat) : Int), count, g) ∧
        ∀ k, g k = if start + j ≤ k ∧ k < start + count then buff (k - start) else f k := by
  intro fuel
  induction fuel with
  | zero =>
    intro j f hf hj
    obtain rfl : j = count := by omega
    exact ⟨f, rfl, fun k => by rw [if_neg (by omega)]⟩
  | succ fuel ih =>
    intro j f hf hj
    rw [putLoop, if_pos (by omega)]
    by_cases he : j = count
    · rw [if_pos he, he]
      exact ⟨f, rfl, fun k => by rw [if_neg (by omega)]⟩
    · rw [if_neg he]
      obtain ⟨g, hg, hk⟩ := ih (j + 1) (update f (start + j) (buff j)) (by omega) (by omega)
      refine ⟨g, ?_, fun k => (hk k).trans ?_⟩
      · rw [Int.toNat_natCast]
        exact hg
      · by_cases e : k = start + j
        · rw [if_neg (by omega), if_pos (by omega), e, update_self, Nat.add_sub_cancel_left]
        · rw [update_of_ne e]
          by_cases hin : start + (j + 1) ≤ k ∧ k < start + count
          · rw [if_pos hin, if_pos (by omega)]
          · rw [if_neg hin, if_neg (by omega)]

/-! ## One call -/

section
variable {p : PipeInfo} (hw : p.WellFormed) {count : Nat} (hc : count < 2 ^ 32)
include hw hc

/-- A read is refused, or takes `count` bytes from the front. -/
theorem pipeRead_spec (mode : UInt32) : (∃ e, e < 0 ∧ pipeRead mode p count = ((e, []), p)) ∨
    ∃ p', pipeRead mode p count = (((count : Int), p.bytes.take count), p') ∧ count ≤ p.bytes.length ∧ p'.WellFormed ∧
      p'.bytes = p.bytes.drop count := by
  obtain ⟨hread, hwrite, hlow, hhigh⟩ := hw
  obtain ⟨n, hn⟩ := Int.eq_ofNat_of_zero_le hlow
  have hn4 : n ≤ 4096 := by unfold PIPE_MAX_SIZE at hhigh; omega
  have hlen : p.bytes.length = n := by simp [PipeInfo.bytes, hn]
  unfold pipeRead
  by_cases hopen : p.isRopen ≠ 1 ∨ mode ≠ O_READ
  · rw [if_pos hopen]
    exact Or.inl ⟨-EACCES, by decide, rfl⟩
  have hu : u32 (p.readPos + count) = count := by rw [hread, Int.zero_add]; exact u32_eq hc
  have hun : u32 p.bufferOffset = n := by rw [hn]; exact u32_eq (by omega)
  rw [if_neg hopen, hu, hun]
  by_cases hgt : n < count
  · rw [if_pos hgt]
    exact Or.inl ⟨-EOTHERS, by decide, rfl⟩
  rw [if_neg hgt]
  have htake : takeLoop p 0 count n (0 : Nat) [] = ((count : Int), p.bytes.take count) := by
    rw [takeLoop_eq hn (by omega) (by omega) n 0 [] (by omega) (by omega)]
    simp only [List.nil_append, Nat.sub_zero, PipeInfo.bytes, hn, Int.toNat_natCast]
    rw [← List.map_take, List.take_range, Nat.min_eq_left (by omega), List.range_eq_range']
  have hj : (p.bytes.take count).length = count := by rw [List.length_take, hlen]; omega
  have hnat : p.bufferOffset.toNat = n := by rw [hn]; rfl
  have htake' : takeLoop p p.readPos count p.bufferOffset.toNat p.readPos [] = ((count : Int), p.bytes.take count) := by
    rw [hread, hnat]
    exact htake
  rw [htake']
  simp only [hj]
  refine Or.inr ⟨_, rfl, by omega, ⟨hread, by simp only; omega, by simp only; omega, by simp only; omega⟩, ?_⟩
  -- byte `k` of the rest was byte `k + count`
  have hshift : ∀ k, shiftLoop (p.readPos + p.bufferOffset) count (p.bufferOffset - count).toNat count p.pipeBuff k =
      if count ≤ k + count ∧ k + count < n then p.pipeBuff (k + count) else p.pipeBuff k := by
    rw [hread, hn, Int.zero_add]
    exact shiftLoop_eq ((n : Int) - count).toNat count p.pipeBuff (by omega) (by omega)
  have hnew : (p.bufferOffset - (count : Int)).toNat = n - count := by omega
  rw [hnew] at hshift
  unfold PipeInfo.bytes
  simp only [hnew, hnat]
  refine List.ext_getElem (by simp) fun k h1 h2 => ?_
  simp only [List.length_map, List.length_range] at h1
  simp only [List.getElem_map, List.getElem_range, List.getElem_drop]
  rw [hshift, if_pos (by omega), Nat.add_comm]

omit hc in
/-- A write is refused, or puts `count` bytes behind those that are there. -/
theorem pipeWrite_spec (hs : p.writePos + count < 2 ^ 32) (mode : UInt32)
    (buff : Nat → UInt8) :
    (∃ e, e < 0 ∧ pipeWrite mode p buff count = (e, p)) ∨
      ∃ p', pipeWrite mode p buff count = ((count : Int), p') ∧ p'.WellFormed ∧
        p'.bytes = p.bytes ++ (List.range count).map buff := by
  obtain ⟨hread, hwrite, hlow, hhigh⟩ := hw
  obtain ⟨n, hn⟩ := Int.eq_ofNat_of_zero_le hlow
  unfold pipeWrite
  by_cases hopen : p.isWopen ≠ 1 ∨ mode ≠ O_WRITE
  · rw [if_pos hopen]
    exact Or.inl ⟨-EACCES, by decide, rfl⟩
  have hwn : p.writePos = ((n + 0 : Nat) : Int) := by rw [hwrite, hn]; rfl
  have hu : u32 (p.writePos + count) = n + count := by
    rw [hwn, Nat.add_zero, ← Int.natCast_add]
    exact u32_eq (by omega)
  rw [if_neg hopen, hu]
  by_cases hgt : PIPE_MAX_SIZE < n + count
  · rw [if_pos hgt]
    exact Or.inl ⟨-EOTHERS, by decide, rfl⟩
  rw [if_neg hgt]
  obtain ⟨g, hg, hk⟩ := @putLoop_eq buff count n (Nat.le_of_not_lt hgt) (PIPE_MAX_SIZE - p.writePos).toNat 0
    p.pipeBuff (by omega) (Nat.zero_le _)
  rw [← hwn] at hg
  simp only [hg]
  refine Or.inr ⟨_, rfl, ⟨hread, by simp only; omega, by simp only; omega, by simp only; omega⟩, ?_⟩
  have hnat : p.bufferOffset.toNat = n := by rw [hn]; rfl
  have hnew : (p.bufferOffset + (count : Int)).toNat = n + count := by omega
  unfold PipeInfo.bytes
  simp only [hnew, hnat, List.range_add, List.map_append, List.map_map]
  congr 1
  · refine List.map_congr_left fun k hm => ?_
    have := List.mem_range.mp hm
    rw [hk, if_neg (by omega)]
  · refine List.map_congr_left fun k hm => ?_
    have := List.mem_range.mp hm
    rw [Function.comp_apply, hk, if_pos (by omega), Nat.add_sub_cancel_left]

end

/-! ## Any calls on one pipe -/

inductive PipeCall where
  | read (mode : UInt32) (count : Nat)
  | write (mode : UInt32) (buff : Nat → UInt8) (count : Nat)

def PipeCall.count : PipeCall → Nat
  | .read _ count | .write _ _ count => count

/-- A pipe, the bytes its writes have accepted and those its reads have delivered. -/
structure PipeLog where
  pipe : PipeInfo
  accepted : List UInt8
  delivered : List UInt8

namespace PipeLog

def step (l : PipeLog) : PipeCall → Option PipeLog
  | .read mode count =>
    let r := pipeRead mode l.pipe count
    some ⟨r.2, l.accepted, if r.1.1 < 0 then l.delivered else l.delivered ++ r.1.2⟩
  | .write mode buff count =>
    let r := pipeWrite mode l.pipe buff count
    some ⟨r.2, if r.1 < 0 then l.accepted else l.accepted ++ (List.range count).map buff, l.delivered⟩

def machine : Machine PipeLog PipeCall := ⟨fun l => ∃ page buff, l = ⟨newPipe page buff, [], []⟩, step⟩

/-- An unsigned count, and no wrap of `write_pos + count`. -/
def Small (l : PipeLog) (c : PipeCall) : Prop := c.count < 2 ^ 32 ∧ l.pipe.writePos + c.count < 2 ^ 32

/-- The call transfers all it was asked to, or changes nothing. -/
def Exact (l : PipeLog) : PipeCall → Prop
  | .read mode count =>
    let r := pipeRead mode l.pipe count
    r.1.1 = count ∧ r.1.2.length = count ∨ r.1.1 < 0 ∧ r.1.2 = [] ∧ r.2 = l.pipe
  | .write mode buff count =>
    let r := pipeWrite mode l.pipe buff count
    r.1 = count ∨ r.1 < 0 ∧ r.2 = l.pipe

structure Inv (l : PipeLog) : Prop where
  wellFormed : l.pipe.WellFormed
  fifo : l.delivered ++ l.pipe.bytes = l.accepted

theorem start_inv {l : PipeLog} (h : machine.init l) : l.Inv := by
  obtain ⟨page, buff, rfl⟩ := h
  exact ⟨⟨rfl, rfl, Int.le_refl _, Int.natCast_nonneg _⟩, rfl⟩

theorem step_inv {l l' : PipeLog} {c : PipeCall} (hi : l.Inv) (hs : l.Small c) (h : l.step c = some l') : l'.Inv := by
  obtain ⟨hw, hf⟩ := hi
  cases c with
  | read mode count =>
    cases h
    rcases pipeRead_spec hw (show count < 2 ^ 32 from hs.1) mode with ⟨e, he, hr⟩ | ⟨p', hr, -, hw', hb⟩
    · simp only [hr, if_pos he]
      exact ⟨hw, hf⟩
    · simp only [hr, if_neg (Int.not_lt.mpr (Int.natCast_nonneg count))]
      refine ⟨hw', ?_⟩
      show _ ++ _ ++ p'.bytes = _
      rw [hb, List.append_assoc, List.take_append_drop]
      exact hf
  | write mode buff count =>
    cases h
    rcases pipeWrite_spec hw (show l.pipe.writePos + count < 2 ^ 32 from hs.2) mode buff with ⟨e, he, hr⟩ | ⟨p', hr, hw', hb⟩
    · simp only [hr, if_pos he]
      exact ⟨hw, hf⟩
    · simp only [hr, if_neg (Int.not_lt.mpr (Int.natCast_nonneg count))]
      refine ⟨hw', ?_⟩
      show l.delivered ++ p'.bytes = _
      rw [hb, ← List.append_assoc]
      exact congrArg (· ++ _) hf

theorem Inv.exact {l : PipeLog} (hi : l.Inv) {c : PipeCall} (hs : l.Small c) : l.Exact c := by
  cases c with
  | read mode count =>
    unfold Exact
    rcases pipeRead_spec hi.wellFormed (show count < 2 ^ 32 from hs.1) mode with ⟨e, he, hr⟩ | ⟨p', hr, hle, -⟩
    · simp only [hr]
      exact Or.inr ⟨he, trivial, trivial⟩
    · simp only [hr, List.length_take]
      exact Or.inl ⟨trivial, Nat.min_eq_left hle⟩
  | write mode buff count =>
    unfold Exact
    rcases pipeWrite_spec hi.wellFormed (show l.pipe.writePos + count < 2 ^ 32 from hs.2) mode buff with ⟨e, he, hr⟩ | ⟨p', hr, -⟩
    · simp only [hr]
      exact Or.inr ⟨he, trivial⟩
    · simp only [hr]
      exact Or.inl trivial

/-- Whatever reads and writes are made of a pipe, it is a bounded queue of bytes. -/
theorem pipe_fifo {l : PipeLog} (h : machine.Reach Small l) :
    l.delivered ++ l.pipe.bytes = l.accepted ∧ l.pipe.readPos = 0 ∧ l.pipe.writePos = l.pipe.bufferOffset ∧
      0 ≤ l.pipe.bufferOffset ∧ l.pipe.bufferOffset ≤ PIPE_MAX_SIZE ∧ ∀ c, l.Small c → l.Exact c := by
  have hi : l.Inv := h.inv Inv (fun _ => start_inv) fun _ _ _ hi hs he => step_inv hi hs he
  exact ⟨hi.fifo, hi.wellFormed.read, hi.wellFormed.write, hi.wellFormed.low, hi.wellFormed.high, fun _ => hi.exact⟩

/-- Three bytes in, two out. -/
theorem pipe_fifo_three_bytes : ∃ l, machine.Reach Small l ∧ l.delivered = [7, 8] ∧ l.accepted = [7, 8, 9] ∧
    l.delivered ++ l.pipe.bytes = l.accepted ∧ l.pipe.readPos = 0 ∧ l.pipe.writePos = l.pipe.bufferOffset ∧
      0 ≤ l.pipe.bufferOffset ∧ l.pipe.bufferOffset ≤ PIPE_MAX_SIZE ∧ ∀ c, l.Small c → l.Exact c := by
  have h0 : machine.Reach Small ⟨newPipe 0 fun _ => 0, [], []⟩ := .init ⟨0, fun _ => 0, rfl⟩
  have h1 := h0.step (e := .write O_WRITE (fun i => UInt8.ofNat (7 + i)) 3) ⟨by decide, by decide⟩ rfl
  have h2 := h1.step (e := .read O_READ 2) ⟨by decide, by decide⟩ rfl
  exact ⟨_, h2, by decide, by decide, pipe_fifo h2⟩

end PipeLog

end Cs330.Files
