/-
  Cs330.Blocks.Hashit — part-1's block hashes (thread_func.c, main.c): threads that take
  blocks of a file and the slots for their hashes from two shared cursors.

  Pointers into the mapping are offsets from its start, `optr` and `chash` indices of
  hashes[]. A thread's critical section is one step, the call of calculate_and_store_hash
  the next, the store of its value a third, and threads take steps in any order. `stored`
  keeps what has been stored in each slot, which the code does not.

  Proved: when all threads are done every slot of a block has been written once, by the
  sum of the block's whole words, and no other slot has (`blocks_hashed`). The cursors
  stay in step, and every slot before `optr` is either written or still with the one
  thread that took it (`Inv`).
-/
import Cs330.Lib.CInt
import Cs330.Lib.Machine
import Cs330.Lib.Total

namespace Cs330.Blocks

open Lib Lib.CInt Function

def BLOCK_SIZE : Nat := 64
def WORD : Nat := 8

/-- The file, as it is mapped. -/
structure InFile where
  size : Nat
  byte : Nat → UInt8
  fits : size < 2 ^ 63

namespace InFile

/-- `*((unsigned long *)ptr)` -/
def word (f : InFile) (ptr : Nat) : UInt64 :=
  (List.range WORD).foldr (fun k acc => acc * 256 + (f.byte (ptr + k)).toUInt64) 0

def hashLoop (f : InFile) (endptr : Nat) : Nat → Nat → UInt64 → UInt64
  | 0, _, hashval => hashval
  | count + 1, ptr, hashval =>
    if u64 ((endptr : Int) - ptr) < WORD then hashval else hashLoop f endptr count (ptr + WORD) (hashval + f.word ptr)

def calculateAndStoreHash (f : InFile) (ptr endptr : Nat) : UInt64 := f.hashLoop endptr (BLOCK_SIZE / WORD) ptr 0

/-- How many blocks the file has. -/
def blocks (f : InFile) : Nat := f.size / BLOCK_SIZE + if f.size % BLOCK_SIZE = 0 then 0 else 1

/-- The sum of the whole words of block `i` that lie inside the file. -/
def blockSum (f : InFile) (i : Nat) : Nat :=
  (∑ j ∈ (Finset.range 8).filter fun j => 64 * i + 8 * j + 8 ≤ f.size, (f.word (64 * i + 8 * j)).toNat) % 2 ^ 64

theorem hashLoop_eq (f : InFile) : ∀ (count ptr : Nat) (hashval : UInt64), ptr ≤ f.size →
    (f.hashLoop f.size count ptr hashval).toNat = (hashval.toNat +
      ∑ j ∈ (Finset.range count).filter fun j => ptr + 8 * j + 8 ≤ f.size, (f.word (ptr + 8 * j)).toNat) % 2 ^ 64 := by
  have hfits := f.fits
  intro count
  induction count with
  | zero =>
    intro ptr hashval _
    rw [Finset.range_zero, Finset.filter_empty, Finset.sum_empty, Nat.add_zero, Nat.mod_eq_of_lt hashval.toNat_lt]
    rfl
  | succ count ih =>
    intro ptr hashval hle
    have hu : u64 ((f.size : Int) - ptr) = f.size - ptr := by
      unfold u64
      omega
    unfold hashLoop
    rw [hu, Finset.sum_filter]
    by_cases hshort : f.size - ptr < WORD
    · -- nor does any later word fit
      unfold WORD at hshort ⊢
      have hnone : ∀ j ∈ Finset.range (count + 1),
          (if ptr + 8 * j + 8 ≤ f.size then (f.word (ptr + 8 * j)).toNat else 0) = 0 := fun j _ => if_neg (by omega)
      rw [if_pos hshort, Finset.sum_eq_zero hnone, Nat.add_zero, Nat.mod_eq_of_lt hashval.toNat_lt]
    · unfold WORD at hshort ⊢
      rw [if_neg hshort, ih (ptr + 8) _ (by omega), Finset.sum_range_succ', Finset.sum_filter, if_pos (by omega),
        UInt64.toNat_add, Nat.mod_add_mod]
      have hshift : ∀ j ∈ Finset.range count,
          (if ptr + 8 + 8 * j + 8 ≤ f.size then (f.word (ptr + 8 + 8 * j)).toNat else 0) =
            if ptr + 8 * (j + 1) + 8 ≤ f.size then (f.word (ptr + 8 * (j + 1))).toNat else 0 := fun j _ => by
        rw [show ptr + 8 + 8 * j = ptr + 8 * (j + 1) by omega]
      rw [Finset.sum_congr rfl hshift, Nat.mul_zero, Nat.add_zero]
      congr 1
      omega

/-- The hash of a block that starts in the file. -/
theorem calculate_eq (f : InFile) {i : Nat} (hi : 64 * i ≤ f.size) :
    (f.calculateAndStoreHash (64 * i) f.size).toNat = f.blockSum i := by
  unfold calculateAndStoreHash blockSum
  rw [hashLoop_eq f _ _ _ hi]
  exact congrArg (· % 2 ^ 64) (Nat.zero_add _)

end InFile

/-! ## The threads -/

/-- Where a thread is. -/
inductive Pc where
  /-- Before the lock. -/
  | lock
  /-- Before calculate_and_store_hash(cptr, endptr). -/
  | hash (cptr chash : Nat)
  /-- Before `*chash = value`. -/
  | store (chash : Nat) (value : UInt64)
  | done
  deriving DecidableEq

structure Threads where
  dataptr : Nat
  optr : Nat
  hashes : Nat → UInt64
  stored : Nat → List UInt64
  thread : Nat → Pc

namespace Threads

def setThread (s : Threads) (t : Nat) (pc : Pc) : Threads := { s with thread := update s.thread t pc }

/-- Thread `t` goes on, if there is one. -/
def step (f : InFile) (n : Nat) (s : Threads) (t : Nat) : Option Threads :=
  if t < n then
    match s.thread t with
    | .lock =>
      if f.size ≤ s.dataptr then some (s.setThread t .done)
      else some ({ s with dataptr := s.dataptr + BLOCK_SIZE, optr := s.optr + 1 }.setThread t (.hash s.dataptr s.optr))
    | .hash cptr chash => some (s.setThread t (.store chash (f.calculateAndStoreHash cptr f.size)))
    | .store chash value => some ({ s with
        hashes := update s.hashes chash value, stored := update s.stored chash (s.stored chash ++ [value]) }.setThread t .lock)
    | .done => none
  else none

/-- As main leaves them to the threads; hashes[] comes from malloc. -/
def Start (s : Threads) : Prop :=
  s.dataptr = 0 ∧ s.optr = 0 ∧ (∀ i, s.stored i = []) ∧ ∀ t, s.thread t = .lock

def machine (f : InFile) (n : Nat) : Machine Threads Nat := ⟨Start, step f n⟩

/-- The slot is this thread's. -/
def holds (pc : Pc) (i : Nat) : Nat :=
  match pc with
  | .hash _ chash | .store chash _ => if chash = i then 1 else 0
  | _ => 0

/-- A thread has the block its slot is for, and then that block's hash. -/
def PcOk (f : InFile) (s : Threads) : Pc → Prop
  | .lock => True
  | .hash cptr chash => cptr = 64 * chash ∧ chash < s.optr
  | .store chash value => value.toNat = f.blockSum chash ∧ chash < s.optr
  | .done => f.size ≤ s.dataptr

structure Inv (f : InFile) (n : Nat) (s : Threads) : Prop where
  cursors : s.dataptr = 64 * s.optr
  low : s.optr ≤ f.blocks
  pcs : ∀ t, PcOk f s (s.thread t)
  once : ∀ i, (s.stored i).length + total n (fun t => holds (s.thread t) i) = if i < s.optr then 1 else 0
  values : ∀ i, ∀ v ∈ s.stored i, v.toNat = f.blockSum i ∧ s.hashes i = v

section
variable {f : InFile} {n : Nat} {s s' : Threads} {t : Nat}

theorem blocks_spec (f : InFile) (i : Nat) : i < f.blocks ↔ 64 * i < f.size := by
  unfold InFile.blocks BLOCK_SIZE
  split <;> omega

theorem total_setThread (ht : t < n) (pc : Pc) (i : Nat) : total n (fun u => holds ((s.setThread t pc).thread u) i) +
    holds (s.thread t) i = total n (fun u => holds (s.thread u) i) + holds pc i :=
  total_update ht (fun pc => holds pc i) s.thread pc

theorem PcOk.mono {pc : Pc} (h : PcOk f s pc) (ho : s.optr ≤ s'.optr) (hd : s.dataptr ≤ s'.dataptr) : PcOk f s' pc := by
  cases pc with
  | lock => trivial
  | hash cptr chash => exact ⟨h.1, Nat.lt_of_lt_of_le h.2 ho⟩
  | store chash value => exact ⟨h.1, Nat.lt_of_lt_of_le h.2 ho⟩
  | done => exact Nat.le_trans h hd

/-- The thread that steps, and the others. -/
theorem pcs_setThread {pc : Pc} (h : ∀ u, PcOk f s' (s.thread u)) (hpc : PcOk f s' pc) (u : Nat) :
    PcOk f s' (update s.thread t pc u) := by
  by_cases e : u = t
  · rw [e, update_self]
    exact hpc
  · rw [update_of_ne e]
    exact h u

theorem start_inv (h : Start s) : Inv f n s := by
  obtain ⟨hd, ho, hst, hth⟩ := h
  refine ⟨by rw [hd, ho], by rw [ho]; exact Nat.zero_le _, fun t => ?_, fun i => ?_, fun i v hv => ?_⟩
  · rw [hth]
    trivial
  · have hzero : total n (fun t => holds (s.thread t) i) = 0 := by
      simp only [hth]
      exact total_zero n
    rw [hst, hzero, ho]
    rfl
  · rw [hst] at hv
    cases hv

/-! ### What each step keeps -/

section
variable (hi : Inv f n s) (ht : t < n)
include hi ht

/-- A step that leaves the variables alone and what the thread holds. -/
theorem Inv.turn {pc : Pc} (hok : PcOk f s pc) (hsame : ∀ i, holds pc i = holds (s.thread t) i) : Inv f n (s.setThread t pc) := by
  refine ⟨hi.cursors, hi.low, pcs_setThread hi.pcs hok, fun i => ?_, hi.values⟩
  have htot := @total_setThread n s t ht pc i
  have hone := hi.once i
  rw [hsame] at htot
  show (s.stored i).length + total n (fun u => holds ((s.setThread t pc).thread u) i) = if i < s.optr then 1 else 0
  omega

/-- The thread takes the next block. -/
theorem Inv.take (hpc : s.thread t = .lock) (hmore : s.dataptr < f.size) :
    Inv f n ({ s with dataptr := s.dataptr + BLOCK_SIZE, optr := s.optr + 1 }.setThread t (.hash s.dataptr s.optr)) := by
  have hlt : s.optr < f.blocks := by
    rw [blocks_spec, ← hi.cursors]
    exact hmore
  refine ⟨?_, hlt, pcs_setThread (fun u => (hi.pcs u).mono (Nat.le_succ _) (Nat.le_add_right _ _))
    ⟨hi.cursors, Nat.lt_succ_self _⟩, fun i => ?_, hi.values⟩
  · show s.dataptr + BLOCK_SIZE = 64 * (s.optr + 1)
    rw [hi.cursors]
    rfl
  · have htot := @total_setThread n s t ht (.hash s.dataptr s.optr) i
    have hold : holds (s.thread t) i = 0 := by
      rw [hpc]
      rfl
    have hnew : holds (.hash s.dataptr s.optr) i = if s.optr = i then 1 else 0 := rfl
    rw [hold, hnew] at htot
    have hone := hi.once i
    show (s.stored i).length + total n (fun u => holds ((s.setThread t (.hash s.dataptr s.optr)).thread u) i) =
      if i < s.optr + 1 then 1 else 0
    split at htot <;> split at hone <;> split <;> omega

/-- A slot that a thread is about to write has not been written. -/
theorem Inv.slot_empty {chash : Nat} (hmine : holds (s.thread t) chash = 1) : s.stored chash = [] := by
  have hone := hi.once chash
  have hle : holds (s.thread t) chash ≤ total n fun u => holds (s.thread u) chash := le_total ht fun u => holds (s.thread u) chash
  rw [hmine] at hle
  apply List.length_eq_zero_iff.mp
  split at hone <;> omega

theorem Inv.write {chash : Nat} {value : UInt64} (hpc : s.thread t = .store chash value) :
    Inv f n ({ s with hashes := update s.hashes chash value,
                      stored := update s.stored chash (s.stored chash ++ [value]) }.setThread t .lock) := by
  have hok := hi.pcs t
  rw [hpc] at hok
  obtain ⟨hv, -⟩ := hok
  have hmine : ∀ i, holds (s.thread t) i = if chash = i then 1 else 0 := fun i => by rw [hpc]; rfl
  have hempty := hi.slot_empty ht ((hmine chash).trans (if_pos rfl))
  refine ⟨hi.cursors, hi.low, pcs_setThread hi.pcs trivial, fun i => ?_, fun i v hmem => ?_⟩
  · have htot := @total_setThread n s t ht .lock i
    have hl : holds .lock i = 0 := rfl
    rw [hmine, hl] at htot
    have hone := hi.once i
    show (update s.stored chash (s.stored chash ++ [value]) i).length +
      total n (fun u => holds ((s.setThread t .lock).thread u) i) = if i < s.optr then 1 else 0
    by_cases e : i = chash
    · subst e
      rw [update_self, List.length_append, List.length_singleton]
      rw [if_pos rfl] at htot
      omega
    · rw [update_of_ne e]
      rw [if_neg (Ne.symm e)] at htot
      omega
  · show v.toNat = f.blockSum i ∧ update s.hashes chash value i = v
    have hmem : v ∈ update s.stored chash (s.stored chash ++ [value]) i := hmem
    by_cases e : i = chash
    · subst e
      rw [update_self, hempty] at hmem
      obtain rfl := List.mem_singleton.mp hmem
      rw [update_self]
      exact ⟨hv, rfl⟩
    · rw [update_of_ne e] at hmem ⊢
      exact hi.values i v hmem

end

theorem step_inv (hi : Inv f n s) (he : s.step f n t = some s') : Inv f n s' := by
  unfold step at he
  by_cases ht : t < n
  · rw [if_pos ht] at he
    have hok := hi.pcs t
    cases hpc : s.thread t with
    | lock =>
      rw [hpc] at he
      dsimp only at he
      by_cases hend : f.size ≤ s.dataptr
      · rw [if_pos hend] at he
        cases he
        exact hi.turn ht hend fun i => by rw [hpc]; rfl
      · rw [if_neg hend] at he
        cases he
        exact hi.take ht hpc (Nat.lt_of_not_le hend)
    | hash cptr chash =>
      rw [hpc] at he hok
      cases he
      obtain ⟨hc, hlt⟩ := hok
      have hin : 64 * chash ≤ f.size := Nat.le_of_lt ((blocks_spec f chash).mp (Nat.lt_of_lt_of_le hlt hi.low))
      refine hi.turn ht ⟨?_, hlt⟩ fun i => by rw [hpc]; rfl
      rw [hc]
      exact f.calculate_eq hin
    | store chash value =>
      rw [hpc] at he
      cases he
      exact hi.write ht hpc
    | done =>
      rw [hpc] at he
      cases he
  · rw [if_neg ht] at he
    cases he

/-- When the threads are done, each block's slot has been written once, by its hash, and
    no other slot has. -/
theorem blocks_hashed (f : InFile) (hn : 0 < n) (h : (machine f n).Reach Machine.any s)
    (hdone : ∀ t < n, s.thread t = .done) :
    (∀ i < f.blocks, (s.stored i).map UInt64.toNat = [f.blockSum i] ∧ (s.hashes i).toNat = f.blockSum i) ∧
      ∀ i, f.blocks ≤ i → s.stored i = [] := by
  have hi : Inv f n s := h.inv (Inv f n) (fun _ => start_inv) fun _ _ _ hi _ he => step_inv hi he
  have hend : f.size ≤ s.dataptr := by
    have hok := hi.pcs 0
    rw [hdone 0 hn] at hok
    exact hok
  have hall : s.optr = f.blocks := by
    have hlow := hi.low
    have hspec := blocks_spec f s.optr
    have hcur := hi.cursors
    omega
  have hnone : ∀ i, total n (fun t => holds (s.thread t) i) = 0 := fun i => by
    refine Nat.eq_zero_of_not_pos fun hpos => ?_
    obtain ⟨t, ht, hpos⟩ := exists_of_total_pos hpos
    rw [hdone t ht] at hpos
    exact Nat.lt_irrefl 0 hpos
  have hlen : ∀ i, (s.stored i).length = if i < f.blocks then 1 else 0 := fun i => by
    have hone := hi.once i
    rw [hnone, Nat.add_zero, hall] at hone
    exact hone
  refine ⟨fun i hlt => ?_, fun i hle => ?_⟩
  · have hl := hlen i
    rw [if_pos hlt] at hl
    obtain ⟨v, hv⟩ := List.length_eq_one_iff.mp hl
    obtain ⟨hval, hslot⟩ := hi.values i v (by rw [hv]; exact List.mem_singleton_self v)
    rw [hv, hslot]
    exact ⟨congrArg (fun x => [x]) hval, hval⟩
  · have hl := hlen i
    rw [if_neg (Nat.not_lt.mpr hle)] at hl
    exact List.length_eq_zero_iff.mp hl

end

/-- Nine bytes and two threads, one of which finds nothing left. -/
def nineBytes : InFile := ⟨9, fun i => UInt8.ofNat (i + 1), by decide⟩

theorem blocks_hashed_nine_bytes : ∃ s, (machine nineBytes 2).Reach Machine.any s ∧ (∀ t < 2, s.thread t = .done) ∧
    (∀ i < nineBytes.blocks, (s.stored i).map UInt64.toNat = [nineBytes.blockSum i] ∧
      (s.hashes i).toNat = nineBytes.blockSum i) ∧ ∀ i, nineBytes.blocks ≤ i → s.stored i = [] := by
  have hstart : Start ⟨0, 0, fun _ => 0, fun _ => [], fun _ => .lock⟩ := ⟨rfl, rfl, fun _ => rfl, fun _ => rfl⟩
  obtain ⟨s, hrun, hdone⟩ : ∃ s, (machine nineBytes 2).Run Machine.any
      ⟨0, 0, fun _ => 0, fun _ => [], fun _ => .lock⟩ [1, 0, 1, 1, 1] s ∧ ∀ t < 2, s.thread t = .done :=
    ⟨_, Machine.exec_run rfl, by decide⟩
  have hreach := hrun.reach (.init hstart)
  exact ⟨s, hreach, hdone, blocks_hashed nineBytes (by decide) hreach hdone⟩

end Threads

end Cs330.Blocks
