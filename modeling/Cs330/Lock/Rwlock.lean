/-
  Cs330.Lock.Rwlock — part-2's reader-writer lock (rwlock.c): one shared long, which
  writers take 2^48 from and readers 1, and give back when the result tells them that
  they were not alone.

  A step is one `atomic_add`, one load of `lock->value`, or the call of a lock function.
  A thread may call any of them when it is in none, and unlocks what it holds; it may hold
  the read lock several times. `Move` is what any step does; the value is always
  2^48 - readers - 2^48 * writers, attempts not undone included (`Inv`), and so a writer
  that sees zero, or a reader that sees no negative number, has the lock to itself or
  shares it with readers (`rwlock_excludes`).
-/
import Cs330.Lib.CInt
import Cs330.Lib.Machine
import Cs330.Lib.Total

namespace Cs330.Lock

open Lib Lib.CInt Function

/-- 0x1000000000000 -/
def UNIT : Int := 2 ^ 48

/-- What `atomic_add` returns, from the sign and the zero flag, and the value it leaves. -/
def atomicAdd (value val : Int) : Int × Int :=
  (if int64 (value + val) < 0 then -1 else if int64 (value + val) = 0 then 0 else 1, int64 (value + val))

inductive Pc where
  /-- In none of the lock functions. -/
  | out
  /-- `while(atomic_add(&(lock->value), -(0x1000000000000)) != 0)` -/
  | writeTry
  /-- `atomic_add(&(lock->value), (0x1000000000000))` -/
  | writeUndo
  /-- `while( lock->value < 0x1000000000000)` -/
  | writeSpin
  /-- `while(atomic_add(&(lock->value), -1) == -1)` -/
  | readTry
  /-- `atomic_add(&(lock->value), 1)` -/
  | readUndo
  deriving DecidableEq, Repr

/-- `writes` and `reads`: how many times the thread holds the lock. -/
structure Thread where
  pc : Pc
  writes : Nat
  reads : Nat
  deriving DecidableEq, Repr

/-- `rwlock_t`, and the threads. -/
structure Rwlock where
  value : Int
  thread : Nat → Thread

namespace Rwlock

inductive Ev where
  | writeLock (i : Nat)
  | writeUnlock (i : Nat)
  | readLock (i : Nat)
  | readUnlock (i : Nat)
  /-- The next access to the value inside a lock function. -/
  | run (i : Nat)
  deriving DecidableEq, Repr

def Ev.thread : Ev → Nat
  | .writeLock i | .writeUnlock i | .readLock i | .readUnlock i | .run i => i

def set (s : Rwlock) (value : Int) (i : Nat) (t : Thread) : Rwlock := ⟨value, update s.thread i t⟩

def stepAt (s : Rwlock) : Ev → Option Rwlock
  | .writeLock i => if (s.thread i).pc = .out then some (s.set s.value i { s.thread i with pc := .writeTry }) else none
  | .writeUnlock i =>
    if (s.thread i).pc = .out ∧ 0 < (s.thread i).writes then
      some (s.set (atomicAdd s.value UNIT).2 i { s.thread i with writes := (s.thread i).writes - 1 })
    else none
  | .readLock i => if (s.thread i).pc = .out then some (s.set s.value i { s.thread i with pc := .readTry }) else none
  | .readUnlock i =>
    if (s.thread i).pc = .out ∧ 0 < (s.thread i).reads then
      some (s.set (atomicAdd s.value 1).2 i { s.thread i with reads := (s.thread i).reads - 1 })
    else none
  | .run i =>
    match (s.thread i).pc with
    | .out => none
    | .writeTry =>
      let r := atomicAdd s.value (-UNIT)
      some (s.set r.2 i (if r.1 ≠ 0 then { s.thread i with pc := .writeUndo }
        else { s.thread i with pc := .out, writes := (s.thread i).writes + 1 }))
    | .writeUndo => some (s.set (atomicAdd s.value UNIT).2 i { s.thread i with pc := .writeSpin })
    | .writeSpin => if s.value < UNIT then some s else some (s.set s.value i { s.thread i with pc := .writeTry })
    | .readTry =>
      let r := atomicAdd s.value (-1)
      some (s.set r.2 i (if r.1 = -1 then { s.thread i with pc := .readUndo }
        else { s.thread i with pc := .out, reads := (s.thread i).reads + 1 }))
    | .readUndo => some (s.set (atomicAdd s.value 1).2 i { s.thread i with pc := .readTry })

/-- A step of one of the threads 0..N-1. -/
def step (N : Nat) (s : Rwlock) (e : Ev) : Option Rwlock := if e.thread < N then s.stepAt e else none

/-- After init_rwlock, before any thread has called a lock function. -/
def Start (s : Rwlock) : Prop := s.value = UNIT ∧ ∀ i, s.thread i = ⟨.out, 0, 0⟩

def machine (N : Nat) : Machine Rwlock Ev := ⟨Start, step N⟩

/-- What the step adds to the value, before it is cut to 64 bits. -/
def addend (s : Rwlock) : Ev → Int
  | .writeUnlock _ => UNIT
  | .readUnlock _ => 1
  | .run i =>
    match (s.thread i).pc with
    | .writeTry => -UNIT
    | .writeUndo => UNIT
    | .readTry => -1
    | .readUndo => 1
    | _ => 0
  | _ => 0

end Rwlock

/-- The decrements of a thread that are not undone: of the locks it holds, and of an
    attempt that failed. -/
def Thread.readers (t : Thread) : Nat := t.reads + if t.pc = .readUndo then 1 else 0
def Thread.writers (t : Thread) : Nat := t.writes + if t.pc = .writeUndo then 1 else 0

namespace Rwlock

def readers (N : Nat) (s : Rwlock) : Nat := total N fun i => (s.thread i).readers
def writers (N : Nat) (s : Rwlock) : Nat := total N fun i => (s.thread i).writers

/-- One thread at most holds the write lock, and then none holds the read lock. -/
def Excludes (N : Nat) (s : Rwlock) : Prop :=
  (∀ i < N, ∀ j < N, 0 < (s.thread i).writes → 0 < (s.thread j).writes → i = j) ∧
    ∀ i < N, 0 < (s.thread i).writes → ∀ j < N, (s.thread j).reads = 0

/-! ## One step -/

/-- What a step of thread `i` does to the value, to the decrements that are outstanding and
    to the locks held. -/
inductive Move (s : Rwlock) (i : Nat) (t : Thread) : Int → Int → Prop
  /-- A call, or a load. -/
  | quiet : t.readers = (s.thread i).readers → t.writers = (s.thread i).writers → t.reads = (s.thread i).reads →
      t.writes = (s.thread i).writes → Move s i t 0 s.value
  /-- An unlock, or an attempt undone. -/
  | giveRead : t.readers + 1 = (s.thread i).readers → t.writers = (s.thread i).writers → t.reads ≤ (s.thread i).reads →
      t.writes = (s.thread i).writes → Move s i t 1 (int64 (s.value + 1))
  | giveWrite : t.readers = (s.thread i).readers → t.writers + 1 = (s.thread i).writers → t.reads = (s.thread i).reads →
      t.writes ≤ (s.thread i).writes → Move s i t UNIT (int64 (s.value + UNIT))
  | takeRead : t.readers = (s.thread i).readers + 1 → t.writers = (s.thread i).writers →
      (s.thread i).readers = (s.thread i).reads → (s.thread i).writers = (s.thread i).writes →
      (t.reads = (s.thread i).reads ∨ t.reads = (s.thread i).reads + 1 ∧ 0 ≤ int64 (s.value + -1)) →
      t.writes = (s.thread i).writes → Move s i t (-1) (int64 (s.value + -1))
  | takeWrite : t.readers = (s.thread i).readers → t.writers = (s.thread i).writers + 1 →
      (s.thread i).readers = (s.thread i).reads → (s.thread i).writers = (s.thread i).writes →
      t.reads = (s.thread i).reads →
      (t.writes = (s.thread i).writes ∨ t.writes = (s.thread i).writes + 1 ∧ int64 (s.value + -UNIT) = 0) →
      Move s i t (-UNIT) (int64 (s.value + -UNIT))

theorem set_self (s : Rwlock) (i : Nat) : s.set s.value i (s.thread i) = s := by
  unfold set
  rw [update_eq_self]

/-- What the sign and zero flags say of the new value. -/
theorem atomicAdd_zero {v d : Int} : (atomicAdd v d).1 = 0 ↔ int64 (v + d) = 0 := by
  unfold atomicAdd
  simp only
  split
  · omega
  · split <;> omega

theorem atomicAdd_negative {v d : Int} : (atomicAdd v d).1 = -1 ↔ int64 (v + d) < 0 := by
  unfold atomicAdd
  simp only
  split
  · omega
  · split <;> omega

theorem stepAt_move {s s' : Rwlock} {e : Ev} (h : s.stepAt e = some s') :
    ∃ t v, s' = s.set v e.thread t ∧ Move s e.thread t (s.addend e) v := by
  cases e with
  | writeLock i =>
    show ∃ t v, s' = s.set v i t ∧ Move s i t (s.addend (.writeLock i)) v
    simp only [stepAt, Option.ite_none_right_eq_some, Option.some.injEq] at h
    obtain ⟨hpc, rfl⟩ := h
    exact ⟨_, _, rfl, .quiet (by simp [Thread.readers, hpc]) (by simp [Thread.writers, hpc]) rfl rfl⟩
  | readLock i =>
    show ∃ t v, s' = s.set v i t ∧ Move s i t (s.addend (.readLock i)) v
    simp only [stepAt, Option.ite_none_right_eq_some, Option.some.injEq] at h
    obtain ⟨hpc, rfl⟩ := h
    exact ⟨_, _, rfl, .quiet (by simp [Thread.readers, hpc]) (by simp [Thread.writers, hpc]) rfl rfl⟩
  | writeUnlock i =>
    show ∃ t v, s' = s.set v i t ∧ Move s i t (s.addend (.writeUnlock i)) v
    simp only [stepAt, Option.ite_none_right_eq_some, Option.some.injEq] at h
    obtain ⟨⟨hpc, hheld⟩, rfl⟩ := h
    refine ⟨_, _, rfl, .giveWrite rfl ?_ rfl (Nat.sub_le _ _)⟩
    simp only [Thread.writers, hpc, reduceCtorEq, if_false, Nat.add_zero]
    exact Nat.sub_add_cancel hheld
  | readUnlock i =>
    show ∃ t v, s' = s.set v i t ∧ Move s i t (s.addend (.readUnlock i)) v
    simp only [stepAt, Option.ite_none_right_eq_some, Option.some.injEq] at h
    obtain ⟨⟨hpc, hheld⟩, rfl⟩ := h
    refine ⟨_, _, rfl, .giveRead ?_ rfl (Nat.sub_le _ _) rfl⟩
    simp only [Thread.readers, hpc, reduceCtorEq, if_false, Nat.add_zero]
    exact Nat.sub_add_cancel hheld
  | run i =>
    show ∃ t v, s' = s.set v i t ∧ Move s i t (s.addend (.run i)) v
    cases hpc : (s.thread i).pc with
    | out => simp only [stepAt, hpc] at h; cases h
    | writeTry =>
      simp only [stepAt, addend, hpc, Option.some.injEq] at h ⊢
      subst h
      by_cases hz : (atomicAdd s.value (-UNIT)).1 = 0
      · rw [if_neg (not_not_intro hz)]
        exact ⟨_, _, rfl, .takeWrite (by simp [Thread.readers, hpc]) (by simp [Thread.writers, hpc])
          (by simp [Thread.readers, hpc]) (by simp [Thread.writers, hpc]) rfl (Or.inr ⟨rfl, atomicAdd_zero.mp hz⟩)⟩
      · rw [if_pos hz]
        exact ⟨_, _, rfl, .takeWrite (by simp [Thread.readers, hpc]) (by simp [Thread.writers, hpc])
          (by simp [Thread.readers, hpc]) (by simp [Thread.writers, hpc]) rfl (Or.inl rfl)⟩
    | writeUndo =>
      simp only [stepAt, addend, hpc, Option.some.injEq] at h ⊢
      subst h
      exact ⟨_, _, rfl, .giveWrite (by simp [Thread.readers, hpc]) (by simp [Thread.writers, hpc]) rfl (Nat.le_refl _)⟩
    | writeSpin =>
      simp only [stepAt, addend, hpc] at h ⊢
      by_cases hlt : s.value < UNIT
      · rw [if_pos hlt] at h
        cases h
        exact ⟨_, _, (set_self s i).symm, .quiet rfl rfl rfl rfl⟩
      · rw [if_neg hlt] at h
        cases h
        exact ⟨_, _, rfl, .quiet (by simp [Thread.readers, hpc]) (by simp [Thread.writers, hpc]) rfl rfl⟩
    | readTry =>
      simp only [stepAt, addend, hpc, Option.some.injEq] at h ⊢
      subst h
      by_cases hneg : (atomicAdd s.value (-1)).1 = -1
      · rw [if_pos hneg]
        exact ⟨_, _, rfl, .takeRead (by simp [Thread.readers, hpc]) (by simp [Thread.writers, hpc])
          (by simp [Thread.readers, hpc]) (by simp [Thread.writers, hpc]) (Or.inl rfl) rfl⟩
      · rw [if_neg hneg]
        exact ⟨_, _, rfl, .takeRead (by simp [Thread.readers, hpc]) (by simp [Thread.writers, hpc])
          (by simp [Thread.readers, hpc]) (by simp [Thread.writers, hpc])
          (Or.inr ⟨rfl, Int.not_lt.mp (mt atomicAdd_negative.mpr hneg)⟩) rfl⟩
    | readUndo =>
      simp only [stepAt, addend, hpc, Option.some.injEq] at h ⊢
      subst h
      exact ⟨_, _, rfl, .giveRead (by simp [Thread.readers, hpc]) (by simp [Thread.writers, hpc]) (Nat.le_refl _) rfl⟩

/-! ## The invariant -/

def reading (N : Nat) (s : Rwlock) : Nat := total N fun i => (s.thread i).reads
def writing (N : Nat) (s : Rwlock) : Nat := total N fun i => (s.thread i).writes

structure Inv (N : Nat) (s : Rwlock) : Prop where
  value : s.value = 2 ^ 48 - s.readers N - 2 ^ 48 * s.writers N
  one : s.writing N ≤ 1
  apart : s.writing N = 1 → s.reading N = 0
  room : s.reading N ≤ 2 ^ 48

theorem start_inv {N : Nat} {s : Rwlock} (h : Start s) : Inv N s := by
  have hzero : ∀ g : Thread → Nat, g ⟨.out, 0, 0⟩ = 0 → total N (fun i => g (s.thread i)) = 0 := by
    intro g hg
    simp only [h.2, hg]
    exact total_zero N
  have h1 : s.writing N = 0 := hzero Thread.writes rfl
  have h2 : s.reading N = 0 := hzero Thread.reads rfl
  have h3 : s.readers N = 0 := hzero Thread.readers rfl
  have h4 : s.writers N = 0 := hzero Thread.writers rfl
  refine ⟨?_, by omega, fun _ => h2, by omega⟩
  rw [h.1, h3, h4]
  rfl

/-- Each thread has one attempt under way at most. -/
theorem attempts_le (N : Nat) (s : Rwlock) : s.readers N + s.writers N ≤ s.reading N + s.writing N + N := by
  calc s.readers N + s.writers N = total N (fun i => (s.thread i).readers + (s.thread i).writers) := (total_add ..).symm
    _ ≤ total N (fun i => (s.thread i).reads + (s.thread i).writes + 1) := by
      refine total_le fun i _ => ?_
      unfold Thread.readers Thread.writers
      cases (s.thread i).pc <;> simp <;> omega
    _ = s.reading N + s.writing N + N := by rw [total_add, total_add, total_one]; rfl

theorem reading_le (N : Nat) (s : Rwlock) : s.reading N ≤ s.readers N := total_le fun _ _ => Nat.le_add_right _ _
theorem writing_le (N : Nat) (s : Rwlock) : s.writing N ≤ s.writers N := total_le fun _ _ => Nat.le_add_right _ _

section
variable {N i : Nat} {s : Rwlock} (hi : i < N)
include hi

/-- The four sums, when thread `i` becomes `t`. -/
theorem sums_set (v : Int) (t : Thread) :
    (s.set v i t).readers N + (s.thread i).readers = s.readers N + t.readers ∧
      (s.set v i t).writers N + (s.thread i).writers = s.writers N + t.writers ∧
      (s.set v i t).reading N + (s.thread i).reads = s.reading N + t.reads ∧
      (s.set v i t).writing N + (s.thread i).writes = s.writing N + t.writes :=
  ⟨total_update hi Thread.readers s.thread t, total_update hi Thread.writers s.thread t,
    total_update hi Thread.reads s.thread t, total_update hi Thread.writes s.thread t⟩

/-- Before thread `i` makes an attempt the others have at most N-1 under way. -/
theorem attempts_lt (hr : (s.thread i).readers = (s.thread i).reads) (hw : (s.thread i).writers = (s.thread i).writes) :
    s.readers N + s.writers N + 1 ≤ s.reading N + s.writing N + N := by
  obtain ⟨t, ht⟩ : ∃ t : Thread, t = ⟨.readUndo, (s.thread i).writes, (s.thread i).reads⟩ := ⟨_, rfl⟩
  have h1 : t.readers = (s.thread i).reads + 1 := by rw [ht]; rfl
  have h2 : t.writers = (s.thread i).writes := by rw [ht]; rfl
  have h3 : t.reads = (s.thread i).reads := by rw [ht]
  have h4 : t.writes = (s.thread i).writes := by rw [ht]
  have hsums := sums_set (s := s) hi s.value t
  have hle := attempts_le N (s.set s.value i t)
  omega

end

/-- A step keeps the invariant, and its addition does not overflow. -/
theorem move_inv {N i : Nat} (hN : N < 32768) (hi : i < N) {s : Rwlock} (h : Inv N s) {t : Thread} {d v : Int}
    (hm : Move s i t d v) :
    Inv N (s.set v i t) ∧ v = s.value + d ∧ -2 ^ 63 ≤ s.value + d ∧ s.value + d < 2 ^ 63 := by
  obtain ⟨hval, hone, hapart, hroom⟩ := h
  obtain ⟨e1, e2, e3, e4⟩ := sums_set (s := s) hi v t
  have hle := attempts_le N s
  have hr0 := reading_le N s
  have hw0 := writing_le N s
  have hunit : UNIT = 2 ^ 48 := rfl
  cases hm with
  | quiet hr hw hrs hws =>
    refine ⟨⟨?_, by omega, fun _ => ?_, by omega⟩, (Int.add_zero _).symm, ?_, ?_⟩
    · show s.value = _
      omega
    · have := hapart (by omega)
      omega
    · omega
    · omega
  | giveRead hr hw hrs hws =>
    have hv : int64 (s.value + 1) = s.value + 1 := by apply int64_eq <;> omega
    refine ⟨⟨?_, by omega, fun _ => ?_, by omega⟩, hv, by omega, by omega⟩
    · refine hv.trans ?_
      omega
    · have := hapart (by omega)
      omega
  | giveWrite hr hw hrs hws =>
    have hv : int64 (s.value + UNIT) = s.value + UNIT := by apply int64_eq <;> omega
    refine ⟨⟨?_, by omega, fun _ => ?_, by omega⟩, hv, by omega, by omega⟩
    · refine hv.trans ?_
      omega
    · have := hapart (by omega)
      omega
  | takeRead hr hw hnr hnw hrs hws =>
    have hlt := attempts_lt hi hnr hnw
    have hv : int64 (s.value + -1) = s.value + -1 := by apply int64_eq <;> omega
    rw [hv] at hrs
    refine ⟨⟨?_, by omega, fun _ => ?_, by omega⟩, hv, by omega, by omega⟩
    · refine hv.trans ?_
      omega
    · have := hapart (by omega)
      omega
  | takeWrite hr hw hnr hnw hrs hws =>
    have hlt := attempts_lt hi hnr hnw
    have hv : int64 (s.value + -UNIT) = s.value + -UNIT := by apply int64_eq <;> omega
    rw [hv] at hws
    refine ⟨⟨?_, by omega, fun _ => ?_, by omega⟩, hv, by omega, by omega⟩
    · refine hv.trans ?_
      omega
    · omega

theorem step_inv {N : Nat} (hN : N < 32768) {s s' : Rwlock} {e : Ev} (h : Inv N s) (he : step N s e = some s') :
    Inv N s' ∧ s'.value = s.value + s.addend e ∧ -2 ^ 63 ≤ s.value + s.addend e ∧ s.value + s.addend e < 2 ^ 63 := by
  unfold step at he
  split at he
  · rename_i hi
    obtain ⟨t, v, rfl, hm⟩ := stepAt_move he
    exact move_inv hN hi h hm
  · cases he

theorem reach_inv {N : Nat} (hN : N < 32768) {s : Rwlock} (h : (machine N).Reach Machine.any s) : Inv N s :=
  h.inv (Inv N) (fun _ => start_inv) fun _ _ _ hi _ he => (step_inv hN hi he).1

theorem Inv.excludes {N : Nat} {s : Rwlock} (h : Inv N s) : s.Excludes N := by
  have hone : total N (fun i => (s.thread i).writes) ≤ 1 := h.one
  constructor
  · intro i hi j hj hwi hwj
    by_contra hne
    have hle := add_le_total hi hj hne fun k => (s.thread k).writes
    omega
  · intro i hi hwi j hj
    have hle := le_total hi fun k => (s.thread k).writes
    have hzero : total N (fun k => (s.thread k).reads) = 0 := by
      apply h.apart
      show total N (fun k => (s.thread k).writes) = 1
      omega
    have hj' := le_total hj fun k => (s.thread k).reads
    omega

/-- In every state the lock excludes, its value counts the decrements that are outstanding,
    and no addition overflows. -/
theorem rwlock_excludes (N : Nat) (hN : N < 32768) {s : Rwlock} (h : (machine N).Reach Machine.any s) :
    s.Excludes N ∧ s.value = 2 ^ 48 - s.readers N - 2 ^ 48 * s.writers N ∧
      ∀ e, (step N s e).isSome → -2 ^ 63 ≤ s.value + s.addend e ∧ s.value + s.addend e < 2 ^ 63 := by
  have hi := reach_inv hN h
  refine ⟨hi.excludes, hi.value, fun e he => ?_⟩
  obtain ⟨s', hs'⟩ := Option.isSome_iff_exists.mp he
  exact (step_inv hN hi hs').2.2

/-- Thread 0 gets the write lock; a reader and a writer have failed and not yet undone it. -/
theorem rwlock_excludes_three : ∃ s, (machine 3).Reach Machine.any s ∧ 0 < (s.thread 0).writes ∧
    (s.thread 1).pc = .readUndo ∧ (s.thread 2).pc = .writeUndo ∧
    s.Excludes 3 ∧ s.value = 2 ^ 48 - s.readers 3 - 2 ^ 48 * s.writers 3 ∧
      ∀ e, (step 3 s e).isSome → -2 ^ 63 ≤ s.value + s.addend e ∧ s.value + s.addend e < 2 ^ 63 := by
  have hstart : Start ⟨UNIT, fun _ => ⟨.out, 0, 0⟩⟩ := ⟨rfl, fun _ => rfl⟩
  have hrun := @Machine.exec_run _ _ (machine 3) ⟨UNIT, fun _ => ⟨.out, 0, 0⟩⟩ _
    [.writeLock 0, .run 0, .readLock 1, .run 1, .writeLock 2, .run 2] rfl
  have hreach := hrun.reach (.init hstart)
  exact ⟨_, hreach, by decide, rfl, rfl, rwlock_excludes 3 (by decide) hreach⟩

end Rwlock

end Cs330.Lock
