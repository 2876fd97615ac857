/-
  Cs330.Lock.Progress — the reader-writer lock is never wedged.

  While nobody holds it, what is missing from the value was taken by attempts that have
  failed and not yet given back. Each of these threads gives it back in its next step
  (`undo_step`), and after that it only looks or tries again. So the threads inside the
  four functions can go on, with no new call, until all of it is back (`undo_run`): the
  value is 2^48 then, and whichever thread tries next gets the lock (`acquire_run`).
-/
import Cs330.Lock.Rwlock

namespace Cs330.Lock

open Lib Lib.CInt Function

/-- In write_lock. -/
def Pc.inWrite : Pc → Bool
  | .writeTry | .writeUndo | .writeSpin => true
  | .out | .readTry | .readUndo => false

/-- In read_lock. -/
def Pc.inRead : Pc → Bool
  | .readTry | .readUndo => true
  | .out | .writeTry | .writeUndo | .writeSpin => false

/-- The thread inside the same function, holding what it held. -/
def Thread.Same (t t' : Thread) : Prop :=
  t'.writes = t.writes ∧ t'.reads = t.reads ∧ t'.pc.inWrite = t.pc.inWrite ∧ t'.pc.inRead = t.pc.inRead

theorem Thread.Same.refl (t : Thread) : t.Same t := ⟨rfl, rfl, rfl, rfl⟩

theorem Thread.Same.trans {t t' t'' : Thread} (h : t.Same t') (h' : t'.Same t'') : t.Same t'' :=
  ⟨h'.1.trans h.1, h'.2.1.trans h.2.1, h'.2.2.1.trans h.2.2.1, h'.2.2.2.trans h.2.2.2⟩

namespace Rwlock

/-- No thread is in its critical section. -/
def Free (N : Nat) (s : Rwlock) : Prop := ∀ i < N, (s.thread i).writes = 0 ∧ (s.thread i).reads = 0

instance (N : Nat) (s : Rwlock) : Decidable (Free N s) :=
  inferInstanceAs (Decidable (∀ i < N, (s.thread i).writes = 0 ∧ (s.thread i).reads = 0))

/-- The threads inside the lock functions go on, and none calls one. -/
def Onward : Rwlock → Ev → Prop := fun _ e => ∃ i, e = .run i

variable {N i : Nat} {s : Rwlock}

theorem run_step {s' : Rwlock} (hi : i < N) (he : s.stepAt (.run i) = some s') : (machine N).Run Onward s [.run i] s' := by
  have hs : step N s (.run i) = some s' := (if_pos hi).trans he
  exact .cons ⟨i, rfl⟩ hs (.nil s')

/-- A thread with a decrement of its own to give back, and no lock. -/
theorem undo_step (hi : i < N) (hf : Free N s) (hu : 0 < (s.thread i).readers + (s.thread i).writers) :
    ∃ v t, (machine N).Run Onward s [.run i] (s.set v i t) ∧ (s.thread i).Same t ∧ t.readers + t.writers = 0 := by
  obtain ⟨hw, hr⟩ := hf i hi
  cases hpc : (s.thread i).pc with
  | writeUndo =>
    refine ⟨(atomicAdd s.value UNIT).2, { s.thread i with pc := .writeSpin }, ?_, ⟨rfl, rfl, ?_, ?_⟩, ?_⟩
    · exact run_step hi (by simp only [stepAt, hpc])
    · rw [hpc]; rfl
    · rw [hpc]; rfl
    · simp [Thread.readers, Thread.writers, hw, hr]
  | readUndo =>
    refine ⟨(atomicAdd s.value 1).2, { s.thread i with pc := .readTry }, ?_, ⟨rfl, rfl, ?_, ?_⟩, ?_⟩
    · exact run_step hi (by simp only [stepAt, hpc])
    · rw [hpc]; rfl
    · rw [hpc]; rfl
    · simp [Thread.readers, Thread.writers, hw, hr]
  | out => simp [Thread.readers, Thread.writers, hw, hr, hpc] at hu
  | writeTry => simp [Thread.readers, Thread.writers, hw, hr, hpc] at hu
  | writeSpin => simp [Thread.readers, Thread.writers, hw, hr, hpc] at hu
  | readTry => simp [Thread.readers, Thread.writers, hw, hr, hpc] at hu

theorem Free.set (hf : Free N s) (v : Int) {t : Thread} (hs : (s.thread i).Same t) : Free N (s.set v i t) := by
  intro j hj
  show (update s.thread i t j).writes = 0 ∧ (update s.thread i t j).reads = 0
  by_cases he : j = i
  · rw [he, update_self, hs.1, hs.2.1]
    exact hf i (he ▸ hj)
  · rw [update_of_ne he]
    exact hf j hj

theorem same_set (v : Int) {t : Thread} (hs : (s.thread i).Same t) (j : Nat) : (s.thread j).Same ((s.set v i t).thread j) := by
  show (s.thread j).Same (update s.thread i t j)
  by_cases he : j = i
  · rw [he, update_self]
    exact hs
  · rw [update_of_ne he]
    exact .refl _

/-- Everything is given back: the induction is on how much is missing. -/
theorem undo_run (hf : Free N s) : ∃ es s', (machine N).Run Onward s es s' ∧ s'.readers N + s'.writers N = 0 ∧
    ∀ j, (s.thread j).Same (s'.thread j) := by
  induction hn : s.readers N + s.writers N using Nat.strong_induction_on generalizing s with
  | h n ih =>
    by_cases hz : n = 0
    · exact ⟨[], s, .nil s, hn.trans hz, fun _ => .refl _⟩
    · have hsum : total N (fun i => (s.thread i).readers + (s.thread i).writers) = n := (total_add ..).trans hn
      obtain ⟨i, hi, hu⟩ := exists_of_total_pos (by omega : 0 < total N fun i => (s.thread i).readers + (s.thread i).writers)
      obtain ⟨v, t, hrun, hsame, hback⟩ := undo_step hi hf hu
      obtain ⟨e1, e2, -, -⟩ := sums_set (s := s) hi v t
      obtain ⟨es, s', hrun', hall, hkeep⟩ := ih _ (by omega) (hf.set v hsame) rfl
      exact ⟨_, s', hrun.append hrun', hall, fun j => (same_set v hsame j).trans (hkeep j)⟩

theorem Inv.full (h : Inv N s) (hz : s.readers N + s.writers N = 0) : s.value = UNIT := by
  have hv := h.value
  have hunit : UNIT = 2 ^ 48 := rfl
  omega

/-- A thread inside write_lock or read_lock that tries while nothing is missing. -/
theorem acquire_run (hi : i < N) (hf : Free N s) (hv : s.value = UNIT) (hz : (s.thread i).readers + (s.thread i).writers = 0)
    (hout : (s.thread i).pc ≠ .out) :
    ∃ es v, (machine N).Run Onward s es (s.set v i (if (s.thread i).pc.inWrite then ⟨.out, 1, 0⟩ else ⟨.out, 0, 1⟩)) := by
  obtain ⟨hw, hr⟩ := hf i hi
  have htry : ∀ s : Rwlock, s.value = UNIT → s.thread i = ⟨.writeTry, 0, 0⟩ →
      (machine N).Run Onward s [.run i] (s.set 0 i ⟨.out, 1, 0⟩) := by
    intro s hv ht
    refine run_step hi ?_
    simp only [stepAt, ht, hv]
    rfl
  cases hpc : (s.thread i).pc with
  | out => exact absurd hpc hout
  | writeTry =>
    refine ⟨_, 0, htry s hv ?_⟩
    cases ht : s.thread i
    rw [ht] at hpc hw hr
    cases hpc
    cases hw
    cases hr
    rfl
  | writeSpin =>
    have hspin : (machine N).Run Onward s [.run i] (s.set s.value i ⟨.writeTry, 0, 0⟩) := by
      refine run_step hi ?_
      simp only [stepAt, hpc, hv, if_neg (Int.lt_irrefl UNIT), hw, hr]
    have hgot := htry (s.set s.value i ⟨.writeTry, 0, 0⟩) hv (update_self ..)
    have hset : (s.set s.value i ⟨.writeTry, 0, 0⟩).set 0 i ⟨.out, 1, 0⟩ = s.set 0 i ⟨.out, 1, 0⟩ := by
      simp only [set, update_idem]
    rw [hset] at hgot
    exact ⟨_, 0, hspin.append hgot⟩
  | readTry =>
    refine ⟨[.run i], (atomicAdd UNIT (-1)).2, run_step hi ?_⟩
    simp only [stepAt, hpc, hv, hw, hr]
    rfl
  | writeUndo => simp [Thread.writers, hpc] at hz
  | readUndo => simp [Thread.readers, hpc] at hz

/-- Where nobody holds the lock, each thread that wants it can get it, and the value is
    back at 2^48 once nobody is inside the functions either. -/
theorem never_wedged (N : Nat) (hN : N < 32768) {s : Rwlock} (h : (machine N).Reach Machine.any s) (hf : Free N s) :
    (∀ i < N, (s.thread i).pc ≠ .out → ∃ es s', (machine N).Run Onward s es s' ∧
      s'.thread i = if (s.thread i).pc.inWrite then ⟨.out, 1, 0⟩ else ⟨.out, 0, 1⟩) ∧
    ((∀ i < N, (s.thread i).pc = .out) → s.value = UNIT) := by
  refine ⟨fun i hi hout => ?_, fun hout => ?_⟩
  · obtain ⟨es, s', hrun, hz, hsame⟩ := undo_run hf
    have hinv : Inv N s' := reach_inv hN ((hrun.mono fun _ _ _ => trivial).reach h)
    have hf' : Free N s' := fun j hj => by
      rw [(hsame j).1, (hsame j).2.1]
      exact hf j hj
    have hown : (s'.thread i).readers + (s'.thread i).writers = 0 := by
      have h1 := le_total hi fun k => (s'.thread k).readers
      have h2 := le_total hi fun k => (s'.thread k).writers
      have hz' : total N (fun k => (s'.thread k).readers) + total N (fun k => (s'.thread k).writers) = 0 := hz
      omega
    have hout' : (s'.thread i).pc ≠ .out := by
      obtain ⟨-, -, hw, hr⟩ := hsame i
      intro he
      rw [he] at hw hr
      cases hpc : (s.thread i).pc <;> rw [hpc] at hw hr <;> first | exact hout hpc | exact Bool.noConfusion hw |
        exact Bool.noConfusion hr
    obtain ⟨fs, v, hrun'⟩ := acquire_run hi hf' (hinv.full hz) hown hout'
    refine ⟨_, _, hrun.append hrun', ?_⟩
    rw [← (hsame i).2.2.1]
    exact update_self ..
  · refine (reach_inv hN h).full ?_
    have hr : s.readers N = 0 := by
      refine Nat.le_zero.mp ((total_le fun i hi => ?_).trans (total_zero N).le)
      simp [Thread.readers, hout i hi, (hf i hi).2]
    have hw : s.writers N = 0 := by
      refine Nat.le_zero.mp ((total_le fun i hi => ?_).trans (total_zero N).le)
      simp [Thread.writers, hout i hi, (hf i hi).1]
    omega

/-- Thread 0 in write_lock and thread 1 in read_lock. -/
theorem never_wedged_two : ∃ s, (machine 2).Reach Machine.any s ∧ Free 2 s ∧ (s.thread 0).pc = .writeTry ∧
    (∀ i < 2, (s.thread i).pc ≠ .out → ∃ es s', (machine 2).Run Onward s es s' ∧
      s'.thread i = if (s.thread i).pc.inWrite then ⟨.out, 1, 0⟩ else ⟨.out, 0, 1⟩) ∧
    ((∀ i < 2, (s.thread i).pc = .out) → s.value = UNIT) := by
  have hstart : Start ⟨UNIT, fun _ => ⟨.out, 0, 0⟩⟩ := ⟨rfl, fun _ => rfl⟩
  have hrun := @Machine.exec_run _ _ (machine 2) ⟨UNIT, fun _ => ⟨.out, 0, 0⟩⟩ _ [.writeLock 0, .readLock 1] rfl
  have hreach := hrun.reach (.init hstart)
  exact ⟨_, hreach, by decide, rfl, never_wedged 2 (by decide) hreach (by decide)⟩

end Rwlock

end Cs330.Lock
