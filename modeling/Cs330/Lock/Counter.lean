/-
  Cs330.Lock.Counter — part-2's main.c: threads that count under the lock.

  Every thread adds 5 to `wr_ctr` under the write lock and 5 to `rd_ctr` under the read
  lock, `iters` times each; an addition is a load and a store. A step is one access to the
  lock's value or to a counter.

  When all threads are done (which they can become from everywhere), `wr_ctr` is what the
  program says it should be. `rd_ctr` may have lost additions, but only of threads that
  were in the lock together: between two of its own additions a thread takes the write
  lock, so nobody can hold on to an old value. One thread's share is always there
  (`counters`).
-/
import Cs330.Lock.Progress

namespace Cs330.Lock

open Lib Function

/-- Where a thread is in `thfunc`. -/
inductive Phase where
  /-- `ctr<ITERS` -/
  | loop
  | inWriteLock
  /-- `wr_ctr += 5`, the load and the store. -/
  | wrLoad
  | wrStore (v : Nat)
  | writeUnlock
  | readLock
  | inReadLock
  /-- `rd_ctr += 5` -/
  | rdLoad
  | rdStore (v : Nat)
  | readUnlock
  | done
  deriving DecidableEq, Repr

structure Thfunc where
  ctr : Nat
  phase : Phase
  deriving DecidableEq, Repr

structure Main where
  lock : Rwlock
  wrCtr : Nat
  rdCtr : Nat
  th : Nat → Thfunc

namespace Main

/-- Thread `i` goes on, with the lock as it then is. -/
def go (s : Main) (i : Nat) (lock : Rwlock) (t : Thfunc) : Main := { s with lock := lock, th := update s.th i t }

/-- The next step of thread `i`; a lock function returns with the step that leaves it. -/
def stepAt (iters : Nat) (s : Main) (i : Nat) : Option Main :=
  let t := s.th i
  match t.phase with
  | .loop =>
    if t.ctr < iters then (s.lock.stepAt (.writeLock i)).map fun l => s.go i l { t with phase := .inWriteLock }
    else some (s.go i s.lock { t with phase := .done })
  | .inWriteLock => (s.lock.stepAt (.run i)).map fun l =>
      s.go i l { t with phase := if (l.thread i).pc = .out then .wrLoad else .inWriteLock }
  | .wrLoad => some (s.go i s.lock { t with phase := .wrStore s.wrCtr })
  | .wrStore v => some { s.go i s.lock { t with phase := .writeUnlock } with wrCtr := (v + 5) % 2 ^ 64 }
  | .writeUnlock => (s.lock.stepAt (.writeUnlock i)).map fun l => s.go i l { t with phase := .readLock }
  | .readLock => (s.lock.stepAt (.readLock i)).map fun l => s.go i l { t with phase := .inReadLock }
  | .inReadLock => (s.lock.stepAt (.run i)).map fun l =>
      s.go i l { t with phase := if (l.thread i).pc = .out then .rdLoad else .inReadLock }
  | .rdLoad => some (s.go i s.lock { t with phase := .rdStore s.rdCtr })
  | .rdStore v => some { s.go i s.lock { t with phase := .readUnlock } with rdCtr := (v + 5) % 2 ^ 64 }
  | .readUnlock => (s.lock.stepAt (.readUnlock i)).map fun l => s.go i l { ctr := t.ctr + 1, phase := .loop }
  | .done => none

def step (N iters : Nat) (s : Main) (i : Nat) : Option Main := if i < N then s.stepAt iters i else none

/-- After init_rwlock, with all threads created. -/
def Start (s : Main) : Prop := s.lock.Start ∧ s.wrCtr = 0 ∧ s.rdCtr = 0 ∧ ∀ i, s.th i = ⟨0, .loop⟩

def machine (N iters : Nat) : Machine Main Nat := ⟨Start, step N iters⟩

end Main

/-! ## A thread -/

/-- How many times it holds the lock. -/
def Phase.writes : Phase → Nat
  | .wrLoad | .wrStore _ | .writeUnlock => 1
  | _ => 0

def Phase.reads : Phase → Nat
  | .rdLoad | .rdStore _ | .readUnlock => 1
  | _ => 0

/-- It has written in this round, and not yet read. -/
def Phase.toRead : Phase → Bool
  | .readLock | .inReadLock | .rdLoad | .rdStore _ => true
  | _ => false

/-- The additions it has stored. -/
def Thfunc.wrote (t : Thfunc) : Nat := t.ctr + if t.phase.toRead ∨ t.phase = .writeUnlock ∨ t.phase = .readUnlock then 1 else 0
def Thfunc.read (t : Thfunc) : Nat := t.ctr + if t.phase = .readUnlock then 1 else 0

/-- The phases to the end of the round, and those of the rounds after it. -/
def Phase.left : Phase → Nat
  | .loop => 10
  | .inWriteLock => 9
  | .wrLoad => 8
  | .wrStore _ => 7
  | .writeUnlock => 6
  | .readLock => 5
  | .inReadLock => 4
  | .rdLoad => 3
  | .rdStore _ => 2
  | .readUnlock => 1
  | .done => 0

def Thfunc.left (iters : Nat) (t : Thfunc) : Nat := 11 * (iters - t.ctr) + t.phase.left

/-- The lock's view of a thread in a phase. -/
structure Fits (l : Thread) (p : Phase) : Prop where
  writes : l.writes = p.writes
  reads : l.reads = p.reads
  out : l.pc = .out ↔ p ≠ .inWriteLock ∧ p ≠ .inReadLock
  inWrite : p = .inWriteLock → l.pc.inWrite = true
  inRead : p = .inReadLock → l.pc.inRead = true

theorem fits_out {l : Thread} {p : Phase} (h1 : p ≠ .inWriteLock) (h2 : p ≠ .inReadLock) (hpc : l.pc = .out)
    (hw : l.writes = p.writes) (hr : l.reads = p.reads) : Fits l p :=
  ⟨hw, hr, ⟨fun _ => ⟨h1, h2⟩, fun _ => hpc⟩, fun h => absurd h h1, fun h => absurd h h2⟩

namespace Rwlock

variable {s l : Rwlock} {i : Nat}

/-- A step inside write_lock. -/
theorem run_inWrite (hf : Fits (s.thread i) .inWriteLock) (h : s.stepAt (.run i) = some l) :
    (∀ j, j ≠ i → l.thread j = s.thread j) ∧
      Fits (l.thread i) (if (l.thread i).pc = .out then .wrLoad else .inWriteLock) := by
  have hw : (s.thread i).writes = 0 := hf.writes
  have hr : (s.thread i).reads = 0 := hf.reads
  have hin := hf.inWrite rfl
  have hset : ∀ v t, (∀ j, j ≠ i → (s.set v i t).thread j = s.thread j) ∧ (s.set v i t).thread i = t :=
    fun v t => ⟨fun j hj => update_of_ne hj .., update_self ..⟩
  have hsame : ∀ pc, pc ≠ .out → pc.inWrite = true →
      Fits { s.thread i with pc := pc } (if ({ s.thread i with pc := pc } : Thread).pc = .out then .wrLoad else .inWriteLock) := by
    intro pc h1 h2
    rw [if_neg h1]
    exact ⟨hw, hr, ⟨fun h => absurd h h1, fun h => absurd rfl h.1⟩, fun _ => h2, nofun⟩
  cases hpc : (s.thread i).pc with
  | out => rw [hpc] at hin; cases hin
  | readTry => rw [hpc] at hin; cases hin
  | readUndo => rw [hpc] at hin; cases hin
  | writeTry =>
    simp only [stepAt, hpc] at h
    cases h
    refine ⟨(hset _ _).1, ?_⟩
    rw [(hset _ _).2]
    split
    · exact hsame .writeUndo (by decide) rfl
    · rw [if_pos rfl]
      exact fits_out (by decide) (by decide) rfl (congrArg (· + 1) hw) hr
  | writeUndo =>
    simp only [stepAt, hpc] at h
    cases h
    refine ⟨(hset _ _).1, ?_⟩
    rw [(hset _ _).2]
    exact hsame .writeSpin (by decide) rfl
  | writeSpin =>
    simp only [stepAt, hpc] at h
    split at h
    · cases h
      refine ⟨fun _ _ => rfl, ?_⟩
      have := hsame .writeSpin (by decide) rfl
      rwa [← hpc] at this
    · cases h
      refine ⟨(hset _ _).1, ?_⟩
      rw [(hset _ _).2]
      exact hsame .writeTry (by decide) rfl

/-- A step inside read_lock. -/
theorem run_inRead (hf : Fits (s.thread i) .inReadLock) (h : s.stepAt (.run i) = some l) :
    (∀ j, j ≠ i → l.thread j = s.thread j) ∧
      Fits (l.thread i) (if (l.thread i).pc = .out then .rdLoad else .inReadLock) := by
  have hw : (s.thread i).writes = 0 := hf.writes
  have hr : (s.thread i).reads = 0 := hf.reads
  have hin := hf.inRead rfl
  have hset : ∀ v t, (∀ j, j ≠ i → (s.set v i t).thread j = s.thread j) ∧ (s.set v i t).thread i = t :=
    fun v t => ⟨fun j hj => update_of_ne hj .., update_self ..⟩
  have hsame : ∀ pc, pc ≠ .out → pc.inRead = true →
      Fits { s.thread i with pc := pc } (if ({ s.thread i with pc := pc } : Thread).pc = .out then .rdLoad else .inReadLock) := by
    intro pc h1 h2
    rw [if_neg h1]
    exact ⟨hw, hr, ⟨fun h => absurd h h1, fun h => absurd rfl h.2⟩, nofun, fun _ => h2⟩
  cases hpc : (s.thread i).pc with
  | out => rw [hpc] at hin; cases hin
  | writeTry => rw [hpc] at hin; cases hin
  | writeUndo => rw [hpc] at hin; cases hin
  | writeSpin => rw [hpc] at hin; cases hin
  | readTry =>
    simp only [stepAt, hpc] at h
    cases h
    refine ⟨(hset _ _).1, ?_⟩
    rw [(hset _ _).2]
    split
    · exact hsame .readUndo (by decide) rfl
    · rw [if_pos rfl]
      exact fits_out (by decide) (by decide) rfl hw (congrArg (· + 1) hr)
  | readUndo =>
    simp only [stepAt, hpc] at h
    cases h
    refine ⟨(hset _ _).1, ?_⟩
    rw [(hset _ _).2]
    exact hsame .readTry (by decide) rfl

end Rwlock

/-! ## One step -/

structure Thfunc.Bounded (iters : Nat) (t : Thfunc) : Prop where
  le : t.ctr ≤ iters
  lt : t.phase ≠ .loop → t.phase ≠ .done → t.ctr < iters
  done : t.phase = .done → t.ctr = iters

/-- What a step of a thread does to the counters, and to what it has stored. -/
inductive Act (s : Main) (t t' : Thfunc) : Nat → Nat → Prop
  | quiet : t'.wrote = t.wrote → t'.read = t.read → (∀ v, t'.phase ≠ .wrStore v) → (∀ v, t'.phase ≠ .rdStore v) →
      (t'.phase.toRead = true → t.phase.toRead = true ∨ t.phase.writes = 1) → Act s t t' s.wrCtr s.rdCtr
  | wrLoad : t.phase = .wrLoad → t' = { t with phase := .wrStore s.wrCtr } → Act s t t' s.wrCtr s.rdCtr
  | wrStore (v : Nat) : t.phase = .wrStore v → t' = { t with phase := .writeUnlock } → Act s t t' ((v + 5) % 2 ^ 64) s.rdCtr
  | rdLoad : t.phase = .rdLoad → t' = { t with phase := .rdStore s.rdCtr } → Act s t t' s.wrCtr s.rdCtr
  | rdStore (v : Nat) : t.phase = .rdStore v → t' = { t with phase := .readUnlock } → Act s t t' s.wrCtr ((v + 5) % 2 ^ 64)

namespace Main

variable {N iters i : Nat} {s s' : Main}

structure Stepped (iters : Nat) (s : Main) (i : Nat) (s' : Main) : Prop where
  lock : s'.lock = s.lock ∨ ∃ e, e.thread = i ∧ s.lock.stepAt e = some s'.lock
  others : ∀ j, j ≠ i → s'.lock.thread j = s.lock.thread j ∧ s'.th j = s.th j
  fits : Fits (s'.lock.thread i) (s'.th i).phase
  bounded : (s.th i).Bounded iters → (s'.th i).Bounded iters
  act : Act s (s.th i) (s'.th i) s'.wrCtr s'.rdCtr

/-- The lock moves, and the counters do not. -/
theorem stepped_go {l : Rwlock} {t : Thfunc} (hlock : l = s.lock ∨ ∃ e, e.thread = i ∧ s.lock.stepAt e = some l)
    (hothers : ∀ j, j ≠ i → l.thread j = s.lock.thread j) (hfits : Fits (l.thread i) t.phase)
    (hbounded : (s.th i).Bounded iters → t.Bounded iters) (hact : Act s (s.th i) t s.wrCtr s.rdCtr) :
    Stepped iters s i (s.go i l t) := by
  have hself : (s.go i l t).th i = t := update_self ..
  refine ⟨hlock, fun j hj => ⟨hothers j hj, update_of_ne hj ..⟩, ?_, ?_, ?_⟩
  · rw [hself]
    exact hfits
  · rw [hself]
    exact hbounded
  · rw [hself]
    exact hact

theorem stepAt_spec (hf : Fits (s.lock.thread i) (s.th i).phase) (h : s.stepAt iters i = some s') : Stepped iters s i s' := by
  have hset : ∀ (v : Int) t, (∀ j, j ≠ i → (s.lock.set v i t).thread j = s.lock.thread j) ∧ (s.lock.set v i t).thread i = t :=
    fun v t => ⟨fun j hj => update_of_ne hj .., update_self ..⟩
  have hsame : ∀ j, j ≠ i → s.lock.thread j = s.lock.thread j := fun _ _ => rfl
  rcases hth : s.th i with ⟨ctr, phase⟩
  unfold stepAt at h
  rw [hth] at h hf
  simp only at h hf
  cases phase with
  | loop =>
    have hout := hf.out.mpr ⟨by decide, by decide⟩
    simp only at h
    split at h
    · rename_i hlt
      obtain ⟨l, hl, rfl⟩ := Option.map_eq_some_iff.mp h
      have hl' := hl
      simp only [Rwlock.stepAt, hout, if_pos] at hl'
      cases hl'
      refine stepped_go (.inr ⟨_, rfl, hl⟩) (hset _ _).1 ?_ (fun _ => ⟨hlt.le, fun _ _ => hlt, (by simp)⟩) ?_
      · rw [(hset _ _).2]
        exact ⟨hf.writes, hf.reads, ⟨(by simp), fun h => absurd rfl h.1⟩, fun _ => rfl, (by simp)⟩
      · rw [hth]
        exact .quiet rfl rfl (by simp) (by simp) (by simp [Phase.toRead])
    · rename_i hge
      cases h
      refine stepped_go (.inl rfl) hsame ?_ (fun hb => ?_) ?_
      · exact fits_out (by simp) (by simp) hout hf.writes hf.reads
      · rw [hth] at hb
        exact ⟨hb.le, fun _ h => absurd rfl h, fun _ => Nat.le_antisymm hb.le (Nat.le_of_not_lt hge)⟩
      · rw [hth]
        exact .quiet rfl rfl (by simp) (by simp) (by simp [Phase.toRead])
  | inWriteLock =>
    obtain ⟨l, hl, rfl⟩ := Option.map_eq_some_iff.mp h
    obtain ⟨h1, h2⟩ := Rwlock.run_inWrite hf hl
    refine stepped_go (.inr ⟨_, rfl, hl⟩) h1 h2 (fun hb => ?_) ?_
    · rw [hth] at hb
      have hlt := hb.lt (by simp) (by simp)
      exact ⟨hb.le, fun _ _ => hlt, fun h => by split at h <;> cases h⟩
    · rw [hth]
      split
      · exact .quiet rfl rfl (by simp) (by simp) (by simp [Phase.toRead])
      · exact .quiet rfl rfl (by simp) (by simp) (by simp [Phase.toRead])
  | wrLoad =>
    cases h
    refine stepped_go (.inl rfl) hsame ?_ (fun hb => ?_) ?_
    · exact fits_out (by simp) (by simp) (hf.out.mpr ⟨by decide, by decide⟩) hf.writes hf.reads
    · rw [hth] at hb
      exact ⟨hb.le, fun _ _ => hb.lt (by simp) (by simp), (by simp)⟩
    · rw [hth]
      exact .wrLoad rfl rfl
  | wrStore v =>
    cases h
    have hself : (s.go i s.lock { ctr := ctr, phase := .writeUnlock }).th i = ⟨ctr, .writeUnlock⟩ := update_self ..
    refine ⟨.inl rfl, fun j hj => ⟨rfl, update_of_ne hj ..⟩, ?_, fun hb => ?_, ?_⟩
    · rw [hself]
      exact fits_out (by simp) (by simp) (hf.out.mpr ⟨(by simp), (by simp)⟩) hf.writes hf.reads
    · rw [hth] at hb
      rw [hself]
      exact ⟨hb.le, fun _ _ => hb.lt (by simp) (by simp), (by simp)⟩
    · rw [hself, hth]
      exact .wrStore v rfl rfl
  | writeUnlock =>
    obtain ⟨l, hl, rfl⟩ := Option.map_eq_some_iff.mp h
    have hw : (s.lock.thread i).writes = 1 := hf.writes
    have hout := hf.out.mpr ⟨by decide, by decide⟩
    have hl' := hl
    simp only [Rwlock.stepAt, hout, hw, true_and, Nat.zero_lt_one, if_pos] at hl'
    cases hl'
    refine stepped_go (.inr ⟨_, rfl, hl⟩) (hset _ _).1 ?_ (fun hb => ?_) ?_
    · rw [(hset _ _).2]
      exact fits_out (by simp) (by simp) rfl rfl hf.reads
    · rw [hth] at hb
      exact ⟨hb.le, fun _ _ => hb.lt (by simp) (by simp), (by simp)⟩
    · rw [hth]
      exact .quiet rfl rfl (by simp) (by simp) fun _ => .inr rfl
  | readLock =>
    obtain ⟨l, hl, rfl⟩ := Option.map_eq_some_iff.mp h
    have hout := hf.out.mpr ⟨by decide, by decide⟩
    have hl' := hl
    simp only [Rwlock.stepAt, hout, if_pos] at hl'
    cases hl'
    refine stepped_go (.inr ⟨_, rfl, hl⟩) (hset _ _).1 ?_ (fun hb => ?_) ?_
    · rw [(hset _ _).2]
      exact ⟨hf.writes, hf.reads, ⟨(by simp), fun h => absurd rfl h.2⟩, (by simp), fun _ => rfl⟩
    · rw [hth] at hb
      exact ⟨hb.le, fun _ _ => hb.lt (by simp) (by simp), (by simp)⟩
    · rw [hth]
      exact .quiet rfl rfl (by simp) (by simp) fun _ => .inl rfl
  | inReadLock =>
    obtain ⟨l, hl, rfl⟩ := Option.map_eq_some_iff.mp h
    obtain ⟨h1, h2⟩ := Rwlock.run_inRead hf hl
    refine stepped_go (.inr ⟨_, rfl, hl⟩) h1 h2 (fun hb => ?_) ?_
    · rw [hth] at hb
      have hlt := hb.lt (by simp) (by simp)
      exact ⟨hb.le, fun _ _ => hlt, fun h => by split at h <;> cases h⟩
    · rw [hth]
      split
      · exact .quiet rfl rfl (by simp) (by simp) fun _ => .inl rfl
      · exact .quiet rfl rfl (by simp) (by simp) fun _ => .inl rfl
  | rdLoad =>
    cases h
    refine stepped_go (.inl rfl) hsame ?_ (fun hb => ?_) ?_
    · exact fits_out (by simp) (by simp) (hf.out.mpr ⟨by decide, by decide⟩) hf.writes hf.reads
    · rw [hth] at hb
      exact ⟨hb.le, fun _ _ => hb.lt (by simp) (by simp), (by simp)⟩
    · rw [hth]
      exact .rdLoad rfl rfl
  | rdStore v =>
    cases h
    have hself : (s.go i s.lock { ctr := ctr, phase := .readUnlock }).th i = ⟨ctr, .readUnlock⟩ := update_self ..
    refine ⟨.inl rfl, fun j hj => ⟨rfl, update_of_ne hj ..⟩, ?_, fun hb => ?_, ?_⟩
    · rw [hself]
      exact fits_out (by simp) (by simp) (hf.out.mpr ⟨(by simp), (by simp)⟩) hf.writes hf.reads
    · rw [hth] at hb
      rw [hself]
      exact ⟨hb.le, fun _ _ => hb.lt (by simp) (by simp), (by simp)⟩
    · rw [hself, hth]
      exact .rdStore v rfl rfl
  | readUnlock =>
    obtain ⟨l, hl, rfl⟩ := Option.map_eq_some_iff.mp h
    have hr : (s.lock.thread i).reads = 1 := hf.reads
    have hout := hf.out.mpr ⟨by decide, by decide⟩
    have hl' := hl
    simp only [Rwlock.stepAt, hout, hr, true_and, Nat.zero_lt_one, if_pos] at hl'
    cases hl'
    refine stepped_go (.inr ⟨_, rfl, hl⟩) (hset _ _).1 ?_ (fun hb => ?_) ?_
    · rw [(hset _ _).2]
      exact fits_out (by simp) (by simp) rfl hf.writes rfl
    · rw [hth] at hb
      exact ⟨hb.lt (by simp) (by simp), fun h => absurd rfl h, (by simp)⟩
    · rw [hth]
      exact .quiet rfl rfl (by simp) (by simp) (by simp [Phase.toRead])
  | done => cases h

/-! ## The counters -/

def written (N : Nat) (s : Main) : Nat := total N fun i => (s.th i).wrote
def reads (N : Nat) (s : Main) : Nat := total N fun i => (s.th i).read

/-- The lock has been used as documented, by threads that are where it takes them to be. -/
structure Base (N iters : Nat) (s : Main) : Prop where
  lock : (Rwlock.machine N).Reach Machine.any s.lock
  fits : ∀ i < N, Fits (s.lock.thread i) (s.th i).phase
  bounded : ∀ i < N, (s.th i).Bounded iters

structure Written (N : Nat) (s : Main) : Prop where
  sum : s.wrCtr = 5 * s.written N % 2 ^ 64
  held : ∀ i < N, ∀ v, (s.th i).phase = .wrStore v → v = s.wrCtr

/-- What a thread has loaded, and is about to store plus 5: the others have added once since, or not. -/
structure Held (N : Nat) (s : Main) (v : Nat) : Prop where
  dvd : 5 ∣ v
  le : v ≤ 5 * s.reads N
  ge : ∀ j < N, 5 * (s.th j).read ≤ v + 5
  toRead : ∀ j < N, (s.th j).phase.toRead = true → 5 * (s.th j).read ≤ v

structure Read (N : Nat) (s : Main) : Prop where
  dvd : 5 ∣ s.rdCtr
  le : s.rdCtr ≤ 5 * s.reads N
  ge : ∀ j < N, 5 * (s.th j).read ≤ s.rdCtr
  held : ∀ i < N, ∀ v, (s.th i).phase = .rdStore v → Held N s v

theorem start_base (h : s.Start) : Base N iters s := by
  obtain ⟨hlock, -, -, hth⟩ := h
  refine ⟨.init hlock, fun i _ => ?_, fun i _ => ?_⟩
  · rw [hth, hlock.2]
    exact fits_out nofun nofun rfl rfl rfl
  · rw [hth]
    exact ⟨Nat.zero_le _, fun h => absurd rfl h, nofun⟩

theorem start_written (h : s.Start) : Written N s := by
  obtain ⟨-, hwr, -, hth⟩ := h
  refine ⟨?_, fun i _ v h => ?_⟩
  · have hw : s.written N = 0 := by
      unfold written
      simp only [hth]
      exact total_zero N
    rw [hw, hwr]
    rfl
  · rw [hth] at h
    cases h

theorem start_read (h : s.Start) : Read N s := by
  obtain ⟨-, -, hrd, hth⟩ := h
  refine ⟨?_, ?_, fun j _ => ?_, fun i _ v h => ?_⟩
  · rw [hrd]
    exact Nat.dvd_zero 5
  · rw [hrd]
    exact Nat.zero_le _
  · rw [hth, hrd]
    exact Nat.le_refl 0
  · rw [hth] at h
    cases h

/-- A thread that has not added to what `v` was loaded from. -/
theorem Held.step {v : Nat} (hi : i < N) (hv : Held N s v) (hs : Stepped iters s i s') (hread : (s.th i).read ≤ (s'.th i).read)
    (hge : 5 * (s'.th i).read ≤ v + 5) (hto : (s'.th i).phase.toRead = true → 5 * (s'.th i).read ≤ v) : Held N s' v := by
  have hsum : s'.reads N + (s.th i).read = s.reads N + (s'.th i).read :=
    total_change hi fun j hj => congrArg Thfunc.read (hs.others j hj).2
  have hle := hv.le
  refine ⟨hv.dvd, by omega, fun j hj => ?_, fun j hj hp => ?_⟩
  · by_cases hji : j = i
    · rw [hji]
      exact hge
    · rw [(hs.others j hji).2]
      exact hv.ge j hj
  · by_cases hji : j = i
    · subst hji
      exact hto hp
    · rw [(hs.others j hji).2] at hp ⊢
      exact hv.toRead j hj hp

section
variable (h : Base N iters s) (hi : i < N)
include h hi

/-- Who writes is alone. -/
theorem alone (hN : N < 32768) {j : Nat} (hw : (s.th i).phase.writes = 1) (hj : j < N) : (s.th j).phase.reads = 0 ∧
    ((s.th j).phase.writes = 1 → j = i) := by
  obtain ⟨h1, h2⟩ := (Rwlock.reach_inv hN h.lock).excludes
  have hwi : 0 < (s.lock.thread i).writes := by
    rw [(h.fits i hi).writes, hw]
    exact Nat.one_pos
  refine ⟨?_, fun hwj => h1 j hj i hi ?_ hwi⟩
  · rw [← (h.fits j hj).reads]
    exact h2 i hi hwi j hj
  · rw [(h.fits j hj).writes, hwj]
    exact Nat.one_pos

theorem reads_lt (hlt : (s.th i).ctr < iters) (hread : (s.th i).read = (s.th i).ctr) : s.reads N + 1 ≤ N * iters := by
  have hle : ∀ j < N, (s.th j).read ≤ iters := fun j hj => by
    have hb := h.bounded j hj
    unfold Thfunc.read
    split
    · rename_i hp
      exact hb.lt (by rw [hp]; nofun) (by rw [hp]; nofun)
    · exact hb.le
  -- thread i has one to go
  have hup : total N (fun j => update (fun j => (s.th j).read) i iters j) + (s.th i).read =
      total N (fun j => (s.th j).read) + iters := total_update hi id (fun j => (s.th j).read) iters
  have hsum : total N (fun j => update (fun j => (s.th j).read) i iters j) ≤ total N fun _ => iters := total_le fun j hj => by
    by_cases hji : j = i
    · rw [hji, update_self]
    · rw [update_of_ne hji]
      exact hle j hj
  rw [total_const] at hsum
  unfold reads
  omega

theorem base_step (hs : Stepped iters s i s') : Base N iters s' := by
  refine ⟨?_, fun j hj => ?_, fun j hj => ?_⟩
  · rcases hs.lock with hsame | ⟨e, he, hstep⟩
    · rw [hsame]
      exact h.lock
    · exact .step h.lock trivial ((if_pos (he ▸ hi)).trans hstep)
  · by_cases hji : j = i
    · rw [hji]
      exact hs.fits
    · rw [(hs.others j hji).1, (hs.others j hji).2]
      exact h.fits j hj
  · by_cases hji : j = i
    · rw [hji]
      exact hs.bounded (h.bounded i hi)
    · rw [(hs.others j hji).2]
      exact h.bounded j hj

theorem written_step (hN : N < 32768) (hw : Written N s) (hs : Stepped iters s i s') : Written N s' := by
  have hsum : s'.written N + (s.th i).wrote = s.written N + (s'.th i).wrote :=
    total_change hi fun j hj => congrArg Thfunc.wrote (hs.others j hj).2
  -- where the counter stays, and the thread does not load it
  have hcalm : s'.wrCtr = s.wrCtr → (s'.th i).wrote = (s.th i).wrote →
      (∀ v, (s'.th i).phase = .wrStore v → v = s.wrCtr) → Written N s' := by
    intro hc hsame hno
    refine ⟨?_, fun j hj v hv => ?_⟩
    · rw [hc, hw.sum, show s'.written N = s.written N by omega]
    · rw [hc]
      by_cases hji : j = i
      · exact hno v (hji ▸ hv)
      · rw [(hs.others j hji).2] at hv
        exact hw.held j hj v hv
  have hact := hs.act
  generalize hc : s'.wrCtr = wr, hd : s'.rdCtr = rd at hact
  cases hact with
  | quiet h1 h2 h3 h4 h5 => exact hcalm hc h1 fun v hv => absurd hv (h3 v)
  | wrLoad hp ht =>
    refine hcalm hc ?_ fun v hv => ?_
    · rw [ht]
      unfold Thfunc.wrote
      rw [hp]
      rfl
    · rw [ht] at hv
      cases hv
      rfl
  | wrStore v hp ht =>
    obtain rfl := hw.held i hi v hp
    have hadd : (s'.th i).wrote = (s.th i).wrote + 1 := by
      rw [ht]
      unfold Thfunc.wrote
      rw [hp]
      rfl
    refine ⟨?_, fun j hj u hu => ?_⟩
    · rw [hc, hw.sum, show s'.written N = s.written N + 1 by omega]
      omega
    · by_cases hji : j = i
      · rw [hji, ht] at hu
        cases hu
      · rw [(hs.others j hji).2] at hu
        exact absurd ((alone h hi hN (by rw [hp]; rfl) hj).2 (by rw [hu]; rfl)) hji
  | rdLoad hp ht =>
    refine hcalm hc ?_ fun v hv => ?_
    · rw [ht]
      unfold Thfunc.wrote
      rw [hp]
      rfl
    · rw [ht] at hv
      cases hv
  | rdStore v hp ht =>
    refine hcalm hc ?_ fun u hu => ?_
    · rw [ht]
      unfold Thfunc.wrote
      rw [hp]
      rfl
    · rw [ht] at hu
      cases hu

theorem read_step (hN : N < 32768) (hsmall : 5 * (N * iters) < 2 ^ 64) (hr : Read N s) (hs : Stepped iters s i s') : Read N s' := by
  have hsum : s'.reads N + (s.th i).read = s.reads N + (s'.th i).read :=
    total_change hi fun j hj => congrArg Thfunc.read (hs.others j hj).2
  -- where nothing is stored: what the others hold stays good
  have hcalm : s'.rdCtr = s.rdCtr → (s'.th i).read = (s.th i).read →
      ((s'.th i).phase.toRead = true → (s.th i).phase.toRead = true ∨ (s.th i).phase.writes = 1) →
      (∀ v, (s'.th i).phase = .rdStore v → v = s.rdCtr) → Read N s' := by
    intro hc hsame hto hown
    have heldOf : ∀ j < N, ∀ v, (s.th j).phase = .rdStore v → Held N s' v := fun j hj v hv => by
      have hheld := hr.held j hj v hv
      refine hheld.step hi hs (Nat.le_of_eq hsame.symm) (hsame ▸ hheld.ge i hi) fun hp => ?_
      rcases hto hp with h1 | h1
      · rw [hsame]
        exact hheld.toRead i hi h1
      · have hno := (alone h hi hN h1 hj).1
        rw [hv] at hno
        cases hno
    refine ⟨by rw [hc]; exact hr.dvd, ?_, fun j hj => ?_, fun j hj v hv => ?_⟩
    · rw [hc, show s'.reads N = s.reads N by omega]
      exact hr.le
    · rw [hc]
      by_cases hji : j = i
      · rw [hji, hsame]
        exact hr.ge i hi
      · rw [(hs.others j hji).2]
        exact hr.ge j hj
    · by_cases hji : j = i
      · subst hji
        obtain rfl := hown v hv
        have hall : ∀ k < N, 5 * (s'.th k).read ≤ s.rdCtr := fun k hk => by
          by_cases hkj : k = j
          · rw [hkj, hsame]
            exact hr.ge j hj
          · rw [(hs.others k hkj).2]
            exact hr.ge k hk
        refine ⟨hr.dvd, ?_, fun k hk => (hall k hk).trans (Nat.le_add_right _ _), fun k hk _ => hall k hk⟩
        rw [show s'.reads N = s.reads N by omega]
        exact hr.le
      · rw [(hs.others j hji).2] at hv
        exact heldOf j hj v hv
  have hact := hs.act
  generalize hc : s'.wrCtr = wr, hd : s'.rdCtr = rd at hact
  cases hact with
  | quiet h1 h2 h3 h4 h5 => exact hcalm hd h2 h5 fun v hv => absurd hv (h4 v)
  | wrLoad hp ht =>
    refine hcalm hd ?_ (fun hto => ?_) fun v hv => ?_
    · rw [ht]
      unfold Thfunc.read
      rw [hp]
      rfl
    · rw [ht] at hto
      cases hto
    · rw [ht] at hv
      cases hv
  | wrStore v hp ht =>
    refine hcalm hd ?_ (fun hto => ?_) fun u hu => ?_
    · rw [ht]
      unfold Thfunc.read
      rw [hp]
      rfl
    · rw [ht] at hto
      cases hto
    · rw [ht] at hu
      cases hu
  | rdLoad hp ht =>
    refine hcalm hd ?_ (fun _ => .inl (by rw [hp]; rfl)) fun v hv => ?_
    · rw [ht]
      unfold Thfunc.read
      rw [hp]
      rfl
    · rw [ht] at hv
      cases hv
      rfl
  | rdStore v hp ht =>
    have hheld := hr.held i hi v hp
    have hread : (s.th i).read = (s.th i).ctr := by
      unfold Thfunc.read
      rw [hp]
      rfl
    have hadd : (s'.th i).read = (s.th i).read + 1 := by
      rw [hread, ht]
      rfl
    have hlt := (h.bounded i hi).lt (by rw [hp]; nofun) (by rw [hp]; nofun)
    have hroom := reads_lt h hi hlt hread
    have hle := hheld.le
    have hown := hheld.toRead i hi (by rw [hp]; rfl)
    have hnowrap : (v + 5) % 2 ^ 64 = v + 5 := Nat.mod_eq_of_lt (by omega)
    refine ⟨?_, ?_, fun j hj => ?_, fun j hj u hu => ?_⟩
    · rw [hd, hnowrap]
      exact Nat.dvd_add hheld.dvd (Nat.dvd_refl 5)
    · rw [hd, hnowrap]
      omega
    · rw [hd, hnowrap]
      by_cases hji : j = i
      · rw [hji, hadd]
        omega
      · rw [(hs.others j hji).2]
        exact hheld.ge j hj
    · have hji : j ≠ i := by
        rintro rfl
        rw [ht] at hu
        cases hu
      rw [(hs.others j hji).2] at hu
      have hother := hr.held j hj u hu
      have hto := hother.toRead i hi (by rw [hp]; rfl)
      refine hother.step hi hs (by omega) (by omega) fun hp' => ?_
      rw [ht] at hp'
      cases hp'

end

/-! ## All threads can finish -/

/-- A step brings its thread on, or leaves it waiting for the lock. -/
theorem stepAt_left (hb : (s.th i).Bounded iters) (h : s.stepAt iters i = some s') :
    (s'.th i = s.th i ∧ ((s.th i).phase = .inWriteLock ∨ (s.th i).phase = .inReadLock)) ∨
      (s'.th i).left iters < (s.th i).left iters := by
  have hgo : ∀ l t, (s.go i l t).th i = t := fun _ _ => update_self ..
  rcases hth : s.th i with ⟨ctr, phase⟩
  rw [hth] at hb
  unfold stepAt at h
  rw [hth] at h
  cases phase with
  | loop =>
    simp only at h
    split at h
    · obtain ⟨l, -, rfl⟩ := Option.map_eq_some_iff.mp h
      rw [hgo]
      exact .inr (Nat.lt_succ_self _)
    · cases h
      rw [hgo]
      exact .inr (Nat.add_lt_add_left (show 0 < 10 by decide) _)
  | inWriteLock =>
    obtain ⟨l, -, rfl⟩ := Option.map_eq_some_iff.mp h
    rw [hgo]
    split
    · exact .inr (Nat.lt_succ_self _)
    · exact .inl ⟨rfl, .inl rfl⟩
  | inReadLock =>
    obtain ⟨l, -, rfl⟩ := Option.map_eq_some_iff.mp h
    rw [hgo]
    split
    · exact .inr (Nat.lt_succ_self _)
    · exact .inl ⟨rfl, .inr rfl⟩
  | writeUnlock =>
    obtain ⟨l, -, rfl⟩ := Option.map_eq_some_iff.mp h
    rw [hgo]
    exact .inr (Nat.lt_succ_self _)
  | readLock =>
    obtain ⟨l, -, rfl⟩ := Option.map_eq_some_iff.mp h
    rw [hgo]
    exact .inr (Nat.lt_succ_self _)
  | readUnlock =>
    obtain ⟨l, -, rfl⟩ := Option.map_eq_some_iff.mp h
    have hlt : ctr < iters := hb.lt nofun nofun
    rw [hgo]
    refine .inr ?_
    show 11 * (iters - (ctr + 1)) + 10 < 11 * (iters - ctr) + 1
    omega
  | done => cases h
  | _ =>
    cases h
    refine .inr ?_
    show ((update s.th i _) i).left iters < _
    rw [update_self]
    exact Nat.lt_succ_self _

/-- Outside the lock functions a thread can always go on. -/
theorem stepAt_isSome (hf : Fits (s.lock.thread i) (s.th i).phase) (h1 : (s.th i).phase ≠ .inWriteLock)
    (h2 : (s.th i).phase ≠ .inReadLock) (h3 : (s.th i).phase ≠ .done) : (s.stepAt iters i).isSome := by
  have hout := hf.out.mpr ⟨h1, h2⟩
  have hw := hf.writes
  have hr := hf.reads
  rcases hth : s.th i with ⟨ctr, phase⟩
  rw [hth] at h1 h2 h3 hw hr
  unfold stepAt
  rw [hth]
  cases phase with
  | inWriteLock => exact absurd rfl h1
  | inReadLock => exact absurd rfl h2
  | done => exact absurd rfl h3
  | loop =>
    simp only
    split
    · rw [Option.isSome_map, Rwlock.stepAt, if_pos hout]
      rfl
    · rfl
  | writeUnlock =>
    rw [Option.isSome_map, Rwlock.stepAt, if_pos ⟨hout, by rw [hw]; exact Nat.one_pos⟩]
    rfl
  | readLock =>
    rw [Option.isSome_map, Rwlock.stepAt, if_pos hout]
    rfl
  | readUnlock =>
    rw [Option.isSome_map, Rwlock.stepAt, if_pos ⟨hout, by rw [hr]; exact Nat.one_pos⟩]
    rfl
  | _ => rfl

/-- What the lock does by itself is what the threads inside it do. -/
theorem lock_run {l : Rwlock} {es : List Rwlock.Ev} (hr : (Rwlock.machine N).Run Rwlock.Onward s.lock es l) (h : Base N iters s) :
    ∃ js s', (machine N iters).Run Machine.any s js s' ∧ Base N iters s' ∧ s'.lock = l ∧
      ∀ j, s'.th j = s.th j ∨ (s'.th j).left iters < (s.th j).left iters := by
  generalize hlk : s.lock = k at hr
  induction hr generalizing s with
  | nil => exact ⟨[], s, .nil s, h, hlk, fun _ => .inl rfl⟩
  | @cons _ m _ _ es ho he _ ih =>
    subst hlk
    obtain ⟨i, rfl⟩ := ho
    have he : Rwlock.step N s.lock (.run i) = some m := he
    unfold Rwlock.step at he
    split at he
    swap
    · cases he
    rename_i hi
    have hi : i < N := hi
    have hf := h.fits i hi
    -- a thread that is in no lock function has no such step
    have hstep : ∃ t, s.stepAt iters i = some (s.go i m t) := by
      by_cases h1 : (s.th i).phase = .inWriteLock
      · unfold stepAt
        simp only [h1, he, Option.map_some]
        exact ⟨_, rfl⟩
      by_cases h2 : (s.th i).phase = .inReadLock
      · unfold stepAt
        simp only [h2, he, Option.map_some]
        exact ⟨_, rfl⟩
      · have hout := hf.out.mpr ⟨h1, h2⟩
        simp only [Rwlock.stepAt, hout] at he
        cases he
    obtain ⟨t, ht⟩ := hstep
    have hspec := stepAt_spec hf ht
    obtain ⟨js, s', hrun, hb, hl, hleft⟩ := ih (base_step h hi hspec) rfl
    refine ⟨i :: js, s', .cons trivial ((if_pos hi).trans ht) hrun, hb, hl, fun j => ?_⟩
    have hfirst : (s.go i m t).th j = s.th j ∨ ((s.go i m t).th j).left iters < (s.th j).left iters := by
      by_cases hji : j = i
      · subst hji
        exact (stepAt_left (h.bounded j hi) ht).imp_left And.left
      · exact .inl (hspec.others j hji).2
    rcases hleft j with h1 | h1 <;> rcases hfirst with h2 | h2
    · exact .inl (h1.trans h2)
    · exact .inr (by rw [h1]; exact h2)
    · exact .inr (by rw [← h2]; exact h1)
    · exact .inr (h1.trans h2)

/-- While somebody is not done, the threads can come closer to the end. -/
theorem closer (hN : N < 32768) (h : Base N iters s) (hi : i < N) (hnot : (s.th i).phase ≠ .done) :
    ∃ js s', (machine N iters).Run Machine.any s js s' ∧ Base N iters s' ∧
      total N (fun j => (s'.th j).left iters) < total N fun j => (s.th j).left iters := by
  have hless : ∀ s' : Main, (∀ j, s'.th j = s.th j ∨ (s'.th j).left iters < (s.th j).left iters) →
      (∃ j < N, (s'.th j).left iters < (s.th j).left iters) →
      total N (fun j => (s'.th j).left iters) < total N fun j => (s.th j).left iters := by
    intro s' hall ⟨j, hj, hlt⟩
    refine Finset.sum_lt_sum (fun k _ => ?_) ⟨j, Finset.mem_range.mpr hj, hlt⟩
    rcases hall k with hk | hk
    · rw [hk]
    · exact hk.le
  by_cases hfree : ∃ j < N, (s.th j).phase ≠ .inWriteLock ∧ (s.th j).phase ≠ .inReadLock ∧ (s.th j).phase ≠ .done
  · obtain ⟨j, hj, h1, h2, h3⟩ := hfree
    have hcan : (s.stepAt iters j).isSome := stepAt_isSome (h.fits j hj) h1 h2 h3
    obtain ⟨s', hs'⟩ := Option.isSome_iff_exists.mp hcan
    have hspec := stepAt_spec (h.fits j hj) hs'
    have hlt : (s'.th j).left iters < (s.th j).left iters := by
      refine (stepAt_left (h.bounded j hj) hs').resolve_left fun hsame => ?_
      rcases hsame.2 with hp | hp
      · exact h1 hp
      · exact h2 hp
    refine ⟨[j], s', .cons trivial ((if_pos hj).trans hs') (.nil s'), base_step h hj hspec, hless s' (fun k => ?_) ⟨j, hj, hlt⟩⟩
    by_cases hkj : k = j
    · rw [hkj]
      exact .inr hlt
    · exact .inl (hspec.others k hkj).2
  · -- all are in the lock functions or done: nobody holds the lock, and the lock lets thread i in
    have hall : ∀ j < N, (s.th j).phase = .inWriteLock ∨ (s.th j).phase = .inReadLock ∨ (s.th j).phase = .done := by
      intro j hj
      by_contra hno
      exact hfree ⟨j, hj, fun h => hno (.inl h), fun h => hno (.inr (.inl h)), fun h => hno (.inr (.inr h))⟩
    have hnone : Rwlock.Free N s.lock := by
      intro j hj
      rw [(h.fits j hj).writes, (h.fits j hj).reads]
      rcases hall j hj with hp | hp | hp
      all_goals rw [hp]; exact ⟨rfl, rfl⟩
    have hin : (s.lock.thread i).pc ≠ .out := by
      intro hout
      obtain ⟨h1, h2⟩ := (h.fits i hi).out.mp hout
      rcases hall i hi with hp | hp | hp
      · exact h1 hp
      · exact h2 hp
      · exact hnot hp
    obtain ⟨es, l, hrun, hgot⟩ := (Rwlock.never_wedged N hN h.lock hnone).1 i hi hin
    obtain ⟨js, s', hrun', hb, hl, hleft⟩ := lock_run hrun h
    refine ⟨js, s', hrun', hb, hless s' hleft ⟨i, hi, (hleft i).resolve_left fun hsame => ?_⟩⟩
    have hout : (s'.lock.thread i).pc = .out := by
      rw [hl, hgot]
      split
      · rfl
      · rfl
    obtain ⟨h1, h2⟩ := (hb.fits i hi).out.mp hout
    rw [hsame] at h1 h2
    rcases hall i hi with hp | hp | hp
    · exact h1 hp
    · exact h2 hp
    · exact hnot hp

theorem finish (hN : N < 32768) (h : Base N iters s) :
    ∃ js t, (machine N iters).Run Machine.any s js t ∧ ∀ i < N, (t.th i).phase = .done := by
  have hcloser : ∀ u, Base N iters u → (∀ i < N, (u.th i).phase = .done) ∨ ∃ js t, (machine N iters).Run Machine.any u js t ∧
      Base N iters t ∧ total N (fun j => (t.th j).left iters) < total N fun j => (u.th j).left iters := by
    intro u hu
    by_cases hdone : ∀ i < N, (u.th i).phase = .done
    · exact .inl hdone
    push Not at hdone
    obtain ⟨i, hi, hnot⟩ := hdone
    exact .inr (closer hN hu hi hnot)
  obtain ⟨js, t, hrun, -, ht⟩ := Machine.drain _ hcloser h
  exact ⟨js, t, hrun, ht⟩

/-! ## Runs -/

/-- From every state all threads can finish. Then no addition under the write lock is lost, and of those under the read lock
    there are at least as many as one thread makes. -/
theorem counters (N iters : Nat) (hN : N < 32768) (hsmall : 5 * (N * iters) < 2 ^ 64) {s : Main}
    (h : (machine N iters).Reach Machine.any s) :
    (∃ js t, (machine N iters).Run Machine.any s js t ∧ ∀ i < N, (t.th i).phase = .done) ∧
      ((∀ i < N, (s.th i).phase = .done) → s.wrCtr = 5 * (N * iters) ∧ 5 ∣ s.rdCtr ∧ s.rdCtr ≤ 5 * (N * iters) ∧
        (0 < N → 5 * iters ≤ s.rdCtr)) := by
  have hall : Base N iters s ∧ Written N s ∧ Read N s := by
    refine h.inv (fun s => Base N iters s ∧ Written N s ∧ Read N s) (fun s hs => ⟨start_base hs, start_written hs, start_read hs⟩)
      fun s i s' ⟨hb, hw, hr⟩ _ he => ?_
    have he : step N iters s i = some s' := he
    unfold step at he
    split at he
    · rename_i hi
      have hspec := stepAt_spec (hb.fits i hi) he
      exact ⟨base_step hb hi hspec, written_step hb hi hN hw hspec, read_step hb hi hN hsmall hr hspec⟩
    · cases he
  obtain ⟨hb, hw, hr⟩ := hall
  refine ⟨finish hN hb, fun hdone => ?_⟩
  have hth : ∀ i < N, (s.th i).wrote = iters ∧ (s.th i).read = iters := by
    intro i hi
    unfold Thfunc.wrote Thfunc.read
    rw [hdone i hi, (hb.bounded i hi).done (hdone i hi)]
    exact ⟨rfl, rfl⟩
  have hwsum : s.written N = N * iters := by
    refine Eq.trans ?_ (total_const N iters)
    exact Nat.le_antisymm (total_le fun i hi => (hth i hi).1.le) (total_le fun i hi => (hth i hi).1.ge)
  have hrsum : s.reads N = N * iters := by
    refine Eq.trans ?_ (total_const N iters)
    exact Nat.le_antisymm (total_le fun i hi => (hth i hi).2.le) (total_le fun i hi => (hth i hi).2.ge)
  refine ⟨?_, hr.dvd, ?_, fun hpos => ?_⟩
  · rw [hw.sum, hwsum]
    exact Nat.mod_eq_of_lt hsmall
  · rw [← hrsum]
    exact hr.le
  · have hge := hr.ge 0 hpos
    rwa [(hth 0 hpos).2] at hge

/-- Both threads are in the read lock when they load `rd_ctr`: one addition is lost. -/
theorem counters_two : ∃ s, (machine 2 1).Reach Machine.any s ∧ s.rdCtr = 5 ∧ s.wrCtr = 5 * (2 * 1) ∧ 5 ∣ s.rdCtr ∧
    s.rdCtr ≤ 5 * (2 * 1) ∧ (0 < 2 → 5 * 1 ≤ s.rdCtr) := by
  have hstart : Start ⟨⟨UNIT, fun _ => ⟨.out, 0, 0⟩⟩, 0, 0, fun _ => ⟨0, .loop⟩⟩ := ⟨⟨rfl, fun _ => rfl⟩, rfl, rfl, fun _ => rfl⟩
  have hrun := @Machine.exec_run _ _ (machine 2 1) ⟨⟨UNIT, fun _ => ⟨.out, 0, 0⟩⟩, 0, 0, fun _ => ⟨0, .loop⟩⟩ _
    ([0, 0, 0, 0, 0] ++ [1, 1, 1, 1, 1] ++ [0, 0, 1, 1, 0, 1, 0, 1, 0, 1, 0, 1]) rfl
  have hreach := hrun.reach (.init hstart)
  exact ⟨_, hreach, rfl, (counters 2 1 (by decide) (by decide) hreach).2 (by decide)⟩

end Main

end Cs330.Lock
