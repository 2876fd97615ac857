/-
  Cs330.Hash.Gate — `read_op` and `done_one` of parallel_hash.c, each section under
  `in->lock` one step, for threads 1..N (`tnum`).

  A thread takes the next record, registers its `op_t` in `being_processed[tnum - 1]`,
  and scans the array for an operation on the same key with a smaller id: it sleeps on the
  condition if there is one and returns 0 if there is none. `done_one` clears the slot and
  wakes every sleeper, which scans again. Between a thread's return and its `done_one`
  (`Pc.active`) the table operation runs; here that is any time in between.

  The scan covers slots 0..31, `being_processed` has THREADS = 33. So with 33 threads the
  operation of thread 33 holds nobody back. Proved: same-key operations exclude each other
  and return in id order in every interleaving if and only if there are at most 32 threads
  or no two operations (the later of which can be read without a fault) have one key
  (`exclusive_iff`). `Inv` is the invariant for at most 32 threads; `solo_run` the run of
  one thread past any number of records, from which the schedule for 33 is made.
-/
import Cs330.Hash.Input
import Cs330.Lib.Machine
import Mathlib.Logic.Function.Basic

namespace Cs330.Hash

open Lib Function

def THREADS : Nat := 33

/-- Where a thread is in its loop. `scanning`: registered, holds the lock and is about to
    look at `being_processed`. -/
inductive Pc where
  | idle
  | scanning
  | asleep
  | active
  | finished
  deriving DecidableEq, Repr

/-- `read_op` has registered the thread's operation and `done_one` has not yet run. -/
def Pc.inside : Pc → Bool
  | .scanning | .asleep | .active => true
  | .idle | .finished => false

/-- `struct input_manager` and the threads' side of it. Slot `i` holds `&op` of thread
    `i + 1` or NULL. -/
structure Gate where
  curr : Nat
  being : Nat → Bool
  op : Nat → Op
  pc : Nat → Pc
  fault : Option Abort
  /-- Key and id of each operation `read_op` has returned 0 for, in order. -/
  returned : List (Nat × Nat)

namespace Gate

/-- The scan of `being_processed`: `for(int i=0;i<32;i++)`. -/
def conflict (g : Gate) (t : Nat) : Bool :=
  (List.range 32).any fun i =>
    g.being i && ((g.op (i + 1)).key == (g.op t).key && decide ((g.op (i + 1)).id < (g.op t).id))

/-- Scan, then sleep or return. -/
def scan (g : Gate) (t : Nat) : Gate :=
  if g.conflict t then { g with pc := update g.pc t .asleep }
  else { g with pc := update g.pc t .active, returned := g.returned ++ [((g.op t).key, (g.op t).id)] }

def register (g : Gate) (t : Nat) (op : Op) (curr : Nat) : Gate :=
  { g with
    curr := curr
    op := update g.op t op
    being := update g.being (t - 1) true
    pc := update g.pc t .scanning }

def readOp (file : List UInt8) (g : Gate) (t : Nat) : Gate :=
  match fetch file g.curr (g.op t) with
  | .segv => { g with fault := some .segv }
  | .assert => { g with fault := some .assert }
  | .fail op curr => { g with curr := curr, op := update g.op t op, pc := update g.pc t .finished }
  | .got op curr => (g.register t op curr).scan t

def doneOne (g : Gate) (t : Nat) : Gate :=
  { g with
    being := update g.being (t - 1) false
    pc := fun u => if u = t then .idle else if g.pc u = .asleep then .scanning else g.pc u }

inductive Ev where
  | read (t : Nat)
  /-- A wake-up without a broadcast, as pthread_cond_wait allows. -/
  | spurious (t : Nat)
  | rescan (t : Nat)
  | done (t : Nat)
  deriving DecidableEq, Repr

def Ev.tnum : Ev → Nat
  | .read t | .spurious t | .rescan t | .done t => t

def stepAt (file : List UInt8) (g : Gate) : Ev → Option Gate
  | .read t => if g.pc t = .idle then some (g.readOp file t) else none
  | .spurious t => if g.pc t = .asleep then some { g with pc := update g.pc t .scanning } else none
  | .rescan t => if g.pc t = .scanning then some (g.scan t) else none
  | .done t => if g.pc t = .active then some (g.doneOne t) else none

/-- A step of one of the threads 1..N, while the program runs. -/
def step (file : List UInt8) (N : Nat) (g : Gate) (e : Ev) : Option Gate :=
  if g.fault = none ∧ 1 ≤ e.tnum ∧ e.tnum ≤ N then g.stepAt file e else none

def Start (g : Gate) : Prop :=
  g.curr = 0 ∧ (∀ i, g.being i = false) ∧ (∀ t, g.pc t = .idle) ∧ g.fault = none ∧ g.returned = []

def machine (file : List UInt8) (N : Nat) : Machine Gate Ev := ⟨Start, step file N⟩

/-- No two threads are between `read_op` and `done_one` with one key. -/
def Exclusive (g : Gate) : Prop :=
  ∀ t u, g.pc t = .active → g.pc u = .active → (g.op t).key = (g.op u).key → t = u

/-- Same-key operations have returned from `read_op` in id order. -/
def InOrder (g : Gate) : Prop := g.returned.Pairwise fun a b => a.1 = b.1 → a.2 < b.2

/-! ## The invariant -/

/-- The copy of a record's header stays inside the mapping. -/
def Readable (recs : List Rec) (i : Nat) : Prop := offset recs i + 24 ≤ mapLen (encode recs)

def IdsIncrease (recs : List Rec) : Prop := recs.Pairwise fun a b => a.id < b.id

/-- No two records have one key, as far as the later one can be read at all. -/
def KeysDiffer (recs : List Rec) : Prop :=
  ∀ i j a b, i < j → recs[i]? = some a → recs[j]? = some b → Readable recs j → a.key ≠ b.key

/-- `c` records have been taken; a thread inside holds record `tk t`. -/
structure Inv (recs : List Rec) (N : Nat) (g : Gate) (c : Nat) (tk : Nat → Nat) : Prop where
  cursor : (g.curr = offset recs c ∧ c ≤ recs.length) ∨ ((encode recs).length < g.curr ∧ c = recs.length)
  being : ∀ i, g.being i = true ↔ (g.pc (i + 1)).inside = true
  range : ∀ t, (g.pc t).inside = true → 1 ≤ t ∧ t ≤ N
  ticket : ∀ t, (g.pc t).inside = true → tk t < c ∧ Readable recs (tk t) ∧ ∃ r, recs[tk t]? = some r ∧
    (g.op t).id = r.id ∧ (g.op t).key = r.key ∧ (g.op t).opType = r.opType
  inj : ∀ t u, (g.pc t).inside = true → (g.pc u).inside = true → tk t = tk u → t = u
  alone : ∀ t u, g.pc t = .active → (g.pc u).inside = true → u ≠ t → (g.op u).key = (g.op t).key →
    (g.op t).id < (g.op u).id
  order : g.InOrder
  seen : ∀ e ∈ g.returned, (∃ i < c, ∃ r, recs[i]? = some r ∧ e = (r.key, r.id)) ∧
    ∀ t, (g.pc t).inside = true → g.pc t ≠ .active → (g.op t).key = e.1 → e.2 < (g.op t).id
  noAssert : g.fault ≠ some .assert
  ended : ∀ t, g.pc t = .finished → c = recs.length

theorem IdsIncrease.lt {recs : List Rec} (h : IdsIncrease recs) {i j : Nat} {a b : Rec} (ha : recs[i]? = some a)
    (hb : recs[j]? = some b) (hij : i < j) : a.id < b.id := by
  obtain ⟨hi, rfl⟩ := List.getElem?_eq_some_iff.mp ha
  obtain ⟨hj, rfl⟩ := List.getElem?_eq_some_iff.mp hb
  exact List.pairwise_iff_getElem.mp h i j hi hj hij

theorem start_inv (recs : List Rec) (N : Nat) {g : Gate} (h : Start g) : Inv recs N g 0 (fun _ => 0) := by
  obtain ⟨h1, h2, h3, h4, h5⟩ := h
  have hin : ∀ t, (g.pc t).inside = true → False := by intro t ht; rw [h3] at ht; cases ht
  refine ⟨Or.inl ⟨h1, Nat.zero_le _⟩, ?_, ?_, ?_, ?_, ?_, ?_, ?_, ?_, ?_⟩
  · intro i; rw [h2, h3]; simp [Pc.inside]
  · intro t ht; exact (hin t ht).elim
  · intro t ht; exact (hin t ht).elim
  · intro t u ht; exact (hin t ht).elim
  · intro t u ht; rw [h3] at ht; cases ht
  · rw [InOrder, h5]; exact List.Pairwise.nil
  · intro e he; rw [h5] at he; cases he
  · rw [h4]; simp
  · intro t ht; rw [h3] at ht; cases ht

section
variable {recs : List Rec} {N : Nat} {g : Gate} {c : Nat} {tk : Nat → Nat}

/-- What `read_op` takes from the file: nothing (the copy faults, or it is past the end) or
    the next record. -/
theorem Inv.readOp_cases (h : Inv recs N g c tk) (t : Nat) :
    g.readOp (encode recs) t = { g with fault := some .segv } ∨
    (c = recs.length ∧ ∃ op curr, (encode recs).length < curr ∧
      g.readOp (encode recs) t = { g with curr := curr, op := update g.op t op, pc := update g.pc t .finished }) ∨
    ∃ hc : c < recs.length, Readable recs c ∧
      g.readOp (encode recs) t = (g.register t (fetched recs c recs[c] (g.op t)) (offset recs (c + 1))).scan t := by
  have hend : c = recs.length → (encode recs).length ≤ g.curr →
      g.readOp (encode recs) t = { g with fault := some .segv } ∨
      (c = recs.length ∧ ∃ op curr, (encode recs).length < curr ∧
        g.readOp (encode recs) t = { g with curr := curr, op := update g.op t op, pc := update g.pc t .finished }) := by
    intro hc hle
    rcases fetch_end recs g.curr hle (g.op t) with hf | ⟨op, curr, hf, hlt⟩
    · left; simp only [readOp, hf]
    · right; exact ⟨hc, op, curr, hlt, by simp only [readOp, hf]⟩
  rcases h.cursor with ⟨hcur, hc⟩ | ⟨hcur, hc⟩
  · by_cases he : c = recs.length
    · have hle : (encode recs).length ≤ g.curr := by rw [hcur, he, offset_length]
      rcases hend he hle with h1 | h1
      · exact Or.inl h1
      · exact Or.inr (Or.inl h1)
    · have hclt : c < recs.length := by omega
      have hf := fetch_record recs c hclt (g.op t)
      rw [← hcur] at hf
      by_cases hseg : mapLen (encode recs) < g.curr + 24
      · left; simp only [readOp, hf, if_pos hseg]
      · right; right; exact ⟨hclt, by unfold Readable; omega, by simp only [readOp, hf, if_neg hseg]⟩
  · rcases hend hc (by omega) with h1 | h1
    · exact Or.inl h1
    · exact Or.inr (Or.inl h1)

theorem Inv.segv (h : Inv recs N g c tk) : Inv recs N { g with fault := some .segv } c tk :=
  ⟨h.cursor, h.being, h.range, h.ticket, h.inj, h.alone, h.order, h.seen, by simp, h.ended⟩

theorem inside_update {f : Nat → Pc} {t u : Nat} {p : Pc} (h : (update f t p u).inside = true) (hp : p.inside = false) :
    u ≠ t ∧ (f u).inside = true := by
  by_cases e : u = t
  · subst e; rw [update_self] at h; rw [hp] at h; cases h
  · rw [update_of_ne e] at h; exact ⟨e, h⟩

theorem Inv.finish (h : Inv recs N g c tk) {t : Nat} (hpc : g.pc t = .idle) (hc : c = recs.length) (op : Op) {curr : Nat}
    (hcurr : (encode recs).length < curr) :
    Inv recs N { g with curr := curr, op := update g.op t op, pc := update g.pc t .finished } c tk := by
  have hin : ∀ {u}, (update g.pc t Pc.finished u).inside = true → u ≠ t ∧ (g.pc u).inside = true :=
    fun hu => inside_update hu rfl
  have hact : ∀ {u}, update g.pc t Pc.finished u = .active → u ≠ t ∧ g.pc u = .active := by
    intro u hu
    by_cases e : u = t
    · subst e; rw [update_self] at hu; cases hu
    · rw [update_of_ne e] at hu; exact ⟨e, hu⟩
  refine ⟨Or.inr ⟨hcurr, hc⟩, ?_, ?_, ?_, ?_, ?_, h.order, ?_, h.noAssert, fun _ _ => hc⟩
  · intro i
    by_cases e : i + 1 = t
    · have := h.being i
      subst e
      simp only [update_self, this, hpc, Pc.inside]
    · simp only [update_of_ne e]; exact h.being i
  · intro u hu; exact h.range u (hin hu).2
  · intro u hu
    simp only [update_of_ne (hin hu).1]
    exact h.ticket u (hin hu).2
  · intro u v hu hv; exact h.inj u v (hin hu).2 (hin hv).2
  · intro u v hu hv hne
    simp only [update_of_ne (hact hu).1, update_of_ne (hin hv).1]
    exact h.alone u v (hact hu).2 (hin hv).2 hne
  · intro e he
    refine ⟨(h.seen e he).1, fun u hu hna => ?_⟩
    simp only [update_of_ne (hin hu).1] at hna ⊢
    exact (h.seen e he).2 u (hin hu).2 hna

/-- Registering the next record: its id is above every id handed out so far. -/
theorem Inv.register (h : Inv recs N g c tk) (hids : IdsIncrease recs) {t : Nat} (ht : 1 ≤ t ∧ t ≤ N)
    (hpc : g.pc t = .idle) (hc : c < recs.length) (hread : Readable recs c) (op : Op) :
    Inv recs N (g.register t (fetched recs c recs[c] op) (offset recs (c + 1))) (c + 1) (update tk t c) := by
  have hrec : recs[c]? = some recs[c] := List.getElem?_eq_getElem hc
  have hidle : ∀ {u}, (g.pc u).inside = true → u ≠ t := by
    intro u hu e; subst e; rw [hpc] at hu; cases hu
  -- a thread inside after the step is `t` or was inside before
  have hin : ∀ {u}, u ≠ t → (update g.pc t Pc.scanning u).inside = true → (g.pc u).inside = true := by
    intro u hne hu; rwa [update_of_ne hne] at hu
  have hact : ∀ {u}, update g.pc t Pc.scanning u = .active → u ≠ t ∧ g.pc u = .active := by
    intro u hu
    by_cases e : u = t
    · subst e; rw [update_self] at hu; cases hu
    · rw [update_of_ne e] at hu; exact ⟨e, hu⟩
  have hnew : ∀ {u}, (g.pc u).inside = true → (g.op u).id < recs[c].id := by
    intro u hu
    obtain ⟨hlt, -, r, hr, hid, -⟩ := h.ticket u hu
    rw [hid]; exact hids.lt hr hrec hlt
  refine ⟨Or.inl ⟨rfl, hc⟩, ?_, ?_, ?_, ?_, ?_, h.order, ?_, h.noAssert, ?_⟩
  · intro i
    simp only [Gate.register]
    by_cases e : i + 1 = t
    · have : i = t - 1 := by omega
      subst this
      simp only [update_self, e, Pc.inside]
    · rw [update_of_ne (by omega), update_of_ne e]; exact h.being i
  · intro u hu
    by_cases e : u = t
    · exact e ▸ ht
    · exact h.range u (hin e hu)
  · intro u hu
    simp only [Gate.register]
    by_cases e : u = t
    · subst e
      simp only [update_self]
      exact ⟨Nat.lt_succ_self c, hread, recs[c], hrec, fetched_id .., fetched_key .., fetched_opType ..⟩
    · simp only [update_of_ne e]
      obtain ⟨hlt, hr⟩ := h.ticket u (hin e hu)
      exact ⟨by omega, hr⟩
  · intro u v hu hv he
    by_cases e1 : u = t <;> by_cases e2 : v = t
    · rw [e1, e2]
    · rw [e1, update_self, update_of_ne e2] at he
      have := (h.ticket v (hin e2 hv)).1; omega
    · rw [e2, update_self, update_of_ne e1] at he
      have := (h.ticket u (hin e1 hu)).1; omega
    · rw [update_of_ne e1, update_of_ne e2] at he
      exact h.inj u v (hin e1 hu) (hin e2 hv) he
  · intro u v hu hv hne
    simp only [Gate.register]
    obtain ⟨e1, hu'⟩ := hact hu
    rw [update_of_ne e1]
    by_cases e2 : v = t
    · subst e2
      rw [update_self]
      intro _
      rw [fetched_id]; exact hnew (by rw [hu']; rfl)
    · rw [update_of_ne e2]; exact h.alone u v hu' (hin e2 hv) hne
  · intro e he
    obtain ⟨⟨i, hi, r, hr, heq⟩, hw⟩ := h.seen e he
    refine ⟨⟨i, by omega, r, hr, heq⟩, fun u hu hna => ?_⟩
    simp only [Gate.register] at hu hna ⊢
    by_cases e1 : u = t
    · subst e1
      rw [update_self, fetched_id, heq]
      intro _; exact hids.lt hr hrec hi
    · rw [update_of_ne e1] at hu hna ⊢; exact hw u hu hna
  · intro u hu
    simp only [Gate.register] at hu
    by_cases e : u = t
    · subst e; rw [update_self] at hu; cases hu
    · rw [update_of_ne e] at hu
      have := h.ended u hu; omega

/-- A scan that finds nothing, when it covers every slot or no other record has the key. -/
theorem Inv.clear (h : Inv recs N g c tk) (hids : IdsIncrease recs) (hN : N ≤ 32 ∨ KeysDiffer recs) {t : Nat}
    (ht : (g.pc t).inside = true) (hs : g.conflict t = false) {u : Nat} (hu : (g.pc u).inside = true) (hne : u ≠ t)
    (hk : (g.op u).key = (g.op t).key) : (g.op t).id < (g.op u).id := by
  obtain ⟨-, hread, r, hr, hid, hkey, -⟩ := h.ticket t ht
  obtain ⟨-, hread', r', hr', hid', hkey', -⟩ := h.ticket u hu
  rcases Nat.lt_trichotomy (tk t) (tk u) with hlt | he | hgt
  · rw [hid, hid']; exact hids.lt hr hr' hlt
  · exact absurd (h.inj u t hu ht he.symm) hne
  · exfalso
    rcases hN with hN | hkeys
    · -- the smaller id stands in a slot below 32, so the scan has seen it
      obtain ⟨h1, hN'⟩ := h.range u hu
      have hbeing : g.being (u - 1) = true := by rw [h.being, Nat.sub_add_cancel h1]; exact hu
      have hlt : (g.op u).id < (g.op t).id := by rw [hid, hid']; exact hids.lt hr' hr hgt
      simp only [conflict, List.any_eq_false, List.mem_range] at hs
      apply hs (u - 1) (by omega)
      rw [Nat.sub_add_cancel h1, hbeing]
      simp [hk, hlt]
    · exact hkeys _ _ _ _ hgt hr' hr hread (by rw [← hkey', ← hkey, hk])

theorem Inv.scan (h : Inv recs N g c tk) (hids : IdsIncrease recs) (hN : N ≤ 32 ∨ KeysDiffer recs) {t : Nat}
    (hpc : g.pc t = .scanning) : Inv recs N (g.scan t) c tk := by
  have ht : (g.pc t).inside = true := by rw [hpc]; rfl
  have hin : ∀ {p : Pc}, p.inside = true → ∀ {u}, (update g.pc t p u).inside = true → (g.pc u).inside = true := by
    intro p hp u hu
    by_cases e : u = t
    · rw [e]; exact ht
    · rwa [update_of_ne e] at hu
  have hbeing : ∀ {p : Pc}, p.inside = true → ∀ i, g.being i = true ↔ (update g.pc t p (i + 1)).inside = true := by
    intro p hp i
    rw [h.being]
    by_cases e : i + 1 = t
    · rw [e, update_self, hp, ht]
    · rw [update_of_ne e]
  have hfin : ∀ {p : Pc}, p.inside = true → ∀ u, update g.pc t p u = .finished → c = recs.length := by
    intro p hp u hu
    by_cases e : u = t
    · rw [e, update_self] at hu; rw [hu] at hp; cases hp
    · rw [update_of_ne e] at hu; exact h.ended u hu
  unfold Gate.scan
  by_cases hcf : g.conflict t = true
  · rw [if_pos hcf]
    refine ⟨h.cursor, hbeing rfl, fun u hu => h.range u (hin rfl hu), fun u hu => h.ticket u (hin rfl hu),
      fun u v hu hv => h.inj u v (hin rfl hu) (hin rfl hv), ?_, h.order, ?_, h.noAssert, hfin rfl⟩
    · intro u v hu hv hne
      by_cases e : u = t
      · subst e; simp only [update_self] at hu; cases hu
      · simp only [update_of_ne e] at hu; exact h.alone u v hu (hin rfl hv) hne
    · intro e he
      refine ⟨(h.seen e he).1, fun u hu hna => (h.seen e he).2 u (hin rfl hu) ?_⟩
      by_cases e1 : u = t
      · rw [e1, hpc]; simp
      · simpa only [update_of_ne e1] using hna
  · rw [if_neg hcf]
    have hcf' : g.conflict t = false := by simpa using hcf
    have hclear : ∀ {u}, (g.pc u).inside = true → u ≠ t → (g.op u).key = (g.op t).key → (g.op t).id < (g.op u).id :=
      fun hu hne hk => h.clear hids hN ht hcf' hu hne hk
    refine ⟨h.cursor, hbeing rfl, fun u hu => h.range u (hin rfl hu), fun u hu => h.ticket u (hin rfl hu),
      fun u v hu hv => h.inj u v (hin rfl hu) (hin rfl hv), ?_, ?_, ?_, h.noAssert, hfin rfl⟩
    · intro u v hu hv hne
      by_cases e : u = t
      · subst e; exact hclear (hin rfl hv) hne
      · simp only [update_of_ne e] at hu; exact h.alone u v hu (hin rfl hv) hne
    · -- every earlier return on this key had a smaller id
      rw [InOrder, List.pairwise_append]
      refine ⟨h.order, List.pairwise_singleton .., fun a ha b hb hab => ?_⟩
      rw [List.mem_singleton] at hb
      subst hb
      exact (h.seen a ha).2 t ht (by rw [hpc]; simp) hab.symm
    · intro e he
      rcases List.mem_append.mp he with he | he
      · refine ⟨(h.seen e he).1, fun u hu hna => ?_⟩
        have e1 : u ≠ t := by intro e; subst e; exact hna (update_self ..)
        simp only [update_of_ne e1] at hu hna
        exact (h.seen e he).2 u hu hna
      · rw [List.mem_singleton] at he
        subst he
        obtain ⟨hlt, -, r, hr, hid, hkey, -⟩ := h.ticket t ht
        refine ⟨⟨tk t, hlt, r, hr, by rw [hid, hkey]⟩, fun u hu hna => ?_⟩
        have e1 : u ≠ t := by intro e; subst e; exact hna (update_self ..)
        simp only [update_of_ne e1] at hu
        exact hclear hu e1

theorem Inv.wake (h : Inv recs N g c tk) {pc : Nat → Pc} {being : Nat → Bool}
    (hsub : ∀ u, (pc u).inside = true → (g.pc u).inside = true) (hact : ∀ u, pc u = .active → g.pc u = .active)
    (hback : ∀ u, (pc u).inside = true → g.pc u = .active → pc u = .active)
    (hfin : ∀ u, pc u = .finished → g.pc u = .finished)
    (hbeing : ∀ i, being i = true ↔ (pc (i + 1)).inside = true) :
    Inv recs N { g with pc := pc, being := being } c tk := by
  refine ⟨h.cursor, hbeing, fun u hu => h.range u (hsub u hu), fun u hu => h.ticket u (hsub u hu),
    fun u v hu hv => h.inj u v (hsub u hu) (hsub v hv), fun u v hu hv => h.alone u v (hact u hu) (hsub v hv),
    h.order, fun e he => ⟨(h.seen e he).1, fun u hu hna => ?_⟩, h.noAssert, fun u hu => h.ended u (hfin u hu)⟩
  exact (h.seen e he).2 u (hsub u hu) fun ha => hna (hback u hu ha)

theorem Inv.spurious (h : Inv recs N g c tk) {t : Nat} (hpc : g.pc t = .asleep) :
    Inv recs N { g with pc := update g.pc t .scanning } c tk := by
  have hval : ∀ u, (update g.pc t Pc.scanning u).inside = (g.pc u).inside := by
    intro u
    by_cases e : u = t
    · subst e; rw [update_self, hpc]; rfl
    · rw [update_of_ne e]
  refine h.wake (fun u hu => by rwa [hval] at hu) ?_ ?_ ?_ (fun i => by rw [hval]; exact h.being i)
  · intro u hu
    by_cases e : u = t
    · subst e; rw [update_self] at hu; cases hu
    · rwa [update_of_ne e] at hu
  · intro u _ ha
    by_cases e : u = t
    · subst e; rw [hpc] at ha; cases ha
    · rwa [update_of_ne e]
  · intro u hu
    by_cases e : u = t
    · subst e; rw [update_self] at hu; cases hu
    · rwa [update_of_ne e] at hu

/-- The table operation may leave another length and payload in the thread's buffer. -/
theorem Inv.rebuffer (h : Inv recs N g c tk) (t : Nat) {o : Op} (hid : o.id = (g.op t).id) (hkey : o.key = (g.op t).key)
    (hty : o.opType = (g.op t).opType) : Inv recs N { g with op := update g.op t o } c tk := by
  have hop : ∀ u, (update g.op t o u).id = (g.op u).id ∧ (update g.op t o u).key = (g.op u).key ∧
      (update g.op t o u).opType = (g.op u).opType := by
    intro u
    by_cases e : u = t
    · rw [e, update_self]; exact ⟨hid, hkey, hty⟩
    · rw [update_of_ne e]; exact ⟨rfl, rfl, rfl⟩
  refine ⟨h.cursor, h.being, h.range, fun u hu => ?_, h.inj, fun u v hu hv hne => ?_, h.order, fun e he => ?_, h.noAssert,
    h.ended⟩
  · simp only [(hop u).1, (hop u).2.1, (hop u).2.2]; exact h.ticket u hu
  · simp only [(hop u).1, (hop v).1, (hop u).2.1, (hop v).2.1]; exact h.alone u v hu hv hne
  · refine ⟨(h.seen e he).1, fun u hu hna => ?_⟩
    simp only [(hop u).1, (hop u).2.1]; exact (h.seen e he).2 u hu hna

theorem Inv.done (h : Inv recs N g c tk) {t : Nat} (hpc : g.pc t = .active) : Inv recs N (g.doneOne t) c tk := by
  have ht := h.range t (by rw [hpc]; rfl)
  have hval : ∀ u, u ≠ t → (if u = t then Pc.idle else if g.pc u = .asleep then .scanning else g.pc u).inside =
      (g.pc u).inside := by
    intro u e
    rw [if_neg e]
    split
    · rename_i hs; rw [hs]; rfl
    · rfl
  refine h.wake ?_ ?_ ?_ ?_ ?_
  · intro u hu
    by_cases e : u = t
    · rw [e, hpc]; rfl
    · rwa [hval u e] at hu
  · intro u hu
    by_cases e : u = t
    · rw [if_pos e] at hu; cases hu
    · rw [if_neg e] at hu
      split at hu
      · cases hu
      · exact hu
  · intro u hu ha
    by_cases e : u = t
    · rw [if_pos e] at hu; cases hu
    · rw [if_neg e, ha]; rfl
  · intro u hu
    by_cases e : u = t
    · rw [if_pos e] at hu; cases hu
    · rw [if_neg e] at hu
      split at hu
      · cases hu
      · exact hu
  · intro i
    by_cases e : i + 1 = t
    · have : i = t - 1 := by omega
      rw [if_pos e, this, update_self]; simp [Pc.inside]
    · rw [hval _ e, update_of_ne (by omega)]; exact h.being i

end

theorem step_inv {recs : List Rec} {N : Nat} (hids : IdsIncrease recs) (hN : N ≤ 32 ∨ KeysDiffer recs) {g g' : Gate}
    {e : Ev} {c : Nat} {tk : Nat → Nat} (h : Inv recs N g c tk) (hs : step (encode recs) N g e = some g') :
    ∃ c' tk', Inv recs N g' c' tk' := by
  unfold step at hs
  split at hs
  swap
  · cases hs
  rename_i hg
  obtain ⟨-, ht⟩ := hg
  cases e with
  | read t =>
    simp only [stepAt] at hs
    split at hs
    swap
    · cases hs
    rename_i hpc
    cases hs
    rcases h.readOp_cases t with he | ⟨hc, op, curr, hcurr, he⟩ | ⟨hc, hread, he⟩ <;> rw [he]
    · exact ⟨c, tk, h.segv⟩
    · exact ⟨c, tk, h.finish hpc hc op hcurr⟩
    · exact ⟨c + 1, update tk t c, (h.register hids ht hpc hc hread _).scan hids hN (update_self ..)⟩
  | spurious t =>
    simp only [stepAt] at hs
    split at hs
    · rename_i hpc; cases hs; exact ⟨c, tk, h.spurious hpc⟩
    · cases hs
  | rescan t =>
    simp only [stepAt] at hs
    split at hs
    · rename_i hpc; cases hs; exact ⟨c, tk, h.scan hids hN hpc⟩
    · cases hs
  | done t =>
    simp only [stepAt] at hs
    split at hs
    · rename_i hpc; cases hs; exact ⟨c, tk, h.done hpc⟩
    · cases hs

theorem reach_inv {recs : List Rec} {N : Nat} (hids : IdsIncrease recs) (hN : N ≤ 32 ∨ KeysDiffer recs) {g : Gate}
    (h : (machine (encode recs) N).Reach Machine.any g) : ∃ c tk, Inv recs N g c tk :=
  h.inv (fun g => ∃ c tk, Inv recs N g c tk) (fun _ hs => ⟨0, _, start_inv recs N hs⟩)
    fun _ _ _ ⟨_, _, hi⟩ _ hs => step_inv hids hN hi hs

theorem Inv.exclusive {recs : List Rec} {N : Nat} {g : Gate} {c : Nat} {tk : Nat → Nat} (h : Inv recs N g c tk) :
    g.Exclusive := by
  intro t u ht hu hk
  apply Classical.byContradiction
  intro hne
  have h1 := h.alone t u ht (by rw [hu]; rfl) (Ne.symm hne) hk.symm
  have h2 := h.alone u t hu (by rw [ht]; rfl) hne hk
  omega

/-! ## The schedule for 33 threads -/

/-- Thread 1 is between operations and no slot the scan covers is set. -/
structure Solo (recs : List Rec) (g : Gate) (k : Nat) : Prop where
  curr : g.curr = offset recs k
  being : ∀ i < 32, g.being i = false
  idle : g.pc 1 = .idle
  fault : g.fault = none
  awake : ∀ u, g.pc u ≠ .asleep

theorem conflict_none {g : Gate} {t : Nat} (h : ∀ i < 32, g.being i = true → i + 1 = t) : g.conflict t = false := by
  simp only [conflict, List.any_eq_false, List.mem_range]
  intro i hi
  by_cases hb : g.being i = true
  · rw [h i hi hb]; simp
  · simp [hb]

/-- A thread alone in the scanned slots gets its record at once. -/
theorem read_alone {recs : List Rec} {g : Gate} {k t : Nat} (hk : k < recs.length) (hread : Readable recs k)
    (hcurr : g.curr = offset recs k) (hbeing : ∀ i < 32, g.being i = false) (ht : 1 ≤ t) :
    ∃ op, op.key = recs[k].key ∧ op.id = recs[k].id ∧ g.readOp (encode recs) t =
      { g with
        curr := offset recs (k + 1)
        being := update g.being (t - 1) true
        op := update g.op t op
        pc := update g.pc t .active
        returned := g.returned ++ [(op.key, op.id)] } := by
  refine ⟨fetched recs k recs[k] (g.op t), fetched_key .., fetched_id .., ?_⟩
  have hf := fetch_record recs k hk (g.op t)
  unfold Readable at hread
  rw [if_neg (by omega), ← hcurr] at hf
  have hcf : (g.register t (fetched recs k recs[k] (g.op t)) (offset recs (k + 1))).conflict t = false := by
    apply conflict_none
    intro i hi hb
    simp only [register] at hb
    by_cases e : i = t - 1
    · omega
    · rw [update_of_ne e, hbeing i hi] at hb; cases hb
  simp only [readOp, hf, scan, hcf, Bool.false_eq_true, if_false]
  simp only [register, update_idem, update_self]

section
variable {recs : List Rec} {N : Nat} (hN : 1 ≤ N)
include hN

theorem solo_step {g : Gate} {k : Nat} (h : Solo recs g k) (hk : k < recs.length) (hread : Readable recs k) :
    ∃ g', (machine (encode recs) N).Run Machine.any g [.read 1, .done 1] g' ∧ Solo recs g' (k + 1) ∧
      ∀ u ≠ 1, g'.pc u = g.pc u ∧ g'.op u = g.op u := by
  obtain ⟨op, -, -, hr⟩ := read_alone hk hread h.curr h.being (Nat.le_refl 1)
  refine ⟨(g.readOp (encode recs) 1).doneOne 1, ?_, ?_, ?_⟩
  · have hs1 : step (encode recs) N g (.read 1) = some (g.readOp (encode recs) 1) :=
      (if_pos ⟨h.fault, Nat.le_refl 1, hN⟩).trans (if_pos h.idle)
    have hf : (g.readOp (encode recs) 1).fault = none := by rw [hr]; exact h.fault
    have hp : (g.readOp (encode recs) 1).pc 1 = .active := by rw [hr]; simp only [update_self]
    exact .cons trivial hs1 (.cons trivial ((if_pos ⟨hf, Nat.le_refl 1, hN⟩).trans (if_pos hp)) (.nil _))
  · rw [hr]
    refine ⟨rfl, ?_, by simp only [doneOne, if_true], h.fault, ?_⟩
    · intro i hi
      by_cases e : i = 0
      · simp only [doneOne, e, Nat.sub_self, update_self]
      · simp only [doneOne, Nat.sub_self, update_of_ne e]; exact h.being i hi
    · intro u
      simp only [doneOne]
      by_cases e : u = 1
      · simp [e]
      · rw [if_neg e, update_of_ne e, if_neg (h.awake u)]; exact h.awake u
  · intro u hu
    rw [hr]
    simp only [doneOne, if_neg hu, update_of_ne hu, if_neg (h.awake u), true_and]

theorem solo_run {g : Gate} {i : Nat} (h : Solo recs g i) (j : Nat) (hij : i ≤ j) (hj : j ≤ recs.length)
    (hread : ∀ k < j, Readable recs k) :
    ∃ es g', (machine (encode recs) N).Run Machine.any g es g' ∧ Solo recs g' j ∧
      ∀ u ≠ 1, g'.pc u = g.pc u ∧ g'.op u = g.op u := by
  induction j, hij using Nat.le_induction with
  | base => exact ⟨[], g, .nil g, h, fun _ _ => ⟨rfl, rfl⟩⟩
  | succ j hij ih =>
    obtain ⟨es, g1, hrun, hs, hkeep⟩ := ih (by omega) fun k hk => hread k (by omega)
    obtain ⟨g2, hrun2, hs2, hkeep2⟩ := solo_step hN hs (by omega) (hread j (by omega))
    refine ⟨_, g2, hrun.append hrun2, hs2, fun u hu => ?_⟩
    rw [(hkeep2 u hu).1, (hkeep2 u hu).2]; exact hkeep u hu

end

theorem offset_mono {recs : List Rec} {i j : Nat} (hij : i ≤ j) (hj : j ≤ recs.length) : offset recs i ≤ offset recs j := by
  induction j, hij using Nat.le_induction with
  | base => exact Nat.le_refl _
  | succ j hij ih =>
    have := offset_succ recs j (by omega)
    have := ih (by omega)
    omega

def idleGate : Gate := ⟨0, fun _ => false, fun _ => ⟨0, 0, .PUT, 0, 0⟩, fun _ => .idle, none, []⟩

/-- Thread 33 takes the first of two operations on a key, thread 1 everything up to the
    second: its scan does not cover slot 32. -/
theorem thread33_overlaps {recs : List Rec} {i j : Nat} {a b : Rec} (hij : i < j) (ha : recs[i]? = some a)
    (hb : recs[j]? = some b) (hread : Readable recs j) (hkey : a.key = b.key) :
    ∃ g, (machine (encode recs) 33).Reach Machine.any g ∧ ¬ g.Exclusive := by
  obtain ⟨hi, rfl⟩ := List.getElem?_eq_some_iff.mp ha
  obtain ⟨hj, rfl⟩ := List.getElem?_eq_some_iff.mp hb
  have hall : ∀ k ≤ j, Readable recs k := by
    intro k hk
    have := offset_mono hk (Nat.le_of_lt hj)
    unfold Readable at hread ⊢; omega
  have hstart : Solo recs idleGate 0 := ⟨rfl, fun _ _ => rfl, rfl, rfl, fun _ => by simp [idleGate]⟩
  obtain ⟨es, g1, hrun1, hs1, hkeep1⟩ := solo_run (by decide : 1 ≤ 33) hstart i (by omega) (by omega)
    fun k hk => hall k (by omega)
  obtain ⟨op, hopk, -, hr⟩ := read_alone hi (hall i (by omega)) hs1.curr hs1.being (by omega : 1 ≤ 33)
  have hpc33 : g1.pc 33 = .idle := (hkeep1 33 (by omega)).1
  have hread33 : (machine (encode recs) 33).Run Machine.any g1 [.read 33] (g1.readOp (encode recs) 33) :=
    .cons trivial ((if_pos ⟨hs1.fault, by decide, by decide⟩).trans (if_pos hpc33)) (.nil _)
  have hs2 : Solo recs (g1.readOp (encode recs) 33) (i + 1) := by
    rw [hr]
    refine ⟨rfl, fun k hk => ?_, ?_, hs1.fault, fun u => ?_⟩
    · simp only [update_of_ne (by omega : k ≠ 33 - 1)]; exact hs1.being k hk
    · simp only [update_of_ne (by omega : 1 ≠ 33)]; exact hs1.idle
    · by_cases e : u = 33
      · simp [e]
      · simp only [update_of_ne e]; exact hs1.awake u
  obtain ⟨fs, g3, hrun3, hs3, hkeep3⟩ := solo_run (by decide : 1 ≤ 33) hs2 j (by omega) (by omega)
    fun k hk => hall k (by omega)
  obtain ⟨op', hopk', -, hr'⟩ := read_alone hj (hall j (by omega)) hs3.curr hs3.being (Nat.le_refl 1)
  have hread1 : (machine (encode recs) 33).Run Machine.any g3 [.read 1] (g3.readOp (encode recs) 1) :=
    .cons trivial ((if_pos ⟨hs3.fault, by decide, by decide⟩).trans (if_pos hs3.idle)) (.nil _)
  have hreach := (hrun1.append (hread33.append (hrun3.append hread1))).reach
    (.init ⟨rfl, fun _ => rfl, fun _ => rfl, rfl, rfl⟩)
  refine ⟨_, hreach, fun hex => ?_⟩
  obtain ⟨hpc3, hop3⟩ := hkeep3 33 (by omega)
  have h33 : (g3.readOp (encode recs) 1).pc 33 = .active ∧ (g3.readOp (encode recs) 1).op 33 = op := by
    rw [hr']
    simp only [update_of_ne (by decide : (33 : Nat) ≠ 1), hpc3, hop3, hr, update_self, and_self]
  have h1 : (g3.readOp (encode recs) 1).pc 1 = .active ∧ (g3.readOp (encode recs) 1).op 1 = op' := by
    rw [hr']; simp only [update_self, and_self]
  have := hex 33 1 h33.1 h1.1 (by rw [h33.2, h1.2, hopk, hopk', hkey])
  omega

/-- The same-key guarantee, for every number of threads the program accepts: it holds in
    every interleaving if and only if the scan covers every thread's slot or no two
    operations share a key. -/
theorem exclusive_iff (recs : List Rec) (hids : IdsIncrease recs) (N : Nat) (_h0 : 0 < N) (hN : N ≤ THREADS) :
    (∀ g, (machine (encode recs) N).Reach Machine.any g → g.Exclusive ∧ g.InOrder) ↔ N ≤ 32 ∨ KeysDiffer recs := by
  constructor
  · intro hall
    by_cases h32 : N ≤ 32
    · exact Or.inl h32
    right
    have he : N = 33 := by unfold THREADS at hN; omega
    subst he
    intro i j a b hij ha hb hread hkey
    obtain ⟨g, hg, hbad⟩ := thread33_overlaps hij ha hb hread hkey
    exact hbad (hall g hg).1
  · intro hcov g hg
    obtain ⟨c, tk, hi⟩ := reach_inv hids hcov hg
    exact ⟨hi.exclusive, hi.order⟩

/-- An insertion of key 5 and a read of it. -/
def samePair : List Rec := [.put 1 5 ⟨[], by decide⟩, .get 2 5]

theorem exclusive_iff_same_pair :
    (∀ g, (machine (encode samePair) 33).Reach Machine.any g → g.Exclusive ∧ g.InOrder) ↔
      33 ≤ 32 ∨ KeysDiffer samePair :=
  exclusive_iff samePair (by simp [samePair, IdsIncrease, Rec.id]) 33 (by decide) (by decide)

/-- Thread 33 inserts key 5 while thread 1 already reads it. -/
theorem thread33_same_pair : IdsIncrease samePair ∧ 0 < 33 ∧ 33 ≤ THREADS ∧
    ∃ g, (machine (encode samePair) 33).Reach Machine.any g ∧ ¬ g.Exclusive :=
  ⟨by simp [samePair, IdsIncrease, Rec.id], by decide, by decide,
    thread33_overlaps (by decide : 0 < 1) rfl rfl (by unfold Readable; decide +kernel) rfl⟩

end Gate

end Cs330.Hash
