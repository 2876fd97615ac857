/-
  Cs330.Hash.Threads — main.c's `process` in threads 1..N on one table and one file.

  Every section under a lock is one step: `read_op` up to its wait or return, each
  one-slot section of the table operation, `done_one`. Between a thread's steps any other
  thread may take any of its own. `log` is what the operations returned, in the order of
  their `done_one`.

  An operation takes effect in its last section (`Inv.finish`). `eff i` says that record
  `i` has taken effect: same-key records do so in file order (`down`, `prev`), other keys
  do not matter to each other, so for each key the map is what the file's operations on
  that key so far make of it (`bind`). At most as many slots have ever been used as
  insertions have taken effect (`room`), so with no more PUT records than slots no assert
  fires.

  Proved: `equivalent`. Every operation returns what executing the file in order returns,
  none fails an assert, and when all threads have finished each record has been answered
  exactly once and the table holds the final map.
-/
import Cs330.Hash.Gate
import Cs330.Hash.Sections

namespace Cs330.Hash.Threads

open Lib Lib.Ring Function Parallel

/-- Where a thread that `read_op` has let through is in its table operation. -/
inductive Loc where
  | start
  | probing (ctr cnt : Nat)
  | ret (r : Int)
  deriving DecidableEq, Repr

structure Sys where
  gate : Gate
  h : HashT
  loc : Nat → Loc
  log : List Ret

def Sys.abort (s : Sys) (a : Abort) : Sys := { s with gate := { s.gate with fault := some a } }

def Sys.call (s : Sys) (t : Nat) : Sys :=
  match checks s.h (s.gate.op t) with
  | some a => s.abort a
  | none => { s with loc := update s.loc t (.probing (hashfunc (s.gate.op t).key s.h.tableSize) 0) }

/-- The section of the slot `ctr`; going on, the next slot's address comes from `h->table`. -/
def Sys.slot (s : Sys) (t ctr cnt : Nat) : Sys :=
  if goesOn s.h (s.gate.op t) ctr cnt then
    if s.h.table ≠ s.h.block then s.abort .wild
    else { s with loc := update s.loc t (.probing (add1 ctr % s.h.tableSize) (if cnt = 0 then cnt + 1 else cnt)) }
  else
    match atEnd s.h (s.gate.op t) ctr cnt with
    | .error a => s.abort a
    | .ok ((r, op), h') =>
      { s with gate := { s.gate with op := update s.gate.op t op }, h := h', loc := update s.loc t (.ret r) }

def Sys.doneOne (s : Sys) (t : Nat) (r : Int) : Sys :=
  { s with gate := s.gate.doneOne t, loc := update s.loc t .start, log := s.log ++ [(r, s.gate.op t)] }

inductive Ev where
  | read (t : Nat)
  | spurious (t : Nat)
  | rescan (t : Nat)
  | call (t : Nat)
  | slot (t : Nat)
  | done (t : Nat)
  deriving DecidableEq, Repr

def Ev.tnum : Ev → Nat
  | .read t | .spurious t | .rescan t | .call t | .slot t | .done t => t

def stepAt (file : List UInt8) (s : Sys) : Ev → Option Sys
  | .read t => (s.gate.stepAt file (.read t)).map fun g => { s with gate := g }
  | .spurious t => (s.gate.stepAt file (.spurious t)).map fun g => { s with gate := g }
  | .rescan t => (s.gate.stepAt file (.rescan t)).map fun g => { s with gate := g }
  | .call t => if s.gate.pc t = .active ∧ s.loc t = .start then some (s.call t) else none
  | .slot t =>
    match s.loc t with
    | .probing ctr cnt => if s.gate.pc t = .active then some (s.slot t ctr cnt) else none
    | .start | .ret _ => none
  | .done t =>
    match s.loc t with
    | .ret r => if s.gate.pc t = .active then some (s.doneOne t r) else none
    | .start | .probing _ _ => none

def step (file : List UInt8) (N : Nat) (s : Sys) (e : Ev) : Option Sys :=
  if s.gate.fault = none ∧ 1 ≤ e.tnum ∧ e.tnum ≤ N then stepAt file s e else none

def Start (size block : Nat) (s : Sys) : Prop :=
  s.gate.Start ∧ s.h = initHashtable size block ∧ (∀ t, s.loc t = .start) ∧ s.log = []

def machine (file : List UInt8) (N size block : Nat) : Machine Sys Ev := ⟨Start size block, step file N⟩

/-! ## The file in order -/

def ops (recs : List Rec) : List Op := opsFrom 0 recs

def opAt (recs : List Rec) (i : Nat) : Op := (ops recs).getD i ⟨0, 0, .GET, 0, 0⟩

/-- The map after the first `i` records. -/
def mapAt (recs : List Rec) (i : Nat) : Map := (Spec.run ∅ ((ops recs).take i)).2

/-- The same return value for the same operation and, of a GET that found its key, the same
    length and payload. -/
def Agrees (e r : Ret) : Prop :=
  e.1 = r.1 ∧ e.2.id = r.2.id ∧ e.2.key = r.2.key ∧ e.2.opType = r.2.opType ∧
    (r.2.opType = .GET → r.1 = 0 → e.2.datalen = r.2.datalen ∧ e.2.data = r.2.data)

/-- What record `i` returns when the file is executed in order. -/
def Answers (recs : List Rec) (i : Nat) (e : Ret) : Prop :=
  ∃ r, (Spec.run ∅ (ops recs)).1[i]? = some r ∧ Agrees e r

/-- A thread's `*op` and the operation of its record: a GET's or DEL's `datalen` and `data`
    are what the buffer held before. -/
def Takes (o op : Op) : Prop := o.id = op.id ∧ o.key = op.key ∧ o.opType = op.opType ∧ (o.opType = .PUT → o = op)

theorem ops_getElem? {recs : List Rec} {i : Nat} (h : i < recs.length) : (ops recs)[i]? = some (opAt recs i) := by
  have hget := opsFrom_getElem? 0 recs i
  rw [List.getElem?_eq_getElem h, Option.map_some] at hget
  unfold opAt
  rw [List.getD_eq_getElem?_getD, ops, hget, Option.getD_some]

theorem opAt_of {recs : List Rec} {i : Nat} {r : Rec} (h : recs[i]? = some r) : opAt recs i = r.toOp (offset recs i) := by
  obtain ⟨hi, rfl⟩ := List.getElem?_eq_some_iff.mp h
  have h1 := ops_getElem? hi
  rw [ops, opsFrom_getElem?, h, Option.map_some, Nat.zero_add] at h1
  exact (Option.some.inj h1).symm

theorem mapAt_succ {recs : List Rec} {i : Nat} (h : i < recs.length) :
    mapAt recs (i + 1) = (Spec.exec (mapAt recs i) (opAt recs i)).2 :=
  Spec.run_take_succ ∅ (ops_getElem? h)

theorem mapAt_other {recs : List Rec} {i : Nat} (h : i < recs.length) {k : Nat} (hk : (opAt recs i).key ≠ k) :
    (mapAt recs (i + 1)).lookup k = (mapAt recs i).lookup k := by
  rw [mapAt_succ h]; exact Spec.exec_other _ _ hk

/-- Records on other keys do not move a key's entry. -/
theorem mapAt_skip {recs : List Rec} {i j k : Nat} (hij : i ≤ j) (hj : j ≤ recs.length)
    (hk : ∀ l, i ≤ l → l < j → (opAt recs l).key ≠ k) : (mapAt recs j).lookup k = (mapAt recs i).lookup k := by
  induction j, hij using Nat.le_induction with
  | base => rfl
  | succ j hij ih =>
    rw [mapAt_other (by omega) (hk j hij (Nat.lt_succ_self j))]
    exact ih (by omega) fun l h1 h2 => hk l h1 (by omega)

theorem Takes.map {o op : Op} (h : Takes o op) (m : Map) : (Spec.exec m o).2 = (Spec.exec m op).2 := by
  obtain ⟨-, hk, hty, hput⟩ := h
  cases e : o.opType with
  | PUT => rw [hput e]
  | GET => simp only [Spec.exec, e, ← hty]; rw [hk]; split <;> rfl
  | DEL => simp only [Spec.exec, e, ← hty, hk]; split <;> rfl

theorem Takes.agrees {o op : Op} (h : Takes o op) (m : Map) : Agrees (Spec.exec m o).1 (Spec.exec m op).1 := by
  obtain ⟨hid, hk, hty, hput⟩ := h
  cases e : o.opType with
  | PUT => rw [hput e]; exact ⟨rfl, rfl, rfl, rfl, fun _ _ => ⟨rfl, rfl⟩⟩
  | GET =>
    have e' : op.opType = .GET := hty ▸ e
    rcases hl : m.lookup op.key with _ | v
    · have hl' : m.lookup o.key = none := by rw [hk, hl]
      simp only [Spec.exec, e, e', hl, hl']
      exact ⟨rfl, hid, hk, hty, fun _ (hz : (-1 : Int) = 0) => absurd hz (by decide)⟩
    · have hl' : m.lookup o.key = some v := by rw [hk, hl]
      simp only [Spec.exec, e, e', hl, hl']
      exact ⟨rfl, hid, hk, rfl, fun _ _ => ⟨rfl, rfl⟩⟩
  | DEL =>
    have e' : op.opType = .DEL := hty ▸ e
    have hret : (Spec.exec m o).1.1 = (Spec.exec m op).1.1 ∧ (Spec.exec m o).1.2 = o ∧ (Spec.exec m op).1.2 = op := by
      simp only [Spec.exec, e, e', hk]
      split <;> exact ⟨rfl, rfl, rfl⟩
    obtain ⟨h1, h2, h3⟩ := hret
    unfold Agrees
    rw [h1, h2, h3, e']
    exact ⟨rfl, hid, hk, e, fun hg => by cases hg⟩

/-- Executed on its own buffer, from any map that agrees on its key, an operation answers
    its record. -/
theorem Takes.answers {recs : List Rec} {i : Nat} {o : Op} (h : Takes o (opAt recs i)) (hi : i < recs.length) {m : Map}
    (hm : m.lookup o.key = (mapAt recs i).lookup o.key) : Answers recs i (Spec.exec m o).1 := by
  refine ⟨_, Spec.run_getElem? ∅ (ops_getElem? hi), ?_⟩
  rw [(Spec.exec_same o hm).1]
  exact h.agrees (mapAt recs i)

theorem exec_buffer (m : Map) (o : Op) : Takes (Spec.exec m o).1.2 o := by
  unfold Spec.exec
  cases e : o.opType with
  | PUT => exact ⟨rfl, rfl, rfl, fun _ => rfl⟩
  | GET =>
    simp only
    split
    · exact ⟨rfl, rfl, e.symm, fun h => by cases h⟩
    · exact ⟨rfl, rfl, rfl, fun _ => rfl⟩
  | DEL =>
    simp only
    split <;> exact ⟨rfl, rfl, rfl, fun _ => rfl⟩

theorem Takes.trans {a b c : Op} (h1 : Takes a b) (h2 : Takes b c) : Takes a c := by
  refine ⟨h1.1.trans h2.1, h1.2.1.trans h2.2.1, h1.2.2.1.trans h2.2.2.1, fun hp => ?_⟩
  have he := h1.2.2.2 hp
  rw [he] at hp ⊢
  exact h2.2.2.2 hp

theorem fetched_takes {recs : List Rec} {i : Nat} (h : i < recs.length) (o : Op) :
    Takes (fetched recs i recs[i] o) (opAt recs i) := by
  rw [opAt_of (List.getElem?_eq_getElem h)]
  refine ⟨by simp, by simp, by simp, ?_⟩
  cases recs[i] with
  | put id key payload => intro _; rfl
  | get id key => intro hp; cases hp
  | del id key => intro hp; cases hp

/-! ## The invariant -/

/-- A thread with record `i` in its buffer `o`. -/
def At (recs : List Rec) (h : HashT) (eff : Nat → Bool) (i : Nat) (o : Op) : Loc → Prop
  | .start => eff i = false
  | .probing ctr cnt => eff i = false ∧ Walk h o.key ctr cnt
  | .ret r => eff i = true ∧ Answers recs i (r, o)

/-- PUT records that have taken effect. -/
def putsDone (recs : List Rec) (eff : Nat → Bool) : Nat :=
  ((Finset.range recs.length).filter fun i => eff i = true ∧ (opAt recs i).opType = .PUT).card

def puts (recs : List Rec) : Nat := ((Finset.range recs.length).filter fun i => (opAt recs i).opType = .PUT).card

/-- `c`, `tk`: see `Gate.Inv`. `m` is the map the table holds, `L` the records logged. -/
structure Inv (recs : List Rec) (N size : Nat) (s : Sys) (c : Nat) (tk : Nat → Nat) (eff : Nat → Bool) (m : Map)
    (L : List Nat) : Prop where
  gate : Gate.Inv recs N s.gate c tk
  takes : ∀ t, (s.gate.pc t).inside = true → Takes (s.gate.op t) (opAt recs (tk t))
  bound : ∀ i, eff i = true → i < c
  held : ∀ i < c, eff i = false → ∃ t, (s.gate.pc t).inside = true ∧ tk t = i
  outside : ∀ t, s.gate.pc t ≠ .active → s.loc t = .start ∧ ((s.gate.pc t).inside = true → eff (tk t) = false)
  running : ∀ t, s.gate.pc t = .active → At recs s.h eff (tk t) (s.gate.op t) (s.loc t)
  prev : ∀ t, s.gate.pc t = .active → ∀ j < tk t, (opAt recs j).key = (opAt recs (tk t)).key → eff j = true
  down : ∀ i j, eff i = true → j < i → (opAt recs j).key = (opAt recs i).key → eff j = true
  bind : ∀ k i, i ≤ c → (∀ j < c, (opAt recs j).key = k → (eff j = true ↔ j < i)) →
    m.lookup k = (mapAt recs i).lookup k
  holds : Holds s.h m
  size : s.h.tableSize = size
  table : s.h.table = s.h.block
  room : takenCount s.h ≤ putsDone recs eff
  answered : List.Forall₂ (Answers recs) L s.log
  nodup : L.Nodup
  logged : ∀ i, i ∈ L ↔ i < c ∧ ∀ t, (s.gate.pc t).inside = true → tk t ≠ i
  sound : s.gate.fault = none ∨ s.gate.fault = some .segv

theorem active_inside {p : Pc} (h : p = .active) : p.inside = true := by rw [h]; rfl

theorem start_inv (recs : List Rec) (N size block : Nat) {s : Sys} (h : Start size block s) :
    Inv recs N size s 0 (fun _ => 0) (fun _ => false) ∅ [] := by
  obtain ⟨hg, hh, hloc, hlog⟩ := h
  have hidle : ∀ t, s.gate.pc t = .idle := hg.2.2.1
  have hin : ∀ t, (s.gate.pc t).inside = true → False := by intro t ht; rw [hidle] at ht; cases ht
  have hact : ∀ t, s.gate.pc t = .active → False := fun t ht => hin t (active_inside ht)
  refine ⟨Gate.start_inv recs N hg, fun t ht => (hin t ht).elim, fun i hi => (by cases hi), fun i hi => absurd hi (by omega),
    fun t _ => ⟨hloc t, fun ht => (hin t ht).elim⟩, fun t ht => (hact t ht).elim, fun t ht => (hact t ht).elim,
    fun i j hi => (by cases hi), ?_, ?_, ?_, ?_, ?_, ?_, List.nodup_nil, ?_, Or.inl hg.2.2.2.1⟩
  · intro k i hi _
    rw [Nat.le_zero.mp hi]; rfl
  · rw [hh]; exact holds_init size block
  · rw [hh]; rfl
  · rw [hh]; rfl
  · rw [hh]
    have he : ((Finset.range size).filter fun i => ((initHashtable size block).slot i).taken = true) = ∅ :=
      Finset.filter_false_of_mem fun i _ => by simp [initHashtable, Entry.taken, minusOne]
    rw [takenCount, show (initHashtable size block).tableSize = size from rfl, he, Finset.card_empty]
    exact Nat.zero_le _
  · rw [hlog]; exact .nil
  · intro i
    exact ⟨fun hi => absurd hi (by simp), fun hi => absurd hi.1 (by omega)⟩

section
variable {recs : List Rec} {N size : Nat} {s : Sys} {c : Nat} {tk : Nat → Nat} {eff : Nat → Bool} {m : Map} {L : List Nat}

theorem Inv.le (h : Inv recs N size s c tk eff m L) : c ≤ recs.length := by
  rcases h.gate.cursor with hc | hc <;> omega

/-- A thread's record is one of those taken, and its key the file's. -/
theorem Inv.taken (h : Inv recs N size s c tk eff m L) {t : Nat} (ht : (s.gate.pc t).inside = true) :
    tk t < c ∧ tk t < recs.length ∧ (s.gate.op t).key = (opAt recs (tk t)).key := by
  have hlt := (h.gate.ticket t ht).1
  have hle := h.le
  exact ⟨hlt, by omega, (h.takes t ht).2.1⟩

theorem Inv.key_ne (h : Inv recs N size s c tk eff m L) (hkeys : ∀ r ∈ recs, r.key ≠ 0) {t : Nat}
    (ht : (s.gate.pc t).inside = true) : (s.gate.op t).key ≠ 0 := by
  obtain ⟨-, -, r, hr, -, hkey, -⟩ := h.gate.ticket t ht
  rw [hkey]
  exact hkeys r (List.mem_of_getElem? hr)

/-- A step of the gate that lets nobody in or out; a thread it lets through has all earlier
    records on its key behind it. -/
theorem Inv.regate (h : Inv recs N size s c tk eff m L) {g : Gate} (hg : Gate.Inv recs N g c tk)
    (hin : ∀ u, (g.pc u).inside = (s.gate.pc u).inside) (hop : ∀ u, (g.pc u).inside = true → g.op u = s.gate.op u)
    (hact : ∀ u, s.gate.pc u = .active → g.pc u = .active)
    (hnew : ∀ u, g.pc u = .active → s.gate.pc u ≠ .active → ∀ j < tk u, (opAt recs j).key = (opAt recs (tk u)).key →
      eff j = true)
    (hfault : g.fault = s.gate.fault ∨ g.fault = some .segv) :
    Inv recs N size { s with gate := g } c tk eff m L := by
  refine ⟨hg, ?_, h.bound, ?_, ?_, ?_, ?_, h.down, h.bind, h.holds, h.size, h.table, h.room, h.answered, h.nodup, ?_, ?_⟩
  · intro t ht
    rw [show ({ s with gate := g } : Sys).gate.op t = s.gate.op t from hop t ht]
    exact h.takes t (hin t ▸ ht)
  · intro i hi he
    obtain ⟨t, ht, htk⟩ := h.held i hi he
    exact ⟨t, (hin t).trans ht, htk⟩
  · intro t ht
    have hna : s.gate.pc t ≠ .active := fun ha => ht (hact t ha)
    exact ⟨(h.outside t hna).1, fun hi => (h.outside t hna).2 (hin t ▸ hi)⟩
  · intro t ht
    change At recs s.h eff (tk t) (g.op t) (s.loc t)
    rw [hop t (active_inside ht)]
    by_cases ha : s.gate.pc t = .active
    · exact h.running t ha
    · rw [(h.outside t ha).1]
      exact (h.outside t ha).2 (hin t ▸ active_inside ht)
  · intro t ht
    by_cases ha : s.gate.pc t = .active
    · exact h.prev t ha
    · exact hnew t ht ha
  · intro i
    rw [h.logged i]
    exact and_congr_right fun _ => forall_congr' fun t => by rw [show ({ s with gate := g } : Sys).gate.pc t = g.pc t from rfl, hin t]
  · rcases hfault with hf | hf
    · rw [show ({ s with gate := g } : Sys).gate.fault = g.fault from rfl, hf]; exact h.sound
    · exact Or.inr hf

theorem Inv.register (h : Inv recs N size s c tk eff m L) (hids : Gate.IdsIncrease recs) {t : Nat} (ht : 1 ≤ t ∧ t ≤ N)
    (hpc : s.gate.pc t = .idle) (hc : c < recs.length) (hread : Gate.Readable recs c) (o : Op) :
    Inv recs N size { s with gate := s.gate.register t (fetched recs c recs[c] o) (offset recs (c + 1)) }
      (c + 1) (update tk t c) eff m L := by
  have hg := h.gate.register hids ht hpc hc hread o
  have hnew : eff c = false := by
    cases he : eff c with
    | false => rfl
    | true => exact absurd (h.bound c he) (by omega)
  have hidle : ∀ u, (s.gate.pc u).inside = true → u ≠ t := by
    intro u hu e; rw [e, hpc] at hu; cases hu
  have hstart : s.loc t = .start := (h.outside t (by rw [hpc]; simp)).1
  -- the gate's side of the others is as it was
  have hpc' : ∀ u, u ≠ t → (s.gate.register t (fetched recs c recs[c] o) (offset recs (c + 1))).pc u = s.gate.pc u :=
    fun u hu => update_of_ne hu ..
  have hop' : ∀ u, u ≠ t → (s.gate.register t (fetched recs c recs[c] o) (offset recs (c + 1))).op u = s.gate.op u :=
    fun u hu => update_of_ne hu ..
  have hself : (s.gate.register t (fetched recs c recs[c] o) (offset recs (c + 1))).pc t = .scanning := update_self ..
  have hact : ∀ u, (s.gate.register t (fetched recs c recs[c] o) (offset recs (c + 1))).pc u = .active →
      u ≠ t ∧ s.gate.pc u = .active := by
    intro u hu
    have hne : u ≠ t := by intro e; rw [e, hself] at hu; cases hu
    exact ⟨hne, hpc' u hne ▸ hu⟩
  refine ⟨hg, ?_, fun i hi => (by have := h.bound i hi; omega), ?_, ?_, ?_, ?_, h.down, ?_, h.holds, h.size, h.table, h.room,
    h.answered, h.nodup, ?_, h.sound⟩
  · intro u hu
    by_cases e : u = t
    · rw [e, update_self]
      rw [show (s.gate.register t (fetched recs c recs[c] o) (offset recs (c + 1))).op t = fetched recs c recs[c] o from
        update_self ..]
      exact fetched_takes hc o
    · rw [hpc' u e] at hu
      rw [update_of_ne e, hop' u e]
      exact h.takes u hu
  · intro i hi he
    by_cases e : i = c
    · exact ⟨t, by rw [hself]; rfl, by rw [update_self, e]⟩
    · obtain ⟨u, hu, htk⟩ := h.held i (by omega) he
      exact ⟨u, by rw [hpc' u (hidle u hu)]; exact hu, by rw [update_of_ne (hidle u hu)]; exact htk⟩
  · intro u hu
    by_cases e : u = t
    · rw [e, update_self]; exact ⟨hstart, fun _ => hnew⟩
    · rw [hpc' u e] at hu ⊢
      rw [update_of_ne e]
      exact h.outside u hu
  · intro u hu
    obtain ⟨hne, ha⟩ := hact u hu
    rw [update_of_ne hne, hop' u hne]
    exact h.running u ha
  · intro u hu
    obtain ⟨hne, ha⟩ := hact u hu
    rw [update_of_ne hne]
    exact h.prev u ha
  · intro k i hi hb
    by_cases e : i = c + 1
    · -- record `c` has not taken effect, so it is on another key
      have hkc : (opAt recs c).key ≠ k := by
        intro hk
        have := (hb c (Nat.lt_succ_self c) hk).mpr (by omega)
        rw [hnew] at this; cases this
      rw [e, mapAt_other hc hkc]
      refine h.bind k c (Nat.le_refl c) fun j hj hjk => ?_
      rw [hb j (by omega) hjk]; omega
    · exact h.bind k i (by omega) fun j hj hjk => hb j (by omega) hjk
  · intro i
    rw [h.logged i]
    constructor
    · intro hi
      refine ⟨by omega, fun u hu => ?_⟩
      by_cases e : u = t
      · rw [e, update_self]; omega
      · rw [hpc' u e] at hu
        rw [update_of_ne e]
        exact hi.2 u hu
    · intro hi
      have hne : c ≠ i := by
        have := hi.2 t (by rw [hself]; rfl)
        rwa [update_self] at this
      refine ⟨by omega, fun u hu => ?_⟩
      have := hi.2 u (by rw [hpc' u (hidle u hu)]; exact hu)
      rwa [update_of_ne (hidle u hu)] at this

/-- A scan that lets the thread through has found no earlier record on its key inside. -/
theorem Inv.scan (h : Inv recs N size s c tk eff m L) (hids : Gate.IdsIncrease recs) (hN : N ≤ 32) {t : Nat}
    (hpc : s.gate.pc t = .scanning) : Inv recs N size { s with gate := s.gate.scan t } c tk eff m L := by
  have hg := h.gate.scan hids (Or.inl hN) hpc
  have ht : (s.gate.pc t).inside = true := by rw [hpc]; rfl
  unfold Gate.scan at hg ⊢
  by_cases hcf : s.gate.conflict t = true
  · rw [if_pos hcf] at hg ⊢
    refine h.regate hg (fun u => ?_) (fun _ _ => rfl) (fun u hu => ?_) (fun u hu hna => ?_) (Or.inl rfl)
    · by_cases e : u = t
      · simp only [e, update_self, hpc]; rfl
      · simp only [update_of_ne e]
    · have e : u ≠ t := by intro e; rw [e, hpc] at hu; cases hu
      simpa only [update_of_ne e] using hu
    · by_cases e : u = t
      · simp only [e, update_self] at hu; cases hu
      · simp only [update_of_ne e] at hu; exact absurd hu hna
  · rw [if_neg hcf] at hg ⊢
    refine h.regate hg (fun u => ?_) (fun _ _ => rfl) (fun u hu => ?_) (fun u hu hna => ?_) (Or.inl rfl)
    · by_cases e : u = t
      · simp only [e, update_self, hpc]; rfl
      · simp only [update_of_ne e]
    · by_cases e : u = t
      · simp only [e, update_self]
      · simpa only [update_of_ne e] using hu
    · have e : u = t := by
        by_cases e : u = t
        · exact e
        · simp only [update_of_ne e] at hu; exact absurd hu hna
      subst e
      intro j hj hjk
      apply Classical.byContradiction
      intro hne
      obtain ⟨v, hv, htk⟩ := h.held j (by have := (h.taken ht).1; omega) (by simpa using hne)
      have hvu : v ≠ u := by intro e; rw [e] at htk; omega
      have hkey : (s.gate.op v).key = (s.gate.op u).key := by rw [(h.taken hv).2.2, (h.taken ht).2.2, htk, hjk]
      have hlt := h.gate.clear hids (Or.inl hN) ht (by simpa using hcf) hv hvu hkey
      obtain ⟨-, -, r, hr, hid, -⟩ := h.gate.ticket u ht
      obtain ⟨-, -, r', hr', hid', -⟩ := h.gate.ticket v hv
      have := hids.lt hr' hr (by omega)
      omega

/-- A thread moves on within its operation, with nothing shared changed. -/
theorem Inv.relocate (h : Inv recs N size s c tk eff m L) {t : Nat} (hpc : s.gate.pc t = .active) {l : Loc}
    (hl : At recs s.h eff (tk t) (s.gate.op t) l) : Inv recs N size { s with loc := update s.loc t l } c tk eff m L := by
  refine ⟨h.gate, h.takes, h.bound, h.held, ?_, ?_, h.prev, h.down, h.bind, h.holds, h.size, h.table, h.room, h.answered,
    h.nodup, h.logged, h.sound⟩
  · intro u hu
    have e : u ≠ t := by intro e; exact hu (e ▸ hpc)
    change update s.loc t l u = _ ∧ _
    rw [update_of_ne e]
    exact h.outside u hu
  · intro u hu
    change At recs s.h eff (tk u) (s.gate.op u) (update s.loc t l u)
    by_cases e : u = t
    · rw [e, update_self]; exact hl
    · rw [update_of_ne e]; exact h.running u hu

theorem Inv.doneOne (h : Inv recs N size s c tk eff m L) {t : Nat} (hpc : s.gate.pc t = .active) {r : Int}
    (hloc : s.loc t = .ret r) : Inv recs N size (s.doneOne t r) c tk eff m (L ++ [tk t]) := by
  have ht : (s.gate.pc t).inside = true := active_inside hpc
  have hrun := h.running t hpc
  rw [hloc] at hrun
  obtain ⟨heff, hans⟩ := hrun
  have hpc' : ∀ u, u ≠ t → ((s.gate.doneOne t).pc u = .active ↔ s.gate.pc u = .active) ∧
      ((s.gate.doneOne t).pc u).inside = (s.gate.pc u).inside := by
    intro u hu
    simp only [Gate.doneOne, if_neg hu]
    by_cases e : s.gate.pc u = .asleep
    · simp [e, Pc.inside]
    · simp [e]
  have hself : (s.gate.doneOne t).pc t = .idle := by simp only [Gate.doneOne, if_true]
  have hin : ∀ u, ((s.gate.doneOne t).pc u).inside = true ↔ u ≠ t ∧ (s.gate.pc u).inside = true := by
    intro u
    by_cases e : u = t
    · rw [e, hself]; simp [Pc.inside]
    · rw [(hpc' u e).2]; exact ⟨fun hi => ⟨e, hi⟩, fun hi => hi.2⟩
  have hact : ∀ u, (s.gate.doneOne t).pc u = .active → u ≠ t ∧ s.gate.pc u = .active := by
    intro u hu
    have e := ((hin u).mp (active_inside hu)).1
    exact ⟨e, (hpc' u e).1.mp hu⟩
  refine ⟨h.gate.done hpc, fun u hu => h.takes u ((hin u).mp hu).2, h.bound, ?_, ?_, ?_,
    fun u hu => h.prev u (hact u hu).2, h.down, h.bind, h.holds, h.size, h.table, h.room, ?_, ?_, ?_, h.sound⟩
  · intro i hi he
    obtain ⟨u, hu, htk⟩ := h.held i hi he
    have e : u ≠ t := by intro e; rw [e] at htk; rw [htk, he] at heff; cases heff
    exact ⟨u, (hin u).mpr ⟨e, hu⟩, htk⟩
  · intro u hu
    change update s.loc t Loc.start u = _ ∧ _
    by_cases e : u = t
    · rw [e, update_self]
      exact ⟨rfl, fun hi => absurd rfl ((hin t).mp hi).1⟩
    · rw [update_of_ne e]
      have hna : s.gate.pc u ≠ .active := fun ha => hu ((hpc' u e).1.mpr ha)
      exact ⟨(h.outside u hna).1, fun hi => (h.outside u hna).2 ((hin u).mp hi).2⟩
  · intro u hu
    change At recs s.h eff (tk u) (s.gate.op u) (update s.loc t Loc.start u)
    rw [update_of_ne (hact u hu).1]
    exact h.running u (hact u hu).2
  · exact List.rel_append h.answered (.cons hans .nil)
  · refine h.nodup.append (List.nodup_singleton _) fun i hi hi' => ?_
    rw [List.mem_singleton] at hi'
    exact ((h.logged i).mp hi).2 t ht hi'.symm
  · intro i
    rw [List.mem_append, List.mem_singleton, h.logged i]
    constructor
    · intro hi
      rcases hi with hi | hi
      · exact ⟨hi.1, fun u hu => hi.2 u ((hin u).mp hu).2⟩
      · refine ⟨by rw [hi]; exact h.bound _ heff, fun u hu he => ?_⟩
        exact ((hin u).mp hu).1 (h.gate.inj u t ((hin u).mp hu).2 ht (he.trans hi))
    · intro hi
      by_cases e : i = tk t
      · exact Or.inr e
      · refine Or.inl ⟨hi.1, fun u hu he => ?_⟩
        by_cases hut : u = t
        · rw [hut] at he; exact e he.symm
        · exact hi.2 u ((hin u).mpr ⟨hut, hu⟩) he

/-- The records on a thread's key that have taken effect are those before its own. -/
theorem Inv.entry (h : Inv recs N size s c tk eff m L) {t : Nat} (hpc : s.gate.pc t = .active)
    (heff : eff (tk t) = false) : m.lookup (s.gate.op t).key = (mapAt recs (tk t)).lookup (s.gate.op t).key := by
  obtain ⟨hlt, -, hkey⟩ := h.taken (active_inside hpc)
  refine h.bind _ _ (Nat.le_of_lt hlt) fun j hj hjk => ⟨fun hej => ?_, fun hjt => h.prev t hpc j hjt (by rw [hjk, hkey])⟩
  rcases Nat.lt_trichotomy j (tk t) with hjt | he | hgt
  · exact hjt
  · rw [he, heff] at hej; cases hej
  · have := h.down j (tk t) hej hgt (by rw [hjk, hkey])
    rw [heff] at this; cases this

theorem putsDone_lt {i : Nat} (hi : i < recs.length) (heff : eff i = false) (hput : (opAt recs i).opType = .PUT) :
    putsDone recs eff < puts recs := by
  refine Finset.card_lt_card ⟨fun j hj => ?_, fun hsub => ?_⟩
  · rw [Finset.mem_filter] at hj ⊢; exact ⟨hj.1, hj.2.2⟩
  · have := hsub (Finset.mem_filter.mpr ⟨Finset.mem_range.mpr hi, hput⟩)
    rw [Finset.mem_filter, heff] at this
    cases this.2.1

/-- A record that takes effect, the others as before. -/
theorem effect_mono {i : Nat} (k : Nat) (hi : eff i = true) : update eff k true i = true := by
  by_cases e : i = k
  · rw [e, update_self]
  · rw [update_of_ne e]; exact hi

theorem putsDone_update {i : Nat} (hi : i < recs.length) (heff : eff i = false) :
    putsDone recs eff + (if (opAt recs i).opType = .PUT then 1 else 0) ≤ putsDone recs (update eff i true) := by
  split
  · rename_i hput
    refine Finset.card_lt_card ⟨fun j hj => ?_, fun hsub => ?_⟩
    · rw [Finset.mem_filter] at hj ⊢; exact ⟨hj.1, effect_mono i hj.2.1, hj.2.2⟩
    · have := hsub (Finset.mem_filter.mpr ⟨Finset.mem_range.mpr hi, update_self .., hput⟩)
      rw [Finset.mem_filter, heff] at this
      cases this.2.1
  · rw [Nat.add_zero]
    refine Finset.card_le_card fun j hj => ?_
    rw [Finset.mem_filter] at hj ⊢; exact ⟨hj.1, effect_mono i hj.2.1, hj.2.2⟩

/-- An insertion still finds a slot that was never used, and `used` below the size. -/
theorem Inv.space (h : Inv recs N size s c tk eff m L) (hputs : puts recs ≤ size) {t : Nat} (hpc : s.gate.pc t = .active)
    (heff : eff (tk t) = false) (hput : (s.gate.op t).opType = .PUT) :
    takenCount s.h < s.h.tableSize ∧ s.h.used < s.h.tableSize := by
  obtain ⟨-, hlen, -⟩ := h.taken (active_inside hpc)
  have hlt := putsDone_lt hlen heff ((h.takes t (active_inside hpc)).2.2.1.symm.trans hput)
  have hroom := h.room
  have hused := h.holds.used
  have hkeys := keys_le_taken h.holds
  have hsize := h.size
  omega

/-- The map once a thread's record has taken effect. -/
theorem Inv.bind_exec (h : Inv recs N size s c tk eff m L) {t : Nat} (hpc : s.gate.pc t = .active) (heff : eff (tk t) = false) {k i : Nat}
    (hi : i ≤ c) (hb : ∀ j < c, (opAt recs j).key = k → (update eff (tk t) true j = true ↔ j < i)) :
    (Spec.exec m (s.gate.op t)).2.lookup k = (mapAt recs i).lookup k := by
  have ht := active_inside hpc
  obtain ⟨hc, hlen, hk⟩ := h.taken ht
  by_cases hkk : (s.gate.op t).key = k
  · -- no record on the key after this one has taken effect
    subst hkk
    have hti : tk t < i := (hb (tk t) hc hk.symm).mp (update_self ..)
    have hskip := mapAt_skip (k := (s.gate.op t).key) hti (hi.trans h.le) fun l h1 h2 hkl => by
      have hel := (hb l (by omega) hkl).mpr h2
      rw [update_of_ne (by omega)] at hel
      have := h.down l (tk t) hel h1 (by rw [hkl, hk])
      rw [heff] at this; cases this
    rw [hskip, mapAt_succ hlen, ← (h.takes t ht).map]
    exact (Spec.exec_same _ (h.entry hpc heff)).2
  · rw [Spec.exec_other m _ hkk]
    refine h.bind k i hi fun j hj hjk => ?_
    have e : j ≠ tk t := by intro e; rw [e] at hjk; exact hkk (hk.trans hjk)
    have := hb j hj hjk
    rwa [update_of_ne e] at this

/-- The other threads go on where they are: they hold other records, and those in the
    table other keys. -/
theorem Inv.at_other (h : Inv recs N size s c tk eff m L) (hkeys : ∀ r ∈ recs, r.key ≠ 0) {t u : Nat} (hpc : s.gate.pc t = .active)
    (hu : s.gate.pc u = .active) (e : u ≠ t) {h' : HashT} (hkept : Kept s.h h' (s.gate.op t)) :
    At recs h' (update eff (tk t) true) (tk u) (s.gate.op u) (s.loc u) := by
  have hr := h.running u hu
  have htk : tk u ≠ tk t := fun he => e (h.gate.inj u t (active_inside hu) (active_inside hpc) he)
  have hku : (s.gate.op u).key ≠ (s.gate.op t).key := fun he => e (h.gate.exclusive u t hu hpc he)
  cases hl : s.loc u with
  | start => rw [hl] at hr; exact (update_of_ne htk ..).trans hr
  | probing ctr cnt =>
    rw [hl] at hr
    exact ⟨(update_of_ne htk ..).trans hr.1, hr.2.keep hkept.size (hkept.busy _ (h.key_ne hkeys (active_inside hu)) hku)⟩
  | ret r => rw [hl] at hr; exact ⟨effect_mono _ hr.1, hr.2⟩

/-- The section that ends an operation: here it takes effect. -/
theorem Inv.finish (h : Inv recs N size s c tk eff m L) (h0 : 0 < size) (hlt : size < 2 ^ 32) (hputs : puts recs ≤ size)
    (hkeys : ∀ r ∈ recs, r.key ≠ 0) {t ctr cnt : Nat} (hpc : s.gate.pc t = .active) (hloc : s.loc t = .probing ctr cnt)
    (hstop : goesOn s.h (s.gate.op t) ctr cnt = false) :
    Inv recs N size (s.slot t ctr cnt) c tk (update eff (tk t) true) (Spec.exec m (s.gate.op t)).2 L := by
  have ht := active_inside hpc
  obtain ⟨hc, hlen, hk⟩ := h.taken ht
  have hrun := h.running t hpc
  rw [hloc] at hrun
  obtain ⟨heff, hwalk⟩ := hrun
  have hsize := h.size
  obtain ⟨h', hend, hholds, hkept⟩ := atEnd_refines h.holds (by omega) (h.key_ne hkeys ht) (by omega) hwalk hstop
    fun hput => (h.space hputs hpc heff hput).1
  have hans := (h.takes t ht).answers hlen (h.entry hpc heff)
  have hbuf := exec_buffer m (s.gate.op t)
  have hs : s.slot t ctr cnt = { s with
      gate := { s.gate with op := update s.gate.op t (Spec.exec m (s.gate.op t)).1.2 }
      h := h'
      loc := update s.loc t (.ret (Spec.exec m (s.gate.op t)).1.1) } := by
    simp only [Sys.slot, hstop, hend, Bool.false_eq_true, if_false]
  rw [hs]
  have hne : ∀ u, u ≠ t → (s.gate.pc u).inside = true → tk u ≠ tk t := fun u hu hi he => hu (h.gate.inj u t hi ht he)
  have hback : ∀ i, i ≠ tk t → update eff (tk t) true i = true → eff i = true := by
    intro i hi he; rwa [update_of_ne hi] at he
  refine ⟨h.gate.rebuffer t hbuf.1 hbuf.2.1 hbuf.2.2.1, ?_, ?_, ?_, ?_, ?_, fun u hu j hj hjk => effect_mono _ (h.prev u hu j hj hjk),
    ?_, ?_, hholds, by rw [hkept.size]; exact hsize, by rw [hkept.table, hkept.block]; exact h.table, ?_, h.answered, h.nodup,
    h.logged, h.sound⟩
  · intro u hu
    change Takes (update s.gate.op t (Spec.exec m (s.gate.op t)).1.2 u) _
    by_cases e : u = t
    · rw [e, update_self]; exact hbuf.trans (h.takes t ht)
    · rw [update_of_ne e]; exact h.takes u hu
  · intro i hi
    by_cases e : i = tk t
    · rw [e]; exact hc
    · exact h.bound i (hback i e hi)
  · intro i hi he
    have e : i ≠ tk t := by intro e; rw [e, update_self] at he; cases he
    rw [update_of_ne e] at he
    exact h.held i hi he
  · intro u hu
    change update s.loc t (Loc.ret _) u = _ ∧ _
    have e : u ≠ t := by intro e; exact hu (e ▸ hpc)
    rw [update_of_ne e]
    refine ⟨(h.outside u hu).1, fun hi => ?_⟩
    rw [update_of_ne (hne u e hi)]
    exact (h.outside u hu).2 hi
  · intro u hu
    change At recs h' _ (tk u) (update s.gate.op t (Spec.exec m (s.gate.op t)).1.2 u)
      (update s.loc t (Loc.ret (Spec.exec m (s.gate.op t)).1.1) u)
    by_cases e : u = t
    · rw [e, update_self, update_self]; exact ⟨update_self .., hans⟩
    · rw [update_of_ne e, update_of_ne e]
      exact h.at_other hkeys hpc hu e hkept
  · intro i j hi hj hjk
    by_cases e : i = tk t
    · rw [e] at hj hjk; exact effect_mono _ (h.prev t hpc j hj hjk)
    · exact effect_mono _ (h.down i j (hback i e hi) hj hjk)
  · intro k i hi hb
    exact h.bind_exec hpc heff hi hb
  · have h1 := hkept.taken
    have h2 := putsDone_update hlen heff
    have h3 := h.room
    rw [(h.takes t ht).2.2.1] at h1
    change takenCount h' ≤ _
    omega

theorem Inv.call (h : Inv recs N size s c tk eff m L) (h0 : 0 < size) (hputs : puts recs ≤ size)
    (hkeys : ∀ r ∈ recs, r.key ≠ 0) {t : Nat} (hpc : s.gate.pc t = .active) (hloc : s.loc t = .start) :
    Inv recs N size (s.call t) c tk eff m L := by
  have hrun := h.running t hpc
  rw [hloc] at hrun
  have hchecks : checks s.h (s.gate.op t) = none := by
    unfold checks
    rw [if_neg, if_neg, if_neg (not_not_intro h.table)]
    · exact fun hc => h.key_ne hkeys (active_inside hpc) hc.2
    · exact fun hc => hc.2 (h.space hputs hpc hrun hc.1).2
  unfold Sys.call
  rw [hchecks]
  exact h.relocate hpc ⟨hrun, walk_start (h.size ▸ h0) _⟩

theorem Inv.slot (h : Inv recs N size s c tk eff m L) (h0 : 0 < size) (hlt : size < 2 ^ 32) (hputs : puts recs ≤ size)
    (hkeys : ∀ r ∈ recs, r.key ≠ 0) {t ctr cnt : Nat} (hpc : s.gate.pc t = .active) (hloc : s.loc t = .probing ctr cnt) :
    ∃ eff' m', Inv recs N size (s.slot t ctr cnt) c tk eff' m' L := by
  by_cases hgo : goesOn s.h (s.gate.op t) ctr cnt = true
  · have hrun := h.running t hpc
    rw [hloc] at hrun
    have hsize := h.size
    refine ⟨eff, m, ?_⟩
    unfold Sys.slot
    rw [if_pos hgo, if_neg (not_not_intro h.table)]
    exact h.relocate hpc ⟨hrun.1, hrun.2.next (by omega) (by omega) hgo⟩
  · exact ⟨_, _, h.finish h0 hlt hputs hkeys hpc hloc (by simpa using hgo)⟩

theorem Inv.read (h : Inv recs N size s c tk eff m L) (hids : Gate.IdsIncrease recs) (hN : N ≤ 32) {t : Nat}
    (ht : 1 ≤ t ∧ t ≤ N) (hpc : s.gate.pc t = .idle) :
    ∃ c' tk', Inv recs N size { s with gate := s.gate.readOp (encode recs) t } c' tk' eff m L := by
  rcases h.gate.readOp_cases t with he | ⟨hc, op, curr, hcurr, he⟩ | ⟨hc, hread, he⟩ <;> rw [he]
  · refine ⟨c, tk, h.regate h.gate.segv ?_ ?_ ?_ ?_ (Or.inr rfl)⟩
    · intro u; rfl
    · intro u _; rfl
    · intro u hu; exact hu
    · intro u hu hna; exact absurd hu hna
  · have hout : ∀ u, (update s.gate.pc t Pc.finished u).inside = true → u ≠ t := fun u hu => (Gate.inside_update hu rfl).1
    refine ⟨c, tk, h.regate (h.gate.finish hpc hc op hcurr) ?_ ?_ ?_ ?_ (Or.inl rfl)⟩
    · intro u
      by_cases e : u = t
      · simp only [e, update_self, hpc]; rfl
      · simp only [update_of_ne e]
    · intro u hu; exact update_of_ne (hout u hu) ..
    · intro u hu
      have e : u ≠ t := by intro e; rw [e, hpc] at hu; cases hu
      simpa only [update_of_ne e] using hu
    · intro u hu hna
      have e : u ≠ t := hout u (active_inside hu)
      simp only [update_of_ne e] at hu
      exact absurd hu hna
  · exact ⟨c + 1, update tk t c, (h.register hids ht hpc hc hread _).scan hids hN (update_self ..)⟩

theorem Inv.spurious (h : Inv recs N size s c tk eff m L) {t : Nat} (hpc : s.gate.pc t = .asleep) :
    Inv recs N size { s with gate := { s.gate with pc := update s.gate.pc t .scanning } } c tk eff m L := by
  have hact : ∀ u, update s.gate.pc t Pc.scanning u = .active → s.gate.pc u = .active := by
    intro u hu
    by_cases e : u = t
    · rw [e, update_self] at hu; cases hu
    · rwa [update_of_ne e] at hu
  refine h.regate (h.gate.spurious hpc) ?_ ?_ ?_ ?_ (Or.inl rfl)
  · intro u
    by_cases e : u = t
    · simp only [e, update_self, hpc]; rfl
    · simp only [update_of_ne e]
  · intro u _; rfl
  · intro u hu
    have e : u ≠ t := by intro e; rw [e, hpc] at hu; cases hu
    simpa only [update_of_ne e] using hu
  · intro u hu hna; exact absurd (hact u hu) hna

end

/-- The invariant, whatever the ghost state. -/
def Good (recs : List Rec) (N size : Nat) (s : Sys) : Prop := ∃ c tk eff m L, Inv recs N size s c tk eff m L

section
variable {recs : List Rec} {N size block : Nat} (hids : Gate.IdsIncrease recs) (hkeys : ∀ r ∈ recs, r.key ≠ 0)
  (h0 : 0 < size) (hlt : size < 2 ^ 32) (hputs : puts recs ≤ size) (hN : N ≤ 32)
include hids hkeys h0 hlt hputs hN

theorem step_inv {s s' : Sys} {e : Ev} (h : Good recs N size s) (hs : step (encode recs) N s e = some s') :
    Good recs N size s' := by
  obtain ⟨c, tk, eff, m, L, h⟩ := h
  unfold step at hs
  split at hs
  swap
  · cases hs
  rename_i hg
  obtain ⟨-, ht⟩ := hg
  cases e with
  | read t =>
    simp only [stepAt, Gate.stepAt] at hs
    split at hs
    swap
    · cases hs
    rename_i hpc
    cases hs
    obtain ⟨c', tk', h'⟩ := h.read hids hN ht hpc
    exact ⟨c', tk', eff, m, L, h'⟩
  | spurious t =>
    simp only [stepAt, Gate.stepAt] at hs
    split at hs
    · rename_i hpc; cases hs; exact ⟨c, tk, eff, m, L, h.spurious hpc⟩
    · cases hs
  | rescan t =>
    simp only [stepAt, Gate.stepAt] at hs
    split at hs
    · rename_i hpc; cases hs; exact ⟨c, tk, eff, m, L, h.scan hids hN hpc⟩
    · cases hs
  | call t =>
    simp only [stepAt] at hs
    split at hs
    · rename_i hc; cases hs; exact ⟨c, tk, eff, m, L, h.call h0 hputs hkeys hc.1 hc.2⟩
    · cases hs
  | slot t =>
    simp only [stepAt] at hs
    split at hs
    · rename_i ctr cnt hloc
      split at hs
      · rename_i hpc
        cases hs
        obtain ⟨eff', m', h'⟩ := h.slot h0 hlt hputs hkeys hpc hloc
        exact ⟨c, tk, eff', m', L, h'⟩
      · cases hs
    · cases hs
    · cases hs
  | done t =>
    simp only [stepAt] at hs
    split at hs
    · rename_i r hloc
      split at hs
      · rename_i hpc; cases hs; exact ⟨c, tk, eff, m, _, h.doneOne hpc hloc⟩
      · cases hs
    · cases hs
    · cases hs

theorem reach_inv {s : Sys} (h : (machine (encode recs) N size block).Reach Machine.any s) : Good recs N size s :=
  h.inv (Good recs N size) (fun _ hs => ⟨0, _, _, ∅, [], start_inv recs N size block hs⟩)
    fun _ _ _ hi _ hs => step_inv hids hkeys h0 hlt hputs hN hi hs

end

/-! ## All threads finished -/

theorem puts_eq (recs : List Rec) : puts recs = recs.countP fun r => r.opType = .PUT := by
  have hmap : recs.map Rec.opType = (List.range recs.length).map fun i => (opAt recs i).opType := by
    apply List.ext_getElem?
    intro i
    by_cases hi : i < recs.length
    · simp [hi, opAt_of (List.getElem?_eq_getElem hi)]
    · simp [hi]
  have hcount : recs.countP (fun r => r.opType = .PUT) = (recs.map Rec.opType).countP (· = .PUT) := by
    rw [List.countP_map]; rfl
  rw [hcount, hmap, List.countP_map, List.countP_eq_length_filter]
  rfl

/-- With every thread out and the file used up, every record has taken effect. -/
theorem Inv.finished {recs : List Rec} {N size : Nat} {s : Sys} {c : Nat} {tk : Nat → Nat} {eff : Nat → Bool} {m : Map}
    {L : List Nat} (h : Inv recs N size s c tk eff m L) (hN : 1 ≤ N)
    (hfin : ∀ t, 1 ≤ t → t ≤ N → s.gate.pc t = .finished) :
    L.Perm (List.range recs.length) ∧ m = (Spec.run ∅ (ops recs)).2 := by
  have hc : c = recs.length := h.gate.ended 1 (hfin 1 (Nat.le_refl 1) hN)
  have hout : ∀ t, (s.gate.pc t).inside = true → False := by
    intro t ht
    obtain ⟨h1, h2⟩ := h.gate.range t ht
    rw [hfin t h1 h2] at ht; cases ht
  have heff : ∀ i < c, eff i = true := by
    intro i hi
    apply Classical.byContradiction
    intro he
    obtain ⟨t, ht, -⟩ := h.held i hi (by simpa using he)
    exact hout t ht
  constructor
  · refine (List.perm_ext_iff_of_nodup h.nodup List.nodup_range).mpr fun i => ?_
    rw [h.logged i, List.mem_range, hc]
    exact ⟨fun hi => hi.1, fun hi => ⟨hi, fun t ht => (hout t ht).elim⟩⟩
  · apply Finmap.ext_lookup
    intro k
    have hall : mapAt recs c = (Spec.run ∅ (ops recs)).2 := by
      have hlen : (ops recs).length ≤ c := by
        rw [hc]
        exact List.getElem?_eq_none_iff.mp (by rw [ops, opsFrom_getElem?, List.getElem?_eq_none_iff.mpr (Nat.le_refl _)]; rfl)
      rw [mapAt, List.take_of_length_le hlen]
    rw [← hall]
    exact h.bind k c (Nat.le_refl c) fun j hj _ => ⟨fun _ => hj, fun _ => heff j hj⟩

/-- Any interleaving of up to 32 threads does what executing the file in order does. -/
theorem equivalent (recs : List Rec) (hids : Gate.IdsIncrease recs) (hkeys : ∀ r ∈ recs, r.key ≠ 0) (N size block : Nat)
    (h0 : 0 < size) (hlt : size < 2 ^ 32) (hputs : (recs.countP fun r => r.opType = .PUT) ≤ size) (hN : 1 ≤ N ∧ N ≤ 32)
    {s : Sys} (hs : (machine (encode recs) N size block).Reach Machine.any s) :
    (s.gate.fault = none ∨ s.gate.fault = some .segv) ∧
      (∀ e ∈ s.log, ∃ i < recs.length, Answers recs i e) ∧
      ((∀ t, 1 ≤ t → t ≤ N → s.gate.pc t = .finished) →
        (∃ L, L.Perm (List.range recs.length) ∧ List.Forall₂ (Answers recs) L s.log) ∧
          Holds s.h (Spec.run ∅ (ops recs)).2 ∧ s.h.used = (Spec.run ∅ (ops recs)).2.keys.card) := by
  rw [← puts_eq] at hputs
  obtain ⟨c, tk, eff, m, L, h⟩ := reach_inv hids hkeys h0 hlt hputs hN.2 hs
  refine ⟨h.sound, fun e he => ?_, fun hfin => ?_⟩
  · obtain ⟨n, rfl⟩ := List.mem_iff_get.mp he
    obtain ⟨hlen, hget⟩ := List.forall₂_iff_get.mp h.answered
    have hi := ((h.logged _).mp (List.get_mem L ⟨n, by omega⟩)).1
    exact ⟨L.get ⟨n, by omega⟩, by have := h.le; omega, hget n (by omega) n.isLt⟩
  · obtain ⟨hperm, hm⟩ := h.finished hN.1 hfin
    rw [← hm]
    exact ⟨⟨L, hperm, h.answered⟩, h.holds, h.holds.used⟩

def idle (size block : Nat) : Sys := ⟨Gate.idleGate, initHashtable size block, fun _ => .start, []⟩

/-- Thread 2 meets thread 1's insertion of its key, sleeps, and reads what was inserted. -/
def meeting : List Ev :=
  [.read 1, .call 1, .read 2, .slot 1, .done 1, .rescan 2, .call 2, .slot 2, .done 2, .read 1, .read 2]

theorem equivalent_meeting :
    ∃ s, (machine (encode Gate.samePair) 2 2 0).exec (idle 2 0) meeting = some s ∧
      s.log = [(0, ⟨1, 5, .PUT, 0, 24⟩), (0, ⟨2, 5, .GET, 0, 24⟩)] ∧
      Holds s.h (Spec.run ∅ (ops Gate.samePair)).2 := by
  have hsome : ((machine (encode Gate.samePair) 2 2 0).exec (idle 2 0) meeting).isSome = true := by decide +kernel
  obtain ⟨s, hs⟩ := Option.isSome_iff_exists.mp hsome
  have hpc : (((machine (encode Gate.samePair) 2 2 0).exec (idle 2 0) meeting).map fun s =>
      (s.gate.pc 1, s.gate.pc 2, s.log)) = some (.finished, .finished,
        [(0, ⟨1, 5, .PUT, 0, 24⟩), (0, ⟨2, 5, .GET, 0, 24⟩)]) := by decide +kernel
  rw [hs, Option.map_some] at hpc
  obtain ⟨h1, h2, hlog⟩ : s.gate.pc 1 = .finished ∧ s.gate.pc 2 = .finished ∧ s.log = _ := by simpa using hpc
  have hreach := (Machine.exec_run hs).reach (.init ⟨⟨rfl, fun _ => rfl, fun _ => rfl, rfl, rfl⟩, rfl, fun _ => rfl, rfl⟩)
  have hfin : ∀ t, 1 ≤ t → t ≤ 2 → s.gate.pc t = .finished := by
    intro t ht1 ht2
    rcases (by omega : t = 1 ∨ t = 2) with e | e <;> rw [e] <;> assumption
  refine ⟨s, hs, hlog, ?_⟩
  exact ((equivalent Gate.samePair (by simp [Gate.samePair, Gate.IdsIncrease, Rec.id])
    (by simp [Gate.samePair, Rec.key]) 2 2 0 (by decide) (by decide) (by decide) (by decide) hreach).2.2 hfin).2.1

end Cs330.Hash.Threads
