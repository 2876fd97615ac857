/-
  Cs330.Hash.Used — what parallel_hash.c keeps in `used`, and `dump_hash_table`'s assert
  on it.

  `used` is the number of slots with a key as long as every operation names a key that is
  not 0 (`Holds.occupied`). Key 0 is what an empty slot has: `insert_update` asserts that
  nobody inserts it, `lookup` and `purge_key` do not, and their walk for it ends at the
  first empty slot and takes that for the key's (`exec_zero`). So a GET of 0 returns 0 and
  no data, and a DEL of 0 turns the slot into a tombstone and takes one from `used`, below
  zero into `h->table` if it was 0. Proved: in a run `used` is exact, the table's size and
  pointer stay as they are and a key never inserted is not found, if and only if key 0 is
  only looked for in a full table (`used_exact_iff`).
-/
import Cs330.Hash.Sized

namespace Cs330.Hash

open Lib.Ring

/-- How many of the first `n` slots have a key. -/
def occupied (h : HashT) (n : Nat) : Nat := ((Finset.range n).filter fun i => (h.slot i).key ≠ 0).card

/-- `lused` after the loop of dump_hash_table has looked at `n` slots. -/
def lused (h : HashT) : Nat → Nat
  | 0 => h.used
  | n + 1 => if (h.slot n).key ≠ 0 then sub1 (lused h n) else lused h n

def dumpHashTable (h : HashT) : Except Abort Unit := if lused h h.tableSize = 0 then .ok () else .error .assert

theorem occupied_succ (h : HashT) (n : Nat) :
    occupied h (n + 1) = occupied h n + if (h.slot n).key ≠ 0 then 1 else 0 := by
  unfold occupied
  rw [Finset.range_add_one, Finset.filter_insert]
  split
  · rw [Finset.card_insert_of_notMem (by simp)]
  · rw [Nat.add_zero]

/-- The loop counts down from `used`. -/
theorem lused_eq {h : HashT} (hu : h.used < 2 ^ 32) {n : Nat} (hle : occupied h n ≤ h.used) :
    lused h n = h.used - occupied h n := by
  induction n with
  | zero => rfl
  | succ n ih =>
    rw [occupied_succ] at hle ⊢
    unfold lused
    split
    · rename_i hk
      rw [if_pos hk] at hle
      rw [ih (by omega), sub1_of_pos (by omega) (by omega)]
      omega
    · rename_i hk
      rw [if_neg hk] at hle
      exact ih hle

theorem dumpHashTable_ok {h : HashT} (hu : h.used < 2 ^ 32) (he : h.used = occupied h h.tableSize) :
    dumpHashTable h = .ok () := by
  have hz : lused h h.tableSize = 0 := by rw [lused_eq hu he.ge, he, Nat.sub_self]
  exact if_pos hz

/-- Each key has one slot. -/
theorem Holds.occupied {h : HashT} {m : Map} (hm : Holds h m) : h.used = occupied h h.tableSize := by
  have hkeys : m.keys = ((Finset.range h.tableSize).filter fun i => (h.slot i).key ≠ 0).image fun i => (h.slot i).key := by
    ext k
    simp only [Finmap.mem_keys, Finset.mem_image, Finset.mem_filter, Finset.mem_range]
    constructor
    · intro hk
      obtain ⟨v, hv⟩ := Finmap.mem_iff.mp hk
      obtain ⟨i, hi, he⟩ := hm.slot k v hv
      refine ⟨i, ⟨hi, fun hz => ?_⟩, he⟩
      rw [← he, hz, hm.zero] at hv
      cases hv
    · rintro ⟨i, ⟨hi, hne⟩, rfl⟩
      exact Finmap.mem_of_lookup_eq_some (hm.entry i hi hne)
  rw [hm.used, hkeys]
  refine Finset.card_image_of_injOn fun i hi j hj he => ?_
  obtain ⟨hi, hne⟩ := Finset.mem_filter.mp (Finset.mem_coe.mp hi)
  obtain ⟨hj, -⟩ := Finset.mem_filter.mp (Finset.mem_coe.mp hj)
  exact hm.uniq i (Finset.mem_range.mp hi) j (Finset.mem_range.mp hj) hne he

/-- Only an insertion gives the map a key. -/
theorem mem_exec {m : Map} {op : Op} {k : Nat} (hk : k ∈ (Spec.exec m op).2) (hn : k ∉ m) : op.opType = .PUT ∧ op.key = k := by
  cases hop : op.opType with
  | PUT =>
    simp only [Spec.exec, hop, Finmap.mem_insert, hn, or_false] at hk
    exact ⟨rfl, hk.symm⟩
  | GET =>
    simp only [Spec.exec, hop] at hk
    split at hk <;> exact absurd hk hn
  | DEL =>
    simp only [Spec.exec, hop] at hk
    split at hk
    · exact absurd (Finmap.mem_erase.mp hk).2 hn
    · exact absurd hk hn

namespace Parallel

/-! ## One operation -/

/-- Every slot has a key. -/
def Full (h : HashT) : Prop := ∀ i < h.tableSize, (h.slot i).key ≠ 0

section
variable {h : HashT} (h0 : 0 < h.tableSize) (hlt : h.tableSize < 2 ^ 32) (ht : h.table = h.block) {op : Op}
  (hop : op.opType ≠ .PUT)
include ht hop

/-- A walk that does not find its key. -/
theorem exec_missed {ctr cnt : Nat} (hp : probeOp h op = some (ctr, cnt)) (hne : (h.slot ctr).key ≠ op.key) :
    exec h op = .ok ((-1, op), h) := by
  cases ho : op.opType with
  | PUT => exact absurd ho hop
  | GET => simp only [exec, ho, lookup, ht, ne_eq, not_true, if_false, hp, hne]
  | DEL => simp only [exec, ho, purgeKey, ht, ne_eq, not_true, if_false, hp, hne]

/-- A walk that does. -/
theorem exec_met {ctr cnt : Nat} (hp : probeOp h op = some (ctr, cnt)) (he : (h.slot ctr).key = op.key) :
    ∃ o h', exec h op = .ok ((0, o), h') := by
  cases ho : op.opType with
  | PUT => exact absurd ho hop
  | GET => simp only [exec, ho, lookup, ht, ne_eq, not_true, if_false, hp, he, if_true]; exact ⟨_, _, rfl⟩
  | DEL => simp only [exec, ho, purgeKey, ht, ne_eq, not_true, if_false, hp, he, if_true]; exact ⟨_, _, rfl⟩

include h0 hlt

theorem exec_absent {m : Map} (hm : Holds h m) (hk : op.key ≠ 0) (hl : m.lookup op.key = none) :
    exec h op = .ok ((-1, op), h) := by
  obtain ⟨ctr, cnt, -, hp, ⟨-, he⟩ | ⟨hne, -⟩⟩ := Serial.probeOp_finds hm h0 hlt op hk
  · rw [hl] at he
    cases he
  · exact exec_missed ht hop hp hne

/-- Key 0 is found in the first slot that has no key. -/
theorem exec_zero (hz : op.key = 0) : exec h op = .ok ((-1, op), h) ↔ Full h := by
  rcases probeOp_cases h op h0 hlt with ⟨j, -, -, hstop, hp⟩ | ⟨hall, hp⟩
  · have he : (h.slot (pos h.tableSize (hashfunc op.key h.tableSize) j)).key = op.key :=
      (not_busy hstop).elim id fun hnever => (key_of_not_taken hnever).trans hz.symm
    obtain ⟨o, h', hret⟩ := exec_met ht hop hp he
    refine iff_of_false (fun hmiss => ?_) fun hf => hf _ (pos_lt h0 j) (he.trans hz)
    rw [hret] at hmiss
    cases hmiss
  · have hf : Full h := fun i hi => hz ▸ (busy_iff.mp (hall i hi)).2
    exact iff_of_true (exec_missed ht hop hp (fun he => hf _ (hashfunc_lt h0 op.key) (he.trans hz))) hf

end

/-- No operation moves the array. -/
theorem exec_block {h h' : HashT} {op : Op} {r : Ret} (he : exec h op = .ok (r, h')) : h'.block = h.block := by
  cases hop : op.opType with
  | GET =>
    simp only [exec, hop, lookup] at he
    grind
  | PUT =>
    simp only [exec, hop, insertUpdate] at he
    grind [HashT.set, atomicAdd]
  | DEL =>
    simp only [exec, hop, purgeKey] at he
    grind [HashT.set, atomicAdd]

/-- An operation on a key other than 0 fails an assert or does what the map does. -/
theorem exec_refines {h : HashT} {m : Map} (hm : Holds h m) (h0 : 0 < h.tableSize) (hlt : h.tableSize < 2 ^ 32)
    (ht : h.table = h.block) {op : Op} (hk : op.key ≠ 0) : exec h op = .error .assert ∨
      ∃ h', exec h op = .ok ((Spec.exec m op).1, h') ∧ Holds h' (Spec.exec m op).2 ∧ h'.tableSize = h.tableSize ∧
        h'.table = h.table := by
  by_cases hop : op.opType = .PUT
  · by_cases hu : h.used < h.tableSize
    · rcases insertUpdate_stores hm h0 hlt hk ht fun _ => hm.used ▸ hu with ⟨-, he⟩ | ⟨-, h', he, hm', hn, ht', -⟩
      · exact .inl (by simp only [exec, hop, he])
      · have hret : exec h op = .ok ((0, op), h') := by simp only [exec, hop, he]
        have hblock := exec_block hret
        refine .inr ⟨h', ?_, ?_, hn, ht'.trans (hblock.trans ht.symm)⟩
        · simpa only [Spec.exec, hop] using hret
        · simpa only [Spec.exec, hop] using hm'
    · exact .inl (by simp only [exec, hop, insertUpdate, hu, not_false_eq_true, if_true])
  · obtain ⟨h', he, hm', hn, ht', -⟩ := Serial.exec_returns hm h0 hlt hk hop
    rw [exec_eq hm h0 hlt ht op hk fun hp => hop hp.1]
    exact .inr ⟨h', he, hm', hn, ht'⟩

/-! ## Whole runs -/

theorem runOps_snoc {h h' : HashT} {ops : List Op} {op : Op} (hr : (runOps exec h (ops ++ [op])).2 = .ok h') :
    ∃ h1 r, (runOps exec h ops).2 = .ok h1 ∧ exec h1 op = .ok (r, h') := by
  induction ops generalizing h with
  | nil =>
    simp only [List.nil_append, runOps] at hr
    split at hr
    · cases hr
    · rename_i r h1 he
      cases hr
      exact ⟨h, r, rfl, he⟩
  | cons o ops ih =>
    simp only [List.cons_append, runOps] at hr ⊢
    split at hr
    · cases hr
    · exact ih hr

theorem runOps_block {h h' : HashT} {ops : List Op} (hr : (runOps exec h ops).2 = .ok h') : h'.block = h.block := by
  induction ops using List.reverseRecOn generalizing h' with
  | nil => cases hr; rfl
  | append_singleton ops op ih =>
    obtain ⟨h1, r, hr1, he⟩ := runOps_snoc hr
    exact (exec_block he).trans (ih hr1)

/-- What is to hold after the operations `pre`, before `post`. -/
structure Exact (size block : Nat) (pre post : List Op) (h : HashT) : Prop where
  used : h.used = occupied h h.tableSize
  dump : dumpHashTable h = .ok ()
  tableSize : h.tableSize = size
  table : h.table = block
  absent : ∀ op rest, post = op :: rest → op.opType ≠ .PUT → (∀ o ∈ pre, o.opType = .PUT → o.key ≠ op.key) →
    exec h op = .ok ((-1, op), h)

/-- Wherever key 0 is looked for, every slot has a key. -/
def ZeroInFull (h : HashT) (ops : List Op) : Prop :=
  ∀ pre op post, ops = pre ++ op :: post → op.opType ≠ .PUT → op.key = 0 → ∀ h', (runOps exec h pre).2 = .ok h' → Full h'

section
variable {size block : Nat} (h0 : 0 < size) (hlt : size < 2 ^ 32) {ops : List Op} (hk : ∀ op ∈ ops, op.opType = .PUT → op.key ≠ 0)
include h0 hlt hk

/-- The table stands for a map of keys that were inserted. -/
theorem run_holds (hz : ZeroInFull (initHashtable size block) ops) {pre post : List Op} (hs : ops = pre ++ post) {h : HashT}
    (hr : (runOps exec (initHashtable size block) pre).2 = .ok h) : h.tableSize = size ∧ h.table = block ∧
      ∃ m, Holds h m ∧ ∀ k ∈ m, ∃ o ∈ pre, o.opType = .PUT ∧ o.key = k := by
  induction pre using List.reverseRecOn generalizing post h with
  | nil =>
    cases hr
    exact ⟨rfl, rfl, ∅, holds_init size block, fun k hk => absurd hk Finmap.notMem_empty⟩
  | append_singleton pre op ih =>
    rw [List.append_assoc] at hs
    obtain ⟨h1, r, hr1, he⟩ := runOps_snoc hr
    obtain ⟨hn, htab, m, hm, hput⟩ := ih hs hr1
    have hmem : op ∈ ops := hs ▸ List.mem_append_right pre List.mem_cons_self
    have ht : h1.table = h1.block := htab.trans (runOps_block hr1).symm
    by_cases hkey : op.key = 0
    · have hop : op.opType ≠ .PUT := fun hop => hk op hmem hop hkey
      rw [(exec_zero (hn ▸ h0) (hn ▸ hlt) ht hop hkey).mpr (hz pre op post hs hop hkey h1 hr1)] at he
      cases he
      refine ⟨hn, htab, m, hm, fun k hkm => ?_⟩
      obtain ⟨o, ho, hrest⟩ := hput k hkm
      exact ⟨o, List.mem_append_left _ ho, hrest⟩
    · rcases exec_refines hm (hn ▸ h0) (hn ▸ hlt) ht hkey with herr | ⟨h', he', hm', hn', ht'⟩
      · rw [herr] at he
        cases he
      · rw [he'] at he
        cases he
        refine ⟨hn'.trans hn, ht'.trans htab, _, hm', fun k hkm => ?_⟩
        by_cases hin : k ∈ m
        · obtain ⟨o, ho, hrest⟩ := hput k hin
          exact ⟨o, List.mem_append_left _ ho, hrest⟩
        · obtain ⟨hop, hke⟩ := mem_exec hkm hin
          exact ⟨op, List.mem_append_right _ (List.mem_singleton_self op), hop, hke⟩

/-- In every run, `used`, the table and the keys never inserted are as they should be, if
    and only if key 0 is looked for in a full table only. -/
theorem used_exact_iff : (∀ pre post, ops = pre ++ post → ∀ h, (runOps exec (initHashtable size block) pre).2 = .ok h →
      Exact size block pre post h) ↔ ZeroInFull (initHashtable size block) ops := by
  constructor
  · intro hall pre op post hs hop hkey h hr
    have hx := hall pre (op :: post) hs h hr
    have hb : h.block = block := runOps_block hr
    refine (exec_zero (hx.tableSize ▸ h0) (hx.tableSize ▸ hlt) (hx.table.trans hb.symm) hop hkey).mp ?_
    refine hx.absent op post rfl hop fun o ho hput he => ?_
    exact hk o (hs ▸ List.mem_append_left _ ho) hput (he.trans hkey)
  · intro hz pre post hs h hr
    obtain ⟨hn, htab, m, hm, hput⟩ := run_holds h0 hlt hk hz hs hr
    have hused := hm.occupied
    have hlt' : h.used < 2 ^ 32 := by
      rw [hm.used]
      exact Nat.lt_of_le_of_lt hm.keys_le (hn ▸ hlt)
    refine ⟨hused, dumpHashTable_ok hlt' hused, hn, htab, fun op rest hp hop hnever => ?_⟩
    have ht := htab.trans (runOps_block hr).symm
    by_cases hkey : op.key = 0
    · exact (exec_zero (hn ▸ h0) (hn ▸ hlt) ht hop hkey).mpr (hz pre op rest (hp ▸ hs) hop hkey h hr)
    · refine exec_absent (hn ▸ h0) (hn ▸ hlt) ht hop hm hkey (Finmap.lookup_eq_none.mpr fun hin => ?_)
      obtain ⟨o, ho, hoput, hokey⟩ := hput _ hin
      exact hnever o ho hoput hokey

end

/-- Key 1 is inserted into a table of one slot, and key 0 looked for. -/
def putAndGetZero : List Op := [⟨1, 1, .PUT, 3, 100⟩, ⟨2, 0, .GET, 0, 0⟩]

theorem used_exact_iff_one_slot : (∀ pre post, putAndGetZero = pre ++ post → ∀ h,
      (runOps exec (initHashtable 1 0) pre).2 = .ok h → Exact 1 0 pre post h) ↔ ZeroInFull (initHashtable 1 0) putAndGetZero :=
  used_exact_iff (by decide) (by decide) (by decide)

/-- A DEL of key 0 on the empty table: `used` becomes 2^32 - 1, and `h->table` loses one. -/
theorem purge_zero : (∃ h, (runOps exec (initHashtable 2 4096) [⟨1, 0, .DEL, 0, 0⟩]).2 = .ok h ∧ h.used = 2 ^ 32 - 1 ∧
      h.table = 4095 ∧ occupied h h.tableSize = 0) ∧
    ¬ ∀ (size block : Nat) (ops : List Op), 0 < size → size < 2 ^ 32 → (∀ op ∈ ops, op.opType = .PUT → op.key ≠ 0) →
      ∀ pre post, ops = pre ++ post → ∀ h, (runOps exec (initHashtable size block) pre).2 = .ok h →
        Exact size block pre post h := by
  have hrun : (runOps exec (initHashtable 2 4096) [⟨1, 0, .DEL, 0, 0⟩]).2 =
      .ok (atomicAdd ((initHashtable 2 4096).set 0 tombstone) (-1)) := rfl
  refine ⟨⟨_, hrun, by decide, by decide, by decide⟩, fun hall => ?_⟩
  have hx := hall 2 4096 [⟨1, 0, .DEL, 0, 0⟩] (by decide) (by decide) (by decide) [⟨1, 0, .DEL, 0, 0⟩] [] rfl _ hrun
  exact absurd hx.table (by decide)

end Parallel

end Cs330.Hash
