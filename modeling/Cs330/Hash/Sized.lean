/-
  Cs330.Hash.Sized — a table with one slot for each key that is ever named, the sizing
  rule of the README.

  `insert_update` can still fail an assert there, in both programs: when it updates a key
  of a full table (`UpdatesFull`), since `used < table_size` is asserted before the probe
  has shown whether there is anything to insert; in serial_hash also when the walk ends in
  the slot before the home slot, and when it goes all the way round and finds another key
  at home; in parallel_hash whenever it goes all the way round, which purged slots can
  make it do (`Circles`). Proved: nothing else aborts, and without these every PUT stores
  its key (`never_aborts_iff`).
-/
import Cs330.Hash.Parallel

namespace Cs330.Hash

open Lib.Ring

/-- Every slot is in use or a tombstone, and none holds the key. -/
def Circles (h : HashT) (key : Nat) : Prop := ∀ i < h.tableSize, (h.slot i).busy key = true

def UpdatesFull (h : HashT) (key : Nat) : Prop := h.used = h.tableSize ∧ ∃ i < h.tableSize, (h.slot i).key = key

/-- `exec` either fails an assert of an insertion, exactly in the states `Fails`, or does what
    the map does, and an insertion leaves its entry in a slot. -/
def Inserts (exec : HashT → Op → Except Abort (Ret × HashT)) (Fails : HashT → Nat → Prop) : Prop :=
  ∀ h m op, Holds h m → 0 < h.tableSize → h.tableSize < 2 ^ 32 → h.table = h.block → op.key ≠ 0 →
    (op.key ∉ m → m.keys.card < h.tableSize) →
    (op.opType = .PUT ∧ Fails h op.key ∧ exec h op = .error .assert) ∨
      ((op.opType = .PUT → ¬ Fails h op.key) ∧ ∃ h', exec h op = .ok ((Spec.exec m op).1, h') ∧
        Holds h' (Spec.exec m op).2 ∧ h'.tableSize = h.tableSize ∧ h'.table = h'.block ∧
          (op.opType = .PUT → ∃ i < h'.tableSize, h'.slot i = entryOf op))

section
variable {h : HashT} {m : Map} (hm : Holds h m)
include hm

/-- Under the sizing rule a full table holds the key. -/
theorem updatesFull_iff {key : Nat} (hf : key ∉ m → m.keys.card < h.tableSize) :
    UpdatesFull h key ↔ ¬ h.used < h.tableSize := by
  have hused := hm.used
  have hle := hm.keys_le
  constructor
  · intro hu; have := hu.1; omega
  · intro hu
    have hin : key ∈ m := by
      by_contra hn
      have := hf hn
      omega
    obtain ⟨v, hv⟩ := Finmap.mem_iff.mp hin
    exact ⟨by omega, hm.slot key v hv⟩

end

namespace Serial

def Fails (h : HashT) (key : Nat) : Prop :=
  UpdatesFull h key ∨ Parallel.StopsBeforeHome h key ∨ (Circles h key ∧ (h.slot (hashfunc key h.tableSize)).key ≠ 0)

end Serial

namespace Parallel

def Fails (h : HashT) (key : Nat) : Prop := UpdatesFull h key ∨ Circles h key

end Parallel

/-! ## One insertion -/

section
variable {h : HashT} {m : Map} (hm : Holds h m) (h0 : 0 < h.tableSize) (hlt : h.tableSize < 2 ^ 32) {op : Op} (hk : op.key ≠ 0)
include hm h0 hlt hk

/-- What both programs do in the slot the walk ends at, if it is the key's or free. -/
theorem Holds.write (ht : h.table = h.block) {j : Nat} (hj : j < h.tableSize) (hu : h.used < h.tableSize)
    (hpath : ∀ l < j, (h.slot (pos h.tableSize (hashfunc op.key h.tableSize) l)).taken = true) {ctr : Nat}
    (hctr : ctr = pos h.tableSize (hashfunc op.key h.tableSize) j)
    (hend : (h.slot ctr).key = op.key ∨ (h.slot ctr).key = 0 ∧ m.lookup op.key = none) :
    ∃ h', (if (h.slot ctr).key = op.key then
          .ok ((0, op), h.set ctr { h.slot ctr with id := op.id % 2 ^ 32, datalen := op.datalen, data := op.data })
        else if (h.slot ctr).key ≠ 0 then .error .assert
        else .ok ((0, op), { h.set ctr (entryOf op) with used := add1 h.used }) : Except Abort (Ret × HashT)) =
          .ok ((0, op), h') ∧
      Holds h' (m.insert op.key op.val) ∧ h'.tableSize = h.tableSize ∧ h'.table = h'.block ∧
        ∃ i < h'.tableSize, h'.slot i = entryOf op := by
  subst hctr
  rcases hend with he | ⟨hz, hl⟩
  · have hsame : Entry.mk (op.id % 2 ^ 32) op.datalen (h.slot (pos h.tableSize (hashfunc op.key h.tableSize) j)).key op.data =
        entryOf op := by rw [he]; rfl
    simp only [if_pos he, hsame]
    exact ⟨_, rfl, hm.put_update op hk (pos_lt h0 j) he, rfl, ht, _, pos_lt h0 j, set_slot_same ..⟩
  · rw [if_neg (by rw [hz]; exact Ne.symm hk), if_neg (not_not_intro hz)]
    exact ⟨_, rfl, hm.put_fresh op hk hj hz hpath hl (add1_of_lt hu hlt), rfl, ht, _, pos_lt h0 j, set_slot_same ..⟩

/-- The walk of an insertion: it ends at the key's slot or at one never used, or it goes all
    the way round. -/
theorem Holds.walk : (∃ j < h.tableSize,
      (∀ l < j, (h.slot (pos h.tableSize (hashfunc op.key h.tableSize) l)).busy op.key = true) ∧ ¬ Circles h op.key ∧
      (Parallel.StopsBeforeHome h op.key ↔ 0 < hashfunc op.key h.tableSize ∧ j = h.tableSize - 1) ∧
      probeOp h op = some (pos h.tableSize (hashfunc op.key h.tableSize) j, min j 1) ∧
      ((h.slot (pos h.tableSize (hashfunc op.key h.tableSize) j)).key = op.key ∨
        (h.slot (pos h.tableSize (hashfunc op.key h.tableSize) j)).key = 0 ∧ m.lookup op.key = none)) ∨
    (Circles h op.key ∧ ¬ Parallel.StopsBeforeHome h op.key ∧ m.lookup op.key = none ∧
      probeOp h op = some (hashfunc op.key h.tableSize, 1)) := by
  have hh := hashfunc_lt h0 op.key
  rcases probeOp_cases h op h0 hlt with ⟨j, hj, hbusy, hstop, hp⟩ | ⟨hall, hp⟩
  · refine Or.inl ⟨j, hj, hbusy, fun hc => ?_, ⟨fun hs => ⟨hs.1, ?_⟩, fun hs => ⟨hs.1, ?_, ?_⟩⟩, hp, ?_⟩
    · rw [hc _ (pos_lt h0 j)] at hstop; cases hstop
    · by_contra hne
      rw [hs.2.1 j (by omega)] at hstop
      cases hstop
    · exact hs.2 ▸ hbusy
    · rw [← Parallel.last_step h0 hlt op.key hs.1, ← hs.2]
      exact hstop
    · rcases not_busy hstop with he | hnever
      · exact Or.inl he
      · exact Or.inr ⟨key_of_not_taken hnever, hm.absent_of_stop hk hj (fun l hl => (busy_iff.mp (hbusy l hl)).2) hnever⟩
  · refine Or.inr ⟨hall, fun hs => ?_, hm.absent_of_circle fun i hi => (busy_iff.mp (hall i hi)).2, hp⟩
    have hstop := hs.2.2
    rw [hall _ (by omega)] at hstop
    cases hstop

variable (ht : h.table = h.block) (hf : op.key ∉ m → m.keys.card < h.tableSize)
include ht hf

theorem Serial.insertUpdate_stores :
    (Serial.Fails h op.key ∧ Serial.insertUpdate h op = .error .assert) ∨
      (¬ Serial.Fails h op.key ∧ ∃ h', Serial.insertUpdate h op = .ok ((0, op), h') ∧
        Holds h' (m.insert op.key op.val) ∧ h'.tableSize = h.tableSize ∧ h'.table = h'.block ∧
          ∃ i < h'.tableSize, h'.slot i = entryOf op) := by
  have hfull := updatesFull_iff hm hf
  have hh := hashfunc_lt h0 op.key
  by_cases hu : h.used < h.tableSize
  swap
  · exact Or.inl ⟨Or.inl (hfull.mpr hu), by unfold insertUpdate; rw [if_pos hu]⟩
  have hnfull : ¬ UpdatesFull h op.key := fun h => hfull.mp h hu
  unfold insertUpdate Serial.Fails
  simp only [hu, not_true, if_false, hk, hnfull, false_or]
  rcases hm.walk h0 hlt hk with ⟨j, hj, hbusy, hcirc, hbefore, hp, hend⟩ | ⟨hall, hbefore, hl, hp⟩
  · have hlast := (Parallel.hashval_minus_one h0 hlt op.key hj).trans hbefore.symm
    simp only [hp, hcirc, false_and, or_false]
    by_cases hs : Parallel.StopsBeforeHome h op.key
    · exact Or.inl ⟨hs, if_pos (hlast.mpr hs)⟩
    · rw [if_neg (mt hlast.mp hs)]
      exact Or.inr ⟨hs, hm.write h0 hlt hk ht hj hu (fun l hl => (busy_iff.mp (hbusy l hl)).1) rfl hend⟩
  · simp only [hp, if_neg (sub1_ne (Nat.lt_trans hh hlt)), hall, hbefore, true_and, false_or]
    have hne := (busy_iff.mp (hall _ hh)).2
    by_cases hz : (h.slot (hashfunc op.key h.tableSize)).key = 0
    · exact Or.inr ⟨not_not_intro hz, hm.write h0 hlt hk ht h0 hu (fun l hl => absurd hl (Nat.not_lt_zero l))
        (pos_zero hh).symm (Or.inr ⟨hz, hl⟩)⟩
    · rw [if_neg hne, if_pos hz]
      exact Or.inl ⟨hz, rfl⟩

theorem Parallel.insertUpdate_stores :
    (Parallel.Fails h op.key ∧ Parallel.insertUpdate h op = .error .assert) ∨
      (¬ Parallel.Fails h op.key ∧ ∃ h', Parallel.insertUpdate h op = .ok ((0, op), h') ∧
        Holds h' (m.insert op.key op.val) ∧ h'.tableSize = h.tableSize ∧ h'.table = h'.block ∧
          ∃ i < h'.tableSize, h'.slot i = entryOf op) := by
  have hfull := updatesFull_iff hm hf
  by_cases hu : h.used < h.tableSize
  swap
  · exact Or.inl ⟨Or.inl (hfull.mpr hu), by unfold insertUpdate; rw [if_pos hu]⟩
  have hnfull : ¬ UpdatesFull h op.key := fun h => hfull.mp h hu
  unfold insertUpdate Parallel.Fails
  simp only [hu, not_true, if_false, hk, hnfull, false_or, ht, ne_eq]
  rcases hm.walk h0 hlt hk with ⟨j, hj, hbusy, hcirc, -, hp, hend⟩ | ⟨hall, -, -, hp⟩
  · have hcnt : pos h.tableSize (hashfunc op.key h.tableSize) j ≠ hashfunc op.key h.tableSize ∨ min j 1 = 0 := by
      by_cases hj0 : j = 0
      · right; omega
      · left; exact pos_ne_home (hashfunc_lt h0 op.key) (by omega) hj
    have hadd : ∀ i, atomicAdd (h.set i (entryOf op)) 1 = { h.set i (entryOf op) with used := add1 h.used } := by
      intro i
      rw [add1_of_lt hu hlt]
      exact atomicAdd_one _ (by simp only [set_used]; omega)
    simp only [hp, not_not.mpr hcnt, if_false, hadd, hcirc]
    exact Or.inr ⟨not_false, hm.write h0 hlt hk ht hj hu (fun l hl => (busy_iff.mp (hbusy l hl)).1) rfl hend⟩
  · simp only [hp, hall]
    exact Or.inl ⟨trivial, if_pos (by simp)⟩

end

/-! ## One operation -/

theorem Serial.exec_returns {h : HashT} {m : Map} (hm : Holds h m) (h0 : 0 < h.tableSize) (hlt : h.tableSize < 2 ^ 32)
    {op : Op} (hk : op.key ≠ 0) (hop : op.opType ≠ .PUT) : ∃ h', Serial.exec h op = .ok ((Spec.exec m op).1, h') ∧
      Holds h' (Spec.exec m op).2 ∧ h'.tableSize = h.tableSize ∧ h'.table = h.table ∧ h'.block = h.block := by
  rcases exec_refines hm h0 hlt op hk with he | hok
  · unfold exec at he
    cases hget : op.opType with
    | PUT => exact absurd hget hop
    | GET =>
      rw [hget, lookup_refines hm h0 hlt op hk] at he
      cases he
    | DEL =>
      obtain ⟨h', hret, -⟩ := purgeKey_refines hm h0 hlt op hk
      rw [hget, hret] at he
      cases he
  · exact hok

theorem Serial.inserts : Inserts Serial.exec Serial.Fails := by
  intro h m op hm h0 hlt ht hk hf
  by_cases hop : op.opType = .PUT
  · rcases insertUpdate_stores hm h0 hlt hk ht hf with ⟨hfail, he⟩ | ⟨hok, h', he, hm', hn, ht', hst⟩
    · exact Or.inl ⟨hop, hfail, by simp only [exec, hop, he]⟩
    · exact Or.inr ⟨fun _ => hok, h', by simp only [exec, Spec.exec, hop, he], by simpa only [Spec.exec, hop] using hm',
        hn, ht', fun _ => hst⟩
  · obtain ⟨h', he, hm', hn, ht', hb⟩ := exec_returns hm h0 hlt hk hop
    exact Or.inr ⟨fun hput => absurd hput hop, h', he, hm', hn, by rw [ht', hb, ht], fun hput => absurd hput hop⟩

theorem Parallel.inserts : Inserts Parallel.exec Parallel.Fails := by
  intro h m op hm h0 hlt ht hk hf
  by_cases hop : op.opType = .PUT
  · rcases insertUpdate_stores hm h0 hlt hk ht hf with ⟨hfail, he⟩ | ⟨hok, h', he, hm', hn, ht', hst⟩
    · exact Or.inl ⟨hop, hfail, by simp only [exec, hop, he]⟩
    · exact Or.inr ⟨fun _ => hok, h', by simp only [exec, Spec.exec, hop, he], by simpa only [Spec.exec, hop] using hm',
        hn, ht', fun _ => hst⟩
  · obtain ⟨h', he, hm', hn, ht', hb⟩ := Serial.exec_returns hm h0 hlt hk hop
    rw [exec_eq hm h0 hlt ht op hk fun hp => hop hp.1]
    exact Or.inr ⟨fun hput => absurd hput hop, h', he, hm', hn, by rw [ht', hb, ht], fun hput => absurd hput hop⟩

/-! ## Whole runs -/

section
variable (exec : HashT → Op → Except Abort (Ret × HashT)) (h : HashT) (ops : List Op)

/-- No assert fails, and each PUT leaves its entry in a slot. -/
def Stores : Prop :=
  (runOps exec h ops).2 ≠ .error .assert ∧ ∀ pre op post, ops = pre ++ op :: post → op.opType = .PUT →
    ∃ h', (runOps exec h (pre ++ [op])).2 = .ok h' ∧ ∃ i < h'.tableSize, h'.slot i = entryOf op

/-- No PUT is made in a table that satisfies `Fails` for its key. -/
def Avoids (Fails : HashT → Nat → Prop) : Prop :=
  ∀ pre op post, ops = pre ++ op :: post → op.opType = .PUT → ∀ h', (runOps exec h pre).2 = .ok h' → ¬ Fails h' op.key

end

theorem forall_split_cons {α : Type} {P : List α → α → Prop} {a : α} {as : List α} :
    (∀ pre b post, a :: as = pre ++ b :: post → P pre b) ↔
      P [] a ∧ ∀ pre b post, as = pre ++ b :: post → P (a :: pre) b := by
  constructor
  · exact fun hall => ⟨hall [] a as rfl, fun pre b post he => hall (a :: pre) b post (congrArg (a :: ·) he)⟩
  · intro hall pre b post he
    cases pre with
    | nil =>
      obtain ⟨rfl, rfl⟩ := List.cons.inj he
      exact hall.1
    | cons c pre =>
      obtain ⟨rfl, rfl⟩ := List.cons.inj he
      exact hall.2 pre b post rfl

theorem keys_exec (m : Map) (op : Op) : (Spec.exec m op).2.keys ⊆ insert op.key m.keys := by
  intro k hk
  rw [Finset.mem_insert]
  by_cases e : k = op.key
  · exact Or.inl e
  · rw [Finmap.mem_keys, Finmap.mem_iff, Spec.exec_other m op (Ne.symm e)] at hk
    exact Or.inr (Finmap.mem_keys.mpr (Finmap.mem_iff.mpr hk))

section
variable {exec : HashT → Op → Except Abort (Ret × HashT)} {Fails : HashT → Nat → Prop}

theorem runOps_ok {h h' : HashT} {op : Op} {r : Ret} (he : exec h op = .ok (r, h')) (ops : List Op) :
    (runOps exec h (op :: ops)).2 = (runOps exec h' ops).2 := by simp only [runOps, he]

/-- From a table with a slot for every key, those it holds and those of the operations. -/
theorem stores_iff_avoids (hins : Inserts exec Fails) {K : Finset Nat} (ops : List Op) (h : HashT) (m : Map)
    (hm : Holds h m) (h0 : 0 < h.tableSize) (hlt : h.tableSize < 2 ^ 32) (ht : h.table = h.block)
    (hK : K.card ≤ h.tableSize) (hmK : m.keys ⊆ K) (hk : ∀ op ∈ ops, op.key ≠ 0 ∧ op.key ∈ K) :
    Stores exec h ops ↔ Avoids exec h ops Fails := by
  induction ops generalizing h m with
  | nil => exact iff_of_true ⟨nofun, fun pre _ _ he => by cases pre <;> cases he⟩ fun pre _ _ he => by cases pre <;> cases he
  | cons op ops ih =>
    obtain ⟨hk0, hkK⟩ := hk op List.mem_cons_self
    have hf : op.key ∉ m → m.keys.card < h.tableSize := fun hn =>
      Nat.lt_of_lt_of_le (Finset.card_lt_card ((Finset.ssubset_iff_of_subset hmK).mpr
        ⟨op.key, hkK, fun h => hn (Finmap.mem_keys.mp h)⟩)) hK
    unfold Stores Avoids
    rw [forall_split_cons, forall_split_cons]
    rcases hins h m op hm h0 hlt ht hk0 hf with ⟨hop, hfail, he⟩ | ⟨hok, h', he, hm', hn, ht', hst⟩
    · refine iff_of_false (fun hs => hs.1 ?_) fun ha => ha.1 hop h rfl hfail
      simp only [runOps, he]
    · have hrec := ih h' _ hm' (hn ▸ h0) (hn ▸ hlt) ht' (hn ▸ hK)
        ((keys_exec m op).trans (Finset.insert_subset hkK hmK)) fun o ho => hk o (List.mem_cons_of_mem _ ho)
      unfold Stores Avoids at hrec
      simp only [List.nil_append, List.cons_append, runOps_ok he]
      constructor
      · exact fun hs => ⟨fun hop _ e => by cases e; exact hok hop, hrec.mp ⟨hs.1, hs.2.2⟩⟩
      · exact fun ha => ⟨(hrec.mpr ha.2).1, fun hop => ⟨h', rfl, hst hop⟩, (hrec.mpr ha.2).2⟩

end

/-- A table with at least as many slots as keys are ever named stores every PUT, in both
    programs and without a failed assert, if and only if no PUT is made in one of the states
    their asserts do not allow. -/
theorem never_aborts_iff (size block : Nat) (h0 : 0 < size) (hlt : size < 2 ^ 32) (ops : List Op)
    (hk : ∀ op ∈ ops, op.key ≠ 0) (hsize : (ops.map Op.key).toFinset.card ≤ size) :
    Stores Serial.exec (initHashtable size block) ops ∧ Stores Parallel.exec (initHashtable size block) ops ↔
      Avoids Serial.exec (initHashtable size block) ops Serial.Fails ∧
        Avoids Parallel.exec (initHashtable size block) ops Parallel.Fails := by
  have hK : ∀ op ∈ ops, op.key ≠ 0 ∧ op.key ∈ (ops.map Op.key).toFinset := fun op ho =>
    ⟨hk op ho, List.mem_toFinset.mpr (List.mem_map_of_mem ho)⟩
  have hempty : (∅ : Map).keys ⊆ (ops.map Op.key).toFinset := fun k h => by cases h
  refine and_congr ?_ ?_
  · exact stores_iff_avoids Serial.inserts ops _ ∅ (holds_init size block) h0 hlt rfl hsize hempty hK
  · exact stores_iff_avoids Parallel.inserts ops _ ∅ (holds_init size block) h0 hlt rfl hsize hempty hK

/-- One key, put twice. -/
def putTwice : List Op := [⟨1, 5, .PUT, 3, 100⟩, ⟨2, 5, .PUT, 3, 103⟩]

/-- Two keys, never in the table together. -/
def putAndPurge : List Op :=
  [⟨1, 1, .PUT, 3, 100⟩, ⟨2, 1, .DEL, 0, 0⟩, ⟨3, 3, .PUT, 3, 103⟩, ⟨4, 3, .DEL, 0, 0⟩, ⟨5, 1, .PUT, 3, 106⟩]

theorem never_aborts_iff_put_twice :
    Stores Serial.exec (initHashtable 2 0) putTwice ∧ Stores Parallel.exec (initHashtable 2 0) putTwice ↔
      Avoids Serial.exec (initHashtable 2 0) putTwice Serial.Fails ∧
        Avoids Parallel.exec (initHashtable 2 0) putTwice Parallel.Fails :=
  never_aborts_iff 2 0 (by decide) (by decide) putTwice (by decide) (by decide)

/-- With one slot for the one key, its second PUT fails `used < table_size` in both programs;
    with two slots for two keys, purged slots fail parallel_hash's other assert. -/
theorem second_put_aborts :
    (runOps Serial.exec (initHashtable 1 0) putTwice).2 = .error .assert ∧
      (runOps Parallel.exec (initHashtable 1 0) putTwice).2 = .error .assert ∧
      (runOps Parallel.exec (initHashtable 2 0) putAndPurge).2 = .error .assert ∧
      ¬ ∀ (size block : Nat) (ops : List Op), 0 < size → size < 2 ^ 32 → (∀ op ∈ ops, op.key ≠ 0) →
        (ops.map Op.key).toFinset.card ≤ size →
          Stores Serial.exec (initHashtable size block) ops ∧ Stores Parallel.exec (initHashtable size block) ops := by
  refine ⟨rfl, rfl, rfl, fun hall => ?_⟩
  have hs := hall 1 0 putTwice (by decide) (by decide) (by decide) (by decide)
  exact hs.1.1 rfl

end Cs330.Hash
