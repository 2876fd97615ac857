/-
  Cs330.Hash.Parallel — parallel_hash.c run by one thread, against serial_hash.c.

  The probe loops are the same; the two files differ in the test for a full circle and in
  how `used` is kept. `insertUpdate` here fails its assert when the walk came back to the
  home slot; serial_hash's tests `ctr != hashval - 1`. So they part in two cases, both at
  an insertion into a table with `used < table_size` (`Parts`): the walk ends in the slot
  just before the home slot, which serial_hash takes for a full circle
  (`StopsBeforeHome`), or it goes all the way round and finds a tombstone at home, which
  serial_hash fills (`CirclesToTombstone`).

  `atomicAdd` adds to the eight bytes at `&h->used`, so it also covers the low half of
  `h->table`; while `used` counts the keys nothing carries into it (`atomicAdd_one`,
  `atomicAdd_minus_one`).

  Proved: the two programs give the same returns, table and abort on a sequence of
  operations if and only if no insertion of it meets `Parts` (`agree_iff`).
-/
import Cs330.Hash.Serial

namespace Cs330.Hash.Parallel

open Lib.Ring

/-- `lock add` of a 64-bit value at the address of the 32-bit field `used`. -/
def atomicAdd (h : HashT) (val : Int) : HashT :=
  let w := (((h.used + 2 ^ 32 * (h.table % 2 ^ 32) : Nat) + val) % 2 ^ 64).toNat
  { h with used := w % 2 ^ 32, table := h.table / 2 ^ 32 * 2 ^ 32 + w / 2 ^ 32 }

def lookup (h : HashT) (op : Op) : Except Abort (Ret × HashT) :=
  if h.table ≠ h.block then .error .wild
  else
    match probeOp h op with
    | none => .error .stuck
    | some (ctr, _) =>
      if (h.slot ctr).key = op.key then
        .ok ((0, { op with datalen := (h.slot ctr).datalen, data := (h.slot ctr).data }), h)
      else .ok ((-1, op), h)

def insertUpdate (h : HashT) (op : Op) : Except Abort (Ret × HashT) :=
  if ¬ h.used < h.tableSize then .error .assert
  else if op.key = 0 then .error .assert
  else if h.table ≠ h.block then .error .wild
  else
    match probeOp h op with
    | none => .error .stuck
    | some (ctr, cnt) =>
      if ¬ (ctr ≠ hashfunc op.key h.tableSize ∨ cnt = 0) then .error .assert
      else if (h.slot ctr).key = op.key then
        .ok ((0, op), h.set ctr { h.slot ctr with id := op.id % 2 ^ 32, datalen := op.datalen, data := op.data })
      else if (h.slot ctr).key ≠ 0 then .error .assert
      else .ok ((0, op), atomicAdd (h.set ctr (entryOf op)) 1)

def purgeKey (h : HashT) (op : Op) : Except Abort (Ret × HashT) :=
  if h.table ≠ h.block then .error .wild
  else
    match probeOp h op with
    | none => .error .stuck
    | some (ctr, _) =>
      if (h.slot ctr).key = op.key then .ok ((0, op), atomicAdd (h.set ctr tombstone) (-1))
      else .ok ((-1, op), h)

def exec (h : HashT) (op : Op) : Except Abort (Ret × HashT) :=
  match op.opType with
  | .GET => lookup h op
  | .PUT => insertUpdate h op
  | .DEL => purgeKey h op

theorem atomicAdd_one (h : HashT) (hu : h.used + 1 < 2 ^ 32) :
    atomicAdd h 1 = { h with used := h.used + 1 } := by
  have hw : (((h.used + 2 ^ 32 * (h.table % 2 ^ 32) : Nat) + (1 : Int)) % 2 ^ 64).toNat =
      h.used + 1 + 2 ^ 32 * (h.table % 2 ^ 32) := by
    have := Nat.mod_lt h.table (by decide : 0 < 2 ^ 32)
    omega
  simp only [atomicAdd, hw, HashT.mk.injEq, true_and, and_true]
  omega

theorem atomicAdd_minus_one (h : HashT) (h0 : 0 < h.used) (hu : h.used < 2 ^ 32) :
    atomicAdd h (-1) = { h with used := h.used - 1 } := by
  have hw : (((h.used + 2 ^ 32 * (h.table % 2 ^ 32) : Nat) + (-1 : Int)) % 2 ^ 64).toNat =
      h.used - 1 + 2 ^ 32 * (h.table % 2 ^ 32) := by
    have := Nat.mod_lt h.table (by decide : 0 < 2 ^ 32)
    omega
  simp only [atomicAdd, hw, HashT.mk.injEq, true_and, and_true]
  omega

/-! ## Where the two programs part -/

/-- The key's walk ends in the slot just before its home slot, without a wrap of
    `hashval - 1`. -/
def StopsBeforeHome (h : HashT) (key : Nat) : Prop :=
  0 < hashfunc key h.tableSize ∧
    (∀ l < h.tableSize - 1, (h.slot (pos h.tableSize (hashfunc key h.tableSize) l)).busy key = true) ∧
    (h.slot (hashfunc key h.tableSize - 1)).busy key = false

/-- Every slot is in use or a tombstone, none holds the key, and its home slot is a
    tombstone. -/
def CirclesToTombstone (h : HashT) (key : Nat) : Prop :=
  (∀ i < h.tableSize, (h.slot i).busy key = true) ∧ (h.slot (hashfunc key h.tableSize)).key = 0

def Parts (h : HashT) (op : Op) : Prop :=
  op.opType = .PUT ∧ h.used < h.tableSize ∧ (StopsBeforeHome h op.key ∨ CirclesToTombstone h op.key)

section
variable {h : HashT} (h0 : 0 < h.tableSize) (hlt : h.tableSize < 2 ^ 32)
include h0 hlt

/-- The last step of the walk before the circle closes stands just before home. -/
theorem last_step (key : Nat) (hpos : 0 < hashfunc key h.tableSize) :
    pos h.tableSize (hashfunc key h.tableSize) (h.tableSize - 1) = hashfunc key h.tableSize - 1 := by
  have hh := hashfunc_lt h0 key
  rw [pos, show hashfunc key h.tableSize + (h.tableSize - 1) = (hashfunc key h.tableSize - 1) + h.tableSize by omega,
    Nat.add_mod_right, Nat.mod_eq_of_lt (by omega)]

/-- serial_hash's `ctr != hashval - 1` fails exactly at the last step of a walk from a
    home slot other than 0. -/
theorem hashval_minus_one (key : Nat) {j : Nat} (hj : j < h.tableSize) :
    pos h.tableSize (hashfunc key h.tableSize) j = sub1 (hashfunc key h.tableSize) ↔
      0 < hashfunc key h.tableSize ∧ j = h.tableSize - 1 := by
  have hh := hashfunc_lt h0 key
  have hp : pos h.tableSize (hashfunc key h.tableSize) j < h.tableSize := pos_lt h0 j
  by_cases hz : hashfunc key h.tableSize = 0
  · rw [hz] at hp ⊢
    have := sub1_zero
    omega
  · rw [sub1_of_pos (by omega) (by omega), ← last_step h0 hlt key (by omega)]
    constructor
    · intro h'; exact ⟨by omega, pos_inj hj (by omega) h'⟩
    · intro he; rw [he.2]

end

section
variable {h : HashT} {m : Map} (hm : Holds h m) (h0 : 0 < h.tableSize) (hlt : h.tableSize < 2 ^ 32)
  (ht : h.table = h.block)
include h0 hlt ht

omit h0 hlt in
theorem lookup_eq (op : Op) : lookup h op = Serial.lookup h op := by
  refine (if_neg (not_not_intro ht)).trans ?_
  unfold Serial.lookup
  cases probeOp h op <;> rfl

include hm in
theorem purgeKey_eq (op : Op) (hk : op.key ≠ 0) : purgeKey h op = Serial.purgeKey h op := by
  obtain ⟨ctr, cnt, -, hp, ⟨he, hl⟩ | ⟨hne, -⟩⟩ := Serial.probeOp_finds hm h0 hlt op hk
  · have hcard := Holds.card_erase hl
    have hused := hm.used
    have hle := hm.keys_le
    have h32 : sub1 h.used = h.used - 1 := sub1_of_pos (by omega) (by omega)
    have hadd : atomicAdd (h.set ctr tombstone) (-1) = { h.set ctr tombstone with used := h.used - 1 } :=
      atomicAdd_minus_one _ (by simp only [set_used]; omega) (by simp only [set_used]; omega)
    simp only [purgeKey, Serial.purgeKey, ht, ne_eq, not_true, if_false, hp, he, if_true, h32, hadd]
  · simp only [purgeKey, Serial.purgeKey, ht, ne_eq, not_true, if_false, hp, hne]

/-- An insertion that is not one of the two cases does the same in both programs. -/
theorem insertUpdate_eq (op : Op) (hop : op.opType = .PUT) (hn : ¬ Parts h op) :
    insertUpdate h op = Serial.insertUpdate h op := by
  by_cases hu : h.used < h.tableSize
  swap
  · simp only [insertUpdate, Serial.insertUpdate, hu, not_false_eq_true, if_true]
  by_cases hk : op.key = 0
  · simp only [insertUpdate, Serial.insertUpdate, hu, not_true, if_false, hk, if_true]
  have hsafe : ¬ StopsBeforeHome h op.key ∧ ¬ CirclesToTombstone h op.key := by
    refine ⟨fun hs => hn ⟨hop, hu, Or.inl hs⟩, fun hc => hn ⟨hop, hu, Or.inr hc⟩⟩
  rcases probeOp_cases h op h0 hlt with ⟨j, hj, hbusy, hstop, hp⟩ | ⟨hall, hp⟩
  · have hlast : ¬ pos h.tableSize (hashfunc op.key h.tableSize) j =
        sub1 (hashfunc op.key h.tableSize) := by
      rw [hashval_minus_one h0 hlt op.key hj]
      intro he
      obtain ⟨hpos, rfl⟩ := he
      rw [last_step h0 hlt op.key hpos] at hstop
      exact hsafe.1 ⟨hpos, hbusy, hstop⟩
    have hcnt : pos h.tableSize (hashfunc op.key h.tableSize) j ≠ hashfunc op.key h.tableSize ∨ min j 1 = 0 := by
      by_cases hj0 : j = 0
      · right; omega
      · left; exact pos_ne_home (hashfunc_lt h0 op.key) (by omega) hj
    have hadd : atomicAdd (h.set (pos h.tableSize (hashfunc op.key h.tableSize) j) (entryOf op)) 1 =
        { h.set (pos h.tableSize (hashfunc op.key h.tableSize) j) (entryOf op) with used := add1 h.used } := by
      rw [add1_of_lt hu hlt]
      exact atomicAdd_one _ (by simp only [set_used]; omega)
    simp only [insertUpdate, Serial.insertUpdate, hu, not_true, if_false, hk, ht, ne_eq, hp, hlast, hadd,
      not_not.mpr hcnt]
  · have hhome : (h.slot (hashfunc op.key h.tableSize)).key ≠ 0 := fun hz => hsafe.2 ⟨hall, hz⟩
    have hne := (busy_iff.mp (hall _ (hashfunc_lt h0 op.key))).2
    have h32 := sub1_ne (Nat.lt_trans (hashfunc_lt h0 op.key) hlt)
    simp [insertUpdate, Serial.insertUpdate, hu, hk, ht, hp, hne, hhome, h32]

/-- In the two cases one program fails an assert and the other returns. -/
theorem insertUpdate_parts (op : Op) (hk : op.key ≠ 0) (hpart : Parts h op) :
    (Serial.insertUpdate h op = .error .assert ∧ ∃ r, insertUpdate h op = .ok r) ∨
      (insertUpdate h op = .error .assert ∧ ∃ r, Serial.insertUpdate h op = .ok r) := by
  obtain ⟨-, hu, ⟨hpos, hbusy, hstop⟩ | ⟨hall, hz⟩⟩ := hpart
  · left
    rcases probeOp_cases h op h0 hlt with ⟨j, hj, hb, hs, hp⟩ | ⟨hall, -⟩
    swap
    · have := hashfunc_lt h0 op.key
      rw [hall _ (by omega)] at hstop; cases hstop
    have hjl : j = h.tableSize - 1 := by
      rcases Nat.lt_trichotomy j (h.tableSize - 1) with hlt' | he | hgt
      · rw [hbusy j hlt'] at hs; cases hs
      · exact he
      · omega
    have hlast := (hashval_minus_one h0 hlt op.key hj).mpr ⟨hpos, hjl⟩
    have hcnt : pos h.tableSize (hashfunc op.key h.tableSize) j ≠ hashfunc op.key h.tableSize := by
      rw [hjl, last_step h0 hlt op.key hpos]; omega
    constructor
    · simp only [Serial.insertUpdate, hu, not_true, if_false, hk, hp, if_pos hlast]
    · simp only [insertUpdate, hu, not_true, if_false, hk, ht, ne_eq, hp, hcnt, not_false_eq_true, true_or]
      rcases not_busy hs with he | hnever
      · exact ⟨_, if_pos he⟩
      · have hkey := key_of_not_taken hnever
        have hne : ¬ (h.slot (pos h.tableSize (hashfunc op.key h.tableSize) j)).key = op.key := by
          rw [hkey]; exact Ne.symm hk
        rw [if_neg hne, if_neg (not_not.mpr hkey)]
        exact ⟨_, rfl⟩
  · right
    rcases probeOp_cases h op h0 hlt with ⟨j, hj, -, hs, -⟩ | ⟨-, hp⟩
    · rw [hall _ (pos_lt h0 j)] at hs; cases hs
    have hne := (busy_iff.mp (hall _ (hashfunc_lt h0 op.key))).2
    have h32 := sub1_ne (Nat.lt_trans (hashfunc_lt h0 op.key) hlt)
    constructor
    · simp [insertUpdate, hu, hk, ht, hp]
    · simp only [Serial.insertUpdate, hu, not_true, if_false, hk, hp]
      rw [if_neg h32, if_neg hne, if_neg (not_not.mpr hz)]
      exact ⟨_, rfl⟩

include hm in
theorem exec_eq (op : Op) (hk : op.key ≠ 0) (hn : ¬ Parts h op) : exec h op = Serial.exec h op := by
  rcases hop : op.opType with _ | _ | _ <;> simp only [exec, Serial.exec, hop]
  · exact insertUpdate_eq h0 hlt ht op hop hn
  · exact lookup_eq ht op
  · exact purgeKey_eq hm h0 hlt ht op hk

end

/-! ## Whole runs -/

/-- Runs agree from a table exactly when no insertion reached parts them. -/
theorem run_agree_iff : ∀ (ops : List Op) (h : HashT) (m : Map), Holds h m → 0 < h.tableSize → h.tableSize < 2 ^ 32 →
    h.table = h.block → (∀ op ∈ ops, op.key ≠ 0) →
    (runOps Serial.exec h ops = runOps exec h ops ↔
      ∀ pre op post, ops = pre ++ op :: post → ∀ h', (runOps Serial.exec h pre).2 = .ok h' → ¬ Parts h' op) := by
  intro ops
  induction ops with
  | nil => intro h m _ _ _ _ _; simp [runOps]
  | cons op ops ih =>
    intro h m hm h0 hlt ht hk
    have hk1 := hk op (by simp)
    by_cases hp : Parts h op
    · -- the first operation parts the runs: one aborts where the other goes on
      constructor
      · intro he
        have hop := hp.1
        exfalso
        rcases insertUpdate_parts h0 hlt ht op hk1 hp with ⟨h1, r, h2⟩ | ⟨h1, r, h2⟩ <;>
          simp [runOps, exec, Serial.exec, hop, h1, h2] at he
      · intro hall
        exact absurd hp (hall [] op ops rfl h rfl)
    · have heq := exec_eq hm h0 hlt ht op hk1 hp
      rcases Serial.exec_refines hm h0 hlt op hk1 with he | ⟨h', he, hm', hn, htab, hblk⟩
      · rw [he] at heq
        simp only [runOps, he, heq, true_iff]
        intro pre o post hsplit h'' hh
        rcases pre with _ | ⟨p, pre⟩
        · cases hh
          obtain ⟨rfl, rfl⟩ := List.cons.inj hsplit
          exact hp
        · obtain ⟨rfl, rfl⟩ := List.cons.inj hsplit
          simp [runOps, he] at hh
      · rw [he] at heq
        have hrec := ih h' _ hm' (by omega) (by omega) (by rw [htab, hblk, ht]) fun o ho => hk o (by simp [ho])
        simp only [runOps, he, heq, Prod.mk.injEq, List.cons.injEq, true_and]
        rw [← Prod.mk.injEq, Prod.mk.eta, Prod.mk.eta, hrec]
        constructor
        · intro hall pre o post hsplit h'' hh
          rcases pre with _ | ⟨p, pre⟩
          · cases hh
            obtain ⟨rfl, rfl⟩ := List.cons.inj hsplit
            exact hp
          · obtain ⟨rfl, rfl⟩ := List.cons.inj hsplit
            simp only [runOps, he] at hh
            exact hall pre o post rfl h'' hh
        · intro hall pre o post hsplit h'' hh
          refine hall (op :: pre) o post (by rw [hsplit]; rfl) h'' ?_
          simp only [runOps, he]
          exact hh

/-- The two programs, run by one thread from the empty table, return the same values,
    leave the same table and abort at the same operation if and only if no insertion
    reached meets one of the two cases. -/
theorem agree_iff (size block : Nat) (h0 : 0 < size) (hlt : size < 2 ^ 32) (ops : List Op)
    (hk : ∀ op ∈ ops, op.key ≠ 0) :
    runOps Serial.exec (initHashtable size block) ops = runOps exec (initHashtable size block) ops ↔
      ∀ pre op post, ops = pre ++ op :: post →
        ∀ h, (runOps Serial.exec (initHashtable size block) pre).2 = .ok h → ¬ Parts h op :=
  run_agree_iff ops _ _ (holds_init size block) h0 hlt rfl hk

/-- Keys 1 and 3 both have home slot 1 of a table of two. -/
def collidingPuts : List Op := [⟨1, 1, .PUT, 4, 100⟩, ⟨2, 3, .PUT, 4, 104⟩]

theorem agree_iff_colliding_puts :
    runOps Serial.exec (initHashtable 2 0) collidingPuts = runOps exec (initHashtable 2 0) collidingPuts ↔
      ∀ pre op post, collidingPuts = pre ++ op :: post →
        ∀ h, (runOps Serial.exec (initHashtable 2 0) pre).2 = .ok h → ¬ Parts h op :=
  agree_iff 2 0 (by decide) (by decide) collidingPuts (by decide)

/-- The second insertion ends in slot 0, the last its walk from slot 1 probes: it is free
    and `used` is 1 of 2, but serial_hash aborts. -/
theorem last_slot_aborts_serial_only :
    (runOps Serial.exec (initHashtable 2 0) collidingPuts).2 = .error .assert ∧
      (runOps exec (initHashtable 2 0) collidingPuts).1 = collidingPuts.map (fun op => (0, op)) ∧
      ¬ ∀ (size block : Nat) (ops : List Op), 0 < size → size < 2 ^ 32 → (∀ op ∈ ops, op.key ≠ 0) →
        runOps Serial.exec (initHashtable size block) ops = runOps exec (initHashtable size block) ops := by
  refine ⟨rfl, by decide +kernel, fun hall => ?_⟩
  have he := congrArg (fun r => r.1.length) (hall 2 0 collidingPuts (by decide) (by decide) (by decide))
  have hs : (runOps Serial.exec (initHashtable 2 0) collidingPuts).1.length = 1 := by decide +kernel
  have hp : (runOps exec (initHashtable 2 0) collidingPuts).1.length = 2 := by decide +kernel
  simp only [hs, hp] at he
  omega

end Cs330.Hash.Parallel
