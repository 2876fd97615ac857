/-
  Cs330.Hash.Sections — the operations of parallel_hash.c cut at their slot locks.

  One section holds the lock of one slot: either the probe loop goes on (`goesOn`), or the
  operation looks at the slot, changes it and returns (`atEnd`). `Parallel.exec` is the
  checks, the loop and `atEnd` with nothing in between (`exec_eq_sections`).

  Between two sections other threads may fill, rewrite or purge slots, but none of them
  with the walking operation's key. So what a walk has seen stays seen (`Walk`): a slot in
  use or purged is never again a never-used one. `atEnd_refines` is the end of a walk
  under that knowledge alone: it does to the map what the operation does alone.
  `takenCount` bounds the slots that are not never-used: only an insertion takes a new one.
-/
import Cs330.Hash.Parallel
import Mathlib.Order.Interval.Finset.Nat

namespace Cs330.Hash

open Lib.Ring

namespace Parallel

/-- The loop's test on the locked slot. -/
def goesOn (h : HashT) (op : Op) (ctr cnt : Nat) : Bool :=
  (h.slot ctr).busy op.key && (ctr != hashfunc op.key h.tableSize || cnt == 0)

/-- What an operation does with the slot its loop ends at. -/
def atEnd (h : HashT) (op : Op) (ctr cnt : Nat) : Except Abort (Ret × HashT) :=
  match op.opType with
  | .GET =>
    if (h.slot ctr).key = op.key then
      .ok ((0, { op with datalen := (h.slot ctr).datalen, data := (h.slot ctr).data }), h)
    else .ok ((-1, op), h)
  | .PUT =>
    if ¬ (ctr ≠ hashfunc op.key h.tableSize ∨ cnt = 0) then .error .assert
    else if (h.slot ctr).key = op.key then
      .ok ((0, op), h.set ctr { h.slot ctr with id := op.id % 2 ^ 32, datalen := op.datalen, data := op.data })
    else if (h.slot ctr).key ≠ 0 then .error .assert
    else .ok ((0, op), atomicAdd (h.set ctr (entryOf op)) 1)
  | .DEL =>
    if (h.slot ctr).key = op.key then .ok ((0, op), atomicAdd (h.set ctr tombstone) (-1))
    else .ok ((-1, op), h)

/-- The checks an operation makes before its loop. -/
def checks (h : HashT) (op : Op) : Option Abort :=
  if op.opType = .PUT ∧ ¬ h.used < h.tableSize then some .assert
  else if op.opType = .PUT ∧ op.key = 0 then some .assert
  else if h.table ≠ h.block then some .wild
  else none

theorem exec_eq_sections (h : HashT) (op : Op) :
    exec h op =
      match checks h op with
      | some a => .error a
      | none =>
        match probeOp h op with
        | none => .error .stuck
        | some (ctr, cnt) => atEnd h op ctr cnt := by
  unfold exec checks
  cases hop : op.opType with
  | PUT =>
    simp only [insertUpdate, true_and]
    by_cases hu : ¬ h.used < h.tableSize
    · simp only [if_pos hu]
    by_cases hk : op.key = 0
    · simp only [if_neg hu, if_pos hk]
    by_cases hw : h.table ≠ h.block
    · simp only [if_neg hu, if_neg hk, if_pos hw]
    simp only [if_neg hu, if_neg hk, if_neg hw]
    rcases probeOp h op with _ | ⟨ctr, cnt⟩
    · rfl
    · simp only [atEnd, hop]
  | GET =>
    simp only [lookup, reduceCtorEq, false_and, if_false]
    by_cases hw : h.table ≠ h.block
    · simp only [if_pos hw]
    simp only [if_neg hw]
    rcases probeOp h op with _ | ⟨ctr, cnt⟩
    · rfl
    · simp only [atEnd, hop]
  | DEL =>
    simp only [purgeKey, reduceCtorEq, false_and, if_false]
    by_cases hw : h.table ≠ h.block
    · simp only [if_pos hw]
    simp only [if_neg hw]
    rcases probeOp h op with _ | ⟨ctr, cnt⟩
    · rfl
    · simp only [atEnd, hop]

/-! ## A walk, whatever happens between its sections -/

/-- `ctr` and `cnt` after some steps past slots that are in use by other keys or purged. -/
def Walk (h : HashT) (key ctr cnt : Nat) : Prop :=
  ∃ j ≤ h.tableSize, ctr = pos h.tableSize (hashfunc key h.tableSize) j ∧ cnt = min j 1 ∧
    ∀ l < j, (h.slot (pos h.tableSize (hashfunc key h.tableSize) l)).busy key = true

/-- Slots that are not never-used. -/
def takenCount (h : HashT) : Nat := ((Finset.range h.tableSize).filter fun i => (h.slot i).taken = true).card

theorem walk_start {h : HashT} (h0 : 0 < h.tableSize) (key : Nat) : Walk h key (hashfunc key h.tableSize) 0 :=
  ⟨0, Nat.zero_le _, (pos_zero (hashfunc_lt h0 key)).symm, rfl, fun l hl => absurd hl (Nat.not_lt_zero l)⟩

/-- Others may change slots as long as busy ones stay busy for this key. -/
theorem Walk.keep {h h' : HashT} {key ctr cnt : Nat} (hw : Walk h key ctr cnt) (hn : h'.tableSize = h.tableSize)
    (hbusy : ∀ i, (h.slot i).busy key = true → (h'.slot i).busy key = true) : Walk h' key ctr cnt := by
  obtain ⟨j, hj, hc, hcnt, hl⟩ := hw
  unfold Walk
  rw [hn]
  exact ⟨j, hj, hc, hcnt, fun l hlj => hbusy _ (hl l hlj)⟩

section
variable {h : HashT} {op : Op} {ctr cnt : Nat} (h0 : 0 < h.tableSize) (hlt : h.tableSize < 2 ^ 32)
include h0

/-- The walk stands somewhere on its circle, or is back at home with `cnt` set. -/
theorem Walk.cases (hw : Walk h op.key ctr cnt) :
    (∃ j < h.tableSize, ctr = pos h.tableSize (hashfunc op.key h.tableSize) j ∧ cnt = min j 1 ∧
      (ctr ≠ hashfunc op.key h.tableSize ∨ cnt = 0) ∧
      ∀ l < j, (h.slot (pos h.tableSize (hashfunc op.key h.tableSize) l)).busy op.key = true) ∨
    (ctr = hashfunc op.key h.tableSize ∧ cnt = 1 ∧ ∀ i < h.tableSize, (h.slot i).busy op.key = true) := by
  have hh := hashfunc_lt h0 op.key
  obtain ⟨j, hj, hc, hcnt, hl⟩ := hw
  by_cases he : j = h.tableSize
  · right
    subst he
    refine ⟨by rw [hc, pos_full hh], by omega, fun i hi => ?_⟩
    obtain ⟨l, hlj, hp⟩ := exists_pos hi hh
    rw [← hp]
    exact hl l hlj
  · left
    refine ⟨j, by omega, hc, hcnt, ?_, hl⟩
    by_cases hj0 : j = 0
    · right; omega
    · left; rw [hc]; exact pos_ne_home hh (by omega) (by omega)

include hlt

theorem Walk.next (hw : Walk h op.key ctr cnt) (hgo : goesOn h op ctr cnt = true) :
    Walk h op.key (add1 ctr % h.tableSize) (if cnt = 0 then cnt + 1 else cnt) := by
  simp only [goesOn, Bool.and_eq_true, Bool.or_eq_true, bne_iff_ne, beq_iff_eq] at hgo
  rcases hw.cases h0 with ⟨j, hj, hc, hcnt, -, hl⟩ | ⟨hc, hcnt, -⟩
  · refine ⟨j + 1, hj, ?_, by split <;> omega, fun l hlj => ?_⟩
    · rw [hc, add1_of_lt (pos_lt h0 j) hlt, pos_succ]
    · by_cases e : l = j
      · rw [e, ← hc]; exact hgo.1
      · exact hl l (by omega)
  · exact absurd hgo.2 (by omega)

end

/-- A section that ends the loop: on a key's slot, a never-used slot, or back at home. -/
theorem stopped_cases {h : HashT} {op : Op} {ctr cnt : Nat} (h0 : 0 < h.tableSize) (hw : Walk h op.key ctr cnt)
    (hstop : goesOn h op ctr cnt = false) :
    (∃ j < h.tableSize, ctr = pos h.tableSize (hashfunc op.key h.tableSize) j ∧
      (ctr ≠ hashfunc op.key h.tableSize ∨ cnt = 0) ∧
      (∀ l < j, (h.slot (pos h.tableSize (hashfunc op.key h.tableSize) l)).busy op.key = true) ∧
      ((h.slot ctr).key = op.key ∨ (h.slot ctr).key ≠ op.key ∧ (h.slot ctr).taken = false)) ∨
    ∀ i < h.tableSize, (h.slot i).busy op.key = true := by
  rcases hw.cases h0 with ⟨j, hj, hc, -, hor, hl⟩ | ⟨-, -, hall⟩
  · left
    have hgo : (ctr != hashfunc op.key h.tableSize || cnt == 0) = true := by simpa using hor
    rw [goesOn, hgo, Bool.and_true] at hstop
    refine ⟨j, hj, hc, hor, hl, ?_⟩
    by_cases he : (h.slot ctr).key = op.key
    · exact Or.inl he
    · rcases not_busy hstop with h1 | h1
      · exact absurd h1 he
      · exact Or.inr ⟨he, h1⟩
  · exact Or.inr hall

/-! ## One slot changed -/

section
variable {h : HashT} {p : Nat} {e : Entry} {used table : Nat}

theorem busy_set {i key : Nat} (he : e.taken = true) (hk : e.key ≠ key) (hi : (h.slot i).busy key = true) :
    ((h.set p e).slot i).busy key = true := by
  by_cases ei : i = p
  · rw [ei, set_slot_same]; exact busy_iff.mpr ⟨he, hk⟩
  · rw [set_slot_ne _ _ ei]; exact hi

theorem takenCount_set (h : HashT) (p : Nat) (e : Entry) (used table : Nat) :
    takenCount { h.set p e with used := used, table := table } ≤ takenCount h + 1 := by
  unfold takenCount
  refine (Finset.card_le_card ?_).trans (Finset.card_insert_le p _)
  intro i hi
  simp only [Finset.mem_insert, Finset.mem_filter, Finset.mem_range] at hi ⊢
  by_cases ei : i = p
  · exact Or.inl ei
  · refine Or.inr ⟨hi.1, ?_⟩
    have := hi.2
    rwa [show (h.set p e).slot i = h.slot i from set_slot_ne _ _ ei] at this

/-- A slot already counted. -/
theorem takenCount_reset (hp : p < h.tableSize → (h.slot p).taken = true) (used table : Nat) :
    takenCount { h.set p e with used := used, table := table } ≤ takenCount h := by
  refine Finset.card_le_card fun i hi => ?_
  simp only [Finset.mem_filter, Finset.mem_range] at hi ⊢
  refine ⟨hi.1, ?_⟩
  by_cases ei : i = p
  · rw [ei]; exact hp (ei ▸ hi.1)
  · have := hi.2
    rwa [show (h.set p e).slot i = h.slot i from set_slot_ne _ _ ei] at this

end

theorem keys_le_taken {h : HashT} {m : Map} (hm : Holds h m) : m.keys.card ≤ takenCount h := by
  have hsub : m.keys ⊆ ((Finset.range h.tableSize).filter fun i => (h.slot i).taken = true).image fun i =>
      (h.slot i).key := by
    intro k hk
    obtain ⟨v, hv⟩ := Finmap.mem_iff.mp (Finmap.mem_keys.mp hk)
    obtain ⟨i, hi, he⟩ := hm.slot k v hv
    have hk0 : (h.slot i).key ≠ 0 := by
      intro h0
      rw [← he, h0, hm.zero] at hv; cases hv
    exact Finset.mem_image.mpr ⟨i, Finset.mem_filter.mpr ⟨Finset.mem_range.mpr hi, taken_of_key hk0⟩, he⟩
  exact (Finset.card_le_card hsub).trans Finset.card_image_le

/-- What one operation leaves alone for the others. -/
structure Kept (h h' : HashT) (op : Op) : Prop where
  size : h'.tableSize = h.tableSize
  table : h'.table = h.table
  block : h'.block = h.block
  busy : ∀ key, key ≠ 0 → key ≠ op.key → ∀ i, (h.slot i).busy key = true → (h'.slot i).busy key = true
  taken : takenCount h' ≤ takenCount h + if op.opType = .PUT then 1 else 0

theorem Kept.refl (h : HashT) (op : Op) : Kept h h op :=
  ⟨rfl, rfl, rfl, fun _ _ _ _ hi => hi, Nat.le_add_right ..⟩

section
variable {h : HashT} {m : Map} {op : Op} {ctr cnt : Nat} (hm : Holds h m) (h0 : 0 < h.tableSize)
  (hlt : h.tableSize < 2 ^ 32) (hk : op.key ≠ 0)
include hm h0 hk

/-- What the slot a walk has stopped at says about the map, in a table others have been
    working on: the key's value, or that it has none; then the slot was never used, if any
    slot still is. -/
theorem stopped_finds (hw : Walk h op.key ctr cnt) (hstop : goesOn h op ctr cnt = false) :
    (ctr < h.tableSize ∧ (ctr ≠ hashfunc op.key h.tableSize ∨ cnt = 0) ∧ (h.slot ctr).key = op.key ∧
      m.lookup op.key = some (h.slot ctr).val) ∨
    ((h.slot ctr).key ≠ op.key ∧ m.lookup op.key = none ∧
      (takenCount h < h.tableSize → (ctr ≠ hashfunc op.key h.tableSize ∨ cnt = 0) ∧ (h.slot ctr).key = 0 ∧
        ∃ j < h.tableSize, ctr = pos h.tableSize (hashfunc op.key h.tableSize) j ∧
          ∀ l < j, (h.slot (pos h.tableSize (hashfunc op.key h.tableSize) l)).taken = true)) := by
  rcases stopped_cases h0 hw hstop with ⟨j, hj, hc, hor, hl, he | ⟨hne, hnever⟩⟩ | hall
  · left
    have hctr : ctr < h.tableSize := hc ▸ pos_lt h0 j
    exact ⟨hctr, hor, he, hm.lookup_of_slot hk hctr he⟩
  · right
    refine ⟨hne, ?_, fun _ => ⟨hor, key_of_not_taken hnever, j, hj, hc, fun l hlj => (busy_iff.mp (hl l hlj)).1⟩⟩
    exact hm.absent_of_stop hk hj (fun l hlj => (busy_iff.mp (hl l hlj)).2) (hc ▸ hnever)
  · right
    have hctr : ctr < h.tableSize := by
      obtain ⟨j, -, hc, -⟩ := hw
      rw [hc]; exact pos_lt h0 j
    refine ⟨(busy_iff.mp (hall ctr hctr)).2, hm.absent_of_circle fun i hi => (busy_iff.mp (hall i hi)).2, fun hroom => ?_⟩
    have hfull : ((Finset.range h.tableSize).filter fun i => (h.slot i).taken = true) = Finset.range h.tableSize :=
      Finset.filter_true_of_mem fun i hi => (busy_iff.mp (hall i (Finset.mem_range.mp hi))).1
    rw [takenCount, hfull, Finset.card_range] at hroom
    omega

/-- The end of a walk does to the map what the operation does alone. An insertion needs a
    slot that was never used. -/
theorem atEnd_refines (hlt : h.tableSize < 2 ^ 32) (hw : Walk h op.key ctr cnt) (hstop : goesOn h op ctr cnt = false)
    (room : op.opType = .PUT → takenCount h < h.tableSize) :
    ∃ h', atEnd h op ctr cnt = .ok ((Spec.exec m op).1, h') ∧ Holds h' (Spec.exec m op).2 ∧ Kept h h' op := by
  have hused := hm.used
  have hle := hm.keys_le
  unfold atEnd Spec.exec
  rcases stopped_finds hm h0 hk hw hstop with ⟨hctr, hor, he, hl⟩ | ⟨hne, hl, hfree⟩
  · have htaken : (h.slot ctr).taken = true := taken_of_key (by rw [he]; exact hk)
    cases hop : op.opType with
    | GET => simp only [he, if_true, hl]; exact ⟨h, rfl, hm, .refl h op⟩
    | PUT =>
      simp only [he, hor, not_true, if_false, if_true]
      have hbusy : ∀ key, key ≠ 0 → key ≠ op.key → ∀ i, (h.slot i).busy key = true →
          ((h.set ctr (entryOf op)).slot i).busy key = true :=
        fun key _ hne i hi => busy_set (taken_of_key hk) (Ne.symm hne) hi
      refine ⟨_, rfl, hm.put_update op hk hctr he, rfl, rfl, rfl, hbusy, ?_⟩
      exact (takenCount_reset (fun _ => htaken) _ _).trans (Nat.le_add_right ..)
    | DEL =>
      have hmem : op.key ∈ m := Finmap.mem_of_lookup_eq_some hl
      have hcard := Holds.card_erase hl
      have hadd : atomicAdd (h.set ctr tombstone) (-1) = { h.set ctr tombstone with used := h.used - 1 } :=
        atomicAdd_minus_one _ (by simp only [set_used]; omega) (by simp only [set_used]; omega)
      simp only [he, if_true, hmem, hadd]
      have hbusy : ∀ key, key ≠ 0 → key ≠ op.key → ∀ i, (h.slot i).busy key = true →
          ((h.set ctr tombstone).slot i).busy key = true :=
        fun key h0 _ i hi => busy_set tombstone_taken (Ne.symm h0) hi
      refine ⟨_, rfl, hm.purge hk hctr he (by omega), rfl, rfl, rfl, hbusy, ?_⟩
      exact (takenCount_reset (fun _ => htaken) _ _).trans (Nat.le_add_right ..)
  · cases hop : op.opType with
    | GET => simp only [hne, if_false, hl]; exact ⟨h, rfl, hm, .refl h op⟩
    | PUT =>
      obtain ⟨hor, hzero, j, hj, hc, hpath⟩ := hfree (room hop)
      have hroom : h.used < h.tableSize := by
        have := keys_le_taken hm
        have := room hop
        omega
      have hadd : atomicAdd (h.set ctr (entryOf op)) 1 = { h.set ctr (entryOf op) with used := h.used + 1 } :=
        atomicAdd_one _ (by simp only [set_used]; omega)
      simp only [hne, if_false, hor, not_true]
      simp only [hzero, ne_eq, not_true, if_false, hadd]
      have hbusy : ∀ key, key ≠ 0 → key ≠ op.key → ∀ i, (h.slot i).busy key = true →
          ((h.set ctr (entryOf op)).slot i).busy key = true :=
        fun key _ hne i hi => busy_set (taken_of_key hk) (Ne.symm hne) hi
      refine ⟨_, rfl, ?_, rfl, rfl, rfl, hbusy, ?_⟩
      · subst hc; exact hm.put_fresh op hk hj hzero hpath hl rfl
      · rw [if_pos hop]; exact takenCount_set h ctr (entryOf op) _ _
    | DEL =>
      have hmem : op.key ∉ m := Finmap.lookup_eq_none.mp hl
      simp only [hne, if_false, hmem]
      exact ⟨h, rfl, hm, .refl h op⟩

end

end Parallel

end Cs330.Hash
