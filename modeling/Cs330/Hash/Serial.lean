/-
  Cs330.Hash.Serial — serial_hash.c: `lookup`, `insert_update`, `purge_key`, and
  `process`'s choice between them.

  Proved: from the empty table, as long as no assert fires, every sequence of operations
  with non-zero keys returns what the finite map returns, and leaves a table that holds
  the final map (`refines_finite_map`); no probe loop runs on (`Abort.stuck` is never the
  outcome). One operation is `exec_refines`: a probe that finds its key, stops at a
  never-used slot, or goes all the way round, and then may reuse a tombstone at home.
-/
import Cs330.Hash.FiniteMap

namespace Cs330.Hash.Serial

open Lib.Ring

def lookup (h : HashT) (op : Op) : Except Abort (Ret × HashT) :=
  match probeOp h op with
  | none => .error .stuck
  | some (ctr, _) =>
    if (h.slot ctr).key = op.key then
      .ok ((0, { op with datalen := (h.slot ctr).datalen, data := (h.slot ctr).data }), h)
    else .ok ((-1, op), h)

def insertUpdate (h : HashT) (op : Op) : Except Abort (Ret × HashT) :=
  if ¬ h.used < h.tableSize then .error .assert
  else if op.key = 0 then .error .assert
  else
    match probeOp h op with
    | none => .error .stuck
    | some (ctr, _) =>
      -- `ctr != hashval - 1`, in unsigned arithmetic
      if ctr = sub1 (hashfunc op.key h.tableSize) then .error .assert
      else if (h.slot ctr).key = op.key then
        .ok ((0, op), h.set ctr { h.slot ctr with id := op.id % 2 ^ 32, datalen := op.datalen, data := op.data })
      else if (h.slot ctr).key ≠ 0 then .error .assert
      else .ok ((0, op), { h.set ctr (entryOf op) with used := add1 h.used })

def purgeKey (h : HashT) (op : Op) : Except Abort (Ret × HashT) :=
  match probeOp h op with
  | none => .error .stuck
  | some (ctr, _) =>
    if (h.slot ctr).key = op.key then
      .ok ((0, op), { h.set ctr tombstone with used := sub1 h.used })
    else .ok ((-1, op), h)

def exec (h : HashT) (op : Op) : Except Abort (Ret × HashT) :=
  match op.opType with
  | .GET => lookup h op
  | .PUT => insertUpdate h op
  | .DEL => purgeKey h op

/-! ## One operation -/

section
variable {h : HashT} {m : Map} (hm : Holds h m) (h0 : 0 < h.tableSize) (hlt : h.tableSize < 2 ^ 32)
include hm h0 hlt

/-- What a probe has found: the key's slot, with the map's value, or no such key and the
    slot it stopped at. -/
theorem probeOp_finds (op : Op) (hk : op.key ≠ 0) :
    ∃ ctr cnt, ctr < h.tableSize ∧ probeOp h op = some (ctr, cnt) ∧
      ((h.slot ctr).key = op.key ∧ m.lookup op.key = some (h.slot ctr).val ∨
        (h.slot ctr).key ≠ op.key ∧ m.lookup op.key = none ∧
          ∃ j < h.tableSize, ctr = pos h.tableSize (hashfunc op.key h.tableSize) j ∧
            ∀ l < j, (h.slot (pos h.tableSize (hashfunc op.key h.tableSize) l)).taken = true) := by
  rcases probeOp_cases h op h0 hlt with ⟨j, hj, hbusy, hstop, hp⟩ | ⟨hall, hp⟩
  · refine ⟨_, _, pos_lt h0 j, hp, ?_⟩
    rcases not_busy hstop with he | hnever
    · exact Or.inl ⟨he, hm.lookup_of_slot hk (pos_lt h0 j) he⟩
    · refine Or.inr ⟨?_, hm.absent_of_stop hk hj (fun l hl => (busy_iff.mp (hbusy l hl)).2) hnever,
        j, hj, rfl, fun l hl => (busy_iff.mp (hbusy l hl)).1⟩
      rw [key_of_not_taken hnever]; exact Ne.symm hk
  · refine ⟨_, _, hashfunc_lt h0 op.key, hp, Or.inr ⟨?_, ?_, 0, h0, (pos_zero (hashfunc_lt h0 op.key)).symm, ?_⟩⟩
    · exact (busy_iff.mp (hall _ (hashfunc_lt h0 op.key))).2
    · exact hm.absent_of_circle fun i hi => (busy_iff.mp (hall i hi)).2
    · intro l hl; omega

theorem lookup_refines (op : Op) (hk : op.key ≠ 0) :
    lookup h op = .ok (match m.lookup op.key with
      | some v => (0, { op with datalen := v.datalen, data := v.data })
      | none => (-1, op), h) := by
  obtain ⟨ctr, cnt, -, hp, ⟨he, hl⟩ | ⟨hne, hl, -⟩⟩ := probeOp_finds hm h0 hlt op hk
  · simp only [lookup, hp, he, if_true, hl, Entry.val]
  · simp only [lookup, hp, hne, if_false, hl]

theorem insertUpdate_refines (op : Op) (hk : op.key ≠ 0) :
    insertUpdate h op = .error .assert ∨
      ∃ h', insertUpdate h op = .ok ((0, op), h') ∧ Holds h' (m.insert op.key op.val) ∧ h'.tableSize = h.tableSize ∧
        h'.table = h.table ∧ h'.block = h.block := by
  obtain ⟨ctr, cnt, hctr, hp, hcase⟩ := probeOp_finds hm h0 hlt op hk
  unfold insertUpdate
  by_cases hu : h.used < h.tableSize
  swap
  · simp [hu]
  simp only [hu, not_true, if_false, hk, hp]
  by_cases hlast : ctr = sub1 (hashfunc op.key h.tableSize)
  · simp only [if_pos hlast, true_or]
  simp only [if_neg hlast]
  rcases hcase with ⟨he, hl⟩ | ⟨hne, hl, j, hj, rfl, hpath⟩
  · right
    simp only [he, if_true]
    exact ⟨_, rfl, hm.put_update op hk hctr he, rfl, rfl, rfl⟩
  · simp only [hne, if_false]
    by_cases hfree : (h.slot (pos h.tableSize (hashfunc op.key h.tableSize) j)).key = 0
    · right
      simp only [hfree, ne_eq, not_true, if_false]
      exact ⟨_, rfl, hm.put_fresh op hk hj hfree hpath hl (add1_of_lt hu hlt), rfl, rfl, rfl⟩
    · simp [hfree]

theorem purgeKey_refines (op : Op) (hk : op.key ≠ 0) :
    ∃ h', purgeKey h op = .ok ((if op.key ∈ m then 0 else -1, op), h') ∧
      Holds h' (if op.key ∈ m then m.erase op.key else m) ∧ h'.tableSize = h.tableSize ∧
        h'.table = h.table ∧ h'.block = h.block := by
  obtain ⟨ctr, cnt, hctr, hp, ⟨he, hl⟩ | ⟨hne, hl, -⟩⟩ := probeOp_finds hm h0 hlt op hk
  · have hmem : op.key ∈ m := Finmap.mem_of_lookup_eq_some hl
    have hcard := Holds.card_erase hl
    have hused := hm.used
    have hle := hm.keys_le
    have h32 : sub1 h.used + 1 = h.used := by rw [sub1_of_pos (by omega) (by omega)]; omega
    simp only [purgeKey, hp, he, if_true, hmem]
    exact ⟨_, rfl, hm.purge hk hctr he h32, rfl, rfl, rfl⟩
  · have hmem : op.key ∉ m := Finmap.lookup_eq_none.mp hl
    simp only [purgeKey, hp, hne, if_false, hmem]
    exact ⟨h, rfl, hm, rfl, rfl, rfl⟩

/-- One operation either fails an assert or does what the map does. -/
theorem exec_refines (op : Op) (hk : op.key ≠ 0) :
    exec h op = .error .assert ∨
      ∃ h', exec h op = .ok ((Spec.exec m op).1, h') ∧ Holds h' (Spec.exec m op).2 ∧ h'.tableSize = h.tableSize ∧
        h'.table = h.table ∧ h'.block = h.block := by
  rcases hop : op.opType with _ | _ | _
  · simp only [exec, Spec.exec, hop]
    exact insertUpdate_refines hm h0 hlt op hk
  · right
    refine ⟨h, ?_, ?_, rfl, rfl, rfl⟩
    · rcases hl : m.lookup op.key with _ | v <;>
        simp only [exec, Spec.exec, hop, lookup_refines hm h0 hlt op hk, hl]
    · rcases hl : m.lookup op.key with _ | v <;> simpa only [Spec.exec, hop, hl] using hm
  · right
    obtain ⟨h', he, hm', hrest⟩ := purgeKey_refines hm h0 hlt op hk
    refine ⟨h', ?_, ?_, hrest⟩
    · simp only [exec, Spec.exec, hop, he]
      split <;> rfl
    · simp only [Spec.exec, hop]
      split <;> simp_all

end

/-! ## Whole runs -/

theorem run_refines : ∀ (ops : List Op) (h : HashT) (m : Map), Holds h m → 0 < h.tableSize → h.tableSize < 2 ^ 32 →
    (∀ op ∈ ops, op.key ≠ 0) →
    (runOps exec h ops).1 = (Spec.run m ops).1.take (runOps exec h ops).1.length ∧
      (∀ a, (runOps exec h ops).2 = .error a → a = .assert) ∧
      ∀ h', (runOps exec h ops).2 = .ok h' →
        (runOps exec h ops).1.length = ops.length ∧ Holds h' (Spec.run m ops).2 ∧ h'.tableSize = h.tableSize := by
  intro ops
  induction ops with
  | nil =>
    intro h m hm _ _ _
    simp only [runOps, Spec.run, List.length_nil, List.take_nil, true_and]
    refine ⟨fun a ha => (by cases ha), fun h' hh => ?_⟩
    cases hh
    exact ⟨hm, rfl⟩
  | cons op ops ih =>
    intro h m hm h0 hlt hk
    rcases exec_refines hm h0 hlt op (hk op (by simp)) with he | ⟨h', he, hm', hn, -⟩
    · simp only [runOps, he, List.length_nil, List.take_zero, true_and]
      exact ⟨fun a ha => by cases ha; rfl, fun h' hh => by cases hh⟩
    · obtain ⟨hr, ha, hok⟩ := ih h' _ hm' (by omega) (by omega) fun o ho => hk o (by simp [ho])
      simp only [runOps, he, Spec.run, List.length_cons, List.take_succ_cons]
      refine ⟨by rw [← hr], ha, fun h'' hh => ?_⟩
      obtain ⟨hlen, hm'', hn'⟩ := hok h'' hh
      exact ⟨by rw [hlen], hm'', by rw [hn', hn]⟩

/-- serial_hash is a finite map: up to the first failed assert every operation returns
    what the map returns; if none fails, the table holds the final map, each key in one
    slot and `used` their number; and every probe of that table ends. -/
theorem refines_finite_map (size block : Nat) (h0 : 0 < size) (hlt : size < 2 ^ 32) (ops : List Op)
    (hk : ∀ op ∈ ops, op.key ≠ 0) :
    (runOps exec (initHashtable size block) ops).1 =
        (Spec.run ∅ ops).1.take (runOps exec (initHashtable size block) ops).1.length ∧
      (∀ a, (runOps exec (initHashtable size block) ops).2 = .error a → a = .assert) ∧
      ∀ h, (runOps exec (initHashtable size block) ops).2 = .ok h →
        (runOps exec (initHashtable size block) ops).1.length = ops.length ∧ Holds h (Spec.run ∅ ops).2 ∧
          ∀ key, ∃ e, ∀ fuel, size < fuel →
            probe h key (hashfunc key size) fuel (hashfunc key size) 0 = some e := by
  obtain ⟨hr, ha, hok⟩ := run_refines ops (initHashtable size block) ∅ (holds_init size block) h0 hlt hk
  refine ⟨hr, ha, fun h hh => ?_⟩
  obtain ⟨hlen, hm, hn⟩ := hok h hh
  change h.tableSize = size at hn
  subst hn
  exact ⟨hlen, hm, fun key => probe_ends key hlt (hashfunc_lt h0 key)⟩

/-- Put, delete and look up again. -/
def putDelGet : List Op := [⟨1, 2, .PUT, 3, 100⟩, ⟨2, 2, .DEL, 0, 0⟩, ⟨3, 2, .GET, 0, 0⟩]

theorem refines_finite_map_two_slots :
    ∃ h, (runOps exec (initHashtable 2 0) putDelGet).2 = .ok h ∧ Holds h (Spec.run ∅ putDelGet).2 :=
  ⟨_, rfl, ((refines_finite_map 2 0 (by decide) (by decide) putDelGet (by decide)).2.2 _ rfl).2.1⟩

end Cs330.Hash.Serial
