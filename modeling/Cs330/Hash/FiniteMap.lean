/-
  Cs330.Hash.FiniteMap — what the hash table is for: a finite map from non-zero keys to
  the id (32 bits), length and payload pointer of the last insertion.

  `Spec.exec` is the meaning of one operation. `Holds h m` connects a table to a map: each
  occupied slot is an entry of `m` and each key of `m` has a slot, no key has two, no
  never-used slot lies between a key's home and its slot (cyclically), and `used` is the
  number of keys. A probe that stops at a never-used slot, or goes all the way round, has
  shown its key absent (`Holds.absent_of_stop`, `Holds.absent_of_circle`); a slot can be
  filled, rewritten or turned into a tombstone (`Holds.put_fresh`, `Holds.put_update`,
  `Holds.purge`).
-/
import Cs330.Hash.Table

namespace Cs330.Hash

open Lib.Ring

structure Val where
  id : Nat
  datalen : Nat
  data : Nat
  deriving DecidableEq, Repr

abbrev Map := Finmap fun _ : Nat => Val

def Entry.val (e : Entry) : Val := ⟨e.id, e.datalen, e.data⟩

def Op.val (op : Op) : Val := ⟨op.id % 2 ^ 32, op.datalen, op.data⟩

namespace Spec

def exec (m : Map) (op : Op) : Ret × Map :=
  match op.opType with
  | .PUT => ((0, op), m.insert op.key op.val)
  | .GET =>
    match m.lookup op.key with
    | some v => ((0, { op with datalen := v.datalen, data := v.data }), m)
    | none => ((-1, op), m)
  | .DEL => if op.key ∈ m then ((0, op), m.erase op.key) else ((-1, op), m)

def run (m : Map) : List Op → List Ret × Map
  | [] => ([], m)
  | op :: ops => let r := exec m op; let rest := run r.2 ops; (r.1 :: rest.1, rest.2)

theorem exec_other (m : Map) (op : Op) {k : Nat} (h : op.key ≠ k) : (exec m op).2.lookup k = m.lookup k := by
  unfold exec
  cases op.opType with
  | PUT => exact Finmap.lookup_insert_of_ne m (Ne.symm h)
  | GET => simp only; split <;> rfl
  | DEL =>
    simp only
    split
    · exact Finmap.lookup_erase_ne (Ne.symm h)
    · rfl

theorem exec_same {m m' : Map} (op : Op) (h : m.lookup op.key = m'.lookup op.key) :
    (exec m op).1 = (exec m' op).1 ∧ (exec m op).2.lookup op.key = (exec m' op).2.lookup op.key := by
  unfold exec
  cases op.opType with
  | PUT => exact ⟨rfl, by rw [Finmap.lookup_insert, Finmap.lookup_insert]⟩
  | GET => simp only [h]; split <;> exact ⟨rfl, h⟩
  | DEL =>
    have hmem : op.key ∈ m ↔ op.key ∈ m' := by rw [Finmap.mem_iff, Finmap.mem_iff, h]
    by_cases e : op.key ∈ m'
    · simp only [hmem.mpr e, e, if_true, Finmap.lookup_erase, and_self]
    · simp only [mt hmem.mp e, e, if_false, h, and_self]

theorem run_take_succ (m : Map) {ops : List Op} {i : Nat} {op : Op} (h : ops[i]? = some op) :
    (run m (ops.take (i + 1))).2 = (exec (run m (ops.take i)).2 op).2 := by
  induction ops generalizing m i with
  | nil => simp at h
  | cons o ops ih =>
    cases i with
    | zero => simp at h; subst h; simp [run]
    | succ i => simpa only [List.take_succ_cons, run] using ih (exec m o).2 (by simpa using h)

theorem run_getElem? (m : Map) {ops : List Op} {i : Nat} {op : Op} (h : ops[i]? = some op) :
    (run m ops).1[i]? = some (exec (run m (ops.take i)).2 op).1 := by
  induction ops generalizing m i with
  | nil => simp at h
  | cons o ops ih =>
    cases i with
    | zero => simp at h; subst h; simp [run]
    | succ i => simpa only [List.take_succ_cons, run, List.getElem?_cons_succ] using ih (exec m o).2 (by simpa using h)

end Spec

structure Holds (h : HashT) (m : Map) : Prop where
  zero : m.lookup 0 = none
  entry : ∀ i < h.tableSize, (h.slot i).key ≠ 0 → m.lookup (h.slot i).key = some (h.slot i).val
  slot : ∀ k v, m.lookup k = some v → ∃ i < h.tableSize, (h.slot i).key = k
  uniq : ∀ i < h.tableSize, ∀ j < h.tableSize, (h.slot i).key ≠ 0 → (h.slot i).key = (h.slot j).key → i = j
  chain : ∀ k ≠ 0, ∀ j < h.tableSize, (h.slot (pos h.tableSize (hashfunc k h.tableSize) j)).key = k →
    ∀ l < j, (h.slot (pos h.tableSize (hashfunc k h.tableSize) l)).taken = true
  used : h.used = m.keys.card

theorem holds_init (size block : Nat) : Holds (initHashtable size block) ∅ := by
  refine ⟨Finmap.lookup_empty _, ?_, ?_, ?_, ?_, rfl⟩
  · intro i _ h; exact absurd rfl h
  · intro k v h; rw [Finmap.lookup_empty] at h; cases h
  · intro i _ j _ h; exact absurd rfl h
  · intro k hk j _ h; exact absurd h.symm hk

namespace Holds

variable {h : HashT} {m : Map} {k : Nat}

theorem lookup_of_slot (hm : Holds h m) (hk : k ≠ 0) {i : Nat} (hi : i < h.tableSize) (he : (h.slot i).key = k) :
    m.lookup k = some (h.slot i).val := by
  subst he
  exact hm.entry i hi hk

theorem keys_le (hm : Holds h m) : m.keys.card ≤ h.tableSize := by
  have hsub : m.keys ⊆ (Finset.range h.tableSize).image fun i => (h.slot i).key := by
    intro k hk
    obtain ⟨v, hv⟩ := Finmap.mem_iff.mp (Finmap.mem_keys.mp hk)
    obtain ⟨i, hi, he⟩ := hm.slot k v hv
    exact Finset.mem_image.mpr ⟨i, Finset.mem_range.mpr hi, he⟩
  calc m.keys.card ≤ ((Finset.range h.tableSize).image fun i => (h.slot i).key).card := Finset.card_le_card hsub
    _ ≤ (Finset.range h.tableSize).card := Finset.card_image_le
    _ = h.tableSize := Finset.card_range _

/-- A probe that passed only busy slots and stands on a never-used one: the key is in no
    slot, since it could only lie beyond the never-used one. -/
theorem absent_of_stop (hm : Holds h m) (hk : k ≠ 0) {j : Nat} (hj : j < h.tableSize)
    (hbusy : ∀ l < j, (h.slot (pos h.tableSize (hashfunc k h.tableSize) l)).key ≠ k)
    (hstop : (h.slot (pos h.tableSize (hashfunc k h.tableSize) j)).taken = false) : m.lookup k = none := by
  rcases hl : m.lookup k with _ | v
  · rfl
  obtain ⟨i, hi, he⟩ := hm.slot k v hl
  obtain ⟨l, hln, rfl⟩ := exists_pos hi (hashfunc_lt (by omega) k)
  rcases Nat.lt_trichotomy l j with hlj | rfl | hlj
  · exact absurd he (hbusy l hlj)
  · rw [key_of_not_taken hstop] at he; exact absurd he.symm hk
  · rw [hm.chain k hk l hln he j hlj] at hstop; cases hstop

theorem absent_of_circle (hm : Holds h m) (hall : ∀ i < h.tableSize, (h.slot i).key ≠ k) : m.lookup k = none := by
  rcases hl : m.lookup k with _ | v
  · rfl
  obtain ⟨i, hi, he⟩ := hm.slot k v hl
  exact absurd he (hall i hi)

/-! ## The three changes of a slot -/

theorem card_insert (hl : m.lookup k = none) (v : Val) : (m.insert k v).keys.card = m.keys.card + 1 := by
  have hk : k ∉ m.keys := fun hk => Finmap.lookup_eq_none.mp hl (Finmap.mem_keys.mp hk)
  have he : (m.insert k v).keys = Insert.insert k m.keys := by
    ext a
    rw [Finmap.mem_keys, Finmap.mem_insert, Finset.mem_insert, Finmap.mem_keys]
  rw [he, Finset.card_insert_of_notMem hk]

theorem card_update {w : Val} (hl : m.lookup k = some w) (v : Val) : (m.insert k v).keys.card = m.keys.card := by
  have he : (m.insert k v).keys = m.keys := by
    ext a
    rw [Finmap.mem_keys, Finmap.mem_insert, Finmap.mem_keys]
    exact ⟨fun ha => ha.elim (fun e => e ▸ Finmap.mem_of_lookup_eq_some hl) id, Or.inr⟩
  rw [he]

theorem card_erase {w : Val} (hl : m.lookup k = some w) : (m.erase k).keys.card + 1 = m.keys.card := by
  have hk : k ∈ m.keys := Finmap.mem_keys.mpr (Finmap.mem_of_lookup_eq_some hl)
  rw [Finmap.keys_erase, Finset.card_erase_add_one hk]

/-- A slot written at step `j` of the key's walk, past taken slots only. -/
theorem put_fresh (hm : Holds h m) (op : Op) (hk : op.key ≠ 0) {j : Nat} (hj : j < h.tableSize)
    (hfree : (h.slot (pos h.tableSize (hashfunc op.key h.tableSize) j)).key = 0)
    (hpath : ∀ l < j, (h.slot (pos h.tableSize (hashfunc op.key h.tableSize) l)).taken = true)
    (hl : m.lookup op.key = none) {used table : Nat} (hu : used = h.used + 1) :
    Holds { h.set (pos h.tableSize (hashfunc op.key h.tableSize) j) (entryOf op) with used := used, table := table }
      (m.insert op.key op.val) := by
  have hn : 0 < h.tableSize := by omega
  set p := pos h.tableSize (hashfunc op.key h.tableSize) j with hp
  have hother : ∀ i < h.tableSize, (h.slot i).key ≠ 0 → (h.slot i).key ≠ op.key := by
    intro i hi h0 he
    rw [hm.lookup_of_slot hk hi he] at hl; cases hl
  have hkeep : ∀ i, i ≠ p → (h.set p (entryOf op)).slot i = h.slot i := fun i hi => set_slot_ne h _ hi
  refine ⟨?_, ?_, ?_, ?_, ?_, ?_⟩
  · rw [Finmap.lookup_insert_of_ne m (Ne.symm hk)]; exact hm.zero
  · intro i hi h0
    change ((h.set p (entryOf op)).slot i).key ≠ 0 at h0
    change (m.insert op.key op.val).lookup ((h.set p (entryOf op)).slot i).key = some ((h.set p (entryOf op)).slot i).val
    by_cases e : i = p
    · subst e; rw [set_slot_same]; exact Finmap.lookup_insert m
    · rw [hkeep i e] at h0 ⊢
      rw [Finmap.lookup_insert_of_ne m (hother i hi h0)]
      exact hm.entry i hi h0
  · intro k v hv
    by_cases e : k = op.key
    · exact ⟨p, pos_lt hn j, by show ((h.set p (entryOf op)).slot p).key = k; rw [set_slot_same, e]; rfl⟩
    · rw [Finmap.lookup_insert_of_ne m e] at hv
      obtain ⟨i, hi, he⟩ := hm.slot k v hv
      have hip : i ≠ p := by
        intro e; subst e
        rw [hfree] at he
        rw [← he, hm.zero] at hv; cases hv
      exact ⟨i, hi, by show ((h.set p (entryOf op)).slot i).key = k; rw [hkeep i hip, he]⟩
  · intro i hi l hl' h0 he
    change ((h.set p (entryOf op)).slot i).key ≠ 0 at h0
    change ((h.set p (entryOf op)).slot i).key = ((h.set p (entryOf op)).slot l).key at he
    by_cases e1 : i = p <;> by_cases e2 : l = p
    · omega
    · rw [e1, set_slot_same, hkeep l e2] at he
      exact absurd he.symm (hother l hl' (by rw [← he]; exact hk))
    · rw [e2, set_slot_same, hkeep i e1] at he
      rw [hkeep i e1] at h0
      exact absurd he (hother i hi h0)
    · rw [hkeep i e1] at he h0
      rw [hkeep l e2] at he
      exact hm.uniq i hi l hl' h0 he
  · intro k hk0 l hl' he a ha
    change ((h.set p (entryOf op)).slot (pos h.tableSize (hashfunc k h.tableSize) a)).taken = true
    change ((h.set p (entryOf op)).slot (pos h.tableSize (hashfunc k h.tableSize) l)).key = k at he
    by_cases e : pos h.tableSize (hashfunc k h.tableSize) a = p
    · rw [e, set_slot_same]; exact taken_of_key hk
    rw [hkeep _ e]
    by_cases e2 : pos h.tableSize (hashfunc k h.tableSize) l = p
    · -- the new slot itself: `k` is the inserted key and `l` its step
      rw [e2, set_slot_same, entryOf_key] at he
      subst he
      have : l = j := pos_inj hl' hj e2
      subst this
      exact hpath a ha
    · rw [hkeep _ e2] at he
      exact hm.chain k hk0 l hl' he a ha
  · rw [card_insert hl]; show used = _; rw [hu, hm.used]

theorem put_update (hm : Holds h m) (op : Op) (hk : op.key ≠ 0) {i : Nat} (hi : i < h.tableSize)
    (he : (h.slot i).key = op.key) : Holds (h.set i (entryOf op)) (m.insert op.key op.val) := by
  have hlk := hm.lookup_of_slot hk hi he
  have hkey : ∀ j, ((h.set i (entryOf op)).slot j).key = (h.slot j).key := by
    intro j
    by_cases e : j = i
    · subst e; rw [set_slot_same, entryOf_key, he]
    · rw [set_slot_ne _ _ e]
  have htaken : ∀ j, ((h.set i (entryOf op)).slot j).taken = true ∨ ((h.set i (entryOf op)).slot j) = h.slot j := by
    intro j
    by_cases e : j = i
    · subst e; left; rw [set_slot_same]; exact taken_of_key hk
    · exact Or.inr (set_slot_ne _ _ e)
  refine ⟨?_, ?_, ?_, ?_, ?_, ?_⟩
  · rw [Finmap.lookup_insert_of_ne m (Ne.symm hk)]; exact hm.zero
  · intro j hj h0
    by_cases e : j = i
    · subst e; rw [set_slot_same]; exact Finmap.lookup_insert m
    · rw [hkey] at h0 ⊢
      rw [set_slot_ne _ _ e]
      have hne : (h.slot j).key ≠ op.key := fun he' => e (hm.uniq j hj i hi h0 (by rw [he', he]))
      rw [Finmap.lookup_insert_of_ne m hne]
      exact hm.entry j hj h0
  · intro k v hv
    by_cases e : k = op.key
    · exact ⟨i, hi, by rw [hkey, he, e]⟩
    · rw [Finmap.lookup_insert_of_ne m e] at hv
      obtain ⟨j, hj, he'⟩ := hm.slot k v hv
      exact ⟨j, hj, by rw [hkey, he']⟩
  · intro j hj l hl h0 he'
    rw [hkey] at h0
    rw [hkey, hkey] at he'
    exact hm.uniq j hj l hl h0 he'
  · intro k hk0 j hj he' l hl
    rw [hkey] at he'
    rcases htaken (pos (h.set i (entryOf op)).tableSize (hashfunc k (h.set i (entryOf op)).tableSize) l) with ht | ht
    · exact ht
    · rw [ht]; exact hm.chain k hk0 j hj he' l hl
  · rw [card_update hlk]; exact hm.used

theorem purge (hm : Holds h m) (hk : k ≠ 0) {i : Nat} (hi : i < h.tableSize) (he : (h.slot i).key = k)
    {used table : Nat} (hu : used + 1 = h.used) :
    Holds { h.set i tombstone with used := used, table := table } (m.erase k) := by
  have hlk := hm.lookup_of_slot hk hi he
  have hkey : ∀ j, j ≠ i → (h.set i tombstone).slot j = h.slot j := fun j hj => set_slot_ne _ _ hj
  have hne : ∀ j, ((h.set i tombstone).slot j).key ≠ 0 → j ≠ i := by
    intro j h0 e; subst e; rw [set_slot_same] at h0; exact h0 rfl
  refine ⟨?_, ?_, ?_, ?_, ?_, ?_⟩
  · rw [Finmap.lookup_erase_ne (Ne.symm hk)]; exact hm.zero
  · intro j hj h0
    have e := hne j h0
    change ((h.set i tombstone).slot j).key ≠ 0 at h0
    change (m.erase k).lookup ((h.set i tombstone).slot j).key = some ((h.set i tombstone).slot j).val
    rw [hkey j e] at h0 ⊢
    rw [Finmap.lookup_erase_ne fun he' => e (hm.uniq j hj i hi h0 (by rw [he', he]))]
    exact hm.entry j hj h0
  · intro k' v hv
    have hkk : k' ≠ k := by intro e; subst e; rw [Finmap.lookup_erase] at hv; cases hv
    rw [Finmap.lookup_erase_ne hkk] at hv
    obtain ⟨j, hj, he'⟩ := hm.slot k' v hv
    have e : j ≠ i := by intro e; subst e; exact hkk (by rw [← he', he])
    exact ⟨j, hj, by show ((h.set i tombstone).slot j).key = k'; rw [hkey j e, he']⟩
  · intro j hj l hl h0 he'
    have e1 := hne j h0
    have e2 := hne l (by rw [← he']; exact h0)
    change ((h.set i tombstone).slot j).key ≠ 0 at h0
    change ((h.set i tombstone).slot j).key = ((h.set i tombstone).slot l).key at he'
    rw [hkey j e1] at h0 he'
    rw [hkey l e2] at he'
    exact hm.uniq j hj l hl h0 he'
  · intro k' hk0 j hj he' l hl
    change ((h.set i tombstone).slot (pos h.tableSize (hashfunc k' h.tableSize) j)).key = k' at he'
    change ((h.set i tombstone).slot (pos h.tableSize (hashfunc k' h.tableSize) l)).taken = true
    rw [hkey _ (hne _ (by rw [he']; exact hk0))] at he'
    by_cases e : pos h.tableSize (hashfunc k' h.tableSize) l = i
    · rw [e, set_slot_same]; rfl
    · rw [hkey _ e]; exact hm.chain k' hk0 j hj he' l hl
  · have := card_erase hlk
    have := hm.used
    show used = _
    omega

end Holds

end Cs330.Hash
