/-
  Cs330.Hash.Terminates — every interleaving of `process` in up to 32 threads comes to an end.

  What is left to do is counted in sections: a record that has not been read is worth
  `perRecord`, a thread inside what its place in the operation still takes (`Loc.sections`),
  and a `done_one` what the sleepers it wakes will scan. Every section is paid for by this
  measure, but for wake-ups without a broadcast (`paid`). Whoever is asleep waits for a
  thread that can go on (`Blocked`), so as long as a thread is not finished and nothing has
  faulted there is a section to take (`goes_on`).

  Proved: `comes_to_an_end`. A run is no longer than the file, the table and the number of
  threads allow, and from each of its states the threads can finish without a further
  spurious wake-up, every record answered and the final map in the table, or the read of a
  record's header past the mapping has faulted.
-/
import Cs330.Hash.Awake
import Cs330.Hash.Threads
import Cs330.Lib.Total
import Cs330.Lib.Turns
import Mathlib.Algebra.BigOperators.Ring.List

namespace Cs330.Hash.Threads

open Lib Lib.Ring Function Parallel

def Ev.wakes : Ev → Nat
  | .spurious _ => 1
  | _ => 0

/-! ## What is left to do -/

/-- Records that start at `curr` or behind it. -/
def unread (recs : List Rec) (curr : Nat) : Nat := ((Finset.range recs.length).filter fun i => curr ≤ offset recs i).card

/-- Sections of its operation that a thread may still take, its `done_one` included. -/
def Loc.sections (size home : Nat) : Loc → Nat
  | .start => size + 3
  | .probing ctr cnt => (if cnt = 0 then size else ahead size ctr home) + 2
  | .ret _ => 1

/-- A record's read, its operation, and the scans of those that its `done_one` wakes. -/
def perRecord (N size : Nat) : Nat := size + N + 4

def Sys.todo (N size : Nat) (s : Sys) (t : Nat) : Nat :=
  match s.gate.pc t with
  | .finished => 0
  | .idle => 1
  | .asleep => perRecord N size
  | .scanning => perRecord N size + 1
  | .active => (s.loc t).sections size (hashfunc (s.gate.op t).key size) + N + 1

def Sys.left (recs : List Rec) (N size : Nat) (s : Sys) : Nat :=
  unread recs s.gate.curr * perRecord N size + total N (fun i => s.todo N size (i + 1)) + if s.gate.fault = none then 1 else 0

section
variable {recs : List Rec} {N size block : Nat} {s s' : Sys} {t : Nat}

theorem offset_le_iff {c i : Nat} (hi : i < recs.length) : offset recs c ≤ offset recs i ↔ c ≤ i := by
  constructor
  · intro hle
    by_contra hlt
    have hstep := offset_succ recs i hi
    have hpos := bytes_length_pos recs[i]
    by_cases hc : c ≤ recs.length
    · have hmono : offset recs (i + 1) ≤ offset recs c := Gate.offset_mono (by omega) hc
      omega
    · have hend : offset recs c = (encode recs).length := by
        unfold offset
        rw [List.take_of_length_le (Nat.le_of_not_le hc)]
      have hbytes := offset_le recs i hi
      omega
  · intro hle
    exact Gate.offset_mono hle hi.le

theorem unread_offset (c : Nat) : unread recs (offset recs c) = recs.length - c := by
  have hset : ((Finset.range recs.length).filter fun i => offset recs c ≤ offset recs i) = Finset.Ico c recs.length := by
    ext i
    rw [Finset.mem_filter, Finset.mem_range, Finset.mem_Ico]
    constructor
    · intro ⟨hi, hle⟩
      exact ⟨(offset_le_iff hi).mp hle, hi⟩
    · intro ⟨hle, hi⟩
      exact ⟨hi, (offset_le_iff hi).mpr hle⟩
  unfold unread
  rw [hset, Nat.card_Ico]

theorem unread_end {curr : Nat} (h : (encode recs).length < curr) : unread recs curr = 0 := by
  refine Finset.card_eq_zero.mpr (Finset.filter_eq_empty_iff.mpr fun i hi hle => ?_)
  have hbytes := offset_le recs i (Finset.mem_range.mp hi)
  omega

/-- From where a walk stands after `j` slots there are `size - j` back home. -/
theorem ahead_home {home j : Nat} (hh : home < size) (h0 : 0 < j) (hj : j ≤ size) : ahead size (pos size home j) home = size - j := by
  refine ahead_eq hh (by omega) ?_
  rw [show pos size (pos size home j) (size - j) = pos size home (j + (size - j)) by
    unfold pos
    rw [Nat.mod_add_mod, Nat.add_assoc], Nat.add_sub_of_le hj]
  exact pos_full hh

/-- Going on to the next slot comes nearer to the end of the circle. -/
theorem sections_next {h : HashT} {op : Op} {ctr cnt : Nat} (h0 : 0 < h.tableSize) (hlt : h.tableSize < 2 ^ 32)
    (hw : Walk h op.key ctr cnt) (hgo : goesOn h op ctr cnt = true) :
    (Loc.probing (add1 ctr % h.tableSize) (if cnt = 0 then cnt + 1 else cnt)).sections h.tableSize (hashfunc op.key h.tableSize) + 1 ≤
      (Loc.probing ctr cnt).sections h.tableSize (hashfunc op.key h.tableSize) := by
  have hh := hashfunc_lt h0 op.key
  simp only [goesOn, Bool.and_eq_true, Bool.or_eq_true, bne_iff_ne, beq_iff_eq] at hgo
  rcases hw.cases h0 with ⟨j, hj, hc, hcnt, -, -⟩ | ⟨hc, hcnt, -⟩
  · have hnext : add1 ctr % h.tableSize = pos h.tableSize (hashfunc op.key h.tableSize) (j + 1) := by
      rw [hc, add1_of_lt (pos_lt h0 j) hlt, pos_succ]
    have hafter := ahead_home hh (Nat.succ_pos j) hj
    have hcnt' : (if cnt = 0 then cnt + 1 else cnt) ≠ 0 := by split <;> omega
    simp only [Loc.sections, hnext, hafter, if_neg hcnt']
    by_cases hj0 : j = 0
    · rw [if_pos (by omega)]
      omega
    · rw [if_neg (by omega), hc, ahead_home hh (by omega) hj.le]
      omega
  · exact absurd hgo.2 (by omega)

/-! ## Each section is paid for -/

theorem todo_congr (hpc : s'.gate.pc t = s.gate.pc t) (hloc : s'.loc t = s.loc t) (hkey : (s'.gate.op t).key = (s.gate.op t).key) :
    s'.todo N size t = s.todo N size t := by
  unfold Sys.todo
  rw [hpc, hloc, hkey]

/-- Only thread `t` has moved. -/
theorem left_le (hf : s.gate.fault = none) (ht : 1 ≤ t ∧ t ≤ N) (hother : ∀ u, u ≠ t → s'.todo N size u = s.todo N size u)
    {a b : Nat} (hself : unread recs s'.gate.curr * perRecord N size + s'.todo N size t + a ≤
      unread recs s.gate.curr * perRecord N size + s.todo N size t + b) : s'.left recs N size + a ≤ s.left recs N size + b := by
  have htotal : total N (fun i => s'.todo N size (i + 1)) + s.todo N size (t - 1 + 1) =
      total N (fun i => s.todo N size (i + 1)) + s'.todo N size (t - 1 + 1) :=
    total_change (by omega) fun j hj => hother _ (by omega)
  rw [Nat.sub_add_cancel ht.1] at htotal
  unfold Sys.left
  rw [if_pos hf]
  have halive : (if s'.gate.fault = none then 1 else 0) ≤ 1 := by split <;> omega
  omega

theorem left_le_of_curr (hf : s.gate.fault = none) (ht : 1 ≤ t ∧ t ≤ N) (hcurr : s'.gate.curr = s.gate.curr)
    (hother : ∀ u, u ≠ t → s'.todo N size u = s.todo N size u) {a b : Nat}
    (hself : s'.todo N size t + a ≤ s.todo N size t + b) : s'.left recs N size + a ≤ s.left recs N size + b := by
  refine left_le hf ht hother ?_
  rw [hcurr, Nat.add_assoc, Nat.add_assoc]
  exact Nat.add_le_add_left hself _

/-- A fault is the last step. -/
theorem abort_left (hf : s.gate.fault = none) (a : Abort) : (s.abort a).left recs N size + 1 ≤ s.left recs N size := by
  have htodo : ∀ u, (s.abort a).todo N size u = s.todo N size u := fun u => todo_congr rfl rfl rfl
  have hdead : (s.abort a).gate.fault ≠ none := by simp [Sys.abort]
  unfold Sys.left
  rw [if_pos hf, if_neg hdead]
  simp only [htodo]
  exact Nat.le_refl _

theorem todo_idle (hpc : s.gate.pc t = .idle) : s.todo N size t = 1 := by simp [Sys.todo, hpc]
theorem todo_finished (hpc : s.gate.pc t = .finished) : s.todo N size t = 0 := by simp [Sys.todo, hpc]
theorem todo_asleep (hpc : s.gate.pc t = .asleep) : s.todo N size t = perRecord N size := by simp [Sys.todo, hpc]
theorem todo_scanning (hpc : s.gate.pc t = .scanning) : s.todo N size t = perRecord N size + 1 := by simp [Sys.todo, hpc]
theorem todo_active (hpc : s.gate.pc t = .active) :
    s.todo N size t = (s.loc t).sections size (hashfunc (s.gate.op t).key size) + N + 1 := by simp [Sys.todo, hpc]

theorem todo_at (hpc : s.gate.pc t = .active) {l : Loc} (hl : s.loc t = l) :
    s.todo N size t = l.sections size (hashfunc (s.gate.op t).key size) + N + 1 := by rw [todo_active hpc, hl]

theorem scan_todo (g : Gate) (hloc : s.loc t = .start) : ({ s with gate := g.scan t } : Sys).todo N size t = perRecord N size := by
  unfold Gate.scan
  split
  · exact todo_asleep (update_self ..)
  · rw [todo_active (update_self ..)]
    simp only [hloc, Loc.sections, perRecord]
    omega

theorem scan_other (g : Gate) {u : Nat} (hu : u ≠ t) :
    ({ s with gate := g.scan t } : Sys).todo N size u = ({ s with gate := g } : Sys).todo N size u := by
  unfold Gate.scan
  split
  · exact todo_congr (update_of_ne hu ..) rfl rfl
  · exact todo_congr (update_of_ne hu ..) rfl rfl

theorem scan_curr (g : Gate) (t : Nat) : (g.scan t).curr = g.curr := by
  unfold Gate.scan
  split <;> rfl

variable {c : Nat} {tk : Nat → Nat} {eff : Nat → Bool} {m : Map} {L : List Nat} (h : Inv recs N size s c tk eff m L)
  (hf : s.gate.fault = none) (ht : 1 ≤ t ∧ t ≤ N)
include h hf ht

theorem read_paid (hpc : s.gate.pc t = .idle) :
    ({ s with gate := s.gate.readOp (encode recs) t } : Sys).left recs N size + 1 ≤ s.left recs N size := by
  have hidle : s.todo N size t = 1 := todo_idle hpc
  have hloc : s.loc t = .start := (h.outside t (by rw [hpc]; simp)).1
  rcases h.gate.readOp_cases t with he | ⟨-, op, curr, hcurr, he⟩ | ⟨hc, -, he⟩ <;> rw [he]
  · exact abort_left hf .segv
  · refine left_le (b := 0) hf ht (fun u hu => ?_) ?_
    · refine todo_congr (update_of_ne hu ..) rfl ?_
      simp only [update_of_ne hu]
    · rw [unread_end hcurr, hidle, todo_finished (update_self ..)]
      omega
  · have hcurr : s.gate.curr = offset recs c := by
      rcases h.gate.cursor with ⟨hcurr, -⟩ | ⟨-, hend⟩
      · exact hcurr
      · omega
    refine left_le (b := 0) hf ht (fun u hu => ?_) ?_
    · rw [scan_other _ hu]
      refine todo_congr (update_of_ne hu ..) rfl ?_
      simp only [Gate.register, update_of_ne hu]
    · rw [scan_todo _ hloc, scan_curr, hcurr, hidle]
      simp only [Gate.register, unread_offset]
      have hone : recs.length - c = recs.length - (c + 1) + 1 := by omega
      rw [hone, Nat.succ_mul]

omit h in
theorem scan_paid (hloc : s.loc t = .start) (hpc : s.gate.pc t = .scanning) :
    ({ s with gate := s.gate.scan t } : Sys).left recs N size + 1 ≤ s.left recs N size := by
  refine left_le_of_curr (b := 0) hf ht (scan_curr ..) (fun u hu => scan_other _ hu) ?_
  rw [scan_todo _ hloc, todo_scanning hpc]

omit h in
theorem wake_paid (hpc : s.gate.pc t = .asleep) :
    ({ s with gate := { s.gate with pc := update s.gate.pc t .scanning } } : Sys).left recs N size + 1 ≤ s.left recs N size + 2 := by
  refine left_le_of_curr hf ht ?_ ?_ ?_
  · rfl
  · intro u hu
    exact todo_congr (update_of_ne hu ..) rfl rfl
  · rw [todo_asleep hpc, todo_scanning (update_self ..)]

omit h in
theorem relocate_paid (hpc : s.gate.pc t = .active) {l : Loc}
    (hl : l.sections size (hashfunc (s.gate.op t).key size) + 1 ≤ (s.loc t).sections size (hashfunc (s.gate.op t).key size)) :
    ({ s with loc := update s.loc t l } : Sys).left recs N size + 1 ≤ s.left recs N size := by
  refine left_le_of_curr (b := 0) hf ht ?_ ?_ ?_
  · rfl
  · intro u hu
    exact todo_congr rfl (update_of_ne hu ..) rfl
  · have hafter : ({ s with loc := update s.loc t l } : Sys).todo N size t =
        l.sections size (hashfunc (s.gate.op t).key size) + N + 1 := by
      refine todo_at ?_ ?_
      · exact hpc
      · exact update_self ..
    rw [hafter, todo_active hpc]
    omega

omit h in
theorem call_paid (hpc : s.gate.pc t = .active) (hloc : s.loc t = .start) : (s.call t).left recs N size + 1 ≤ s.left recs N size := by
  unfold Sys.call
  split
  · exact abort_left hf _
  · refine relocate_paid hf ht hpc ?_
    simp [hloc, Loc.sections]

theorem slot_paid (h0 : 0 < size) (hlt : size < 2 ^ 32) (hpc : s.gate.pc t = .active) {ctr cnt : Nat}
    (hloc : s.loc t = .probing ctr cnt) : (s.slot t ctr cnt).left recs N size + 1 ≤ s.left recs N size := by
  unfold Sys.slot
  split
  · rename_i hgo
    split
    · exact abort_left hf _
    · have hwalk : Walk s.h (s.gate.op t).key ctr cnt := by
        have hat := h.running t hpc
        rw [hloc] at hat
        exact hat.2
      have hnext := sections_next (h.size ▸ h0) (h.size ▸ hlt) hwalk hgo
      rw [h.size] at hnext ⊢
      rw [← hloc] at hnext
      exact relocate_paid hf ht hpc hnext
  · split
    · exact abort_left hf _
    · rename_i r op h' _
      refine left_le_of_curr (b := 0) hf ht ?_ ?_ ?_
      · rfl
      · intro u hu
        refine todo_congr rfl (update_of_ne hu ..) ?_
        simp only [update_of_ne hu]
      · have hafter : ({ s with gate := { s.gate with op := update s.gate.op t op }, h := h', loc := update s.loc t (.ret r) } : Sys).todo
            N size t = (Loc.ret r).sections size (hashfunc (update s.gate.op t op t).key size) + N + 1 := by
          refine todo_at ?_ ?_
          · exact hpc
          · exact update_self ..
        rw [hafter, todo_active hpc, hloc]
        simp only [Loc.sections]
        omega

omit h in
/-- A `done_one` pays for the scans of whoever it wakes. -/
theorem done_paid (hpc : s.gate.pc t = .active) {r : Int} (hloc : s.loc t = .ret r) :
    (s.doneOne t r).left recs N size + 1 ≤ s.left recs N size := by
  have hother : ∀ u, u ≠ t → (s.doneOne t r).todo N size u ≤ s.todo N size u + 1 := by
    intro u hu
    by_cases hs : s.gate.pc u = .asleep
    · have hscan : (s.doneOne t r).gate.pc u = .scanning := by simp [Sys.doneOne, Gate.doneOne, hu, hs]
      rw [todo_asleep hs, todo_scanning hscan]
    · have hsame : (s.doneOne t r).gate.pc u = s.gate.pc u := by simp [Sys.doneOne, Gate.doneOne, hu, hs]
      rw [todo_congr hsame (update_of_ne hu ..) rfl]
      exact Nat.le_succ _
  have hself : (s.doneOne t r).todo N size t + N + 1 = s.todo N size t := by
    have hidle : (s.doneOne t r).gate.pc t = .idle := by simp [Sys.doneOne, Gate.doneOne]
    rw [todo_idle hidle, todo_active hpc, hloc]
    simp only [Loc.sections]
  have htotal : total N (fun i => (s.doneOne t r).todo N size (i + 1)) + 1 ≤ total N fun i => s.todo N size (i + 1) := by
    have hraised := total_change (f := fun i => (s.doneOne t r).todo N size (i + 1))
      (g := update (fun i => (s.doneOne t r).todo N size (i + 1)) (t - 1) (s.todo N size t)) (show t - 1 < N by omega)
      fun j hj => update_of_ne hj ..
    have hle : total N (update (fun i => (s.doneOne t r).todo N size (i + 1)) (t - 1) (s.todo N size t)) ≤
        total N fun i => s.todo N size (i + 1) + 1 := by
      refine total_le fun j _ => ?_
      by_cases hj : j = t - 1
      · rw [hj, update_self, Nat.sub_add_cancel ht.1]
        exact Nat.le_succ _
      · rw [update_of_ne hj]
        exact hother _ (by omega)
    rw [total_add, total_one] at hle
    simp only [update_self, Nat.sub_add_cancel ht.1] at hraised
    omega
  unfold Sys.left
  rw [if_pos hf, show (s.doneOne t r).gate.fault = none from hf, if_pos rfl]
  have hcurr : (s.doneOne t r).gate.curr = s.gate.curr := rfl
  rw [hcurr]
  omega

omit hf ht in
/-- Every section but a wake-up without a broadcast leaves less to do. -/
theorem paid (h0 : 0 < size) (hlt : size < 2 ^ 32) {e : Ev} (hs : step (encode recs) N s e = some s') :
    s'.left recs N size + 1 ≤ s.left recs N size + 2 * e.wakes := by
  unfold step at hs
  split at hs
  swap
  · cases hs
  rename_i hg
  obtain ⟨hf, ht⟩ := hg
  cases e with
  | read t =>
    obtain ⟨g, hg, rfl⟩ := Option.map_eq_some_iff.mp hs
    obtain ⟨hpc, hg⟩ := Option.ite_none_right_eq_some.mp hg
    cases hg
    exact read_paid h hf ht hpc
  | spurious t =>
    obtain ⟨g, hg, rfl⟩ := Option.map_eq_some_iff.mp hs
    obtain ⟨hpc, hg⟩ := Option.ite_none_right_eq_some.mp hg
    cases hg
    exact wake_paid hf ht hpc
  | rescan t =>
    obtain ⟨g, hg, rfl⟩ := Option.map_eq_some_iff.mp hs
    obtain ⟨hpc, hg⟩ := Option.ite_none_right_eq_some.mp hg
    cases hg
    exact scan_paid hf ht (h.outside t (by rw [hpc]; simp)).1 hpc
  | call t =>
    obtain ⟨⟨hpc, hloc⟩, hc⟩ := Option.ite_none_right_eq_some.mp hs
    cases hc
    exact call_paid hf ht hpc hloc
  | slot t =>
    simp only [stepAt] at hs
    split at hs
    · rename_i ctr cnt hloc
      obtain ⟨hpc, hc⟩ := Option.ite_none_right_eq_some.mp hs
      cases hc
      exact slot_paid h hf ht h0 hlt hpc hloc
    · cases hs
    · cases hs
  | done t =>
    simp only [stepAt] at hs
    split at hs
    · rename_i r hloc
      obtain ⟨hpc, hc⟩ := Option.ite_none_right_eq_some.mp hs
      cases hc
      exact done_paid hf ht hpc hloc
    · cases hs
    · cases hs

end

/-! ## Somebody can go on -/

section
variable {recs : List Rec} {file : List UInt8} {N size block : Nat} {s s' : Sys} {t : Nat}

/-- A scan reads keys and ids only. -/
theorem blocked_of_keys {g g' : Gate} (h : Gate.Blocked N g) (hb : g'.being = g.being) (hpc : g'.pc = g.pc)
    (hop : ∀ u, (g'.op u).id = (g.op u).id ∧ (g'.op u).key = (g.op u).key) : Gate.Blocked N g' := by
  have hconf : ∀ u, g'.conflict u = g.conflict u := by
    intro u
    simp only [Gate.conflict, hb, hop]
  refine ⟨?_, ?_, ?_⟩
  · rw [hb, hpc]
    exact h.being
  · rw [hpc]
    exact h.range
  · intro u hu
    rw [hpc] at hu
    exact (hconf u).trans (h.asleep u hu)

theorem atEnd_keeps {h h' : HashT} {op op' : Op} {ctr cnt : Nat} {r : Int} (he : atEnd h op ctr cnt = .ok ((r, op'), h')) :
    op'.id = op.id ∧ op'.key = op.key := by
  unfold atEnd at he
  split at he
  · split at he
    · cases he
      exact ⟨rfl, rfl⟩
    · cases he
      exact ⟨rfl, rfl⟩
  · split at he
    · cases he
    · split at he
      · cases he
        exact ⟨rfl, rfl⟩
      · split at he
        · cases he
        · cases he
          exact ⟨rfl, rfl⟩
  · split at he
    · cases he
      exact ⟨rfl, rfl⟩
    · cases he
      exact ⟨rfl, rfl⟩

theorem blocked_abort (h : Gate.Blocked N s.gate) (a : Abort) : Gate.Blocked N (s.abort a).gate := h.of_eq rfl rfl rfl

theorem blocked_call (h : Gate.Blocked N s.gate) (t : Nat) : Gate.Blocked N (s.call t).gate := by
  unfold Sys.call
  split
  · exact blocked_abort h _
  · exact h

theorem blocked_slot (h : Gate.Blocked N s.gate) (t ctr cnt : Nat) : Gate.Blocked N (s.slot t ctr cnt).gate := by
  unfold Sys.slot
  split
  · split
    · exact blocked_abort h _
    · exact h
  · split
    · exact blocked_abort h _
    · rename_i r op h' he
      refine blocked_of_keys h rfl rfl fun u => ?_
      by_cases hu : u = t
      · subst hu
        simp only [update_self]
        exact atEnd_keeps he
      · simp only [update_of_ne hu]
        exact ⟨trivial, trivial⟩

theorem blocked_step {e : Ev} (h : Gate.Blocked N s.gate) (hs : step file N s e = some s') : Gate.Blocked N s'.gate := by
  unfold step at hs
  split at hs
  swap
  · cases hs
  rename_i hg
  cases e with
  | read t =>
    obtain ⟨g, he, rfl⟩ := Option.map_eq_some_iff.mp hs
    exact h.step (e := .read t) ((if_pos hg).trans he)
  | spurious t =>
    obtain ⟨g, he, rfl⟩ := Option.map_eq_some_iff.mp hs
    exact h.step (e := .spurious t) ((if_pos hg).trans he)
  | rescan t =>
    obtain ⟨g, he, rfl⟩ := Option.map_eq_some_iff.mp hs
    exact h.step (e := .rescan t) ((if_pos hg).trans he)
  | call t =>
    obtain ⟨-, hc⟩ := Option.ite_none_right_eq_some.mp hs
    cases hc
    exact blocked_call h t
  | slot t =>
    simp only [stepAt] at hs
    split at hs
    · obtain ⟨-, hc⟩ := Option.ite_none_right_eq_some.mp hs
      cases hc
      exact blocked_slot h t _ _
    · cases hs
    · cases hs
  | done t =>
    simp only [stepAt] at hs
    split at hs
    · obtain ⟨hpc, hc⟩ := Option.ite_none_right_eq_some.mp hs
      cases hc
      exact h.doneOne (active_inside hpc)
    · cases hs
    · cases hs

/-- A thread that is neither asleep nor finished has a section to take. -/
theorem own_section (hf : s.gate.fault = none) (ht : 1 ≤ t ∧ t ≤ N) (h1 : s.gate.pc t ≠ .asleep) (h2 : s.gate.pc t ≠ .finished) :
    ∃ e s', e.wakes = 0 ∧ step file N s e = some s' := by
  have hg : ∀ e : Ev, e.tnum = t → s.gate.fault = none ∧ 1 ≤ e.tnum ∧ e.tnum ≤ N := by
    intro e he
    rw [he]
    exact ⟨hf, ht⟩
  cases hpc : s.gate.pc t with
  | idle => exact ⟨.read t, { s with gate := s.gate.readOp file t }, rfl, by simp [step, hg (.read t) rfl, stepAt, Gate.stepAt, hpc]⟩
  | scanning => exact ⟨.rescan t, { s with gate := s.gate.scan t }, rfl, by simp [step, hg (.rescan t) rfl, stepAt, Gate.stepAt, hpc]⟩
  | active =>
    cases hloc : s.loc t with
    | start => exact ⟨.call t, s.call t, rfl, by simp [step, hg (.call t) rfl, stepAt, hpc, hloc]⟩
    | probing ctr cnt => exact ⟨.slot t, s.slot t ctr cnt, rfl, by simp [step, hg (.slot t) rfl, stepAt, hpc, hloc]⟩
    | ret r => exact ⟨.done t, s.doneOne t r, rfl, by simp [step, hg (.done t) rfl, stepAt, hpc, hloc]⟩
  | asleep => exact absurd hpc h1
  | finished => exact absurd hpc h2

/-- While somebody is not finished, somebody has a section to take: a sleeper waits for one who is awake. -/
theorem goes_on (h : Gate.Blocked N s.gate) (hf : s.gate.fault = none) (ht : 1 ≤ t ∧ t ≤ N) (hpc : s.gate.pc t ≠ .finished) :
    ∃ e s', e.wakes = 0 ∧ step file N s e = some s' := by
  by_cases hs : s.gate.pc t = .asleep
  · obtain ⟨u, hu, hc, -⟩ := h.exists_unblocked (Gate.inside_of_asleep hs)
    refine own_section hf (h.range u hu) (fun ha => ?_) (fun hd => ?_)
    · rw [h.asleep u ha] at hc
      cases hc
    · rw [hd] at hu
      cases hu
  · exact own_section hf ht hs hpc

end

/-! ## Runs -/

/-- The threads have finished, each record was answered once and the table holds the final map; or a header was read past
    the mapping. -/
def Ended (recs : List Rec) (N : Nat) (s : Sys) : Prop :=
  s.gate.fault = some .segv ∨ (∀ t, 1 ≤ t → t ≤ N → s.gate.pc t = .finished) ∧
    (∃ L, L.Perm (List.range recs.length) ∧ List.Forall₂ (Answers recs) L s.log) ∧ Holds s.h (Spec.run ∅ (ops recs)).2

theorem start_left {recs : List Rec} {N size block : Nat} {s : Sys} (h : Start size block s) :
    s.left recs N size = recs.length * perRecord N size + N + 1 := by
  obtain ⟨⟨hcurr, -, hpc, hf, -⟩, -⟩ := h
  have htodo : ∀ t, s.todo N size t = 1 := fun t => todo_idle (hpc t)
  have hzero : s.gate.curr = offset recs 0 := hcurr
  unfold Sys.left
  rw [if_pos hf, hzero, unread_offset, Nat.sub_zero]
  simp only [htodo, total_one]

section
variable {recs : List Rec} {N size block : Nat} {s : Sys}

theorem Inv.ended {c : Nat} {tk : Nat → Nat} {eff : Nat → Bool} {m : Map} {L : List Nat} (h : Inv recs N size s c tk eff m L)
    (hN : 1 ≤ N) (hfin : ∀ t, 1 ≤ t → t ≤ N → s.gate.pc t = .finished) : Ended recs N s := by
  obtain ⟨hperm, hm⟩ := h.finished hN hfin
  refine .inr ⟨hfin, ⟨L, hperm, h.answered⟩, ?_⟩
  rw [← hm]
  exact h.holds

/-- A run has at most so many sections, and from wherever it has come to the threads can come to an end. -/
theorem comes_to_an_end (recs : List Rec) (hids : Gate.IdsIncrease recs) (hkeys : ∀ r ∈ recs, r.key ≠ 0) (N size block : Nat)
    (h0 : 0 < size) (hlt : size < 2 ^ 32) (hputs : (recs.countP fun r => r.opType = .PUT) ≤ size) (hN : 1 ≤ N ∧ N ≤ 32)
    {s₀ s : Sys} {es : List Ev} (hs₀ : Start size block s₀) (hr : (machine (encode recs) N size block).Run Machine.any s₀ es s) :
    es.length ≤ recs.length * (size + N + 4) + N + 1 + 2 * (es.map Ev.wakes).sum ∧
      ∃ fs u, (machine (encode recs) N size block).Run (fun _ e => e.wakes = 0) s fs u ∧ Ended recs N u := by
  rw [← puts_eq] at hputs
  have hstep : ∀ s e t, Good recs N size s ∧ Gate.Blocked N s.gate → step (encode recs) N s e = some t →
      (Good recs N size t ∧ Gate.Blocked N t.gate) ∧ t.left recs N size + 1 ≤ s.left recs N size + 2 * e.wakes := by
    intro s e t ⟨hg, hb⟩ he
    refine ⟨⟨step_inv hids hkeys h0 hlt hputs hN.2 hg he, blocked_step hb he⟩, ?_⟩
    obtain ⟨c, tk, eff, m, L, h⟩ := hg
    exact paid h h0 hlt he
  have hstart : Good recs N size s₀ ∧ Gate.Blocked N s₀.gate :=
    ⟨⟨0, _, _, ∅, [], start_inv recs N size block hs₀⟩, Gate.start_blocked N hs₀.1⟩
  obtain ⟨hgood, hpaid⟩ := hr.amortized (I := fun s => Good recs N size s ∧ Gate.Blocked N s.gate) (Sys.left recs N size)
    (fun _ => 1) (fun e => 2 * e.wakes) (fun s e t hi _ he => hstep s e t hi he) hstart
  constructor
  · have hlen : (es.map fun _ => 1).sum = es.length := by simp
    rw [start_left hs₀, List.sum_map_mul_left, hlen] at hpaid
    unfold perRecord at hpaid
    omega
  · have hon : ∀ s, Good recs N size s ∧ Gate.Blocked N s.gate → Ended recs N s ∨
        ∃ es t, (machine (encode recs) N size block).Run (fun _ e => e.wakes = 0) s es t ∧
          (Good recs N size t ∧ Gate.Blocked N t.gate) ∧ t.left recs N size < s.left recs N size := by
      intro s hi
      obtain ⟨⟨c, tk, eff, m, L, h⟩, hb⟩ := hi
      rcases h.sound with hf | hf
      · by_cases hfin : ∀ t, 1 ≤ t → t ≤ N → s.gate.pc t = .finished
        · exact .inl (h.ended hN.1 hfin)
        push Not at hfin
        obtain ⟨t, h1, h2, hpc⟩ := hfin
        obtain ⟨e, u, hw, he⟩ : ∃ e u, e.wakes = 0 ∧ step (encode recs) N s e = some u := goes_on hb hf ⟨h1, h2⟩ hpc
        obtain ⟨hu, hle⟩ := hstep s e u ⟨⟨c, tk, eff, m, L, h⟩, hb⟩ he
        rw [hw] at hle
        exact .inr ⟨[e], u, .cons hw he (.nil u), hu, by omega⟩
      · exact .inl (.inl hf)
    obtain ⟨fs, u, hrun, -, hu⟩ := Machine.drain (Sys.left recs N size) hon hgood
    exact ⟨fs, u, hrun, hu⟩

/-- Two threads that meet on one key, after the first section. -/
theorem comes_to_an_end_meeting : ∃ s, [Ev.read 1].length ≤ 2 * (2 + 2 + 4) + 2 + 1 + 2 * ([Ev.read 1].map Ev.wakes).sum ∧
    ∃ fs u, (machine (encode Gate.samePair) 2 2 0).Run (fun _ e => e.wakes = 0) s fs u ∧ Ended Gate.samePair 2 u := by
  have hrun := @Machine.exec_run _ _ (machine (encode Gate.samePair) 2 2 0) (idle 2 0) _ [.read 1] rfl
  have hstart : Start 2 0 (idle 2 0) := ⟨⟨rfl, fun _ => rfl, fun _ => rfl, rfl, rfl⟩, rfl, fun _ => rfl, rfl⟩
  exact ⟨_, comes_to_an_end Gate.samePair (by simp [Gate.samePair, Gate.IdsIncrease, Rec.id]) (by simp [Gate.samePair, Rec.key])
    2 2 0 (by decide) (by decide) (by decide) (by decide) hstart hrun⟩

end

end Cs330.Hash.Threads
