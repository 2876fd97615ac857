/-
  Cs330.Hash.Awake — the sleepers of `read_op`, and who will wake them.

  A thread goes to sleep because its scan has found an operation on its key with a smaller
  id. That operation stays registered until its `done_one`, which wakes everybody: so
  whoever is asleep would go to sleep again if it scanned now (`Blocked.asleep`), in any
  file and with any number of threads. Going from an operation to the one that blocks it
  the ids go down, and the chain ends at a thread that nothing blocks
  (`exists_unblocked`): it is awake, and its `done_one` is still to come
  (`sleeper_is_waited_for`).
-/
import Cs330.Hash.Gate

namespace Cs330.Hash

open Lib Function

namespace Gate

/-- The slots and the threads agree, and no sleeper has missed a `done_one`. -/
structure Blocked (N : Nat) (g : Gate) : Prop where
  being : ∀ i, g.being i = true ↔ (g.pc (i + 1)).inside = true
  range : ∀ t, (g.pc t).inside = true → 1 ≤ t ∧ t ≤ N
  asleep : ∀ t, g.pc t = .asleep → g.conflict t = true

theorem conflict_iff {g : Gate} {t : Nat} : g.conflict t = true ↔
    ∃ i < 32, g.being i = true ∧ (g.op (i + 1)).key = (g.op t).key ∧ (g.op (i + 1)).id < (g.op t).id := by
  simp [conflict, List.any_eq_true]

theorem inside_of_asleep {g : Gate} {t : Nat} (h : g.pc t = .asleep) : (g.pc t).inside = true := by rw [h]; rfl

theorem start_blocked (N : Nat) {g : Gate} (h : Start g) : Blocked N g := by
  obtain ⟨-, hbeing, hpc, -, -⟩ := h
  refine ⟨fun i => ?_, fun t ht => ?_, fun t ht => ?_⟩
  · simp [hbeing, hpc, Pc.inside]
  · rw [hpc] at ht; cases ht
  · rw [hpc] at ht; cases ht

section
variable {N t : Nat} {g : Gate} (h : Blocked N g)
include h

/-- Nothing that a scan reads has changed. -/
theorem Blocked.of_eq {g' : Gate} (hb : g'.being = g.being) (hop : g'.op = g.op) (hpc : g'.pc = g.pc) : Blocked N g' := by
  have hconf : ∀ u, g'.conflict u = g.conflict u := by
    intro u
    simp only [conflict, hb, hop]
  exact ⟨by rw [hb, hpc]; exact h.being, by rw [hpc]; exact h.range, fun u hu => (hconf u).trans (h.asleep u (hpc ▸ hu))⟩

/-- The operation that blocks a sleeper is registered, so it is not the one an idle thread
    is about to overwrite. -/
theorem Blocked.still_blocked (hidle : g.pc t = .idle) (op : Op) {u : Nat} (hut : u ≠ t) (hu : g.pc u = .asleep) {g' : Gate}
    (hop : g'.op = update g.op t op) (hbe : ∀ i, g.being i = true → g'.being i = true) : g'.conflict u = true := by
  obtain ⟨i, hi, hb, hk, hid⟩ := conflict_iff.mp (h.asleep u hu)
  have hit : i + 1 ≠ t := fun he => by
    have hin := (h.being i).mp hb
    rw [he, hidle] at hin
    cases hin
  refine conflict_iff.mpr ⟨i, hi, hbe i hb, ?_, ?_⟩
  · rw [hop, update_of_ne hit, update_of_ne hut, hk]
  · rw [hop, update_of_ne hit, update_of_ne hut]
    exact hid

/-- A thread with no operation registered leaves the loop. -/
theorem Blocked.finish (hidle : g.pc t = .idle) (op : Op) (curr : Nat) :
    Blocked N { g with curr := curr, op := update g.op t op, pc := update g.pc t .finished } := by
  have hpc : ∀ u, (update g.pc t Pc.finished u).inside = true → u ≠ t ∧ (g.pc u).inside = true :=
    fun u hu => inside_update hu rfl
  refine ⟨fun i => ?_, fun u hu => h.range u (hpc u hu).2, fun u hu => ?_⟩
  · show g.being i = true ↔ (update g.pc t Pc.finished (i + 1)).inside = true
    by_cases he : i + 1 = t
    · rw [h.being, he, hidle, update_self]
      exact Iff.rfl
    · rw [update_of_ne he]
      exact h.being i
  · have hu : update g.pc t Pc.finished u = .asleep := hu
    obtain ⟨hut, -⟩ := hpc u (by rw [hu]; rfl)
    rw [update_of_ne hut] at hu
    exact h.still_blocked hidle op hut hu rfl fun _ hb => hb

/-- An operation that is registered takes none away. -/
theorem Blocked.register (ht : 1 ≤ t ∧ t ≤ N) (hidle : g.pc t = .idle) (op : Op) (curr : Nat) :
    Blocked N (g.register t op curr) := by
  refine ⟨fun i => ?_, fun u hu => ?_, fun u hu => ?_⟩
  · show update g.being (t - 1) true i = true ↔ (update g.pc t Pc.scanning (i + 1)).inside = true
    by_cases he : i + 1 = t
    · rw [he, update_self, show i = t - 1 by omega, update_self]
      exact ⟨fun _ => rfl, fun _ => rfl⟩
    · rw [update_of_ne he, update_of_ne (by omega)]
      exact h.being i
  · have hu : (update g.pc t Pc.scanning u).inside = true := hu
    by_cases he : u = t
    · exact he ▸ ht
    · rw [update_of_ne he] at hu
      exact h.range u hu
  · have hu : update g.pc t Pc.scanning u = .asleep := hu
    have hut : u ≠ t := fun he => by
      rw [he, update_self] at hu
      cases hu
    rw [update_of_ne hut] at hu
    refine h.still_blocked hidle op hut hu rfl fun i hb => ?_
    show update g.being (t - 1) true i = true
    by_cases he : i = t - 1
    · rw [he, update_self]
    · rw [update_of_ne he]
      exact hb

/-- A thread inside stays inside, and goes to sleep only when it is blocked. -/
theorem Blocked.setPc (ht : (g.pc t).inside = true) {p : Pc} (hp : p.inside = true) (hs : p = .asleep → g.conflict t = true)
    (returned : List (Nat × Nat)) : Blocked N { g with pc := update g.pc t p, returned := returned } := by
  have hpc : ∀ u, (update g.pc t p u).inside = (g.pc u).inside := by
    intro u
    by_cases he : u = t
    · rw [he, update_self, hp, ht]
    · rw [update_of_ne he]
  refine ⟨fun i => (h.being i).trans (by rw [hpc]), fun u hu => h.range u ((hpc u) ▸ hu), fun u hu => ?_⟩
  have hu : update g.pc t p u = .asleep := hu
  show g.conflict u = true
  by_cases he : u = t
  · rw [he, update_self] at hu
    rw [he]
    exact hs hu
  · rw [update_of_ne he] at hu
    exact h.asleep u hu

theorem Blocked.scan (ht : (g.pc t).inside = true) : Blocked N (g.scan t) := by
  unfold Gate.scan
  split
  · rename_i hc
    exact h.setPc ht rfl (fun _ => hc) g.returned
  · exact h.setPc ht rfl (fun he => by cases he) _

/-- `done_one` leaves nobody asleep. -/
theorem Blocked.doneOne (ht : (g.pc t).inside = true) : Blocked N (g.doneOne t) := by
  have h1 := (h.range t ht).1
  have hpc : ∀ u, (if u = t then Pc.idle else if g.pc u = .asleep then .scanning else g.pc u).inside = true ↔
      u ≠ t ∧ (g.pc u).inside = true := by
    intro u
    by_cases he : u = t
    · simp [he, Pc.inside]
    · by_cases hs : g.pc u = .asleep
      · simp [he, hs, Pc.inside]
      · simp [he, hs]
  refine ⟨fun i => ?_, fun u hu => h.range u ((hpc u).mp hu).2, fun u hu => ?_⟩
  · refine Iff.trans ?_ (hpc (i + 1)).symm
    show update g.being (t - 1) false i = true ↔ _
    by_cases he : i + 1 = t
    · rw [show i = t - 1 by omega, update_self]
      simp only [Bool.false_eq_true, false_iff]
      exact fun hc => hc.1 (by omega)
    · rw [update_of_ne (by omega), h.being]
      exact ⟨fun hin => ⟨he, hin⟩, fun hin => hin.2⟩
  · have hu : (if u = t then Pc.idle else if g.pc u = .asleep then .scanning else g.pc u) = .asleep := hu
    split at hu
    · cases hu
    · split at hu
      · cases hu
      · rename_i hne
        exact absurd hu hne

theorem Blocked.readOp (file : List UInt8) (ht : 1 ≤ t ∧ t ≤ N) (hidle : g.pc t = .idle) : Blocked N (g.readOp file t) := by
  unfold Gate.readOp
  split
  · exact h.of_eq rfl rfl rfl
  · exact h.of_eq rfl rfl rfl
  · exact h.finish hidle _ _
  · refine (h.register ht hidle _ _).scan ?_
    show (update g.pc t Pc.scanning t).inside = true
    rw [update_self]
    rfl

theorem Blocked.step {file : List UInt8} {g' : Gate} {e : Ev} (he : Gate.step file N g e = some g') : Blocked N g' := by
  unfold Gate.step at he
  split at he
  · rename_i hrun
    cases e with
    | read t =>
      obtain ⟨hpc, hg⟩ := Option.ite_none_right_eq_some.mp he
      cases hg
      exact h.readOp file hrun.2 hpc
    | spurious t =>
      obtain ⟨hpc, hg⟩ := Option.ite_none_right_eq_some.mp he
      cases hg
      exact h.setPc (inside_of_asleep hpc) rfl (fun he => by cases he) g.returned
    | rescan t =>
      obtain ⟨hpc, hg⟩ := Option.ite_none_right_eq_some.mp he
      cases hg
      exact h.scan (by rw [hpc]; rfl)
    | done t =>
      obtain ⟨hpc, hg⟩ := Option.ite_none_right_eq_some.mp he
      cases hg
      exact h.doneOne (by rw [hpc]; rfl)
  · cases he

/-- From a registered operation down to one that nothing blocks. -/
theorem Blocked.exists_unblocked (ht : (g.pc t).inside = true) :
    ∃ u, (g.pc u).inside = true ∧ g.conflict u = false ∧ (g.op u).key = (g.op t).key := by
  induction hid : (g.op t).id using Nat.strong_induction_on generalizing t with
  | h id ih =>
    by_cases hc : g.conflict t = true
    · obtain ⟨i, -, hb, hk, hlt⟩ := conflict_iff.mp hc
      obtain ⟨u, hu, hcu, hku⟩ := ih _ (hid ▸ hlt) ((h.being i).mp hb) rfl
      exact ⟨u, hu, hcu, hku.trans hk⟩
    · exact ⟨t, ht, by simpa using hc, rfl⟩

end

theorem reach_blocked {file : List UInt8} {N : Nat} {g : Gate} (h : (machine file N).Reach Machine.any g) : Blocked N g :=
  h.inv (Blocked N) (fun _ => start_blocked N) fun _ _ _ hb _ he => hb.step he

/-- Somebody is awake whose operation is registered, nothing blocks it, and its `done_one`
    is still to come. -/
theorem sleeper_is_waited_for (file : List UInt8) (N : Nat) {g : Gate} (h : (machine file N).Reach Machine.any g) {t : Nat}
    (ht : g.pc t = .asleep) :
    ∃ u, (1 ≤ u ∧ u ≤ N) ∧ g.being (u - 1) = true ∧ (g.pc u = .scanning ∨ g.pc u = .active) ∧ g.conflict u = false ∧
      (g.op u).key = (g.op t).key := by
  have hb := reach_blocked h
  obtain ⟨u, hu, hc, hk⟩ := hb.exists_unblocked (inside_of_asleep ht)
  obtain ⟨h1, hN⟩ := hb.range u hu
  refine ⟨u, ⟨h1, hN⟩, ?_, ?_, hc, hk⟩
  · rw [hb.being, Nat.sub_add_cancel h1]
    exact hu
  · cases hpc : g.pc u with
    | scanning => exact .inl rfl
    | active => exact .inr rfl
    | asleep => rw [hb.asleep u hpc] at hc; cases hc
    | idle => rw [hpc] at hu; cases hu
    | finished => rw [hpc] at hu; cases hu

/-- Thread 1 inserts key 5, and thread 2, which reads it, is asleep. -/
theorem reader_is_waited_for : ∃ g, (machine (encode samePair) 2).Reach Machine.any g ∧ g.pc 2 = .asleep ∧
    ∃ u, (1 ≤ u ∧ u ≤ 2) ∧ g.being (u - 1) = true ∧ (g.pc u = .scanning ∨ g.pc u = .active) ∧ g.conflict u = false ∧
      (g.op u).key = (g.op 2).key := by
  have hrun := @Machine.exec_run _ _ (machine (encode samePair) 2) idleGate _ [.read 1, .read 2] rfl
  have hreach := hrun.reach (.init ⟨rfl, fun _ => rfl, fun _ => rfl, rfl, rfl⟩)
  have hasleep : (((idleGate.readOp (encode samePair) 1).readOp (encode samePair) 2).pc 2) = .asleep := by decide +kernel
  exact ⟨_, hreach, hasleep, sleeper_is_waited_for (encode samePair) 2 hreach hasleep⟩

end Gate

end Cs330.Hash
