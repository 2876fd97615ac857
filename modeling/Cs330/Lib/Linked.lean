/-
  Cs330.Lib.Linked — singly linked lists in memory.

  A cell is a value and the address it lies at; address 0 is NULL. `Cells.list p` follows
  the links from `p` to NULL, through allocated cells only. `replace old cs` is what a
  procedure leaves that turned the list `old` into `cs`: the cells of `cs` are allocated
  and linked, those of `old` that are not among them freed.

  A list that is there has no cell twice (`Chain.nodup`). `replace` makes `cs` a list
  (`list_replace`) and touches no list without a cell of `old` or `cs`
  (`list_replace_other`).
-/
import Mathlib.Data.Finset.Card
import Mathlib.Data.List.Nodup
import Mathlib.Data.List.Lattice

namespace Cs330.Lib

structure Cell (α : Type) where
  val : α
  ptr : Nat
  deriving DecidableEq, Repr

/-- Memory as far as it holds cells; `used` are those allocated. -/
structure Cells (α : Type) where
  val : Nat → α
  next : Nat → Nat
  used : Finset Nat

variable {α : Type}

def ptrs (cs : List (Cell α)) : List Nat := cs.map Cell.ptr

def vals (cs : List (Cell α)) : List α := cs.map Cell.val

/-- The address of a list. -/
def first : List (Cell α) → Nat
  | [] => 0
  | c :: _ => c.ptr

@[simp] theorem ptrs_cons (c : Cell α) (cs : List (Cell α)) : ptrs (c :: cs) = c.ptr :: ptrs cs := rfl
@[simp] theorem vals_cons (c : Cell α) (cs : List (Cell α)) : vals (c :: cs) = c.val :: vals cs := rfl
@[simp] theorem length_vals (cs : List (Cell α)) : (vals cs).length = cs.length := List.length_map ..
@[simp] theorem length_ptrs (cs : List (Cell α)) : (ptrs cs).length = cs.length := List.length_map ..

namespace Cells

/-- The list from `p` on, if it ends after `fuel` cells at most. -/
def walk (h : Cells α) (fuel p : Nat) : Option (List (Cell α)) :=
  if p = 0 then some []
  else
    match fuel with
    | 0 => none
    | fuel + 1 => if p ∈ h.used then (h.walk fuel (h.next p)).map (⟨h.val p, p⟩ :: ·) else none

/-- A walk that has not ended after all cells there are never ends. -/
def list (h : Cells α) (p : Nat) : Option (List (Cell α)) := h.walk h.used.card p

def link (h : Cells α) : List (Cell α) → Cells α
  | [] => h
  | c :: cs =>
    let h' := h.link cs
    { h' with val := Function.update h'.val c.ptr c.val, next := Function.update h'.next c.ptr (first cs) }

def replace (h : Cells α) (old cs : List (Cell α)) : Cells α :=
  { h.link cs with used := (h.used \ (ptrs old).toFinset) ∪ (ptrs cs).toFinset }

/-! ## What a list is -/

def Chain (h : Cells α) : Nat → List (Cell α) → Prop
  | p, [] => p = 0
  | p, c :: cs => p = c.ptr ∧ p ≠ 0 ∧ p ∈ h.used ∧ h.val p = c.val ∧ h.Chain (h.next p) cs

variable {h h' : Cells α} {p q : Nat} {cs ds old : List (Cell α)}

theorem Chain.mem (hc : h.Chain p cs) (hq : q ∈ ptrs cs) : q ≠ 0 ∧ q ∈ h.used := by
  induction cs generalizing p with
  | nil => cases hq
  | cons c cs ih =>
    obtain ⟨h1, h2, h3, -, h5⟩ := hc
    rcases List.mem_cons.mp hq with rfl | hq
    · rw [← h1]
      exact ⟨h2, h3⟩
    · exact ih h5 hq

theorem Chain.unique (hc : h.Chain p cs) (hd : h.Chain p ds) : cs = ds := by
  induction cs generalizing p ds with
  | nil =>
    cases ds with
    | nil => rfl
    | cons d ds => exact absurd hc hd.2.1
  | cons c cs ih =>
    cases ds with
    | nil => exact absurd hd hc.2.1
    | cons d ds =>
      obtain ⟨h1, -, -, h4, h5⟩ := hc
      obtain ⟨g1, -, -, g4, g5⟩ := hd
      have hcd : c = d := by
        cases c
        cases d
        congr
        · exact h4.symm.trans g4
        · exact h1.symm.trans g1
      rw [hcd, ih h5 g5]

/-- From a cell of the list on, the rest is a list. -/
theorem Chain.suffix (hc : h.Chain p cs) (hq : q ∈ ptrs cs) : ∃ ds, h.Chain q ds ∧ ds.length ≤ cs.length := by
  induction cs generalizing p with
  | nil => cases hq
  | cons c cs ih =>
    rcases List.mem_cons.mp hq with rfl | hq
    · exact ⟨c :: cs, hc.1 ▸ hc, Nat.le_refl _⟩
    · obtain ⟨ds, h1, h2⟩ := ih hc.2.2.2.2 hq
      exact ⟨ds, h1, Nat.le_succ_of_le h2⟩

/-- A list that ends comes to no cell twice. -/
theorem Chain.nodup (hc : h.Chain p cs) : (ptrs cs).Nodup := by
  induction cs generalizing p with
  | nil => exact List.nodup_nil
  | cons c cs ih =>
    refine List.nodup_cons.mpr ⟨fun hmem => ?_, ih hc.2.2.2.2⟩
    obtain ⟨ds, h1, h2⟩ := hc.2.2.2.2.suffix hmem
    have heq := (hc.1 ▸ hc).unique h1
    rw [← heq, List.length_cons] at h2
    omega

theorem Chain.length_le (hc : h.Chain p cs) : cs.length ≤ h.used.card := by
  rw [← length_ptrs, ← List.toFinset_card_of_nodup hc.nodup]
  exact Finset.card_le_card fun q hq => (hc.mem (List.mem_toFinset.mp hq)).2

theorem chain_of_walk {n : Nat} (hw : h.walk n p = some cs) : h.Chain p cs := by
  induction n generalizing p cs with
  | zero =>
    unfold walk at hw
    split at hw
    · cases hw; assumption
    · cases hw
  | succ n ih =>
    unfold walk at hw
    split at hw
    · cases hw; assumption
    rename_i h0
    simp only at hw
    split at hw
    · rename_i hu
      obtain ⟨ds, hd, rfl⟩ := Option.map_eq_some_iff.mp hw
      exact ⟨rfl, h0, hu, rfl, ih hd⟩
    · cases hw

theorem Chain.walk (hc : h.Chain p cs) {n : Nat} (hn : cs.length ≤ n) : h.walk n p = some cs := by
  induction cs generalizing p n with
  | nil =>
    unfold Cells.walk
    exact if_pos hc
  | cons c cs ih =>
    obtain ⟨h1, h2, h3, h4, h5⟩ := hc
    obtain ⟨m, rfl⟩ : ∃ m, n = m + 1 := ⟨n - 1, by rw [List.length_cons] at hn; omega⟩
    unfold Cells.walk
    rw [if_neg h2]
    simp only
    rw [if_pos h3, ih h5 (Nat.le_of_succ_le_succ hn), h4, h1]
    rfl

theorem list_eq_some : h.list p = some cs ↔ h.Chain p cs :=
  ⟨chain_of_walk, fun hc => hc.walk hc.length_le⟩

@[simp] theorem list_zero (h : Cells α) : h.list 0 = some [] := list_eq_some.mpr rfl

theorem list_eq_none (h0 : p ≠ 0) (hu : p ∉ h.used) : h.list p = none := by
  cases hl : h.list p with
  | none => rfl
  | some cs =>
    have hc := list_eq_some.mp hl
    cases cs with
    | nil => exact absurd hc h0
    | cons c cs => exact absurd hc.2.2.1 hu

/-! ## Writing a list -/

theorem link_other (hq : q ∉ ptrs cs) : (h.link cs).val q = h.val q ∧ (h.link cs).next q = h.next q := by
  induction cs with
  | nil => exact ⟨rfl, rfl⟩
  | cons c cs ih =>
    rw [ptrs_cons, List.mem_cons, not_or] at hq
    obtain ⟨h1, h2⟩ := ih hq.2
    exact ⟨(Function.update_of_ne hq.1 ..).trans h1, (Function.update_of_ne hq.1 ..).trans h2⟩

/-- A chain depends on its own cells only. -/
theorem Chain.congr (hc : h.Chain p cs)
    (hs : ∀ q ∈ ptrs cs, q ∈ h'.used ∧ h'.val q = h.val q ∧ h'.next q = h.next q) : h'.Chain p cs := by
  induction cs generalizing p with
  | nil => exact hc
  | cons c cs ih =>
    obtain ⟨h1, h2, -, h4, h5⟩ := hc
    obtain ⟨g1, g2, g3⟩ := hs p (h1 ▸ List.mem_cons_self)
    refine ⟨h1, h2, g1, g2.trans h4, ?_⟩
    rw [g3]
    exact ih h5 fun q hq => hs q (List.mem_cons_of_mem _ hq)

theorem chain_link (hn : (ptrs cs).Nodup) (h0 : ∀ q ∈ ptrs cs, q ≠ 0) (hu : ∀ q ∈ ptrs cs, q ∈ h.used) :
    (h.link cs).Chain (first cs) cs := by
  have hused : (h.link cs).used = h.used := by
    clear hn h0 hu
    induction cs with
    | nil => rfl
    | cons c cs ih => exact ih
  induction cs with
  | nil => rfl
  | cons c cs ih =>
    obtain ⟨hc, hn⟩ := List.nodup_cons.mp hn
    have hrest := ih hn (fun q hq => h0 q (List.mem_cons_of_mem _ hq)) (fun q hq => hu q (List.mem_cons_of_mem _ hq)) hused
    refine ⟨rfl, h0 _ List.mem_cons_self, hused ▸ hu _ List.mem_cons_self, Function.update_self .., ?_⟩
    have hnext : (h.link (c :: cs)).next c.ptr = first cs := Function.update_self ..
    show (h.link (c :: cs)).Chain ((h.link (c :: cs)).next c.ptr) cs
    rw [hnext]
    refine hrest.congr fun q hq => ?_
    have hne : q ≠ c.ptr := fun he => hc (he ▸ hq)
    exact ⟨hused ▸ hu q (List.mem_cons_of_mem _ hq), Function.update_of_ne hne .., Function.update_of_ne hne ..⟩

theorem list_replace (hn : (ptrs cs).Nodup) (h0 : ∀ q ∈ ptrs cs, q ≠ 0) : (h.replace old cs).list (first cs) = some cs := by
  refine list_eq_some.mpr ?_
  have hlink : ∀ u, ({ h with used := u } : Cells α).link cs = { h.link cs with used := u } := by
    intro u
    clear hn h0
    induction cs with
    | nil => rfl
    | cons c cs ih =>
      unfold link
      rw [ih]
  unfold replace
  rw [← hlink]
  refine chain_link hn h0 fun q hq => ?_
  exact Finset.mem_union_right _ (List.mem_toFinset.mpr hq)

theorem list_replace_other (hd : h.list p = some ds) (ho : (ptrs ds).Disjoint (ptrs old))
    (hc : (ptrs ds).Disjoint (ptrs cs)) : (h.replace old cs).list p = some ds := by
  refine list_eq_some.mpr ?_
  have hchain := list_eq_some.mp hd
  refine hchain.congr fun q hq => ⟨?_, link_other (hc hq)⟩
  refine Finset.mem_union_left _ (Finset.mem_sdiff.mpr ⟨(hchain.mem hq).2, fun hm => ?_⟩)
  exact ho hq (List.mem_toFinset.mp hm)

/-- The cells of the old list that the new one does without are no longer there. -/
theorem used_replace (hq : q ∈ (h.replace old cs).used) : q ∈ ptrs cs ∨ (q ∈ h.used ∧ q ∉ ptrs old) := by
  rcases Finset.mem_union.mp hq with hq | hq
  · obtain ⟨h1, h2⟩ := Finset.mem_sdiff.mp hq
    exact .inr ⟨h1, fun hm => h2 (List.mem_toFinset.mpr hm)⟩
  · exact .inl (List.mem_toFinset.mp hq)

end Cells

end Cs330.Lib
