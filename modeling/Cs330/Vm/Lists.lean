/-
  Cs330.Vm.Lists — the lists of all processes, in one memory.

  `head i` is the pointer `vm_area` of context `i`. A call walks the list of its process
  and leaves it changed (`call`). do_fork copies the context, pointer and all: the child
  has the parent's list (`fork`). cfork_copy_mm allocates a node for each of the parent's
  (`cfork`).

  `Placed`: every process has a list of allocated nodes, and no node is in two. Then a call
  leaves the lists of all others as they are (`step_placed`, `placed_separate`). cfork keeps
  it; fork keeps it if the list is empty (`fork_placed`), and otherwise the first page the
  parent unmaps changes what the child has (`fork_not_separate`).
-/
import Mathlib.Order.Lattice.Nat
import Cs330.Vm.Nodes

namespace Cs330.Vm

open Lib Lib.Seg

structure Lists where
  heap : Cells VmArea
  head : Nat → Nat

namespace Lists

def nodes (l : Lists) (i : Nat) : Option (List VmNode) := l.heap.list (l.head i)

/-- The list of areas of a process; `none` if it runs into a node that is not allocated. -/
def areas (l : Lists) (i : Nat) : Option (List VmArea) := (l.nodes i).map vals

/-- alloc_vm_area returns a node that was not allocated. -/
def Allocates (alloc : Finset Nat → Nat) : Prop := ∀ u, alloc u ∉ u ∧ alloc u ≠ 0

def set (l : Lists) (i : Nat) (old ns : List VmNode) : Lists :=
  ⟨l.heap.replace old ns, Function.update l.head i (first ns)⟩

def call (l : Lists) (i : Nat) (c : Call) (alloc : Finset Nat → Nat) : Option (Int × Lists) :=
  (l.nodes i).map fun ns =>
    let new := alloc l.heap.used
    let r := Nodes.run ns new (alloc (insert new l.heap.used)) c
    (r.1, l.set i ns r.2.1)

/-- `*new_ctx = *ctx` -/
def fork (l : Lists) (parent child : Nat) : Lists := { l with head := Function.update l.head child (l.head parent) }

/-- The loop of cfork_copy_mm that copies the list. -/
def copyNodes (alloc : Finset Nat → Nat) : Finset Nat → List VmNode → List VmNode
  | _, [] => []
  | u, n :: ns => ⟨n.val, alloc u⟩ :: copyNodes alloc (insert (alloc u) u) ns

def cfork (l : Lists) (alloc : Finset Nat → Nat) (parent child : Nat) : Option Lists :=
  (l.nodes parent).map fun ns => l.set child [] (copyNodes alloc l.heap.used ns)

/-! ## Runs of calls -/

structure Ev where
  pid : Nat
  call : Call
  alloc : Finset Nat → Nat

def step (l : Lists) (e : Ev) : Option Lists := (l.call e.pid e.call e.alloc).map Prod.snd

/-- Calls from `l` on. -/
def machine (l : Lists) : Machine Lists Ev := ⟨(· = l), step⟩

/-- A call of one of the processes `L`. -/
def Of (L : Nat → Prop) (_ : Lists) (e : Ev) : Prop := L e.pid ∧ Allocates e.alloc

/-- Whatever calls the processes `L` make from `l` on, one of `i` or `j` does not change the
    list of the other. -/
def Separate (l : Lists) (L : Nat → Prop) (i j : Nat) : Prop :=
  ∀ w, (machine l).Reach (Of L) w → ∀ e w', Of L w e → w.step e = some w' →
    (e.pid = i → w'.areas j = w.areas j) ∧ (e.pid = j → w'.areas i = w.areas i)

/-! ## Lists apart -/

structure Placed (l : Lists) (L : Nat → Prop) : Prop where
  list : ∀ i, L i → ∃ ns, l.nodes i = some ns
  apart : ∀ i j, L i → L j → i ≠ j → ∀ ns ms, l.nodes i = some ns → l.nodes j = some ms → (ptrs ns).Disjoint (ptrs ms)

variable {l l' : Lists} {L : Nat → Prop} {i j parent child : Nat} {ns ms old : List VmNode} {alloc : Finset Nat → Nat}

theorem mem_used (h : l.nodes i = some ns) {p : Nat} (hp : p ∈ ptrs ns) : p ≠ 0 ∧ p ∈ l.heap.used :=
  (Cells.list_eq_some.mp h).mem hp

theorem nodes_set (hn : (ptrs ns).Nodup) (h0 : ∀ p ∈ ptrs ns, p ≠ 0) : (l.set i old ns).nodes i = some ns := by
  show (l.heap.replace old ns).list (Function.update l.head i (first ns) i) = some ns
  rw [Function.update_self]
  exact Cells.list_replace hn h0

theorem nodes_set_other (hj : j ≠ i) (h : l.nodes j = some ms) (ho : (ptrs ms).Disjoint (ptrs old))
    (hn : (ptrs ms).Disjoint (ptrs ns)) : (l.set i old ns).nodes j = some ms := by
  show (l.heap.replace old ns).list (Function.update l.head i (first ns) j) = some ms
  rw [Function.update_of_ne hj]
  exact Cells.list_replace_other h ho hn

/-- One process has a new list, of nodes it had or nobody had. -/
theorem Placed.set (old : List VmNode) (h : l.Placed fun k => k ≠ i ∧ L k) (hn : (ptrs ns).Nodup) (h0 : ∀ p ∈ ptrs ns, p ≠ 0)
    (ho : ∀ j, j ≠ i → L j → ∀ ms, l.nodes j = some ms → (ptrs ms).Disjoint (ptrs old))
    (hd : ∀ j, j ≠ i → L j → ∀ ms, l.nodes j = some ms → (ptrs ms).Disjoint (ptrs ns)) :
    (l.set i old ns).Placed L ∧ ∀ j, j ≠ i → L j → (l.set i old ns).nodes j = l.nodes j := by
  have hself : (l.set i old ns).nodes i = some ns := nodes_set hn h0
  have hother : ∀ j, j ≠ i → L j → (l.set i old ns).nodes j = l.nodes j := by
    intro j hj hL
    obtain ⟨ms, hms⟩ := h.list j ⟨hj, hL⟩
    rw [hms]
    exact nodes_set_other hj hms (ho j hj hL ms hms) (hd j hj hL ms hms)
  refine ⟨⟨fun j hL => ?_, fun j k hj hk hne ms ms' hms hms' => ?_⟩, hother⟩
  · by_cases hji : j = i
    · rw [hji]
      exact ⟨ns, hself⟩
    · rw [hother j hji hL]
      exact h.list j ⟨hji, hL⟩
  · by_cases hji : j = i
    · have hki : k ≠ i := fun he => hne (hji.trans he.symm)
      rw [hji, hself] at hms
      cases hms
      rw [hother k hki hk] at hms'
      exact (hd k hki hk ms' hms').symm
    · rw [hother j hji hj] at hms
      by_cases hki : k = i
      · rw [hki, hself] at hms'
        cases hms'
        exact hd j hji hj ms hms
      · rw [hother k hki hk] at hms'
        exact h.apart j k ⟨hji, hj⟩ ⟨hki, hk⟩ hne ms ms' hms hms'

/-- The list a call leaves: nodes of the old one, and new ones. -/
theorem run_fresh (ha : Allocates alloc) (h : l.nodes i = some ns) (c : Call) :
    let new := alloc l.heap.used
    let ns' := (Nodes.run ns new (alloc (insert new l.heap.used)) c).2.1
    (ptrs ns').Nodup ∧ ∀ p ∈ ptrs ns', p ≠ 0 ∧ (p ∈ ptrs ns ∨ p ∉ l.heap.used) := by
  intro new ns'
  have hkept : Nodes.Kept [new, alloc (insert new l.heap.used)] ns ns' := Nodes.run_kept ns _ _ c
  obtain ⟨h1, h2⟩ := ha l.heap.used
  obtain ⟨h3, h4⟩ := ha (insert new l.heap.used)
  rw [Finset.mem_insert, not_or] at h3
  have hnew : ∀ p ∈ [new, alloc (insert new l.heap.used)], p ≠ 0 ∧ p ∉ l.heap.used := by
    intro p hp
    rcases List.mem_cons.mp hp with rfl | hp
    · exact ⟨h2, h1⟩
    · rw [List.mem_singleton.mp hp]
      exact ⟨h4, h3.2⟩
  refine ⟨List.nodup_iff_count_le_one.mpr fun p => ?_, fun p hp => ?_⟩
  · have hcount := hkept p
    have hold := List.nodup_iff_count_le_one.mp (Cells.list_eq_some.mp h).nodup p
    have hfresh : [new, alloc (insert new l.heap.used)].Nodup := by
      simp only [List.nodup_cons, List.mem_singleton, List.not_mem_nil, not_false_iff, List.nodup_nil, and_true]
      exact fun he => h3.1 he.symm
    have hone := List.nodup_iff_count_le_one.mp hfresh p
    by_cases hp : p ∈ ptrs ns
    · -- an old node is none of the new ones
      have hno : p ∉ [new, alloc (insert new l.heap.used)] := fun hm => (hnew p hm).2 (mem_used h hp).2
      rw [List.count_eq_zero.mpr hno] at hcount
      omega
    · rw [List.count_eq_zero.mpr hp] at hcount
      omega
  · rcases hkept.mem hp with hp | hp
    · exact ⟨(mem_used h hp).1, .inl hp⟩
    · exact ⟨(hnew p hp).1, .inr (hnew p hp).2⟩

/-- A call changes the list of its process only. -/
theorem step_placed {e : Ev} (h : l.Placed L) (he : Of L l e) (hs : l.step e = some l') :
    l'.Placed L ∧ (∀ j, j ≠ e.pid → L j → l'.nodes j = l.nodes j) ∧
      ∀ as, l.areas e.pid = some as → l'.areas e.pid = some (e.call.run as).2.1 := by
  obtain ⟨r, hr, rfl⟩ := Option.map_eq_some_iff.mp hs
  obtain ⟨ns, hns, rfl⟩ := Option.map_eq_some_iff.mp hr
  obtain ⟨h1, h2⟩ := run_fresh he.2 hns e.call
  have hrun := Nodes.run_areas ns (e.alloc l.heap.used) (e.alloc (insert (e.alloc l.heap.used) l.heap.used)) e.call
  simp only at h1 h2 ⊢
  obtain ⟨ns', hns'⟩ : ∃ ns', ns' = (Nodes.run ns (e.alloc l.heap.used)
      (e.alloc (insert (e.alloc l.heap.used) l.heap.used)) e.call).2.1 := ⟨_, rfl⟩
  rw [← hns'] at h1 h2 ⊢
  have hapart : ∀ j, j ≠ e.pid → L j → ∀ ms, l.nodes j = some ms → (ptrs ms).Disjoint (ptrs ns) :=
    fun j hj hL ms hms => h.apart j e.pid hL he.1 hj ms ns hms hns
  obtain ⟨g1, g2⟩ := Placed.set (L := L) ns ⟨fun j hj => h.list j hj.2, fun j k hj hk => h.apart j k hj.2 hk.2⟩ h1
    (fun p hp => (h2 p hp).1) hapart fun j hj hL ms hms p hp hp' => by
      rcases (h2 p hp').2 with hold | hnew
      · exact hapart j hj hL ms hms hp hold
      · exact hnew (mem_used hms hp).2
  refine ⟨g1, g2, fun as has => ?_⟩
  unfold areas at has ⊢
  rw [hns] at has
  cases has
  rw [nodes_set h1 fun p hp => (h2 p hp).1, ← hrun, hns']
  rfl

theorem placed_separate (h : l.Placed L) (hi : L i) (hj : L j) (hne : i ≠ j) : l.Separate L i j := by
  intro w hw e w' he hs
  have hplaced : w.Placed L := hw.inv (fun w => w.Placed L) (fun w hw => hw ▸ h)
    fun w e w' hp he hs => (step_placed hp he hs).1
  have hother := (step_placed hplaced he hs).2.1
  unfold areas
  refine ⟨fun hpid => ?_, fun hpid => ?_⟩
  · rw [hother j (fun hej => hne (hpid.symm.trans hej.symm)) hj]
  · rw [hother i (fun hei => hne (hei.trans hpid)) hi]

/-! ## The forks -/

theorem copyNodes_spec (ha : Allocates alloc) (u : Finset Nat) (ns : List VmNode) :
    (ptrs (copyNodes alloc u ns)).Nodup ∧ (∀ p ∈ ptrs (copyNodes alloc u ns), p ≠ 0 ∧ p ∉ u) ∧
      vals (copyNodes alloc u ns) = vals ns := by
  induction ns generalizing u with
  | nil => exact ⟨List.nodup_nil, fun p hp => absurd hp List.not_mem_nil, rfl⟩
  | cons n ns ih =>
    obtain ⟨h1, h2, h3⟩ := ih (insert (alloc u) u)
    refine ⟨List.nodup_cons.mpr ⟨fun hm => ?_, h1⟩, fun p hp => ?_, congrArg (n.val :: ·) h3⟩
    · exact (h2 _ hm).2 (Finset.mem_insert_self _ _)
    · rcases List.mem_cons.mp hp with rfl | hp
      · exact ⟨(ha u).2, (ha u).1⟩
      · exact ⟨(h2 p hp).1, fun hu => (h2 p hp).2 (Finset.mem_insert_of_mem hu)⟩

theorem cfork_placed (ha : Allocates alloc) (h : l.Placed L) (hchild : ¬ L child) (hs : l.cfork alloc parent child = some l') :
    (l'.Placed fun i => i = child ∨ L i) ∧ (∀ j, L j → l'.nodes j = l.nodes j) ∧ l'.areas child = l.areas parent := by
  obtain ⟨ns, hns, rfl⟩ := Option.map_eq_some_iff.mp hs
  obtain ⟨h1, h2, h3⟩ := copyNodes_spec ha l.heap.used ns
  have hne : ∀ j, L j → j ≠ child := fun j hj he => hchild (he ▸ hj)
  have hrest : l.Placed fun k => k ≠ child ∧ (k = child ∨ L k) :=
    ⟨fun j hj => h.list j (hj.2.resolve_left hj.1),
      fun j k hj hk => h.apart j k (hj.2.resolve_left hj.1) (hk.2.resolve_left hk.1)⟩
  obtain ⟨g1, g2⟩ := hrest.set [] h1 (fun p hp => (h2 p hp).1)
    (fun _ _ _ ms _ => List.disjoint_nil_right _) fun j hj hL ms hms p hp hp' => (h2 p hp').2 (mem_used hms hp).2
  refine ⟨g1, fun j hj => g2 j (hne j hj) (.inr hj), ?_⟩
  unfold areas
  rw [nodes_set h1 fun p hp => (h2 p hp).1, hns]
  exact congrArg some h3

theorem nodes_fork (l : Lists) (parent child : Nat) : (l.fork parent child).nodes child = l.nodes parent := by
  show l.heap.list (Function.update l.head child (l.head parent) child) = _
  rw [Function.update_self]
  rfl

theorem nodes_fork_other (parent : Nat) (hj : j ≠ child) : (l.fork parent child).nodes j = l.nodes j := by
  show l.heap.list (Function.update l.head child (l.head parent) j) = _
  rw [Function.update_of_ne hj]
  rfl

/-- Nothing is shared where there is nothing. -/
theorem fork_placed (h : l.Placed L) (hp : l.nodes parent = some []) :
    (l.fork parent child).Placed fun i => i = child ∨ L i := by
  have hself : (l.fork parent child).nodes child = some [] := (nodes_fork l parent child).trans hp
  have hother : ∀ j, j ≠ child → (l.fork parent child).nodes j = l.nodes j := fun j => nodes_fork_other parent
  refine ⟨fun j hj => ?_, fun j k hj hk hne ms ms' hms hms' => ?_⟩
  · by_cases hjc : j = child
    · rw [hjc]
      exact ⟨[], hself⟩
    · rw [hother j hjc]
      exact h.list j (hj.resolve_left hjc)
  · by_cases hjc : j = child
    · rw [hjc, hself] at hms
      cases hms
      exact List.disjoint_nil_left _
    · by_cases hkc : k = child
      · rw [hkc, hself] at hms'
        cases hms'
        exact List.disjoint_nil_right _
      · rw [hother j hjc] at hms
        rw [hother k hkc] at hms'
        exact h.apart j k (hj.resolve_left hjc) (hk.resolve_left hkc) hne ms ms' hms hms'

/-- An allocator: behind the last node. -/
def nextNode (u : Finset Nat) : Nat := u.sup id + 1

theorem allocates_nextNode : Allocates nextNode := by
  intro u
  refine ⟨fun h => ?_, Nat.succ_ne_zero _⟩
  have hle : u.sup id + 1 ≤ u.sup id := Finset.le_sup (f := id) h
  omega

/-- The first page of the first area, unmapped: the node changes in place or is freed. -/
theorem run_first_page {n : VmNode} (h : Areas MMAP_AREA_START (vals (n :: ns))) (new new' : Nat) :
    let ns' := (Nodes.run (n :: ns) new new' (.munmap n.val.vmStart 4096)).2.1
    (ns' = { n with val.vmStart := n.val.vmStart + 4096 } :: ns) ∨ Nodes.Kept [] ns ns' := by
  obtain ⟨h1, h2, h3, h4, h5⟩ := h.forall_mem n.val List.mem_cons_self
  simp only [lo_eq, hi_eq, end_eq] at h1 h2 h3 h4 h5
  have hround : pageRound 4096 = 4096 := rfl
  have hplus : plus n.val.vmStart 4096 = n.val.vmStart + 4096 := by
    unfold plus
    omega
  intro ns'
  have hns' : ns' = (Nodes.vmAreaUnmap (n :: ns) new n.val.vmStart 4096).2.1 := rfl
  have hin : ¬ (n.val.vmStart ≠ 0 ∧ ¬ (MMAP_AREA_START ≤ n.val.vmStart ∧ plus n.val.vmStart 4096 ≤ MMAP_AREA_END)) := by
    rw [hplus]
    unfold MMAP_AREA_END
    omega
  unfold Nodes.vmAreaUnmap at hns'
  rw [if_neg hin, hround, hplus] at hns'
  unfold Nodes.unmapFrom at hns'
  rw [if_pos (Nat.le_refl _), if_neg (by omega)] at hns'
  by_cases hlong : n.val.vmStart + 4096 < n.val.vmEnd
  · rw [if_pos hlong] at hns'
    exact .inl hns'
  · rw [if_neg hlong] at hns'
    refine .inr ?_
    rw [hns']
    exact Nodes.kept_unmapIn _ ns

/-- The child has the parent's nodes: the parent's next call may change or free them. -/
theorem fork_not_separate {n : VmNode} (hp : l.nodes parent = some (n :: ns)) (hw : Areas MMAP_AREA_START (vals (n :: ns)))
    (hne : parent ≠ child) (hL : L parent) : ¬ (l.fork parent child).Separate L parent child := by
  intro hsep
  have hpar : (l.fork parent child).nodes parent = some (n :: ns) := (nodes_fork_other parent hne).trans hp
  have hch : (l.fork parent child).nodes child = some (n :: ns) := (nodes_fork l parent child).trans hp
  have hchain := Cells.list_eq_some.mp hpar
  have hnd := List.nodup_cons.mp hchain.nodup
  obtain ⟨ns', hns'⟩ : ∃ ns', ns' = (Nodes.run (n :: ns) (nextNode l.heap.used) (nextNode (insert (nextNode l.heap.used) l.heap.used))
      (.munmap n.val.vmStart 4096)).2.1 := ⟨_, rfl⟩
  have hstep : (l.fork parent child).step ⟨parent, .munmap n.val.vmStart 4096, nextNode⟩ =
      some ((l.fork parent child).set parent (n :: ns) ns') := by
    unfold step call
    rw [hpar, hns']
    rfl
  have hsame := (hsep _ (.init rfl) _ _ ⟨hL, allocates_nextNode⟩ hstep).1 rfl
  have hhead : ((l.fork parent child).set parent (n :: ns) ns').head child = n.ptr := by
    show Function.update (l.fork parent child).head parent (first ns') child = n.ptr
    rw [Function.update_of_ne (Ne.symm hne)]
    exact (Cells.list_eq_some.mp hch).1
  have hold : (l.fork parent child).areas child = some (vals (n :: ns)) := by
    unfold areas
    rw [hch]
    rfl
  rw [hold] at hsame
  have hfresh := run_fresh (i := parent) (c := .munmap n.val.vmStart 4096) allocates_nextNode hp
  simp only at hfresh
  rw [← hns'] at hfresh
  rcases run_first_page hw (nextNode l.heap.used) (nextNode (insert (nextNode l.heap.used) l.heap.used)) with h | h
  · rw [← hns'] at h
    have hnew : ((l.fork parent child).set parent (n :: ns) ns').nodes child = some ns' := by
      unfold nodes
      rw [hhead]
      have hfirst : n.ptr = first ns' := by rw [h]; rfl
      rw [hfirst]
      exact Cells.list_replace hfresh.1 fun p hp => (hfresh.2 p hp).1
    unfold areas at hsame
    rw [hnew, h] at hsame
    have hstart := congrArg VmArea.vmStart (List.cons.inj (Option.some.inj hsame)).1
    simp only at hstart
    omega
  · rw [← hns'] at h
    have hgone : ((l.fork parent child).set parent (n :: ns) ns').nodes child = none := by
      unfold nodes
      rw [hhead]
      refine Cells.list_eq_none (hchain.mem List.mem_cons_self).1 fun hu => ?_
      rcases Cells.used_replace hu with hu | hu
      · rcases h.mem hu with hu | hu
        · exact hnd.1 hu
        · cases hu
      · exact hu.2 List.mem_cons_self
    unfold areas at hsame
    rw [hgone] at hsame
    cases hsame

end Lists

end Cs330.Vm
