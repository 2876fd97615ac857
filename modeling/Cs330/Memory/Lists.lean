/-
  Cs330.Memory.Lists — lists that take their nodes from one pool, over any sequence of
  enqueue_tail and dequeue_front.

  node_alloc takes a node for free when its field is NULL. Free nodes are so, but also the
  last node of a list with two items or more, and the head of a list emptied from there. It
  looks from next_free on to the end of the pool and then from its start, so once next_free
  has come to the end a node in use may be first (`node_taken_twice`); and at the end itself
  it looks at the word behind the pool. Proved: in every run, the nodes handed out are free
  and every list is a queue of its items exactly when, before each search, a free node
  comes first (`fifo_iff`).

  `items` is what is in each list by the calls so far. Behind the pool are the pages of
  others, which may write to them at any time (`Ev.elsewhere`).
-/
import Cs330.Lib.Machine
import Cs330.Memory.Nodes

namespace Cs330.Memory

open Lib Function NodeMem

/-- `k` nodes from `p` on. -/
def walk (next : Nat → Option Nat) : Option Nat → Nat → List Nat
  | _, 0 => []
  | none, _ + 1 => []
  | some n, k + 1 => n :: walk next (next n) k

structure Lists where
  nodemem : NodeMem
  list : Nat → NList
  items : Nat → List Nat

namespace Lists

/-- The nodes between head and tail. -/
def nodesOf (s : Lists) (i : Nat) : List Nat := walk s.nodemem.next ((s.list i).head.bind s.nodemem.next) (s.list i).size

/-- The values in them. -/
def contents (s : Lists) (i : Nat) : List Nat := (s.nodesOf i).map s.nodemem.value

/-- The node is a list's, or an end of one. -/
def Linked (s : Lists) (n : Nat) : Prop := ∃ i, n ∈ foot (s.list i) (s.nodesOf i)

inductive Ev where
  | enqueue (i item : Nat)
  | dequeue (i : Nat)
  | elsewhere (n : Nat) (p : Option Nat)

/-- The node dequeued goes to node_free. -/
def step (s : Lists) : Ev → Option Lists
  | .enqueue i item => (s.nodemem.enqueueTail (s.list i) item).map fun r =>
      ⟨r.1, update s.list i r.2, update s.items i (s.items i ++ [item])⟩
  | .dequeue i =>
    if (s.list i).size = 0 then some s
    else (s.nodemem.dequeueFront (s.list i)).map fun r =>
      ⟨r.2.1.nodeFree r.1, update s.list i r.2.2, update s.items i (s.items i).tail⟩
  | .elsewhere n p => some { s with nodemem := { s.nodemem with next := update s.nodemem.next n p } }

/-- After init_nodealloc_memory, with no list in use. -/
def Start (s : Lists) : Prop :=
  (∀ i, s.list i = ⟨none, none, 0⟩) ∧ (∀ i, s.items i = []) ∧ s.nodemem.nextFree = 0 ∧ s.nodemem.numFree = 99 * (4096 / 16) ∧
    ∀ n < NODES, s.nodemem.next n = none

def machine : Machine Lists Ev := ⟨Start, step⟩

/-- Free nodes remain. -/
def Called (s : Lists) : Ev → Prop
  | .enqueue i _ => need (s.list i) ≤ s.nodemem.numFree
  | .dequeue _ => True
  | .elsewhere n _ => NODES ≤ n

/-- At each call of node_alloc, of the memory and the nodes in use. -/
def EachAlloc (P : NodeMem → (Nat → Prop) → Prop) (s : Lists) : Ev → Prop
  | .enqueue i item => P s.nodemem s.Linked ∧ (need (s.list i) = 3 → ∀ n m1, s.nodemem.nodeAlloc = (some n, m1) →
      P (m1.put n item) (fun a => s.Linked a ∨ a = n) ∧ ∀ hd m2, (m1.put n item).nodeAlloc = (some hd, m2) →
        P m2 fun a => (s.Linked a ∨ a = n) ∨ a = hd)
  | .dequeue _ => True
  | .elsewhere _ _ => True

/-- node_alloc returns a node of the pool that is not in use. -/
def Hands (m : NodeMem) (used : Nat → Prop) : Prop := ∃ n, m.nodeAlloc.1 = some n ∧ n < NODES ∧ ¬ used n

/-- When the search comes to a node of the pool. -/
def turn (m : NodeMem) (n : Nat) : Nat := if m.nextFree ≤ n then n else n + NODES

/-- A node that is not in use comes before those in use whose field is NULL, and at the end
    of the pool the field behind it is not. -/
def Finds (m : NodeMem) (used : Nat → Prop) : Prop :=
  (m.nextFree = NODES → m.next NODES ≠ none) ∧
    ∃ n < NODES, ¬ used n ∧ ∀ a < NODES, used a → m.next a = none → turn m n < turn m a

/-- What dequeue_front returns, by the value in it. -/
def returned (s : Lists) (i : Nat) : Option Nat := (s.nodemem.dequeueFront (s.list i)).map fun r => r.2.1.value r.1

/-- The call returns, the nodes it takes are free, and every list is the queue of its items. -/
def Right (s : Lists) (e : Ev) : Prop :=
  s.EachAlloc Hands e ∧ (∀ i, e = .dequeue i → s.returned i = (s.items i).head?) ∧
    ∃ t, s.step e = some t ∧ ∀ i, t.contents i = t.items i

/-- At every call of a sequence, as long as free nodes remain. -/
def Always (P : Lists → Ev → Prop) (s : Lists) (es : List Ev) : Prop :=
  ∀ es' e t, es' ++ [e] <+: es → machine.Run Called s es' t → t.Called e → P t e

theorem step_enqueue {s : Lists} {i item : Nat} {m : NodeMem} {l : NList} (h : s.nodemem.enqueueTail (s.list i) item = some (m, l)) :
    s.step (.enqueue i item) = some ⟨m, update s.list i l, update s.items i (s.items i ++ [item])⟩ := by
  show (s.nodemem.enqueueTail (s.list i) item).map _ = _
  rw [h]
  rfl

theorem step_dequeue {s : Lists} {i n : Nat} {m : NodeMem} {l : NList} (hz : (s.list i).size ≠ 0)
    (h : s.nodemem.dequeueFront (s.list i) = some (n, m, l)) :
    s.step (.dequeue i) = some ⟨m.nodeFree n, update s.list i l, update s.items i (s.items i).tail⟩ := by
  unfold step
  dsimp only
  rw [if_neg hz, h]
  rfl

/-! ## The search -/

theorem firstUnused_spec (next : Nat → Option Nat) (fuel n : Nat) :
    n ≤ firstUnused next fuel n ∧ firstUnused next fuel n ≤ n + fuel ∧
    (∀ a, n ≤ a → a < firstUnused next fuel n → next a ≠ none) ∧
    (firstUnused next fuel n < n + fuel → next (firstUnused next fuel n) = none) := by
  induction fuel generalizing n with
  | zero => exact ⟨Nat.le_refl _, Nat.le_refl _, fun a h1 h2 => absurd h2 (Nat.not_lt.mpr h1), fun h => absurd h (Nat.lt_irrefl _)⟩
  | succ fuel ih =>
    rw [firstUnused]
    split
    · rename_i hn
      exact ⟨Nat.le_refl _, Nat.le_add_right _ _, fun a h1 h2 => absurd h2 (Nat.not_lt.mpr h1), fun _ => hn⟩
    · rename_i hn
      obtain ⟨h1, h2, h3, h4⟩ := ih (n + 1)
      refine ⟨by omega, by omega, ?_, fun h => h4 (by omega)⟩
      intro a ha hlt
      by_cases he : a = n
      · rw [he]
        exact hn
      · exact h3 a (by omega) hlt

/-- The first in the order of `turn`. -/
theorem nodeAlloc_first {m : NodeMem} (hnum : m.numFree ≠ 0) (hint : m.nextFree ≤ NODES)
    (hend : m.nextFree = NODES → m.next NODES ≠ none) {b : Nat} (hb : b < NODES) (hnull : m.next b = none) :
    ∃ n, m.nodeAlloc = (some n, { m with numFree := m.numFree - 1, nextFree := n + 1 }) ∧ n < NODES ∧
      m.next n = none ∧ ∀ a < NODES, m.next a = none → turn m n ≤ turn m a := by
  unfold nodeAlloc turn
  rw [if_neg hnum]
  by_cases hfirst : m.next m.nextFree = none
  · have hlt : m.nextFree < NODES := by
      refine Nat.lt_of_le_of_ne hint fun he => hend he ?_
      rw [← he]
      exact hfirst
    refine ⟨m.nextFree, by rw [if_pos hfirst], hlt, hfirst, ?_⟩
    intro a _ _
    rw [if_pos (Nat.le_refl _)]
    split <;> omega
  · obtain ⟨h1, h2, h3, h4⟩ := firstUnused_spec m.next (NODES - m.nextFree) m.nextFree
    by_cases hwrap : NODES ≤ firstUnused m.next (NODES - m.nextFree) m.nextFree
    · obtain ⟨-, -, h3', h4'⟩ := firstUnused_spec m.next NODES 0
      have hle : firstUnused m.next NODES 0 ≤ b := by
        by_contra hlt
        exact h3' b (Nat.zero_le _) (by omega) hnull
      have hbefore : ∀ a < NODES, m.next a = none → a < m.nextFree ∧ firstUnused m.next NODES 0 ≤ a := by
        intro a ha hna
        constructor
        · by_contra hge
          exact h3 a (by omega) (by omega) hna
        · by_contra hlt
          exact h3' a (Nat.zero_le _) (by omega) hna
      refine ⟨firstUnused m.next NODES 0, ?_, by omega, h4' (by omega), ?_⟩
      · dsimp only
        rw [if_neg hfirst, if_pos hwrap]
      · intro a ha hna
        obtain ⟨ha1, ha2⟩ := hbefore a ha hna
        rw [if_neg (by omega), if_neg (by omega)]
        omega
    · refine ⟨firstUnused m.next (NODES - m.nextFree) m.nextFree, ?_, by omega, h4 (by omega), ?_⟩
      · dsimp only
        rw [if_neg hfirst, if_neg hwrap]
      · intro a _ hna
        rw [if_pos h1]
        split
        · by_contra hlt
          exact h3 a (by omega) (by omega) hna
        · omega

/-- At the end of the pool, with NULL behind it. -/
theorem nodeAlloc_end {m : NodeMem} (hnum : m.numFree ≠ 0) (hhint : m.nextFree = NODES) (hnull : m.next NODES = none) :
    m.nodeAlloc.1 = some NODES := by
  unfold nodeAlloc
  rw [if_neg hnum, hhint, if_pos hnull]

theorem turn_inj {m : NodeMem} {n a : Nat} (hn : n < NODES) (ha : a < NODES) (h : turn m n = turn m a) : n = a := by
  unfold turn at h
  split at h <;> split at h <;> omega

/-- There are nodes for `k` calls, and those not in use have no successor. -/
structure Ready (m : NodeMem) (used : Nat → Prop) (k : Nat) : Prop where
  free : k ≤ m.numFree
  hint : m.nextFree ≤ NODES
  unused : ∀ n < NODES, ¬ used n → m.next n = none

section
variable {m m1 : NodeMem} {used : Nat → Prop} {k n : Nat}

theorem Ready.found (h : Ready m used (k + 1)) (hf : Finds m used) : ∃ n, m.nodeAlloc =
    (some n, { m with numFree := m.numFree - 1, nextFree := n + 1 }) ∧ n < NODES ∧ ¬ used n := by
  have hfree := h.free
  obtain ⟨hend, b, hb, hub, hfirst⟩ := hf
  obtain ⟨n, heq, hn, hnull, hmin⟩ := nodeAlloc_first (by omega) h.hint hend hb (h.unused b hb hub)
  refine ⟨n, heq, hn, ?_⟩
  intro hu
  have hle := hmin b hb (h.unused b hb hub)
  have hlt := hfirst n hn hu hnull
  omega

theorem Ready.alloc (h : Ready m used (k + 1)) (hf : Finds m used) (heq : m.nodeAlloc = (some n, m1)) :
    n < NODES ∧ ¬ used n ∧ Ready m1 (fun a => used a ∨ a = n) k := by
  have hfree := h.free
  obtain ⟨r, hr, hn, hu⟩ := h.found hf
  rw [hr] at heq
  cases heq
  refine ⟨hn, hu, ?_, hn, ?_⟩
  · show k ≤ m.numFree - 1
    omega
  · intro a ha hna
    exact h.unused a ha fun hu => hna (.inl hu)

theorem Ready.put (h : Ready m used k) (n item : Nat) : Ready (m.put n item) used k := by
  refine ⟨h.free, h.hint, ?_⟩
  intro a ha hu
  rw [put_next]
  by_cases he : a = n
  · rw [he, update_self]
  · rw [update_of_ne he]
    exact h.unused a ha hu

/-- Between the node and those in use with NULL the search decides. -/
theorem Ready.hands_iff (h : Ready m used (k + 1)) : Hands m used ↔ Finds m used := by
  have hfree := h.free
  constructor
  · rintro ⟨n, heq, hn, hu⟩
    have hend : m.nextFree = NODES → m.next NODES ≠ none := by
      intro hhint hnull
      rw [nodeAlloc_end (by omega) hhint hnull] at heq
      cases heq
      exact Nat.lt_irrefl _ hn
    obtain ⟨r, hr, -, -, hmin⟩ := nodeAlloc_first (by omega) h.hint hend hn (h.unused n hn hu)
    rw [hr] at heq
    cases heq
    refine ⟨hend, n, hn, hu, ?_⟩
    intro a ha hua hna
    have hle := hmin a ha hna
    exact Nat.lt_of_le_of_ne hle fun he => hu (turn_inj hn ha he ▸ hua)
  · intro hf
    obtain ⟨n, heq, hn, hu⟩ := h.found hf
    exact ⟨n, by rw [heq], hn, hu⟩

end

/-! ## What holds in every state -/

theorem walk_path {next : Nat → Option Nat} {p : Option Nat} {q : List Nat} (h : Path next p q) : walk next p q.length = q := by
  induction q generalizing p with
  | nil => cases p <;> rfl
  | cons n q ih =>
    obtain ⟨rfl, h⟩ := h
    exact congrArg (n :: ·) (ih h)

/-- The lists are made of the nodes `q i` of the pool, with the items in them, and the field of
    every other node is NULL. -/
structure Held (s : Lists) (q : Nat → List Nat) : Prop where
  chained : Chained s.nodemem.next s.list q
  inside : ∀ i, ∀ n ∈ foot (s.list i) (q i), n < NODES
  unused : ∀ n < NODES, (∀ i, n ∉ foot (s.list i) (q i)) → s.nodemem.next n = none
  hint : s.nodemem.nextFree ≤ NODES
  items : ∀ i, (q i).map s.nodemem.value = s.items i

section
variable {s t : Lists} {q : Nat → List Nat} {e : Ev} {i item : Nat} (h : Held s q)
include h

theorem Held.nodesOf (i : Nat) : s.nodesOf i = q i := by
  obtain ⟨hsize, hcase⟩ := h.chained.queue i
  unfold Lists.nodesOf
  rw [hsize]
  by_cases hq : q i = []
  · rw [hq]
    cases (s.list i).head.bind s.nodemem.next <;> rfl
  · rcases hcase with ⟨-, -, hnil⟩ | ⟨hd, t, hh, -, hp⟩
    · exact absurd hnil hq
    · rw [hh]
      exact walk_path (hp hq).1

theorem Held.linked {n : Nat} : s.Linked n ↔ ∃ i, n ∈ foot (s.list i) (q i) := by
  unfold Linked
  exact exists_congr fun i => by rw [h.nodesOf i]

theorem Held.contents (i : Nat) : s.contents i = s.items i := by
  unfold Lists.contents
  rw [h.nodesOf i, h.items i]

theorem Held.ready (hc : s.Called (.enqueue i item)) : Ready s.nodemem s.Linked (need (s.list i)) := by
  refine ⟨hc, h.hint, ?_⟩
  intro n hn hu
  apply h.unused n hn
  intro j hj
  exact hu (h.linked.mpr ⟨j, hj⟩)

/-- Each search finds a free node exactly when one comes first. -/
theorem Held.each_iff (hc : s.Called e) : s.EachAlloc Hands e ↔ s.EachAlloc Finds e := by
  cases e with
  | dequeue i => exact Iff.rfl
  | elsewhere n p => exact Iff.rfl
  | enqueue i item =>
    have hready := h.ready hc
    show Hands s.nodemem s.Linked ∧ _ ↔ Finds s.nodemem s.Linked ∧ _
    rcases need_cases (s.list i) with hneed | hneed
    · rw [hneed] at hready
      rw [hready.hands_iff]
      refine and_congr_right fun hf => forall_congr' fun _ => forall_congr' fun n => forall_congr' fun m1 => forall_congr' fun h1 => ?_
      have hready1 := (hready.alloc hf h1).2.2.put n item
      rw [hready1.hands_iff]
      refine and_congr_right fun hf1 => forall_congr' fun hd => forall_congr' fun m2 => forall_congr' fun h2 => ?_
      exact (hready1.alloc hf1 h2).2.2.hands_iff
    · rw [hneed] at hready ⊢
      rw [hready.hands_iff]
      exact and_congr_right fun _ => ⟨fun _ hne => absurd hne (by decide), fun _ hne => absurd hne (by decide)⟩

/-- The nodes enqueue_tail takes are free. -/
theorem Held.takes (hc : s.Called (.enqueue i item)) (hf : s.EachAlloc Finds (.enqueue i item)) : ∃ n new m',
    Takes s.nodemem (s.list i) item n new m' ∧ n ∈ new ∧ new.Nodup ∧ m'.nextFree ≤ NODES ∧ ∀ a ∈ new, a < NODES ∧ ¬ s.Linked a := by
  have hready := h.ready hc
  obtain ⟨hf0, hf⟩ := hf
  rcases need_cases (s.list i) with hneed | hneed
  · rw [hneed] at hready
    obtain ⟨n, h1, hn, hun⟩ := hready.found hf0
    have hready1 := (hready.alloc hf0 h1).2.2.put n item
    obtain ⟨hf1, hf2⟩ := hf hneed n _ h1
    obtain ⟨hd, h2, hhd, huhd⟩ := hready1.found hf1
    have hready2 := (hready1.alloc hf1 h2).2.2
    obtain ⟨t, h3, ht, hut⟩ := hready2.found (hf2 hd _ h2)
    refine ⟨n, [hd, t, n], _, .ends hneed h1 h2 h3, by simp, ?_, ht, ?_⟩
    · simp only [not_or] at huhd hut
      simp only [List.nodup_cons, List.mem_cons, List.not_mem_nil, or_false, not_or, not_false_eq_true, List.nodup_nil, and_true]
      exact ⟨⟨Ne.symm hut.2, huhd.2⟩, hut.1.2⟩
    · simp only [not_or] at huhd hut
      intro a ha
      simp only [List.mem_cons, List.not_mem_nil, or_false] at ha
      rcases ha with rfl | rfl | rfl
      · exact ⟨hhd, huhd.1⟩
      · exact ⟨ht, hut.1.1⟩
      · exact ⟨hn, hun⟩
  · rw [hneed] at hready
    obtain ⟨n, h1, hn, hun⟩ := hready.found hf0
    refine ⟨n, [n], _, .one hneed h1, List.mem_singleton_self n, List.nodup_singleton n, hn, ?_⟩
    intro a ha
    rw [List.mem_singleton.mp ha]
    exact ⟨hn, hun⟩

/-- One list changes. -/
theorem Held.change {m' : NodeMem} {l' : NList} {q' items : List Nat} (hch : Chained m'.next (update s.list i l') (update q i q'))
    (hin : ∀ a ∈ foot l' q', a < NODES)
    (hfree : ∀ a < NODES, a ∉ foot l' q' → (∀ j, j ≠ i → a ∉ foot (s.list j) (q j)) → m'.next a = none)
    (hhint : m'.nextFree ≤ NODES) (hval : ∀ j, j ≠ i → (q j).map m'.value = s.items j) (hitems : q'.map m'.value = items) :
    Held ⟨m', update s.list i l', update s.items i items⟩ (update q i q') := by
  have hself : foot (update s.list i l' i) (update q i q' i) = foot l' q' := by rw [update_self, update_self]
  have hother : ∀ j, j ≠ i → foot (update s.list i l' j) (update q i q' j) = foot (s.list j) (q j) := fun j hj => by
    rw [update_of_ne hj, update_of_ne hj]
  refine ⟨hch, ?_, ?_, hhint, ?_⟩
  · intro j
    show ∀ a ∈ foot (update s.list i l' j) (update q i q' j), a < NODES
    by_cases hj : j = i
    · rw [hj, hself]
      exact hin
    · rw [hother j hj]
      exact h.inside j
  · intro a ha hno
    apply hfree a ha
    · rw [← hself]
      exact hno i
    · intro j hj
      rw [← hother j hj]
      exact hno j
  · intro j
    show (update q i q' j).map m'.value = update s.items i items j
    by_cases hj : j = i
    · rw [hj, update_self, update_self]
      exact hitems
    · rw [update_of_ne hj, update_of_ne hj]
      exact hval j hj

theorem Held.enqueue (hc : s.Called (.enqueue i item)) (hf : s.EachAlloc Finds (.enqueue i item)) :
    ∃ t q', s.step (.enqueue i item) = some t ∧ Held t q' := by
  obtain ⟨n, new, m1, htakes, hmem, hnd, hhint, hnew⟩ := h.takes hc hf
  have hout : ∀ a ∈ new, ∀ j, a ∉ foot (s.list j) (q j) := fun a ha j hj => (hnew a ha).2 (h.linked.mpr ⟨j, hj⟩)
  obtain ⟨m', l', heq, hdone, hnf, -⟩ := h.chained.enqueueTail i htakes hnd hout
  have hold : ∀ j, (q j).map m'.value = s.items j := by
    intro j
    rw [← h.items j, hdone.value]
    apply List.map_congr_left
    intro a ha
    apply update_of_ne
    rintro rfl
    exact hout a hmem j (List.mem_append_right _ ha)
  refine ⟨_, update q i (q i ++ [n]), step_enqueue heq, h.change hdone.chained ?_ ?_ (hnf ▸ hhint) (fun j _ => hold j) ?_⟩
  · intro a ha
    rcases (hdone.feet a).mp ha with ha | ha
    · exact (hnew a ha).1
    · exact h.inside i a ha
  · intro a ha hi hno
    rw [hdone.rest a hi]
    apply h.unused a ha
    intro j hj
    by_cases hji : j = i
    · exact hi ((hdone.feet a).mpr (.inr (hji ▸ hj)))
    · exact hno j hji hj
  · rw [List.map_append, hold i, List.map_singleton, hdone.value, update_self]

/-- The first item is returned, or NULL. -/
theorem Held.dequeue (i : Nat) : s.returned i = (s.items i).head? ∧ ∃ t q', s.step (.dequeue i) = some t ∧ Held t q' := by
  have hsize := (h.chained.queue i).1
  have hitems := h.items i
  cases hq : q i with
  | nil =>
    rw [hq] at hsize hitems
    change (s.list i).size = 0 at hsize
    constructor
    · unfold returned NodeMem.dequeueFront
      rw [if_pos hsize, ← hitems]
      rfl
    · exact ⟨s, q, if_pos hsize, h⟩
  | cons n rest =>
    obtain ⟨m', l', heq, hch, hval, hnf, -, hfeet, hrest⟩ := h.chained.dequeueFront i hq
    rw [hq, List.map_cons] at hitems
    rw [hq] at hsize
    constructor
    · unfold returned
      rw [heq, ← hitems, Option.map_some, hval]
      rfl
    · have hz : (s.list i).size ≠ 0 := by
        rw [hsize]
        exact Nat.succ_ne_zero _
      refine ⟨_, update q i rest, step_dequeue hz heq, h.change hch ?_ ?_ ?_ ?_ ?_⟩
      · intro a ha
        exact h.inside i a ((hfeet a).mpr (.inr ha))
      · intro a ha hi hno
        by_cases hin : a ∈ foot (s.list i) (q i)
        · rcases (hfeet a).mp hin with rfl | hin
          · exact update_self ..
          · exact absurd hin hi
        · rw [hrest a hin]
          apply h.unused a ha
          intro j hj
          by_cases hji : j = i
          · exact hin (hji ▸ hj)
          · exact hno j hji hj
      · show m'.nextFree ≤ NODES
        rw [hnf]
        exact h.hint
      · intro j _
        show (q j).map m'.value = _
        rw [hval]
        exact h.items j
      · show rest.map m'.value = _
        rw [hval, ← hitems]
        rfl

/-- What is behind the pool is no list's. -/
theorem Held.elsewhere {n : Nat} (hn : NODES ≤ n) (p : Option Nat) : ∃ t, s.step (.elsewhere n p) = some t ∧ Held t q := by
  have hsame : ∀ a < NODES, update s.nodemem.next n p a = s.nodemem.next a := fun a ha => update_of_ne (by omega) ..
  refine ⟨_, rfl, ⟨?_, h.chained.nodup, h.chained.apart⟩, h.inside, ?_, h.hint, h.items⟩
  · intro i
    exact (h.chained.queue i).congr fun a ha => hsame a (h.inside i a ha)
  · intro a ha hno
    show update s.nodemem.next n p a = none
    rw [hsame a ha]
    exact h.unused a ha hno

theorem Held.step (hc : s.Called e) (hf : s.EachAlloc Finds e) : ∃ t q', s.step e = some t ∧ Held t q' := by
  cases e with
  | enqueue i item => exact h.enqueue hc hf
  | dequeue i => exact (h.dequeue i).2
  | elsewhere n p =>
    obtain ⟨t, ht, hq⟩ := h.elsewhere hc p
    exact ⟨t, q, ht, hq⟩

/-- One call. -/
theorem Held.right_iff (hc : s.Called e) : s.Right e ↔ s.EachAlloc Finds e := by
  constructor
  · intro hr
    exact (h.each_iff hc).mp hr.1
  · intro hf
    obtain ⟨t, q', ht, hq'⟩ := h.step hc hf
    refine ⟨(h.each_iff hc).mpr hf, ?_, t, ht, hq'.contents⟩
    rintro i rfl
    exact (h.dequeue i).1

end

/-! ## Runs -/

theorem start_held {s : Lists} (h0 : Start s) : Held s fun _ => [] := by
  obtain ⟨hlist, hitems, hnf, -, hnull⟩ := h0
  have hfoot : ∀ i, foot (s.list i) [] = [] := fun i => by rw [hlist]; rfl
  refine ⟨⟨fun i => ?_, fun i => ?_, fun i j _ => ?_⟩, fun i n hn => ?_, fun n hn _ => hnull n hn, ?_, fun i => ?_⟩
  · rw [hlist]
    exact ⟨rfl, .inl ⟨rfl, rfl, rfl⟩⟩
  · rw [hfoot]
    exact List.nodup_nil
  · rw [hfoot]
    exact List.disjoint_nil_left _
  · rw [hfoot] at hn
    cases hn
  · rw [hnf]
    exact Nat.zero_le _
  · rw [hitems]
    rfl

variable {P : Lists → Ev → Prop} {s t : Lists} {es es' : List Ev}

/-- A sequence that is right so far has kept the lists apart. -/
theorem run_held (hP : ∀ s e q, Held s q → s.Called e → P s e → s.EachAlloc Finds e) (hr : machine.Run Called s es' t) :
    ∀ q es, Held s q → Always P s es → es' <+: es → ∃ q', Held t q' := by
  induction hr with
  | nil s =>
    intro q es h _ _
    exact ⟨q, h⟩
  | @cons s u t e es' hc he hr ih =>
    rintro q es h halways ⟨rest, rfl⟩
    have hfirst := halways [] e s ⟨es' ++ rest, rfl⟩ (.nil s) hc
    obtain ⟨u', q', hu, hq'⟩ := h.step hc (hP s e q h hc hfirst)
    change s.step e = some u at he
    rw [hu] at he
    cases he
    apply ih q' (es' ++ rest) hq'
    · intro es1 e1 t1 hpre hr1 hc1
      exact halways (e :: es1) e1 t1 (List.prefix_cons_inj e |>.mpr hpre) (.cons hc hu hr1) hc1
    · exact List.prefix_append _ _

/-- In every sequence from init_nodealloc_memory on, whatever is written behind the pool: the
    nodes handed out are free and each list is the queue of its items, exactly when before
    each search a free node comes first. -/
theorem fifo_iff (h0 : Start s) (es : List Ev) : Always Right s es ↔ Always (EachAlloc Finds) s es := by
  constructor
  · intro halways es' e t hpre hr hc
    obtain ⟨q, h⟩ := run_held (fun s e q h hc hr => (h.right_iff hc).mp hr) hr _ es (start_held h0) halways
      ((List.prefix_append _ _).trans hpre)
    exact (h.right_iff hc).mp (halways es' e t hpre hr hc)
  · intro halways es' e t hpre hr hc
    obtain ⟨q, h⟩ := run_held (fun s e q _ _ hf => hf) hr _ es (start_held h0) halways ((List.prefix_append _ _).trans hpre)
    exact (h.right_iff hc).mpr (halways es' e t hpre hr hc)

/-! ## A node in use -/

/-- Zeroed nodes, and something that is not NULL behind them. -/
def boot : Lists :=
  ⟨⟨0, 99 * (4096 / 16), fun _ => 0, fun n => if n = NODES then some 0 else none⟩, fun _ => ⟨none, none, 0⟩, fun _ => []⟩

theorem boot_start : Start boot := by
  refine ⟨fun _ => rfl, fun _ => rfl, rfl, rfl, ?_⟩
  intro n hn
  exact if_neg (Nat.ne_of_lt hn)

/-- An item goes in and out again. -/
theorem fifo_iff_one : Always Right boot [.enqueue 0 7, .dequeue 0] ↔ Always (EachAlloc Finds) boot [.enqueue 0 7, .dequeue 0] :=
  fifo_iff boot_start _

/-- From `k` on the nodes of the pool are untouched, and `f` may be taken. -/
structure Untouched (s : Lists) (k f : Nat) : Prop where
  hint : s.nodemem.nextFree = k
  free : s.nodemem.numFree = f
  null : ∀ n, k ≤ n → n < NODES → s.nodemem.next n = none

section
variable {s : Lists} {k f i hd tl last n : Nat}

theorem Untouched.alloc (h : Untouched s k (f + 1)) (hk : k < NODES) : s.nodemem.nodeAlloc = (some k, s.nodemem.taken) := by
  have hnull := h.null k (Nat.le_refl k) hk
  rw [← h.hint] at hnull ⊢
  exact nodeAlloc_fresh (by rw [h.free]; exact Nat.succ_pos f) hnull

theorem Untouched.first (h : Untouched s k (f + 3)) (i item : Nat) (hk : k + 3 ≤ NODES) (hl : s.list i = ⟨none, none, 0⟩) :
    ∃ t, s.step (.enqueue i item) = some t ∧ t.nodemem.nextFree = k + 3 ∧ t.nodemem.numFree = f ∧
      t.list = update s.list i ⟨some (k + 1), some (k + 2), 1⟩ ∧ ∀ a, t.nodemem.next a =
        if a = k then some (k + 2) else if a = k + 2 then some k else if a = k + 1 then some k else s.nodemem.next a := by
  obtain ⟨rfl, hfree, hnull⟩ := h
  obtain ⟨h1, h2, h3⟩ := nodeAlloc_three (m := s.nodemem) (by omega) (fun n hn hlt => hnull n hn (by omega)) item
  refine ⟨_, step_enqueue (enqueueTail_first (congrArg NList.size hl) (congrArg NList.head hl) h1 h2 h3), rfl, ?_, rfl, ?_⟩
  · show s.nodemem.numFree - 1 - 1 - 1 = f
    omega
  · intro a
    simp only [link_next, put_next, taken_next, update_apply]
    split <;> rfl

theorem Untouched.more (h : Untouched s k (f + 1)) (i item : Nat) (hk : k < NODES) (hz : (s.list i).size ≠ 0)
    (ht : (s.list i).tail = some tl) (hlast : s.nodemem.next tl = some last) (hne : tl ≠ k) :
    ∃ t, s.step (.enqueue i item) = some t ∧ t.nodemem.nextFree = k + 1 ∧ t.nodemem.numFree = f ∧
      t.list = update s.list i { s.list i with size := (s.list i).size + 1 } ∧ ∀ a, t.nodemem.next a =
        if a = tl then some k else if a = last then some k else if a = k then none else s.nodemem.next a := by
  have h1 := h.alloc hk
  have htail : (s.nodemem.taken.put k item).next tl = some last := by
    rw [put_next, update_of_ne hne]
    exact hlast
  refine ⟨_, step_enqueue (enqueueTail_more hz ht h1 htail), congrArg (· + 1) h.hint, ?_, rfl, ?_⟩
  · show s.nodemem.numFree - 1 = f
    rw [h.free]
    rfl
  · intro a
    simp only [link_next, put_next, taken_next, update_apply]

theorem Untouched.empty (h : Untouched s k (f + 1)) (i item : Nat) (hk : k < NODES) (hl : s.list i = ⟨some hd, some tl, 0⟩) :
    ∃ t, s.step (.enqueue i item) = some t ∧ t.nodemem.nextFree = k + 1 ∧ t.nodemem.numFree = f ∧
      t.list = update s.list i ⟨some hd, some tl, 1⟩ ∧ ∀ a, t.nodemem.next a =
        if a = k then some tl else if a = tl then some k else if a = hd then some k else s.nodemem.next a := by
  have h1 := h.alloc hk
  refine ⟨_, step_enqueue (enqueueTail_empty (congrArg NList.size hl) (congrArg NList.head hl) (congrArg NList.tail hl) h1),
    congrArg (· + 1) h.hint, ?_, rfl, ?_⟩
  · show s.nodemem.numFree - 1 = f
    rw [h.free]
    rfl
  · intro a
    simp only [link_next, put_next, taken_next, update_apply]
    split <;> rfl

theorem front (hl : s.list i = ⟨some hd, some tl, 1⟩) (hn : s.nodemem.next hd = some n) : ∃ t, s.step (.dequeue i) = some t ∧
    t.nodemem.nextFree = s.nodemem.nextFree ∧ t.nodemem.numFree = s.nodemem.numFree + 1 ∧
    t.list = update s.list i ⟨some hd, some tl, 0⟩ ∧ ∀ a, t.nodemem.next a =
      if a = n then none else if a = hd then s.nodemem.next n else s.nodemem.next a := by
  have hz : (s.list i).size ≠ 0 := by
    rw [hl]
    exact Nat.one_ne_zero
  have hstep := step_dequeue hz (dequeueFront_eq hz (congrArg NList.head hl) hn)
  refine ⟨_, hstep, rfl, rfl, ?_, ?_⟩
  · show update s.list i _ = _
    rw [hl]
    rfl
  · intro a
    show update (update s.nodemem.next hd (s.nodemem.next n)) n none a = _
    rw [update_apply, update_apply]

end

/-- List 0 has two items, in nodes 0 and 3; list 1 is empty, and the search goes on at `k`. -/
structure Cycled (k : Nat) (s : Lists) : Prop where
  untouched : Untouched s k 25338
  list0 : s.list 0 = ⟨some 1, some 2, 2⟩
  list1 : s.list 1 = ⟨some 5, some 6, 0⟩
  next : s.nodemem.next 0 = some 3 ∧ s.nodemem.next 1 = some 0 ∧ s.nodemem.next 2 = some 3 ∧ s.nodemem.next 3 = none
  behind : s.nodemem.next NODES = some 0

theorem boot_cycled : ∃ s, machine.Run Called boot [.enqueue 0 7, .enqueue 0 8, .enqueue 1 9, .dequeue 1] s ∧ Cycled 7 s := by
  have hboot : Untouched boot 0 (25341 + 3) := ⟨rfl, rfl, fun n _ hn => if_neg (Nat.ne_of_lt hn)⟩
  obtain ⟨s1, h1, hnf1, hfree1, hlist1, hnext1⟩ := hboot.first 0 7 (by decide) rfl
  have hs1 : Untouched s1 3 (25340 + 1) := by
    refine ⟨hnf1, hfree1, ?_⟩
    intro n hn hlt
    rw [hnext1, if_neg (by omega), if_neg (by omega), if_neg (by omega)]
    exact hboot.null n (Nat.zero_le n) hlt
  have hl1 : s1.list 0 = ⟨some 1, some 2, 1⟩ := by
    rw [hlist1]
    rfl
  obtain ⟨s2, h2, hnf2, hfree2, hlist2, hnext2⟩ := hs1.more 0 8 (by decide)
    (by rw [hl1]; decide) (congrArg NList.tail hl1) (show s1.nodemem.next 2 = some 0 by rw [hnext1]; rfl) (by decide)
  have hs2 : Untouched s2 4 (25337 + 3) := by
    refine ⟨hnf2, hfree2, ?_⟩
    intro n hn hlt
    rw [hnext2, if_neg (by omega), if_neg (by omega), if_neg (by omega)]
    exact hs1.null n (by omega) hlt
  have hl2 : s2.list 1 = ⟨none, none, 0⟩ := by
    rw [hlist2, update_of_ne (by decide), hlist1]
    rfl
  obtain ⟨s3, h3, hnf3, hfree3, hlist3, hnext3⟩ := hs2.first 1 9 (by decide) hl2
  have hl3 : s3.list 1 = ⟨some 5, some 6, 1⟩ := by
    rw [hlist3]
    exact update_self ..
  obtain ⟨s4, h4, hnf4, hfree4, hlist4, hnext4⟩ := front hl3 (n := 4) (by rw [hnext3]; rfl)
  have hold : ∀ a, a ≠ 4 → a ≠ 5 → a ≠ 6 → s4.nodemem.next a = s2.nodemem.next a := by
    intro a ha4 ha5 ha6
    rw [hnext4, if_neg ha4, if_neg ha5, hnext3, if_neg ha4, if_neg ha6, if_neg ha5]
  refine ⟨s4, .cons ?_ h1 <| .cons ?_ h2 <| .cons ?_ h3 <| .cons trivial h4 <| .nil _, ⟨?_, ?_, ?_⟩, ?_, ?_, ⟨?_, ?_, ?_, ?_⟩, ?_⟩
  · show 3 ≤ 99 * (4096 / 16)
    decide
  · show need (s1.list 0) ≤ s1.nodemem.numFree
    rw [hl1, hfree1]
    decide
  · show need (s2.list 1) ≤ s2.nodemem.numFree
    rw [hl2, hfree2]
    decide
  · rw [hnf4, hnf3]
  · rw [hfree4, hfree3]
  · intro n hn hlt
    exact (hold n (by omega) (by omega) (by omega)).trans (hs2.null n (by omega) hlt)
  · rw [hlist4, update_of_ne (by decide), hlist3, update_of_ne (by decide), hlist2, update_self, hl1]
  · rw [hlist4, update_self]
  · rw [hold 0 (by decide) (by decide) (by decide), hnext2]
    rfl
  · rw [hold 1 (by decide) (by decide) (by decide), hnext2, hnext1]
    rfl
  · rw [hold 2 (by decide) (by decide) (by decide), hnext2]
    rfl
  · rw [hold 3 (by decide) (by decide) (by decide), hnext2]
    rfl
  · rw [hold NODES (by decide) (by decide) (by decide), hnext2, hnext1]
    rfl

/-- List 1 takes an item and gives it back. -/
theorem Cycled.cycle {k : Nat} {s : Lists} (h : Cycled k s) (h7 : 7 ≤ k) (hk : k < NODES) :
    ∃ t, machine.Run Called s [.enqueue 1 9, .dequeue 1] t ∧ Cycled (k + 1) t := by
  obtain ⟨huntouched, hl0, hl1, ⟨h0, h1, h2, h3⟩, hbehind⟩ := h
  obtain ⟨u, hu, hunf, hufree, hulist, hunext⟩ := huntouched.empty 1 9 hk hl1
  have hul1 : u.list 1 = ⟨some 5, some 6, 1⟩ := by
    rw [hulist]
    exact update_self ..
  have h5 : u.nodemem.next 5 = some k := by
    rw [hunext, if_neg (by omega)]
    rfl
  obtain ⟨t, ht, htnf, htfree, htlist, htnext⟩ := front hul1 h5
  have hnext : ∀ a, a ≠ 5 → a ≠ 6 → t.nodemem.next a = if a = k then none else s.nodemem.next a := by
    intro a ha5 ha6
    rw [htnext, if_neg ha5, hunext, if_neg ha6, if_neg ha5]
    split <;> rfl
  have hold : ∀ a, a ≠ 5 → a ≠ 6 → a ≠ k → t.nodemem.next a = s.nodemem.next a := fun a h5 h6 hk => by
    rw [hnext a h5 h6, if_neg hk]
  refine ⟨t, .cons ?_ hu <| .cons trivial ht <| .nil _, ⟨?_, ?_, ?_⟩, ?_, ?_, ⟨?_, ?_, ?_, ?_⟩, ?_⟩
  · show need (s.list 1) ≤ s.nodemem.numFree
    rw [hl1, huntouched.free]
    decide
  · rw [htnf, hunf]
  · rw [htfree, hufree]
  · intro n hn hlt
    exact (hold n (by omega) (by omega) (by omega)).trans (huntouched.null n (by omega) hlt)
  · rw [htlist, update_of_ne (by decide), hulist, update_of_ne (by decide), hl0]
  · rw [htlist, update_self]
  · exact (hold 0 (by decide) (by decide) (by omega)).trans h0
  · exact (hold 1 (by decide) (by decide) (by omega)).trans h1
  · exact (hold 2 (by decide) (by decide) (by omega)).trans h2
  · exact (hold 3 (by decide) (by decide) (by omega)).trans h3
  · exact (hold NODES (by decide) (by decide) (by omega)).trans hbehind

theorem Cycled.cycles {k n : Nat} {s : Lists} (h : Cycled k s) (h7 : 7 ≤ k) (hk : k + n ≤ NODES) :
    ∃ t, machine.Run Called s (List.replicate n [.enqueue 1 9, .dequeue 1]).flatten t ∧ Cycled (k + n) t := by
  induction n generalizing k s with
  | zero => exact ⟨s, .nil s, h⟩
  | succ n ih =>
    obtain ⟨u, hu, hcycled⟩ := h.cycle h7 (by omega)
    obtain ⟨t, ht, hcycled⟩ := ih hcycled (by omega) (by omega)
    refine ⟨t, ?_, by rw [show k + (n + 1) = k + 1 + n by omega]; exact hcycled⟩
    rw [List.replicate_succ, List.flatten_cons]
    exact hu.append ht

/-- The search starts again, and finds the last node of list 0. -/
theorem Cycled.taken {s : Lists} (h : Cycled NODES s) : ¬ Hands s.nodemem s.Linked := by
  obtain ⟨h0, h1, h2, h3⟩ := h.next
  have hwrap : firstUnused s.nodemem.next (NODES - NODES) NODES = NODES := by
    rw [Nat.sub_self, firstUnused]
  have hfind : firstUnused s.nodemem.next NODES 0 = 3 := by
    obtain ⟨-, -, hbefore, hfound⟩ := firstUnused_spec s.nodemem.next NODES 0
    have hle : ¬ 3 < firstUnused s.nodemem.next NODES 0 := fun hlt => hbefore 3 (Nat.zero_le 3) hlt h3
    have hlt : firstUnused s.nodemem.next NODES 0 < 0 + NODES := Nat.lt_of_le_of_lt (Nat.le_of_not_lt hle) (by decide)
    have hnull := hfound hlt
    generalize firstUnused s.nodemem.next NODES 0 = n at hle hnull
    rcases (by omega : n = 0 ∨ n = 1 ∨ n = 2 ∨ n = 3) with rfl | rfl | rfl | rfl
    · rw [h0] at hnull
      cases hnull
    · rw [h1] at hnull
      cases hnull
    · rw [h2] at hnull
      cases hnull
    · rfl
  have hnodes : s.nodesOf 0 = [0, 3] := by
    unfold nodesOf
    rw [h.list0]
    show walk s.nodemem.next (s.nodemem.next 1) 2 = [0, 3]
    rw [h1, walk, h0, walk, walk]
  rintro ⟨n, hn, -, hfree⟩
  unfold nodeAlloc at hn
  rw [if_neg (by rw [h.untouched.free]; decide), h.untouched.hint, if_neg (by rw [h.behind]; decide), hwrap, hfind] at hn
  cases hn
  refine hfree ⟨0, ?_⟩
  rw [hnodes, h.list0]
  decide

/-- Two items in list 0, and 25594 items that go through list 1, one at a time: the next
    takes the node of the second item of list 0. -/
theorem node_taken_twice : ¬ ∀ (s : Lists) (es : List Ev), Start s → Always Right s es := by
  intro hall
  obtain ⟨u, hu, hcycled⟩ := boot_cycled
  obtain ⟨t, ht, hcycled⟩ := hcycled.cycles (n := 25593) (by decide) (by decide)
  have hcalled : t.Called (.enqueue 1 9) := by
    show need (t.list 1) ≤ t.nodemem.numFree
    rw [hcycled.list1, hcycled.untouched.free]
    decide
  have hright := hall boot _ boot_start _ (.enqueue 1 9) t (List.prefix_refl _) (hu.append ht) hcalled
  exact Cycled.taken hcycled hright.1.1

end Lists

end Cs330.Memory
