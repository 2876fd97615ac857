/-
  Cs330.Memory.Nodes — the lists of lib.c, and the nodes of memory.c they are made of.

  A node's `next` and `prev` are one field (a union), and a node whose field is NULL is one
  that node_alloc may hand out: also the last of a list, and the head of an empty one. It
  hands out the node at `nextFree` though, as long as that is in the pool, and nothing
  behind it has ever been used. So while the pool lasts the lists keep apart: an item
  enqueued comes behind those already there (`Queues.enqueueTail`), the first is dequeued
  (`Queues.dequeueFront`), and no other list changes.

  A pointer is the index of a node from the start of the pool.
-/
import Mathlib.Logic.Function.Basic
import Mathlib.Data.List.Nodup

namespace Cs330.Memory

open Function

/-- The nodes in NODE_MEM_PAGES pages. -/
def NODES : Nat := 100 * 4096 / 16

/-- `struct nodealloc_memory`, with the nodes themselves: beyond NODES they are other memory. -/
structure NodeMem where
  nextFree : Nat
  numFree : Nat
  value : Nat → Nat
  next : Nat → Option Nat

/-- `struct list` -/
structure NList where
  head : Option Nat
  tail : Option Nat
  size : Nat

namespace NodeMem

/-- `while(n->next) ++n;` -/
def firstUnused (next : Nat → Option Nat) : Nat → Nat → Nat
  | 0, n => n
  | fuel + 1, n => if next n = none then n else firstUnused next fuel (n + 1)

/-- The second loop of node_alloc would go on behind the pool if it found no node in it. -/
def nodeAlloc (m : NodeMem) : Option Nat × NodeMem :=
  if m.numFree = 0 then (none, m)
  else
    let n :=
      if m.next m.nextFree = none then m.nextFree
      else
        let n := firstUnused m.next (NODES - m.nextFree) m.nextFree
        if NODES ≤ n then firstUnused m.next NODES 0 else n
    (some n, { m with numFree := m.numFree - 1, nextFree := n + 1 })

def nodeFree (m : NodeMem) (n : Nat) : NodeMem := { m with numFree := m.numFree + 1, next := update m.next n none }

/-- `a->next = b`, or `a->prev = b`. -/
def link (m : NodeMem) (a b : Nat) : NodeMem := { m with next := update m.next a (some b) }

/-- `n->next = NULL; n->value = item` -/
def put (m : NodeMem) (n item : Nat) : NodeMem := { m with next := update m.next n none, value := update m.value n item }

/-- `none`: NULL is dereferenced. -/
def enqueueTail (m : NodeMem) (l : NList) (item : Nat) : Option (NodeMem × NList) :=
  match m.nodeAlloc with
  | (none, _) => none
  | (some n, m) =>
    let m := m.put n item
    if l.size = 0 then
      let r : NodeMem × NList :=
        if l.head = none then
          let rh := m.nodeAlloc
          let rt := rh.2.nodeAlloc
          (rt.2, { l with head := rh.1, tail := rt.1 })
        else (m, l)
      match r.2.head, r.2.tail with
      | some h, some t => some (((r.1.link h n).link t n).link n t, { r.2 with size := r.2.size + 1 })
      | _, _ => none
    else
      match l.tail with
      | none => none
      | some t =>
        match m.next t with
        | none => none
        | some p => some ((m.link p n).link t n, { l with size := l.size + 1 })

/-- The node taken off the list. -/
def dequeueFront (m : NodeMem) (l : NList) : Option (Nat × NodeMem × NList) :=
  if l.size = 0 then none
  else
    match l.head with
    | none => none
    | some h =>
      match m.next h with
      | none => none
      | some n => some (n, { m with next := update m.next h (m.next n) }, { l with size := l.size - 1 })

/-! ## Lists of nodes -/

/-- From `p` the nodes `q` follow one another. -/
def Path (next : Nat → Option Nat) : Option Nat → List Nat → Prop
  | _, [] => True
  | p, n :: q => p = some n ∧ Path next (next n) q

theorem Path.congr {next next' : Nat → Option Nat} {p : Option Nat} {q : List Nat} (h : Path next p q)
    (heq : ∀ n ∈ q, next' n = next n) : Path next' p q := by
  induction q generalizing p with
  | nil => trivial
  | cons n q ih =>
    refine ⟨h.1, ?_⟩
    rw [heq n List.mem_cons_self]
    exact ih h.2 fun n hn => heq n (List.mem_cons_of_mem _ hn)

/-- A node behind the last. -/
theorem Path.snoc {next : Nat → Option Nat} {p : Option Nat} {q : List Nat} {last n : Nat} (h : Path next p q)
    (hl : q.getLast? = some last) (hnd : q.Nodup) : Path (update next last (some n)) p (q ++ [n]) := by
  induction q generalizing p with
  | nil => cases hl
  | cons a q ih =>
    obtain ⟨ha, hnd⟩ := List.nodup_cons.mp hnd
    refine ⟨h.1, ?_⟩
    cases q with
    | nil =>
      have he : a = last := Option.some.inj hl
      rw [he, update_self]
      exact ⟨rfl, trivial⟩
    | cons b q =>
      rw [List.getLast?_cons_cons] at hl
      have hne : a ≠ last := fun he => ha (he ▸ List.mem_of_getLast? hl)
      rw [update_of_ne hne]
      exact ih h.2 hl hnd

/-- The nodes a list is made of. -/
def foot (l : NList) (q : List Nat) : List Nat := l.head.toList ++ l.tail.toList ++ q

/-- The list holds the nodes `q`, in their order. -/
def Queue (next : Nat → Option Nat) (l : NList) (q : List Nat) : Prop :=
  l.size = q.length ∧ (l.head = none ∧ l.tail = none ∧ q = [] ∨
    ∃ h t, l.head = some h ∧ l.tail = some t ∧ (q ≠ [] → Path next (next h) q ∧ next t = q.getLast?))

theorem Queue.congr {next next' : Nat → Option Nat} {l : NList} {q : List Nat} (h : Queue next l q)
    (heq : ∀ n ∈ foot l q, next' n = next n) : Queue next' l q := by
  refine ⟨h.1, h.2.imp id ?_⟩
  rintro ⟨hd, t, hh, ht, hp⟩
  refine ⟨hd, t, hh, ht, fun hq => ?_⟩
  obtain ⟨hpath, hlast⟩ := hp hq
  rw [heq hd (by simp [foot, hh]), heq t (by simp [foot, ht])]
  exact ⟨hpath.congr fun n hn => heq n (List.mem_append_right _ hn), hlast⟩

/-- The lists `l i`, each holding the nodes `q i`, have no node in common, and from
    `nextFree` on the pool is unused. -/
structure Queues (m : NodeMem) (l : Nat → NList) (q : Nat → List Nat) : Prop where
  queue : ∀ i, Queue m.next (l i) (q i)
  below : ∀ i, ∀ n ∈ foot (l i) (q i), n < m.nextFree
  nodup : ∀ i, (foot (l i) (q i)).Nodup
  apart : ∀ i j, i ≠ j → List.Disjoint (foot (l i) (q i)) (foot (l j) (q j))
  unused : ∀ n, m.nextFree ≤ n → n < NODES → m.next n = none

/-- How many nodes enqueue_tail takes. -/
def need (l : NList) : Nat := if l.size = 0 ∧ l.head = none then 3 else 1

/-- There is room in the pool for one more item. -/
def Room (m : NodeMem) (l : NList) : Prop := need l ≤ m.numFree ∧ m.nextFree + need l ≤ NODES

instance (m : NodeMem) (l : NList) : Decidable (Room m l) :=
  inferInstanceAs (Decidable (need l ≤ m.numFree ∧ m.nextFree + need l ≤ NODES))

/-- The memory after the node at `nextFree` has been handed out. -/
def taken (m : NodeMem) : NodeMem := { m with numFree := m.numFree - 1, nextFree := m.nextFree + 1 }

@[simp] theorem link_next (m : NodeMem) (a b : Nat) : (m.link a b).next = update m.next a (some b) := rfl
@[simp] theorem link_nextFree (m : NodeMem) (a b : Nat) : (m.link a b).nextFree = m.nextFree := rfl
@[simp] theorem put_next (m : NodeMem) (n item : Nat) : (m.put n item).next = update m.next n none := rfl
@[simp] theorem put_nextFree (m : NodeMem) (n item : Nat) : (m.put n item).nextFree = m.nextFree := rfl
@[simp] theorem taken_next (m : NodeMem) : m.taken.next = m.next := rfl
@[simp] theorem taken_nextFree (m : NodeMem) : m.taken.nextFree = m.nextFree + 1 := rfl

/-- A node never used before. -/
theorem nodeAlloc_fresh {m : NodeMem} (hn : 0 < m.numFree) (hu : m.next m.nextFree = none) :
    m.nodeAlloc = (some m.nextFree, m.taken) := by
  unfold nodeAlloc
  simp only [Nat.ne_of_gt hn, if_false, hu, if_true]
  rfl

/-! ## The nodes of lists -/

/-- The lists `l i` hold the nodes `q i`, and have no node in common. -/
structure Chained (next : Nat → Option Nat) (l : Nat → NList) (q : Nat → List Nat) : Prop where
  queue : ∀ i, Queue next (l i) (q i)
  nodup : ∀ i, (foot (l i) (q i)).Nodup
  apart : ∀ i j, i ≠ j → List.Disjoint (foot (l i) (q i)) (foot (l j) (q j))

theorem Queues.chained {m : NodeMem} {l : Nat → NList} {q : Nat → List Nat} (h : Queues m l q) : Chained m.next l q :=
  ⟨h.queue, h.nodup, h.apart⟩

/-- One list changes: only its own nodes and new ones are written. -/
theorem Chained.change {next next' : Nat → Option Nat} {l : Nat → NList} {q : Nat → List Nat} (h : Chained next l q) (i : Nat)
    {l' : NList} {q' : List Nat} (hq : Queue next' l' q') (hnd : (foot l' q').Nodup)
    (hfoot : ∀ n ∈ foot l' q', ∀ j, j ≠ i → n ∉ foot (l j) (q j))
    (hnext : ∀ j, j ≠ i → ∀ n ∈ foot (l j) (q j), next' n = next n) : Chained next' (update l i l') (update q i q') := by
  have hsame : ∀ j, j ≠ i → update l i l' j = l j ∧ update q i q' j = q j := fun j hj => ⟨update_of_ne hj .., update_of_ne hj ..⟩
  have hself : update l i l' i = l' ∧ update q i q' i = q' := ⟨update_self .., update_self ..⟩
  refine ⟨fun j => ?_, fun j => ?_, fun j k hjk => ?_⟩
  · by_cases hj : j = i
    · rw [hj, hself.1, hself.2]
      exact hq
    · rw [(hsame j hj).1, (hsame j hj).2]
      exact (h.queue j).congr (hnext j hj)
  · by_cases hj : j = i
    · rw [hj, hself.1, hself.2]
      exact hnd
    · rw [(hsame j hj).1, (hsame j hj).2]
      exact h.nodup j
  · by_cases hj : j = i
    · have hk : k ≠ i := fun hk => hjk (hj.trans hk.symm)
      rw [hj, hself.1, hself.2, (hsame k hk).1, (hsame k hk).2]
      exact fun n hn hn' => hfoot n hn k hk hn'
    · rw [(hsame j hj).1, (hsame j hj).2]
      by_cases hk : k = i
      · rw [hk, hself.1, hself.2]
        exact fun n hn hn' => hfoot n hn' j hj hn
      · rw [(hsame k hk).1, (hsame k hk).2]
        exact h.apart j k hjk

/-! ## enqueue_tail -/

theorem nodeAlloc_memory (m : NodeMem) : m.nodeAlloc.2.next = m.next ∧ m.nodeAlloc.2.value = m.value := by
  unfold nodeAlloc
  split <;> exact ⟨rfl, rfl⟩

section
variable {m m1 m2 m3 : NodeMem} {l : NList} {item n hd t last : Nat}

/-- The first item of a list that never had one: its ends are made too. -/
theorem enqueueTail_first (hz : l.size = 0) (hh : l.head = none) (h1 : m.nodeAlloc = (some n, m1))
    (h2 : (m1.put n item).nodeAlloc = (some hd, m2)) (h3 : m2.nodeAlloc = (some t, m3)) :
    m.enqueueTail l item = some (((m3.link hd n).link t n).link n t, ⟨some hd, some t, 1⟩) := by
  unfold NodeMem.enqueueTail
  simp only [h1, h2, h3, hz, hh, if_true]

/-- An item in an empty list that has its ends. -/
theorem enqueueTail_empty (hz : l.size = 0) (hh : l.head = some hd) (ht : l.tail = some t) (h1 : m.nodeAlloc = (some n, m1)) :
    m.enqueueTail l item = some ((((m1.put n item).link hd n).link t n).link n t, ⟨some hd, some t, 1⟩) := by
  unfold NodeMem.enqueueTail
  simp only [h1, hz, hh, ht, if_true, reduceCtorEq, if_false, Nat.zero_add]

/-- An item behind the last. -/
theorem enqueueTail_more (hz : l.size ≠ 0) (ht : l.tail = some t) (h1 : m.nodeAlloc = (some n, m1))
    (hlast : (m1.put n item).next t = some last) : m.enqueueTail l item =
      some (((m1.put n item).link last n).link t n, { l with size := l.size + 1 }) := by
  unfold NodeMem.enqueueTail
  simp only [h1, hz, ht, hlast, if_false]

theorem dequeueFront_eq (hz : l.size ≠ 0) (hh : l.head = some hd) (hn : m.next hd = some n) : m.dequeueFront l =
    some (n, { m with next := update m.next hd (m.next n) }, { l with size := l.size - 1 }) := by
  unfold NodeMem.dequeueFront
  simp only [hz, if_false, hh, hn]

end

/-- The nodes enqueue_tail takes, `n` for the item and for a list that never had one its
    ends, and the memory after that. -/
inductive Takes (m : NodeMem) (l : NList) (item n : Nat) : List Nat → NodeMem → Prop
  | one {m1 : NodeMem} : need l = 1 → m.nodeAlloc = (some n, m1) → Takes m l item n [n] (m1.put n item)
  | ends {m1 m2 m3 : NodeMem} {hd t : Nat} : need l = 3 → m.nodeAlloc = (some n, m1) →
      (m1.put n item).nodeAlloc = (some hd, m2) → m2.nodeAlloc = (some t, m3) → Takes m l item n [hd, t, n] m3

theorem Takes.memory {m m' : NodeMem} {l : NList} {item n : Nat} {new : List Nat} (h : Takes m l item n new m') :
    m'.next = update m.next n none ∧ m'.value = update m.value n item := by
  have hput : ∀ {m1 : NodeMem}, m.nodeAlloc = (some n, m1) →
      (m1.put n item).next = update m.next n none ∧ (m1.put n item).value = update m.value n item := by
    intro m1 h1
    obtain ⟨hn, hv⟩ := nodeAlloc_memory m
    rw [h1] at hn hv
    change m1.next = m.next at hn
    change m1.value = m.value at hv
    rw [← hn, ← hv]
    exact ⟨rfl, rfl⟩
  cases h with
  | one _ h1 => exact hput h1
  | @ends m1 m2 _ _ _ _ h1 h2 h3 =>
    obtain ⟨hn2, hv2⟩ := nodeAlloc_memory (m1.put n item)
    obtain ⟨hn3, hv3⟩ := nodeAlloc_memory m2
    rw [h2] at hn2 hv2
    rw [h3] at hn3 hv3
    exact ⟨hn3.trans (hn2.trans (hput h1).1), hv3.trans (hv2.trans (hput h1).2)⟩

/-- What enqueue_tail leaves: the item is behind the others, `new` are the list's, and the
    nodes of no list are as they were. -/
structure Enqueued (m m' : NodeMem) (l : Nat → NList) (q : Nat → List Nat) (i n item : Nat) (new : List Nat) (l' : NList) : Prop where
  chained : Chained m'.next (update l i l') (update q i (q i ++ [n]))
  value : m'.value = update m.value n item
  feet : ∀ a, a ∈ foot l' (q i ++ [n]) ↔ a ∈ new ∨ a ∈ foot (l i) (q i)
  rest : ∀ a, a ∉ foot l' (q i ++ [n]) → m'.next a = m.next a

section
variable {m m' : NodeMem} {l : Nat → NList} {q : Nat → List Nat} {item n : Nat} {new : List Nat} (h : Chained m.next l q) (i : Nat)
include h

theorem Chained.enqueued {l' : NList} (hnew : ∀ a ∈ new, ∀ j, a ∉ foot (l j) (q j))
    (hfeet : ∀ a, a ∈ foot l' (q i ++ [n]) ↔ a ∈ new ∨ a ∈ foot (l i) (q i))
    (hrest : ∀ a, a ∉ foot l' (q i ++ [n]) → m'.next a = m.next a) (hq : Queue m'.next l' (q i ++ [n]))
    (hnd : (foot l' (q i ++ [n])).Nodup) (hm : m'.value = update m.value n item) : Enqueued m m' l q i n item new l' := by
  have hout : ∀ a ∈ foot l' (q i ++ [n]), ∀ j, j ≠ i → a ∉ foot (l j) (q j) := by
    intro a ha j hj haj
    rcases (hfeet a).mp ha with hn | hi
    · exact hnew a hn j haj
    · exact h.apart j i hj haj hi
  exact ⟨h.change i hq hnd hout fun j hj a ha => hrest a fun ha' => hout a ha' j hj ha, hm, hfeet, hrest⟩

theorem Chained.enqueue_first {m1 m2 m3 : NodeMem} {hd t : Nat} (hneed : need (l i) = 3) (h1 : m.nodeAlloc = (some n, m1))
    (h2 : (m1.put n item).nodeAlloc = (some hd, m2)) (h3 : m2.nodeAlloc = (some t, m3)) (hnd : [hd, t, n].Nodup)
    (hnew : ∀ a ∈ [hd, t, n], ∀ j, a ∉ foot (l j) (q j)) :
    m.enqueueTail (l i) item = some (((m3.link hd n).link t n).link n t, ⟨some hd, some t, 1⟩) ∧
      Enqueued m (((m3.link hd n).link t n).link n t) l q i n item [hd, t, n] ⟨some hd, some t, 1⟩ := by
  have hends : (l i).size = 0 ∧ (l i).head = none := by
    unfold need at hneed
    split at hneed
    · assumption
    · cases hneed
  obtain ⟨hz, hh⟩ := hends
  obtain ⟨hsize, ⟨-, ht, hq⟩ | ⟨hd', t', hhd, -⟩⟩ := h.queue i
  swap
  · rw [hh] at hhd
    cases hhd
  obtain ⟨hnext, hvalue⟩ := (Takes.ends hneed h1 h2 h3).memory
  have hne := hnd
  simp only [List.nodup_cons, List.mem_cons, List.not_mem_nil, or_false, not_or] at hne
  obtain ⟨⟨hht, hhn⟩, htn, -⟩ := hne
  constructor
  · exact enqueueTail_first hz hh h1 h2 h3
  · refine h.enqueued i hnew ?_ ?_ ?_ ?_ hvalue
    · intro a
      simp only [foot, hh, ht, hq, Option.toList_some, Option.toList_none, List.cons_append, List.nil_append, List.append_nil,
        List.mem_cons, List.not_mem_nil, or_false]
    · intro a ha
      simp only [foot, hq, Option.toList_some, List.cons_append, List.nil_append, List.mem_cons, List.not_mem_nil, or_false,
        not_or] at ha
      simp only [link_next, hnext]
      rw [update_of_ne ha.2.2, update_of_ne ha.2.1, update_of_ne ha.1, update_of_ne ha.2.2]
    · rw [hq]
      refine ⟨rfl, .inr ⟨hd, t, rfl, rfl, fun _ => ⟨⟨?_, trivial⟩, ?_⟩⟩⟩
      · simp only [link_next]
        rw [update_of_ne hhn, update_of_ne hht, update_self]
      · simp only [link_next]
        rw [update_of_ne htn, update_self]
        rfl
    · rw [hq]
      exact hnd

theorem Chained.enqueue_empty (item : Nat) {m1 : NodeMem} (hneed : need (l i) = 1) (h1 : m.nodeAlloc = (some n, m1)) (hq : q i = [])
    (hnew : ∀ j, n ∉ foot (l j) (q j)) : ∃ hd t, m.enqueueTail (l i) item =
      some ((((m1.put n item).link hd n).link t n).link n t, ⟨some hd, some t, 1⟩) ∧
      Enqueued m ((((m1.put n item).link hd n).link t n).link n t) l q i n item [n] ⟨some hd, some t, 1⟩ := by
  have hz : (l i).size = 0 := by
    rw [(h.queue i).1, hq]
    rfl
  have hhead : (l i).head ≠ none := by
    intro hh
    unfold need at hneed
    rw [if_pos ⟨hz, hh⟩] at hneed
    cases hneed
  obtain ⟨hsize, ⟨hh, -, -⟩ | ⟨hd, t, hh, ht, -⟩⟩ := h.queue i
  · exact absurd hh hhead
  have htakes : Takes m (l i) item n [n] (m1.put n item) := .one hneed h1
  obtain ⟨hnext, hvalue⟩ := htakes.memory
  have hnd := h.nodup i
  have hn := hnew i
  simp only [foot, hh, ht, hq, Option.toList_some, List.cons_append, List.nil_append, List.nodup_cons, List.mem_cons,
    List.not_mem_nil, or_false, not_or] at hnd hn
  obtain ⟨hht, -⟩ := hnd
  refine ⟨hd, t, ?_, ?_⟩
  · exact enqueueTail_empty hz hh ht h1
  · refine h.enqueued i (fun a ha => List.mem_singleton.mp ha ▸ hnew) ?_ ?_ ?_ ?_ hvalue
    · intro a
      simp only [foot, hh, ht, hq, Option.toList_some, List.cons_append, List.nil_append, List.mem_cons, List.not_mem_nil, or_false]
      exact ⟨fun ha => ha.elim (fun ha => .inr (.inl ha)) fun ha => ha.elim (fun ha => .inr (.inr ha)) .inl,
        fun ha => ha.elim (fun ha => .inr (.inr ha)) fun ha => ha.elim .inl fun ha => .inr (.inl ha)⟩
    · intro a ha
      simp only [foot, hq, Option.toList_some, List.cons_append, List.nil_append, List.mem_cons, List.not_mem_nil, or_false,
        not_or] at ha
      simp only [link_next, hnext]
      rw [update_of_ne ha.2.2, update_of_ne ha.2.1, update_of_ne ha.1, update_of_ne ha.2.2]
    · rw [hq]
      refine ⟨rfl, .inr ⟨hd, t, rfl, rfl, fun _ => ⟨⟨?_, trivial⟩, ?_⟩⟩⟩
      · simp only [link_next]
        rw [update_of_ne (Ne.symm hn.1), update_of_ne hht, update_self]
      · simp only [link_next]
        rw [update_of_ne (Ne.symm hn.2), update_self]
        rfl
    · rw [hq]
      simp only [foot, Option.toList_some, List.cons_append, List.nil_append, List.nodup_cons, List.mem_cons, List.not_mem_nil,
        or_false, not_or, not_false_eq_true, List.nodup_nil, and_true]
      exact ⟨⟨hht, Ne.symm hn.1⟩, Ne.symm hn.2⟩

theorem Chained.enqueue_more (item : Nat) {m1 : NodeMem} (h1 : m.nodeAlloc = (some n, m1)) (hq : q i ≠ [])
    (hnew : ∀ j, n ∉ foot (l j) (q j)) :
    ∃ last t, m.enqueueTail (l i) item =
      some (((m1.put n item).link last n).link t n, { l i with size := (l i).size + 1 }) ∧
      Enqueued m (((m1.put n item).link last n).link t n) l q i n item [n] { l i with size := (l i).size + 1 } := by
  have hz : (l i).size ≠ 0 := by
    rw [(h.queue i).1]
    exact fun h0 => hq (List.length_eq_zero_iff.mp h0)
  obtain ⟨hsize, ⟨-, -, hnil⟩ | ⟨hd, t, hh, ht, hpath⟩⟩ := h.queue i
  · exact absurd hnil hq
  obtain ⟨hp, hlast⟩ := hpath hq
  obtain ⟨last, hl⟩ : ∃ last, (q i).getLast? = some last := ⟨_, List.getLast?_eq_some_getLast hq⟩
  have hlq := List.mem_of_getLast? hl
  rw [hl] at hlast
  have hneed : need (l i) = 1 := if_neg fun hn => hz hn.1
  have htakes : Takes m (l i) item n [n] (m1.put n item) := .one hneed h1
  obtain ⟨hnext, hvalue⟩ := htakes.memory
  have hnd := h.nodup i
  have hn := hnew i
  simp only [foot, hh, ht, Option.toList_some, List.cons_append, List.nil_append, List.nodup_cons, List.mem_cons, not_or] at hnd hn
  obtain ⟨⟨hht, hhq⟩, htq, hnd⟩ := hnd
  obtain ⟨hnh, hnt, hnq⟩ := hn
  have hhl : hd ≠ last := fun he => hhq (he ▸ hlq)
  have hln : last ≠ n := fun he => hnq (he ▸ hlq)
  have htl : t ≠ last := fun he => htq (he ▸ hlq)
  refine ⟨last, t, ?_, ?_⟩
  · apply enqueueTail_more hz ht h1
    rw [hnext, update_of_ne (Ne.symm hnt), hlast]
  · refine h.enqueued i (fun a ha => List.mem_singleton.mp ha ▸ hnew) ?_ ?_ ?_ ?_ hvalue
    · intro a
      simp only [foot, hh, ht, Option.toList_some, List.cons_append, List.nil_append, List.mem_cons, List.mem_append,
        List.not_mem_nil, or_false]
      rw [← or_assoc, ← or_assoc, or_comm, or_assoc]
    · intro a ha
      simp only [foot, hh, ht, Option.toList_some, List.cons_append, List.nil_append, List.mem_cons, List.mem_append,
        List.not_mem_nil, or_false, not_or] at ha
      simp only [link_next, hnext]
      rw [update_of_ne ha.2.1, update_of_ne fun he : a = last => ha.2.2.1 (he ▸ hlq), update_of_ne ha.2.2.2]
    · refine ⟨by rw [hsize, List.length_append, List.length_singleton], .inr ⟨hd, t, hh, ht, fun _ => ⟨?_, ?_⟩⟩⟩
      · -- the head's field is as it was, and the last points to the new node
        have hold : Path (update m.next n none) (m.next hd) (q i) := by
          refine hp.congr fun a ha => update_of_ne ?_ ..
          rintro rfl
          exact hnq ha
        simp only [link_next, hnext]
        rw [update_of_ne hht, update_of_ne hhl, update_of_ne (Ne.symm hnh)]
        refine (hold.snoc hl hnd).congr fun a ha => update_of_ne ?_ ..
        rintro rfl
        rcases List.mem_append.mp ha with ha | ha
        · exact htq ha
        · exact hnt (List.mem_singleton.mp ha).symm
      · rw [link_next, update_self, List.getLast?_append]
        rfl
    · simp only [foot, hh, ht, Option.toList_some, List.cons_append, List.nil_append, List.nodup_cons, List.mem_cons,
        List.mem_append, List.not_mem_nil, or_false, not_or]
      exact ⟨⟨hht, hhq, Ne.symm hnh⟩, ⟨htq, Ne.symm hnt⟩, List.nodup_append_comm.mp (List.nodup_cons.mpr ⟨hnq, hnd⟩)⟩

/-- Whatever nodes are taken, if they were nobody's. -/
theorem Chained.enqueueTail (ht : Takes m (l i) item n new m') (hnd : new.Nodup) (hnew : ∀ a ∈ new, ∀ j, a ∉ foot (l j) (q j)) :
    ∃ m'' l', m.enqueueTail (l i) item = some (m'', l') ∧ Enqueued m m'' l q i n item new l' ∧ m''.nextFree = m'.nextFree ∧
      m''.numFree = m'.numFree := by
  cases ht with
  | ends hneed h1 h2 h3 =>
    obtain ⟨heq, hdone⟩ := h.enqueue_first i hneed h1 h2 h3 hnd hnew
    exact ⟨_, _, heq, hdone, rfl, rfl⟩
  | one hneed h1 =>
    have hn := hnew n List.mem_cons_self
    by_cases hq : q i = []
    · obtain ⟨hd, t, heq, hdone⟩ := h.enqueue_empty i item hneed h1 hq hn
      exact ⟨_, _, heq, hdone, rfl, rfl⟩
    · obtain ⟨last, t, heq, hdone⟩ := h.enqueue_more i item h1 hq hn
      exact ⟨_, _, heq, hdone, rfl, rfl⟩

/-! ## dequeue_front -/

/-- The first node is taken off, and is no longer anyone's. -/
theorem Chained.dequeueFront {rest : List Nat} (hq : q i = n :: rest) : ∃ m' l', m.dequeueFront (l i) = some (n, m', l') ∧
    Chained (m'.nodeFree n).next (update l i l') (update q i rest) ∧ m'.value = m.value ∧ m'.nextFree = m.nextFree ∧
    m'.numFree = m.numFree ∧ (∀ a, a ∈ foot (l i) (q i) ↔ a = n ∨ a ∈ foot l' rest) ∧
    ∀ a, a ∉ foot (l i) (q i) → (m'.nodeFree n).next a = m.next a := by
  obtain ⟨hsize, ⟨-, -, hn⟩ | ⟨hd, t, hh, ht, hpath⟩⟩ := h.queue i
  · rw [hn] at hq; cases hq
  obtain ⟨hp, hlast⟩ := hpath (by rw [hq]; exact List.cons_ne_nil _ _)
  have hnd := h.nodup i
  rw [hq] at hp hlast hsize
  obtain ⟨hnext, hp⟩ := hp
  simp only [foot, hh, ht, hq, Option.toList_some, List.cons_append, List.nil_append, List.nodup_cons, List.mem_cons,
    not_or] at hnd
  obtain ⟨⟨hht, hhn, hhr⟩, ⟨htn, htr⟩, hnr, hnd⟩ := hnd
  have hz : (l i).size ≠ 0 := by rw [hsize]; exact Nat.succ_ne_zero _
  have hnext' : ∀ a, a ≠ n → (nodeFree { m with next := update m.next hd (m.next n) } n).next a =
      if a = hd then m.next n else m.next a := by
    intro a ha
    show update (update m.next hd (m.next n)) n none a = _
    rw [update_of_ne ha, update_apply]
  have hfoot : ∀ a, a ∈ foot (l i) (q i) ↔ a = n ∨ a ∈ foot { l i with size := (l i).size - 1 } rest := by
    intro a
    simp only [foot, hh, ht, hq, Option.toList_some, List.cons_append, List.nil_append, List.mem_cons]
    rw [or_left_comm (a := a = n), or_left_comm (a := a = n) (b := a = t)]
  have hrest : ∀ a, a ∉ foot (l i) (q i) → (nodeFree { m with next := update m.next hd (m.next n) } n).next a = m.next a := by
    intro a ha
    simp only [foot, hh, ht, hq, Option.toList_some, List.cons_append, List.nil_append, List.mem_cons, not_or] at ha
    rw [hnext' a ha.2.2.1, if_neg ha.1]
  refine ⟨_, _, dequeueFront_eq hz hh hnext, ?_, rfl, rfl, rfl, hfoot, hrest⟩
  refine h.change i ⟨by show (l i).size - 1 = _; rw [hsize]; rfl, .inr ⟨hd, t, hh, ht, fun hr => ⟨?_, ?_⟩⟩⟩ ?_
    (fun a ha j hj haj => h.apart j i hj haj ((hfoot a).mpr (.inr ha))) fun j hj a ha => hrest a (h.apart j i hj ha)
  · rw [hnext' hd hhn, if_pos rfl]
    refine hp.congr fun a ha => ?_
    have han : a ≠ n := fun he => hnr (he ▸ ha)
    have hah : a ≠ hd := fun he => hhr (he ▸ ha)
    rw [hnext' a han, if_neg hah]
  · rw [hnext' t htn, if_neg (Ne.symm hht), hlast]
    cases rest with
    | nil => exact absurd rfl hr
    | cons b rest => rfl
  · simp only [foot, hh, ht, Option.toList_some, List.cons_append, List.nil_append, List.nodup_cons, List.mem_cons, not_or]
    exact ⟨⟨hht, hhr⟩, htr, hnd⟩

end

/-! ## While the pool lasts -/

theorem need_cases (l : NList) : need l = 3 ∨ need l = 1 := by
  unfold need
  split
  · exact .inl rfl
  · exact .inr rfl

/-- Three nodes never used before. -/
theorem nodeAlloc_three {m : NodeMem} (hn : 3 ≤ m.numFree) (hu : ∀ n, m.nextFree ≤ n → n < m.nextFree + 3 → m.next n = none)
    (item : Nat) : m.nodeAlloc = (some m.nextFree, m.taken) ∧
      (m.taken.put m.nextFree item).nodeAlloc = (some (m.nextFree + 1), (m.taken.put m.nextFree item).taken) ∧
      (m.taken.put m.nextFree item).taken.nodeAlloc = (some (m.nextFree + 2), (m.taken.put m.nextFree item).taken.taken) := by
  have hput : ∀ n, m.nextFree < n → n < m.nextFree + 3 → update m.next m.nextFree none n = none := by
    intro n hlt hn
    rw [update_of_ne (Nat.ne_of_gt hlt)]
    exact hu n (Nat.le_of_lt hlt) hn
  refine ⟨nodeAlloc_fresh (by omega) (hu _ (Nat.le_refl _) (by omega)), ?_, ?_⟩
  · exact nodeAlloc_fresh (show 0 < m.numFree - 1 by omega) (hput (m.nextFree + 1) (by omega) (by omega))
  · exact nodeAlloc_fresh (show 0 < m.numFree - 1 - 1 by omega) (hput (m.nextFree + 2) (by omega) (by omega))

section
variable {m : NodeMem} {l : Nat → NList} {q : Nat → List Nat} (h : Queues m l q) (i : Nat)
include h

/-- The nodes from `nextFree` on are nobody's. -/
theorem Queues.unowned {n : Nat} (hn : m.nextFree ≤ n) (j : Nat) : n ∉ foot (l j) (q j) := fun hin =>
  absurd (h.below j n hin) (by omega)

theorem Queues.takes (hr : Room m (l i)) (item : Nat) : ∃ new m', Takes m (l i) item m.nextFree new m' ∧ new.Nodup ∧
    m'.nextFree = m.nextFree + need (l i) ∧ ∀ a, a ∈ new ↔ m.nextFree ≤ a ∧ a < m.nextFree + need (l i) := by
  obtain ⟨hnum, hroom⟩ := hr
  have hnull : ∀ n, m.nextFree ≤ n → n < m.nextFree + need (l i) → m.next n = none := fun n hn hlt => h.unused n hn (by omega)
  rcases need_cases (l i) with hneed | hneed
  · rw [hneed] at hnum hroom hnull
    obtain ⟨h0, h1, h2⟩ := nodeAlloc_three hnum hnull item
    refine ⟨_, _, .ends hneed h0 h1 h2, ?_, by rw [hneed]; rfl, fun a => ?_⟩
    · simp
    · simp only [List.mem_cons, List.not_mem_nil, or_false]
      omega
  · rw [hneed] at hnum hnull
    have h0 := nodeAlloc_fresh hnum (hnull _ (Nat.le_refl _) (Nat.lt_succ_self _))
    refine ⟨_, _, .one hneed h0, List.nodup_singleton _, by rw [hneed]; rfl, fun a => ?_⟩
    rw [List.mem_singleton]
    omega

/-- From `nextFree` on the pool is still unused. -/
theorem Queues.enqueueTail (hr : Room m (l i)) (item : Nat) : ∃ m' l', m.enqueueTail (l i) item = some (m', l') ∧
    Queues m' (update l i l') (update q i (q i ++ [m.nextFree])) ∧ m'.value = update m.value m.nextFree item := by
  obtain ⟨new, m1, htakes, hnd, hnf, hnew⟩ := h.takes i hr item
  obtain ⟨m', l', heq, hdone, hnf', -⟩ := h.chained.enqueueTail i htakes hnd fun a ha => h.unowned ((hnew a).mp ha).1
  rw [hnf] at hnf'
  refine ⟨m', l', heq, ⟨hdone.chained.queue, fun j => ?_, hdone.chained.nodup, hdone.chained.apart, fun a ha hlt => ?_⟩, hdone.value⟩
  · by_cases hj : j = i
    · rw [hj, update_self, update_self]
      intro a ha
      rcases (hdone.feet a).mp ha with ha | ha
      · have := ((hnew a).mp ha).2
        omega
      · have := h.below i a ha
        omega
    · rw [update_of_ne hj, update_of_ne hj]
      intro a ha
      have := h.below j a ha
      omega
  · rw [hdone.rest]
    · exact h.unused a (by omega) hlt
    · intro hin
      rcases (hdone.feet a).mp hin with hin | hin
      · have := ((hnew a).mp hin).2
        omega
      · have := h.below i a hin
        omega

/-- The first node is taken off, and is no longer anyone's. -/
theorem Queues.dequeueFront {n : Nat} {rest : List Nat} (hq : q i = n :: rest) : ∃ m' l', m.dequeueFront (l i) = some (n, m', l') ∧
    Queues (m'.nodeFree n) (update l i l') (update q i rest) ∧ m'.value = m.value := by
  obtain ⟨m', l', heq, hch, hval, hnf, -, hfeet, hrest⟩ := h.chained.dequeueFront i hq
  refine ⟨m', l', heq, ⟨hch.queue, fun j a ha => ?_, hch.nodup, hch.apart, fun a ha hlt => ?_⟩, hval⟩
  · show a < m'.nextFree
    rw [hnf]
    by_cases hj : j = i
    · rw [hj, update_self, update_self] at ha
      exact h.below i a ((hfeet a).mpr (.inr ha))
    · rw [update_of_ne hj, update_of_ne hj] at ha
      exact h.below j a ha
  · have hge : m.nextFree ≤ a := hnf ▸ ha
    rw [hrest a (h.unowned hge i)]
    exact h.unused a hge hlt

end

end NodeMem

end Cs330.Memory
