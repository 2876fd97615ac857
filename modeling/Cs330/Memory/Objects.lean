/-
  Cs330.Memory.Objects — the small objects of memory.c, os_alloc and os_free: seven classes
  of 32 to 2048 bytes, each with a page it cuts objects from and a list of freed ones.

  os_alloc rounds a size up to its class and os_free rounds it down, so what is freed may be
  reused for smaller objects, never for larger ones. A new page is taken when free_position
  is above the number of objects in a page, not when it has come to it: the object before
  that lies behind the page (`fifth_object_overlaps`). Proved: while no object is cut at
  that position, and the lists have nodes, live objects are disjoint and lie in pages
  os_pfn_alloc has returned, and every call returns (`objects_disjoint`).

  `page k` is what os_pfn_alloc returns when the allocator calls it for the k-th time. The
  bitmap and chunk_size of a class are written and never read. `live` are the objects that
  have been handed out and not freed.
-/
import Cs330.Lib.Machine
import Cs330.Lib.Total
import Cs330.Memory.Nodes
import Cs330.Memory.PageList

namespace Cs330.Memory

open Lib Function NodeMem

/-- `for(i=11; i>5; --i) if(is_set(size, i)) break;` -/
def topBit (size : Nat) : Nat := ([11, 10, 9, 8, 7, 6].find? fun i => size.testBit i).getD 5

/-- `if((1 << i) != size) ++i;` -/
def roundUp (size : Nat) : Nat := if 1 <<< topBit size ≠ size then topBit size + 1 else topBit size

/-- `struct osalloc_chunk` -/
structure Chunk where
  freePosition : Nat
  currentPfn : Nat
  freelist : NList

/-- The classes at osalloc_base, the nodes, how often os_pfn_alloc has been called, and the
    objects in use with their sizes. -/
structure Heap where
  chunk : Nat → Chunk
  nodemem : NodeMem
  pages : Nat
  live : List (Nat × Nat)

namespace Heap

def set (h : Heap) (i : Nat) (ck : Chunk) : Heap := { h with chunk := update h.chunk i ck }

section
variable (page : Nat → Nat)

def osAlloc (h : Heap) (size : Nat) : Option (Nat × Heap) :=
  if size = 0 ∨ 2048 < size then some (0, h)
  else
    let i := roundUp size
    let ck := h.chunk (i - 5)
    if ck.freelist.size ≠ 0 then
      match h.nodemem.dequeueFront ck.freelist with
      | none => none
      | some (mem, m, l) => some (m.value mem, { h.set (i - 5) { ck with freelist := l } with nodemem := m.nodeFree mem })
    else
      let r : Chunk × Nat :=
        if PAGE_SIZE >>> i < ck.freePosition then ({ ck with currentPfn := page h.pages, freePosition := 0 }, h.pages + 1)
        else (ck, h.pages)
      some (r.1.currentPfn <<< PAGE_SHIFT + r.1.freePosition <<< i,
        { h.set (i - 5) { r.1 with freePosition := r.1.freePosition + 1 } with pages := r.2 })

def osFree (h : Heap) (ptr size : Nat) : Option Heap :=
  if size = 0 ∨ 2048 < size then some h
  else
    let i := topBit size
    let ck := h.chunk (i - 5)
    match h.nodemem.enqueueTail ck.freelist ptr with
    | none => none
    | some (m, l) => some { h.set (i - 5) { ck with freelist := l } with nodemem := m }

inductive Ev where
  | alloc (size : Nat)
  | free (ptr size : Nat)
  deriving DecidableEq, Repr

def step (h : Heap) : Ev → Option Heap
  | .alloc size => (h.osAlloc page size).map fun r => { r.2 with live := (r.1, size) :: r.2.live }
  | .free ptr size => (h.osFree ptr size).map fun h => { h with live := h.live.erase (ptr, size) }

/-- After init_osalloc_chunks, which takes one page for the classes and one for each of
    them, and init_nodealloc_memory, which does not count the nodes of its first page. -/
def Start (h : Heap) : Prop :=
  (∀ i, h.chunk i = ⟨0, page (i + 1), ⟨none, none, 0⟩⟩) ∧ h.pages = 8 ∧ h.live = [] ∧ h.nodemem.nextFree = 0 ∧
    h.nodemem.numFree = 99 * (PAGE_SIZE / 16) ∧ ∀ n < NODES, h.nodemem.next n = none

def machine : Machine Heap Ev := ⟨Start page, step page⟩

/-- The callers keep to the sizes, and free what they have got. -/
def Called (h : Heap) : Ev → Prop
  | .alloc size => 1 ≤ size ∧ size ≤ 2048
  | .free ptr size => (ptr, size) ∈ h.live

/-- No object is cut at the end of a page, and there are nodes for what is freed. -/
def Within (h : Heap) : Ev → Prop
  | .alloc size => (h.chunk (roundUp size - 5)).freelist.size = 0 →
      (h.chunk (roundUp size - 5)).freePosition ≠ PAGE_SIZE >>> roundUp size
  | .free _ size => h.nodemem.Room (h.chunk (topBit size - 5)).freelist

instance (h : Heap) : (e : Ev) → Decidable (h.Called e)
  | .alloc size => inferInstanceAs (Decidable (1 ≤ size ∧ size ≤ 2048))
  | .free ptr size => inferInstanceAs (Decidable ((ptr, size) ∈ h.live))

instance (h : Heap) : (e : Ev) → Decidable (h.Within e)
  | .alloc size => inferInstanceAs (Decidable ((h.chunk (roundUp size - 5)).freelist.size = 0 →
      (h.chunk (roundUp size - 5)).freePosition ≠ PAGE_SIZE >>> roundUp size))
  | .free _ size => inferInstanceAs (Decidable (h.nodemem.Room (h.chunk (topBit size - 5)).freelist))

/-- In one of the pages returned so far. -/
def InPage (h : Heap) (ptr len : Nat) : Prop := ∃ k < h.pages, page k * 4096 ≤ ptr ∧ ptr + len ≤ page k * 4096 + 4096

/-- No byte belongs to two objects, and each object lies in a page. -/
def Separate (h : Heap) : Prop :=
  (h.live.Pairwise fun o o' => ∀ x, ¬ ((o.1 ≤ x ∧ x < o.1 + o.2) ∧ o'.1 ≤ x ∧ x < o'.1 + o'.2)) ∧
    ∀ o ∈ h.live, h.InPage page o.1 o.2

end

/-! ## Sizes and classes -/

theorem topBit_spec {size : Nat} (h1 : 0 < size) (h2 : size < 2049) :
    5 ≤ topBit size ∧ topBit size ≤ 11 ∧ 2 ^ topBit size ≤ max size 32 ∧ max size 32 < 2 ^ (topBit size + 1) := by
  unfold topBit
  simp only [List.find?, Nat.testBit_eq_decide_div_mod_eq]
  repeat' split
  all_goals simp only [decide_eq_true_eq, decide_eq_false_iff_not, Option.getD_some, Option.getD_none] at *
  all_goals omega

/-- Rounded up, a size and 32 bytes fit; rounded down, no more than that is reused. -/
theorem classes {size : Nat} (h1 : 0 < size) (h2 : size < 2049) :
    (5 ≤ roundUp size ∧ roundUp size ≤ 11 ∧ max size 32 ≤ 2 ^ roundUp size) ∧
      5 ≤ topBit size ∧ topBit size ≤ 11 ∧ 2 ^ topBit size ≤ max size 32 := by
  obtain ⟨h5, h11, hle, hlt⟩ := topBit_spec h1 h2
  refine ⟨?_, h5, h11, hle⟩
  unfold roundUp
  rw [Nat.one_shiftLeft]
  split
  · rename_i hne
    have h10 : topBit size ≠ 11 := by
      intro he
      rw [he] at hle hne
      omega
    exact ⟨by omega, by omega, by omega⟩
  · rename_i he
    have hpow := Nat.pow_le_pow_right (show 0 < 2 by decide) h5
    exact ⟨h5, h11, by omega⟩

/-! ## Who has a byte -/

def has (ptr len x : Nat) : Bool := decide (ptr ≤ x ∧ x < ptr + len)

/-- The list of class `i`, as the addresses in it. -/
def freed (h : Heap) (q : Nat → List Nat) (i : Nat) : List Nat := (q i).map h.nodemem.value

/-- How many live objects, freed objects of a class, and uncut rests of a page have byte `x`. -/
def heldLive (live : List (Nat × Nat)) (x : Nat) : Nat := live.countP fun o => has o.1 (max o.2 32) x
def heldFreed (ptrs : List Nat) (i x : Nat) : Nat := ptrs.countP fun ptr => has ptr (2 ^ (i + 5)) x
def heldRest (ck : Chunk) (i x : Nat) : Nat :=
  if ck.currentPfn * 4096 + ck.freePosition * 2 ^ (i + 5) ≤ x ∧ x < ck.currentPfn * 4096 + 4096 then 1 else 0

theorem has_le {len len' : Nat} (hl : len ≤ len') (ptr x : Nat) :
    (if has ptr len x then 1 else 0) ≤ if has ptr len' x then 1 else 0 := by
  simp only [has, decide_eq_true_eq]
  split <;> split <;> omega

structure Inv (page : Nat → Nat) (h : Heap) (q : Nat → List Nat) : Prop where
  queues : Queues h.nodemem (fun i => (h.chunk i).freelist) q
  sizes : ∀ o ∈ h.live, 0 < o.2 ∧ o.2 < 2049
  once : ∀ x, heldLive h.live x + total 7 (fun i => heldFreed (h.freed q i) i x) + total 7 (fun i => heldRest (h.chunk i) i x) ≤ 1
  live : ∀ o ∈ h.live, h.InPage page o.1 (max o.2 32)
  freed : ∀ i < 7, ∀ ptr ∈ h.freed q i, h.InPage page ptr (2 ^ (i + 5))
  rest : ∀ i < 7, (∃ k < h.pages, (h.chunk i).currentPfn = page k) ∧ (h.chunk i).freePosition ≤ 4096 / 2 ^ (i + 5)

/-- Where no byte is counted twice, no two have one in common. -/
theorem pairwise_of_count {l : List (Nat × Nat)} (h : ∀ x, heldLive l x ≤ 1) :
    l.Pairwise fun o o' => ∀ x, ¬ ((o.1 ≤ x ∧ x < o.1 + o.2) ∧ o'.1 ≤ x ∧ x < o'.1 + o'.2) := by
  induction l with
  | nil => exact .nil
  | cons o l ih =>
    refine .cons (fun o' ho' x ⟨hx, hx'⟩ => ?_) (ih fun x => Nat.le_trans ?_ (h x))
    · have hone : (o :: l).countP (fun o => has o.1 (max o.2 32) x) ≤ 1 := h x
      rw [List.countP_cons_of_pos (by simp only [has, decide_eq_true_eq]; omega)] at hone
      have hpos : 0 < l.countP fun o => has o.1 (max o.2 32) x :=
        List.countP_pos_iff.mpr ⟨o', ho', by simp only [has, decide_eq_true_eq]; omega⟩
      omega
    · unfold heldLive
      rw [List.countP_cons]
      exact Nat.le_add_right _ _

theorem Inv.separate {page : Nat → Nat} {h : Heap} {q : Nat → List Nat} (hi : Inv page h q) : h.Separate page := by
  refine ⟨pairwise_of_count fun x => ?_, fun o ho => ?_⟩
  · have := hi.once x
    omega
  · obtain ⟨k, hk, h1, h2⟩ := hi.live o ho
    exact ⟨k, hk, h1, by omega⟩

theorem start_inv {page : Nat → Nat} (hp : Injective page) {h : Heap} (hs : Start page h) : Inv page h fun _ => [] := by
  obtain ⟨hck, hpages, hlive, hnf, -, hn⟩ := hs
  have hfoot : ∀ i, foot (h.chunk i).freelist [] = [] := fun i => by rw [hck]; rfl
  refine ⟨⟨fun i => ⟨by rw [hck]; rfl, .inl ⟨by rw [hck], by rw [hck], rfl⟩⟩, fun i n hn => ?_, fun i => ?_, fun i j _ n hn => ?_,
    fun n _ => hn n⟩, fun o ho => ?_, fun x => ?_, fun o ho => ?_, fun i _ ptr hptr => absurd hptr List.not_mem_nil,
    fun i hi => ⟨⟨i + 1, ?_, ?_⟩, ?_⟩⟩
  · rw [hfoot] at hn; cases hn
  · rw [hfoot]; exact List.nodup_nil
  · rw [hfoot] at hn; cases hn
  · rw [hlive] at ho; cases ho
  · have hz : heldLive h.live x = 0 := by rw [hlive]; rfl
    have hf : total 7 (fun i => heldFreed (h.freed (fun _ => []) i) i x) = 0 := total_zero 7
    rw [hz, hf, Nat.zero_add]
    refine total_le_one (fun i _ => ?_) fun i _ j _ hi hj => ?_
    · unfold heldRest
      split <;> omega
    · simp only [heldRest, hck] at hi hj
      have he : page (i + 1) = page (j + 1) := by
        split at hi
        · split at hj <;> omega
        · omega
      have := hp he
      omega
  · rw [hlive] at ho; cases ho
  · omega
  · rw [hck]
  · rw [hck]; exact Nat.zero_le _

section
variable {page : Nat → Nat} {h : Heap} {q : Nat → List Nat} (hi : Inv page h q)
include hi

/-- One class changes, and hands no byte out twice. -/
theorem Inv.change {i : Nat} (h7 : i < 7) {ck : Chunk} {m : NodeMem} {q' : List Nat} {live : List (Nat × Nat)}
    (hqueues : Queues m (update (fun j => (h.chunk j).freelist) i ck.freelist) (update q i q'))
    (hval : ∀ j, j ≠ i → (q j).map m.value = h.freed q j)
    (hone : ∀ x, heldLive live x + heldFreed (q'.map m.value) i x + heldRest ck i x ≤
      heldLive h.live x + heldFreed (h.freed q i) i x + heldRest (h.chunk i) i x)
    (hlive : ∀ o ∈ live, (0 < o.2 ∧ o.2 < 2049) ∧ h.InPage page o.1 (max o.2 32))
    (hfreed : ∀ ptr ∈ q'.map m.value, h.InPage page ptr (2 ^ (i + 5))) (hpfn : ck.currentPfn = (h.chunk i).currentPfn)
    (hpos : ck.freePosition ≤ 4096 / 2 ^ (i + 5)) : Inv page ⟨update h.chunk i ck, m, h.pages, live⟩ (update q i q') := by
  have hfr : ∀ j, Heap.freed ⟨update h.chunk i ck, m, h.pages, live⟩ (update q i q') j =
      if j = i then q'.map m.value else h.freed q j := by
    intro j
    show (update q i q' j).map m.value = _
    by_cases hj : j = i
    · rw [hj, update_self, if_pos rfl]
    · rw [update_of_ne hj, if_neg hj, hval j hj]
  refine ⟨?_, fun o ho => (hlive o ho).1, fun x => ?_, fun o ho => (hlive o ho).2, fun j hj ptr hptr => ?_, fun j hj => ?_⟩
  · have hl : (fun j => (update h.chunk i ck j).freelist) = update (fun j => (h.chunk j).freelist) i ck.freelist := by
      funext j
      by_cases hj : j = i
      · rw [hj, update_self, update_self]
      · rw [update_of_ne hj, update_of_ne hj]
    show Queues m (fun j => (update h.chunk i ck j).freelist) _
    rw [hl]
    exact hqueues
  · have hf := total_change h7 (f := fun j => heldFreed (h.freed q j) j x)
      (g := fun j => heldFreed (if j = i then q'.map m.value else h.freed q j) j x) fun j hj => by rw [if_neg hj]
    have hr := total_change h7 (f := fun j => heldRest (h.chunk j) j x)
      (g := fun j => heldRest (update h.chunk i ck j) j x) fun j hj => by rw [update_of_ne hj]
    rw [if_pos rfl] at hf
    rw [update_self] at hr
    have hnew := hone x
    have hold := hi.once x
    simp only [hfr]
    omega
  · rw [hfr] at hptr
    split at hptr
    · rename_i hji
      rw [hji]
      exact hfreed ptr hptr
    · exact hi.freed j hj ptr hptr
  · obtain ⟨hk, hle⟩ := hi.rest j hj
    by_cases hji : j = i
    · subst hji
      show (∃ k < h.pages, (update h.chunk j ck j).currentPfn = page k) ∧ (update h.chunk j ck j).freePosition ≤ _
      rw [update_self, hpfn]
      exact ⟨hk, hpos⟩
    · show (∃ k < h.pages, (update h.chunk i ck j).currentPfn = page k) ∧ (update h.chunk i ck j).freePosition ≤ _
      rw [update_of_ne hji]
      exact ⟨hk, hle⟩

/-- An object from the list of its class. -/
theorem Inv.reuse {size : Nat} (h1 : 0 < size) (h2 : size < 2049) (hne : (h.chunk (roundUp size - 5)).freelist.size ≠ 0) :
    ∃ r, h.osAlloc page size = some r ∧ ∃ q', Inv page { r.2 with live := (r.1, size) :: r.2.live } q' := by
  obtain ⟨⟨h5, h11, hfit⟩, -⟩ := classes h1 h2
  obtain ⟨i, hidx⟩ : ∃ i, i = roundUp size - 5 := ⟨_, rfl⟩
  have h7 : i < 7 := by omega
  rw [← hidx] at hne
  rw [show roundUp size = i + 5 by omega] at hfit
  obtain ⟨n, rest, hq⟩ : ∃ n rest, q i = n :: rest := by
    cases hq : q i with
    | nil => exact absurd (by rw [(hi.queues.queue i).1, hq]; rfl) hne
    | cons n rest => exact ⟨n, rest, rfl⟩
  obtain ⟨m, l, hdeq, hqueues, hval⟩ := hi.queues.dequeueFront i hq
  have hret : h.osAlloc page size =
      some (m.value n, { h.set i { h.chunk i with freelist := l } with nodemem := m.nodeFree n }) := by
    unfold osAlloc
    rw [if_neg (by omega)]
    simp only [← hidx, hne, ne_eq, not_false_eq_true, if_true, hdeq]
  have hfi : h.freed q i = m.value n :: rest.map m.value := by unfold Heap.freed; rw [hq, hval]; rfl
  refine ⟨_, hret, update q i rest, hi.change h7 hqueues (fun j _ => ?_) (fun x => ?_) (fun o ho => ?_) (fun ptr hptr => ?_) rfl
    (hi.rest i h7).2⟩
  · show (q j).map m.value = (q j).map h.nodemem.value
    rw [hval]
  · -- the object is part of what the list had
    have hle := has_le hfit (m.value n) x
    show heldLive ((m.value n, size) :: h.live) x + heldFreed (rest.map m.value) i x + heldRest (h.chunk i) i x ≤ _
    rw [hfi]
    unfold heldLive heldFreed
    rw [List.countP_cons, List.countP_cons]
    dsimp only
    omega
  · rcases List.mem_cons.mp ho with rfl | ho
    · obtain ⟨k, hk, hlo, hhi⟩ := hi.freed i h7 (m.value n) (hfi ▸ List.mem_cons_self)
      exact ⟨⟨h1, h2⟩, k, hk, hlo, by show m.value n + max size 32 ≤ _; omega⟩
    · exact ⟨hi.sizes o ho, hi.live o ho⟩
  · exact hi.freed i h7 ptr (hfi ▸ List.mem_cons_of_mem _ hptr)

/-- An object cut from the page of its class. -/
theorem Inv.cut {size : Nat} (h1 : 0 < size) (h2 : size < 2049) (hz : (h.chunk (roundUp size - 5)).freelist.size = 0)
    (hend : (h.chunk (roundUp size - 5)).freePosition ≠ PAGE_SIZE >>> roundUp size) :
    ∃ r, h.osAlloc page size = some r ∧ ∃ q', Inv page { r.2 with live := (r.1, size) :: r.2.live } q' := by
  obtain ⟨⟨h5, h11, hfit⟩, -⟩ := classes h1 h2
  obtain ⟨i, hidx⟩ : ∃ i, i = roundUp size - 5 := ⟨_, rfl⟩
  have h7 : i < 7 := by omega
  have hup : roundUp size = i + 5 := by omega
  rw [← hidx] at hz hend
  rw [hup] at hfit hend
  obtain ⟨⟨k, hk, hpfn⟩, hpos⟩ := hi.rest i h7
  have hshift : PAGE_SIZE >>> (i + 5) = 4096 / 2 ^ (i + 5) := Nat.shiftRight_eq_div_pow ..
  rw [hshift] at hend
  have hroom : ((h.chunk i).freePosition + 1) * 2 ^ (i + 5) ≤ 4096 := by
    have := Nat.mul_le_of_le_div _ _ _ (by omega : (h.chunk i).freePosition + 1 ≤ 4096 / 2 ^ (i + 5))
    exact this
  rw [Nat.succ_mul] at hroom
  obtain ⟨ptr, hptr⟩ : ∃ ptr, ptr = (h.chunk i).currentPfn * 4096 + (h.chunk i).freePosition * 2 ^ (i + 5) := ⟨_, rfl⟩
  have hret : h.osAlloc page size =
      some (ptr, { h.set i { h.chunk i with freePosition := (h.chunk i).freePosition + 1 } with pages := h.pages }) := by
    unfold osAlloc
    rw [if_neg (by omega)]
    simp only [hup, Nat.add_sub_cancel, hz, ne_eq, not_true, if_false, hshift, if_neg (Nat.not_lt.mpr hpos), Nat.shiftLeft_eq, hptr]
    rfl
  have hsame : update q i (q i) = q := update_eq_self i q
  refine ⟨_, hret, update q i (q i), hi.change h7 ?_ (fun j _ => rfl) (fun x => ?_) (fun o ho => ?_) (fun ptr hptr => ?_) rfl
    ?_⟩
  · have hl : update (fun j => (h.chunk j).freelist) i (h.chunk i).freelist = fun j => (h.chunk j).freelist :=
      update_eq_self i fun j => (h.chunk j).freelist
    show Queues h.nodemem (update (fun j => (h.chunk j).freelist) i (h.chunk i).freelist) (update q i (q i))
    rw [hsame, hl]
    exact hi.queues
  · -- the rest of the page loses what the object gets
    have hrest : (if has ptr (max size 32) x then 1 else 0) +
        heldRest ⟨(h.chunk i).freePosition + 1, (h.chunk i).currentPfn, (h.chunk i).freelist⟩ i x ≤ heldRest (h.chunk i) i x := by
      simp only [has, heldRest, decide_eq_true_eq, Nat.succ_mul, hptr]
      split <;> split <;> split <;> omega
    show heldLive ((ptr, size) :: h.live) x + heldFreed (h.freed q i) i x +
      heldRest ⟨(h.chunk i).freePosition + 1, (h.chunk i).currentPfn, (h.chunk i).freelist⟩ i x ≤ _
    unfold heldLive
    rw [List.countP_cons]
    dsimp only
    omega
  · rcases List.mem_cons.mp ho with rfl | ho
    · refine ⟨⟨h1, h2⟩, k, hk, ?_, ?_⟩
      · show page k * 4096 ≤ ptr
        rw [hptr, hpfn]
        omega
      · show ptr + max size 32 ≤ _
        rw [hptr, hpfn]
        omega
    · exact ⟨hi.sizes o ho, hi.live o ho⟩
  · exact hi.freed i h7 ptr hptr
  · show (h.chunk i).freePosition + 1 ≤ _
    omega

/-- An object freed to the class its size rounds down to. -/
theorem Inv.free {ptr size : Nat} (hmem : (ptr, size) ∈ h.live) (hroom : h.nodemem.Room (h.chunk (topBit size - 5)).freelist) :
    ∃ h', h.osFree ptr size = some h' ∧ ∃ q', Inv page { h' with live := h'.live.erase (ptr, size) } q' := by
  obtain ⟨h1, h2⟩ : 0 < size ∧ size < 2049 := hi.sizes _ hmem
  obtain ⟨-, h5, h11, hfit⟩ := classes h1 h2
  obtain ⟨i, hidx⟩ : ∃ i, i = topBit size - 5 := ⟨_, rfl⟩
  have h7 : i < 7 := by omega
  rw [← hidx] at hroom
  rw [show topBit size = i + 5 by omega] at hfit
  obtain ⟨m, l, henq, hqueues, hval⟩ := hi.queues.enqueueTail i hroom ptr
  have hret : h.osFree ptr size = some { h.set i { h.chunk i with freelist := l } with nodemem := m } := by
    unfold osFree
    have h1 : size ≠ 0 := Nat.ne_of_gt h1
    rw [if_neg (by omega)]
    simp only [← hidx, henq]
  have hold : ∀ j, (q j).map m.value = h.freed q j := by
    intro j
    refine List.map_congr_left fun n hn => ?_
    have hlt := hi.queues.below j n (List.mem_append_right _ hn)
    rw [hval, update_of_ne (Nat.ne_of_lt hlt)]
  have hnew : (q i ++ [h.nodemem.nextFree]).map m.value = h.freed q i ++ [ptr] := by
    rw [List.map_append, hold, List.map_singleton, hval, update_self]
  have hperm := List.perm_cons_erase hmem
  refine ⟨_, hret, update q i (q i ++ [h.nodemem.nextFree]), hi.change h7 hqueues (fun j _ => hold j) (fun x => ?_) (fun o ho => ?_)
    (fun p hp => ?_) rfl (hi.rest i h7).2⟩
  · -- the list gets no more than the object had
    have hle := has_le hfit ptr x
    have hlive : heldLive h.live x = heldLive (h.live.erase (ptr, size)) x + if has ptr (max size 32) x then 1 else 0 := by
      unfold heldLive
      rw [hperm.countP_eq, List.countP_cons]
    have hfreed : heldFreed (h.freed q i ++ [ptr]) i x = heldFreed (h.freed q i) i x + if has ptr (2 ^ (i + 5)) x then 1 else 0 := by
      unfold heldFreed
      rw [List.countP_append, List.countP_singleton]
    rw [hnew, hfreed, hlive]
    show heldLive (h.live.erase (ptr, size)) x + _ + heldRest (h.chunk i) i x ≤ _
    omega
  · have ho : o ∈ h.live := List.mem_of_mem_erase ho
    exact ⟨hi.sizes o ho, hi.live o ho⟩
  · rw [hnew] at hp
    rcases List.mem_append.mp hp with hp | hp
    · exact hi.freed i h7 p hp
    · rw [List.mem_singleton] at hp
      obtain ⟨k, hk, hlo, hhi⟩ := hi.live _ hmem
      have hhi : ptr + max size 32 ≤ page k * 4096 + 4096 := hhi
      exact ⟨k, hk, hp ▸ hlo, by rw [hp]; omega⟩

theorem Inv.step {e : Ev} (hc : h.Called e) (hw : h.Within e) : ∃ h', h.step page e = some h' ∧ ∃ q', Inv page h' q' := by
  cases e with
  | alloc size =>
    have h1 : 0 < size := hc.1
    have h2 : size < 2049 := Nat.lt_succ_of_le hc.2
    obtain ⟨r, hret, hinv⟩ : ∃ r, h.osAlloc page size = some r ∧ ∃ q', Inv page { r.2 with live := (r.1, size) :: r.2.live } q' := by
      by_cases hz : (h.chunk (roundUp size - 5)).freelist.size = 0
      · exact hi.cut h1 h2 hz (hw hz)
      · exact hi.reuse h1 h2 hz
    exact ⟨_, congrArg (Option.map _) hret, hinv⟩
  | free ptr size =>
    obtain ⟨h', hret, hinv⟩ := hi.free hc hw
    exact ⟨_, congrArg (Option.map _) hret, hinv⟩

end

/-- In every run whose calls cut no object at the end of a page and find nodes for what is
    freed, no two live objects share a byte, each lies in a page, and the next call returns. -/
theorem objects_disjoint (page : Nat → Nat) (hp : Injective page) {h : Heap}
    (hr : (machine page).Reach (fun h e => h.Called e ∧ h.Within e) h) :
    h.Separate page ∧ ∀ e, h.Called e → h.Within e → (h.step page e).isSome := by
  obtain ⟨q, hi⟩ : ∃ q, Inv page h q := by
    refine hr.inv (fun h => ∃ q, Inv page h q) (fun h hs => ⟨_, start_inv hp hs⟩) fun h e h' ⟨q, hi⟩ hok he => ?_
    obtain ⟨h'', hret, hinv⟩ := hi.step hok.1 hok.2
    cases hret.symm.trans he
    exact hinv
  refine ⟨hi.separate, fun e hc hw => ?_⟩
  obtain ⟨h', hret, -⟩ := hi.step hc hw
  rw [hret]
  rfl

/-- The pages follow one another. -/
def firstHeap : Heap := ⟨fun i => ⟨0, 0x801 + (i + 1), ⟨none, none, 0⟩⟩, ⟨0, 99 * (PAGE_SIZE / 16), fun _ => 0, fun _ => none⟩, 8, []⟩

theorem firstHeap_start : Start (fun k => 0x801 + k) firstHeap := ⟨fun _ => rfl, rfl, rfl, rfl, rfl, fun _ _ => rfl⟩

/-- Two objects of 40 bytes, the first of them freed. -/
theorem objects_disjoint_two : ∃ h, (machine fun k => 0x801 + k).Reach (fun h e => h.Called e ∧ h.Within e) h ∧
    h.live = [(0x803040, 40)] ∧
    h.Separate (fun k => 0x801 + k) ∧ ∀ e, h.Called e → h.Within e → (h.step (fun k => 0x801 + k) e).isSome := by
  have h0 : (machine fun k => 0x801 + k).Reach (fun h e => h.Called e ∧ h.Within e) firstHeap := .init firstHeap_start
  have h1 := h0.step (e := .alloc 40) (by decide +kernel) rfl
  have h2 := h1.step (e := .alloc 40) (by decide +kernel) rfl
  have h3 := h2.step (e := .free 0x803000 40) (by decide +kernel) rfl
  exact ⟨_, h3, by decide +kernel, objects_disjoint (fun k => 0x801 + k) (fun a b he => by simpa using he) h3⟩

/-- One object of 2048 bytes, then five of 1024: a page holds four of these, and the fifth
    is the first half of the large one. -/
theorem fifth_object_overlaps : (∃ h, (machine fun k => 0x801 + k).Reach Called h ∧
      h.live.head? = some (0x808000, 1024) ∧ (0x808000, 2048) ∈ h.live) ∧
    ¬ ∀ (page : Nat → Nat) (h : Heap), Injective page → (machine page).Reach Called h → h.Separate page := by
  obtain ⟨h, hr, h1, h2⟩ : ∃ h, (machine fun k => 0x801 + k).Reach Called h ∧
      h.live.head? = some (0x808000, 1024) ∧ h.live.getLast? = some (0x808000, 2048) := by
    have h0 : (machine fun k => 0x801 + k).Reach Called firstHeap := .init firstHeap_start
    have h1 := h0.step (e := .alloc 2048) (by decide) rfl
    have h2 := h1.step (e := .alloc 1024) (by decide) rfl
    have h3 := h2.step (e := .alloc 1024) (by decide) rfl
    have h4 := h3.step (e := .alloc 1024) (by decide) rfl
    have h5 := h4.step (e := .alloc 1024) (by decide) rfl
    have h6 := h5.step (e := .alloc 1024) (by decide) rfl
    exact ⟨_, h6, by decide +kernel, by decide +kernel⟩
  have hlarge := List.mem_of_getLast? h2
  refine ⟨⟨h, hr, h1, hlarge⟩, fun hall => ?_⟩
  have hsep := (hall _ h (fun a b he => by simpa using he) hr).1
  obtain ⟨live, hl⟩ := List.head?_eq_some_iff.mp h1
  rw [hl] at hsep hlarge
  rcases List.mem_cons.mp hlarge with he | hin
  · cases he
  · exact (List.pairwise_cons.mp hsep).1 _ hin 0x808000 (by decide)

end Heap

end Cs330.Memory
