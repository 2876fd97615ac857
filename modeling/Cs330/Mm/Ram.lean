/-
  Cs330.Mm.Ram — page tables in physical memory.

  A frame holds 512 words; a word is the PFN in it and its bits 0 (present), 1 (write) and
  2 (user). The walkers are here as the source has them: alloc_pfn, the tail of
  vm_area_pagefault and install_page_table, which go by the present bit, and
  map_physical_page, which goes by whether the word is 0. None of them looks at what
  os_pfn_alloc returns. `oops` counts the lines `Opps.. out of memory` it prints.

  `Sound`: the tables of the roots are a forest (Lib.Radix) of frames in use, and a word of
  a table is 0 or present and for the user. `descend_spec`: a walk finds or allocates its
  tables, the state still sound, or it runs out, and then there were more tables missing
  than frames left for them. The four words of the kernel in every page table, and what the
  processor makes of the tables, are left out.
-/
import Mathlib.Data.Set.Card
import Cs330.Lib.Radix

namespace Cs330.Mm

open Lib

structure Word where
  frame : Nat
  present : Bool
  write : Bool
  user : Bool
  deriving DecidableEq, Repr

namespace Word

def zero : Word := ⟨0, false, false, false⟩

/-- The frame a word refers to. -/
def next (w : Word) : Option Nat := if w.present then some w.frame else none

def Proper (w : Word) : Prop := w = zero ∨ (w.present = true ∧ w.user = true)

end Word

/-- OS_PT_REG and USER_REG. -/
inductive Region where
  | pt | user
  deriving DecidableEq, Repr

abbrev Path := List (Fin 512)

structure Ram where
  mem : Nat → Fin 512 → Word
  refcount : Nat → UInt8
  inUse : Finset Nat
  freePages : Region → Nat
  oops : Nat

/-- Bits 47..39, 38..30, 29..21 and 20..12 of an address, by their shift. -/
def index (addr shift : Nat) : Fin 512 := ⟨addr / 2 ^ shift % 512, Nat.mod_lt _ (by decide)⟩

namespace Ram

/-- A pointer that is NULL is an address too. -/
def null : Nat × Fin 512 := (0, 0)

def put (r : Ram) (base : Nat) (i : Fin 512) (w : Word) : Ram := { r with mem := Radix.put r.mem base i w }

@[simp] theorem put_mem (r : Ram) (base : Nat) (i : Fin 512) (w : Word) : (r.put base i w).mem = Radix.put r.mem base i w := rfl

def bzero (r : Ram) (pfn : Nat) : Ram := { r with mem := Radix.fill r.mem pfn Word.zero }

/-- memcpy of a page. -/
def copyFrame (r : Ram) (dst src : Nat) : Ram := { r with mem := Function.update r.mem dst (r.mem src) }

/-- `os_pfn_alloc`; `pick` is the scan of the bitmap. -/
def osPfnAlloc (r : Ram) (pick : Region → Finset Nat → Nat) (region : Region) : Nat × Ram :=
  if r.freePages region = 0 then (0, { r with oops := r.oops + 1 })
  else
    let pfn := pick region r.inUse
    let r := { r with
      inUse := insert pfn r.inUse
      freePages := Function.update r.freePages region (r.freePages region - 1) }
    match region with
    | .pt => (pfn, r.bzero pfn)
    | .user => (pfn, { r with refcount := Function.update r.refcount pfn 1 })

/-- `get_user_pte`, and get_pte of mmap.c: where the entry is. -/
def getUserPte (r : Ram) (pgd addr : Nat) : Option (Nat × Fin 512) :=
  let entry := r.mem pgd (index addr 39)
  if ¬ (entry.present ∧ entry.user) then none
  else
    let base := entry.frame
    let entry := r.mem base (index addr 30)
    if ¬ (entry.present ∧ entry.user) then none
    else
      let base := entry.frame
      let entry := r.mem base (index addr 21)
      if ¬ (entry.present ∧ entry.user) then none
      else
        let base := entry.frame
        let entry := r.mem base (index addr 12)
        if ¬ (entry.present ∧ entry.user) then none else some (base, index addr 12)

/-- One level of alloc_pfn, vm_area_pagefault and install_page_table: the table below. -/
def nextTable (pick : Region → Finset Nat → Nat) (write : Bool) (t : Nat × Ram) (i : Fin 512) : Nat × Ram :=
  let entry := t.2.mem t.1 i
  if entry.present then (entry.frame, t.2)
  else
    let a := t.2.osPfnAlloc pick .pt
    (a.1, a.2.put t.1 i ⟨a.1, true, write, true⟩)

/-- Their four levels; `upper` and `write` are bit 1 of the entries for tables and of the PTE. -/
def mapUser (r : Ram) (pick : Region → Finset Nat → Nat) (pgd addr : Nat) (upper write : Bool) : Ram :=
  let t := nextTable pick upper (pgd, r) (index addr 39)
  let t := nextTable pick upper t (index addr 30)
  let t := nextTable pick upper t (index addr 21)
  let a := t.2.osPfnAlloc pick .user
  a.2.put t.1 (index addr 12) ⟨a.1, true, write, true⟩

/-- One level of map_physical_page. -/
def nextTable0 (pick : Region → Finset Nat → Nat) (t : Nat × Ram) (i : Fin 512) : Nat × Ram :=
  let entry := t.2.mem t.1 i
  if entry = .zero then
    let a := t.2.osPfnAlloc pick .pt
    (a.1, (a.2.put t.1 i ⟨a.1, true, true, true⟩).bzero a.1)
  else (entry.frame, t.2)

/-- `map_physical_page`; frame 0 asks for a new one. -/
def mapPhysicalPage (r : Ram) (pick : Region → Finset Nat → Nat) (base address : Nat) (write : Bool) (upfn : Nat) : Nat × Ram :=
  let t := nextTable0 pick (base, r) (index address 39)
  let t := nextTable0 pick t (index address 30)
  let t := nextTable0 pick t (index address 21)
  let a := if upfn = 0 then t.2.osPfnAlloc pick .user else (upfn, t.2)
  (a.1, a.2.put t.1 (index address 12) ⟨a.1, true, write, true⟩)

/-- The tables above the PTE of an address. -/
def tops (addr : Nat) : Finset Path :=
  {[index addr 39], [index addr 39, index addr 30], [index addr 39, index addr 30, index addr 21]}

/-- The way to the page of an address. -/
def pagePath (addr : Nat) : Path := [index addr 39, index addr 30, index addr 21, index addr 12]

/-! ## Sound tables -/

/-- The frame a path of indices leads to. -/
def follow (r : Ram) (g : Nat) (p : Path) : Option Nat := Radix.follow Word.next r.mem g p

structure Sound (r : Ram) (roots : Nat → Prop) : Prop where
  forest : Radix.Forest Word.next roots 3 r.mem
  within : Radix.Within Word.next (fun f => f ∈ r.inUse ∧ f ≠ 0) roots 4 r.mem
  proper : ∀ g p f, roots g → p.length ≤ 3 → r.follow g p = some f → ∀ i, (r.mem f i).Proper

/-- An allocator that returns unused frames. -/
def Picks (pick : Region → Finset Nat → Nat) : Prop := ∀ region u, pick region u ∉ u ∧ pick region u ≠ 0

/-- The tables of `q` that are missing. -/
def missing (r : Ram) (g : Nat) (q : Finset Path) : Finset Path := q.filter fun p => r.follow g p = none

/-- The tables along the paths `q` from root `g` may have been added, each with a frame of
    OS_PT_REG, and nothing else has changed. -/
structure Grown (roots : Nat → Prop) (g : Nat) (q : Finset Path) (r r' : Ram) : Prop where
  same : ∀ h p, roots h → p.length ≤ 4 → ¬ (h = g ∧ p ∈ q) → r'.follow h p = r.follow h p
  pt : r'.freePages .pt + (r.missing g q).card = r.freePages .pt + (r'.missing g q).card
  user : r'.freePages .user = r.freePages .user
  used : r.inUse ⊆ r'.inUse
  refcount : r'.refcount = r.refcount
  oops : r'.oops = r.oops

variable {r r' r'' : Ram} {roots : Nat → Prop} {pick : Region → Finset Nat → Nat} {g base : Nat} {i : Fin 512} {p : Path}
  {q : Finset Path} {w : Bool}

theorem Grown.refl : Grown roots g q r r := ⟨fun _ _ _ _ _ => rfl, rfl, rfl, Finset.Subset.refl _, rfl, rfl⟩

theorem Grown.trans (h1 : Grown roots g q r r') (h2 : Grown roots g q r' r'') : Grown roots g q r r'' := by
  refine ⟨fun h p hh hp hn => (h2.same h p hh hp hn).trans (h1.same h p hh hp hn), ?_, h2.user.trans h1.user,
    h1.used.trans h2.used, h2.refcount.trans h1.refcount, h2.oops.trans h1.oops⟩
  have e1 := h1.pt
  have e2 := h2.pt
  omega

/-- A word of a table that refers to nothing is 0. -/
theorem Sound.word (hs : r.Sound roots) (hg : roots g) (hp : p.length ≤ 3) (hf : r.follow g p = some base) (i : Fin 512) :
    ((r.mem base i).present = true ∧ (r.mem base i).user = true ∧ r.follow g (p ++ [i]) = some (r.mem base i).frame) ∨
      (r.mem base i = .zero ∧ r.follow g (p ++ [i]) = none) := by
  have hnext : r.follow g (p ++ [i]) = (r.mem base i).next := by
    unfold follow at hf ⊢
    rw [Radix.follow_concat, hf]
    rfl
  rcases hs.proper g p base hg hp hf i with h | ⟨h1, h2⟩
  · rw [h] at hnext ⊢
    exact .inr ⟨rfl, hnext⟩
  · unfold Word.next at hnext
    rw [if_pos h1] at hnext
    exact .inl ⟨h1, h2, hnext⟩

/-! ## A table for a missing one -/

/-- One table less is missing. -/
theorem card_missing {x : Path} {h : Nat} (hlink : ∀ js : Path, js.length ≤ 4 → r'.follow g js = if js = x then some h else r.follow g js)
    (hq : x ∈ q) (hnone : r.follow g x = none) (hshort : ∀ js ∈ q, js.length ≤ 4) :
    (r'.missing g q).card + 1 = (r.missing g q).card := by
  have hnot : x ∉ r'.missing g q := by
    unfold missing
    rw [Finset.mem_filter, hlink x (hshort x hq), if_pos rfl]
    exact fun hx => Option.some_ne_none h hx.2
  have hmiss : r.missing g q = insert x (r'.missing g q) := by
    ext js
    unfold missing
    rw [Finset.mem_insert, Finset.mem_filter, Finset.mem_filter]
    by_cases hjs : js = x
    · rw [hjs]
      simp [hq, hnone]
    · constructor
      · intro hx
        refine .inr ⟨hx.1, ?_⟩
        rw [hlink js (hshort js hx.1), if_neg hjs]
        exact hx.2
      · intro hx
        obtain ⟨h1, h2⟩ := hx.resolve_left hjs
        rw [hlink js (hshort js h1), if_neg hjs] at h2
        exact ⟨h1, h2⟩
  rw [hmiss, Finset.card_insert_of_notMem hnot]

section
variable {h : Nat} (hs : r.Sound roots) (hg : roots g) (hf : r.follow g p = some base) (hbad : ¬ (h ∈ r.inUse ∧ h ≠ 0))
  (hp : p.length < 3)
  (hlink : ∀ a js, roots a → js.length ≤ 4 → r'.follow a js = if a = g ∧ js = p ++ [i] then some h else r.follow a js)
  (hmem : r'.mem = Radix.put (Radix.fill r.mem h Word.zero) base i ⟨h, true, w, true⟩)
include hs hg hf hbad hp hlink hmem

/-- The words of the new table are 0, and the one above it refers to it. -/
theorem proper_link (a : Nat) (js : Path) (f : Nat) (ha : roots a) (hjs : js.length ≤ 3) (hfa : r'.follow a js = some f)
    (j : Fin 512) : (r'.mem f j).Proper := by
  have hbase : base ≠ h := fun he => hbad (he ▸ hs.within g p base hg (by omega) hf)
  rw [hlink a js ha (by omega)] at hfa
  rw [hmem]
  split at hfa
  · cases hfa
    rw [Radix.put_other fun hx => hbase hx.1.symm]
    unfold Radix.fill
    rw [Function.update_self]
    exact .inl rfl
  · have hf' : f ≠ h := fun he => hbad (he ▸ hs.within a js f ha (by omega) hfa)
    by_cases hfi : f = base ∧ j = i
    · obtain ⟨rfl, rfl⟩ := hfi
      rw [Radix.put_self]
      exact .inr ⟨rfl, rfl⟩
    · rw [Radix.put_other hfi]
      unfold Radix.fill
      rw [Function.update_of_ne hf']
      exact hs.proper a js f ha hjs hfa j

end

/-- The step of the walkers when a frame is left. -/
theorem Sound.link (hs : r.Sound roots) (hpick : Picks pick) (hg : roots g) (hp : p.length < 3) (hf : r.follow g p = some base)
    (hnone : r.follow g (p ++ [i]) = none) (hfree : r.freePages .pt ≠ 0) (hq : p ++ [i] ∈ q)
    (hshort : ∀ x ∈ q, x.length ≤ 4)
    (hr' : r' = ((r.osPfnAlloc pick .pt).2.put base i ⟨pick .pt r.inUse, true, w, true⟩)) :
    r'.Sound roots ∧ Grown roots g q r r' ∧ r'.follow g (p ++ [i]) = some (pick .pt r.inUse) := by
  obtain ⟨h, hh⟩ : ∃ h, h = pick .pt r.inUse := ⟨_, rfl⟩
  obtain ⟨hnew, h0⟩ := hpick .pt r.inUse
  rw [← hh] at hnew h0 hr' ⊢
  have hbad : ¬ (h ∈ r.inUse ∧ h ≠ 0) := fun hx => hnew hx.1
  have hr : r' = { r with
      mem := Radix.put (Radix.fill r.mem h Word.zero) base i ⟨h, true, w, true⟩
      inUse := insert h r.inUse
      freePages := Function.update r.freePages .pt (r.freePages .pt - 1) } := by
    rw [hr']
    unfold osPfnAlloc
    rw [if_neg hfree, ← hh]
    rfl
  have hzero : Word.zero.next = none := rfl
  have hword : Word.next ⟨h, true, w, true⟩ = some h := rfl
  have hlast : (r.mem base i).next = none := by
    unfold follow at hf hnone
    rw [Radix.follow_concat, hf] at hnone
    exact hnone
  have hlink : ∀ a js, roots a → js.length ≤ 4 →
      r'.follow a js = if a = g ∧ js = p ++ [i] then some h else r.follow a js := by
    intro a js ha hjs
    rw [hr]
    exact Radix.follow_link hs.forest hs.within.shorter hbad hzero hword hg hp hf hlast ha hjs
  have hroot : ∀ js : Path, js.length ≤ 4 → r'.follow g js = if js = p ++ [i] then some h else r.follow g js := by
    intro js hjs
    rw [hlink g js hg hjs]
    simp only [true_and]
  refine ⟨⟨?_, ?_, proper_link hs hg hf hbad hp hlink (by rw [hr])⟩, ⟨?_, ?_, ?_, ?_, ?_, ?_⟩, ?_⟩
  · rw [hr]
    exact hs.forest.link hs.within.shorter hbad hzero hword hg hp hf hlast
  · rw [hr]
    exact hs.within.link hs.forest hbad hzero hword hg hp hf hlast (fun e he => ⟨Finset.mem_insert_of_mem he.1, he.2⟩)
      ⟨Finset.mem_insert_self .., h0⟩
  · intro a js ha hjs hn
    have hne : ¬ (a = g ∧ js = p ++ [i]) := fun hx => hn ⟨hx.1, hx.2 ▸ hq⟩
    rw [hlink a js ha hjs, if_neg hne]
  · have hcard := card_missing hroot hq hnone hshort
    have hpt : r'.freePages .pt = r.freePages .pt - 1 := by rw [hr]; simp only [Function.update_self]
    omega
  · rw [hr]
    simp
  · rw [hr]
    exact Finset.subset_insert ..
  · rw [hr]
  · rw [hr]
  · rw [hroot _ (hshort _ hq), if_pos rfl]

/-! ## Walks -/

theorem osPfnAlloc_oops (r : Ram) (region : Region) : r.oops ≤ (r.osPfnAlloc pick region).2.oops := by
  unfold osPfnAlloc
  split
  · exact Nat.le_succ _
  · cases region <;> exact Nat.le_refl _

theorem nextTable_oops (t : Nat × Ram) (i : Fin 512) : t.2.oops ≤ (nextTable pick w t i).2.oops := by
  unfold nextTable
  simp only
  split
  · exact Nat.le_refl _
  · exact osPfnAlloc_oops t.2 .pt

theorem nextTable0_oops (t : Nat × Ram) (i : Fin 512) : t.2.oops ≤ (nextTable0 pick t i).2.oops := by
  unfold nextTable0
  simp only
  split
  · exact osPfnAlloc_oops t.2 .pt
  · exact Nat.le_refl _

/-- The table below is found or added, or there is no frame for it. -/
structure Walks (step : Nat × Ram → Fin 512 → Nat × Ram) : Prop where
  mono : ∀ t i, t.2.oops ≤ (step t i).2.oops
  next : ∀ {r : Ram} {roots : Nat → Prop} {g base : Nat} {p : Path} {i : Fin 512} {q : Finset Path}, r.Sound roots → roots g →
    p.length < 3 → r.follow g p = some base → p ++ [i] ∈ q → (∀ x ∈ q, x.length ≤ 4) →
    ((step (base, r) i).2.Sound roots ∧ Grown roots g q r (step (base, r) i).2 ∧
        (step (base, r) i).2.follow g (p ++ [i]) = some (step (base, r) i).1) ∨
      (r.freePages .pt < (r.missing g q).card ∧ r.oops < (step (base, r) i).2.oops)

theorem missing_pos (h : r.follow g p = none) (hq : p ∈ q) : 0 < (r.missing g q).card := by
  refine Finset.card_pos.mpr ⟨p, ?_⟩
  unfold missing
  exact Finset.mem_filter.mpr ⟨hq, h⟩

theorem nextTable_walks (hpick : Picks pick) (w : Bool) : Walks (nextTable pick w) := by
  refine ⟨nextTable_oops, fun {r roots g base p i q} hs hg hp hf hq hshort => ?_⟩
  unfold nextTable
  simp only
  rcases hs.word hg (by omega) hf i with ⟨h1, -, h3⟩ | ⟨h1, h2⟩
  · rw [if_pos h1]
    exact .inl ⟨hs, .refl, h3⟩
  · rw [h1, if_neg (by decide)]
    by_cases hfree : r.freePages .pt = 0
    · refine .inr ⟨hfree ▸ missing_pos h2 hq, ?_⟩
      unfold osPfnAlloc
      rw [if_pos hfree]
      exact Nat.lt_succ_self _
    · have hpfn : (r.osPfnAlloc pick .pt).1 = pick .pt r.inUse := by
        unfold osPfnAlloc
        rw [if_neg hfree]
      rw [hpfn]
      exact .inl (hs.link hpick hg hp hf h2 hfree hq hshort rfl)

/-- map_physical_page zeroes the new table once more. -/
theorem nextTable0_eq (hs : r.Sound roots) (hg : roots g) (hp : p.length < 3) (hf : r.follow g p = some base)
    (hpick : Picks pick) (hfree : r.follow g (p ++ [i]) = none → r.freePages .pt ≠ 0) :
    nextTable0 pick (base, r) i = nextTable pick true (base, r) i := by
  unfold nextTable0 nextTable
  simp only
  rcases hs.word hg (by omega) hf i with ⟨h1, -, -⟩ | ⟨h1, h2⟩
  · have hne : r.mem base i ≠ .zero := fun h => by rw [h] at h1; cases h1
    rw [if_neg hne, if_pos h1]
  · rw [h1, if_pos rfl, if_neg (by decide)]
    unfold osPfnAlloc
    rw [if_neg (hfree h2)]
    have hbase : base ≠ pick .pt r.inUse := fun he =>
      (hpick .pt r.inUse).1 (he ▸ (hs.within g p base hg (by omega) hf).1)
    simp only [bzero, put, Radix.fill_put hbase]

theorem nextTable0_walks (hpick : Picks pick) : Walks (nextTable0 pick) := by
  refine ⟨nextTable0_oops, fun {r roots g base p i q} hs hg hp hf hq hshort => ?_⟩
  by_cases hfull : r.follow g (p ++ [i]) = none ∧ r.freePages .pt = 0
  · refine .inr ⟨hfull.2 ▸ missing_pos hfull.1 hq, ?_⟩
    have hzero : r.mem base i = .zero := by
      rcases hs.word hg (by omega) hf i with ⟨-, -, h3⟩ | ⟨h1, -⟩
      · rw [hfull.1] at h3; cases h3
      · exact h1
    unfold nextTable0 osPfnAlloc
    simp only
    rw [if_pos hzero, if_pos hfull.2]
    exact Nat.lt_succ_self _
  · rw [nextTable0_eq hs hg hp hf hpick fun h2 h => hfull ⟨h2, h⟩]
    exact (nextTable_walks hpick true).next hs hg hp hf hq hshort

theorem Walks.foldl_mono {step : Nat × Ram → Fin 512 → Nat × Ram} (hw : Walks step) (is : Path) (t : Nat × Ram) :
    t.2.oops ≤ (is.foldl step t).2.oops := by
  induction is generalizing t with
  | nil => exact Nat.le_refl _
  | cons i is ih => exact (hw.mono t i).trans (ih _)

/-- A walk along the indices `is` from the table at path `p`. -/
theorem Walks.descend {step : Nat × Ram → Fin 512 → Nat × Ram} (hw : Walks step) {is : Path} (hs : r.Sound roots) (hg : roots g)
    (hp : p.length + is.length ≤ 3) (hf : r.follow g p = some base)
    (hq : ∀ x, x <+: p ++ is → p.length < x.length → x ∈ q) (hshort : ∀ x ∈ q, x.length ≤ 4) :
    ((is.foldl step (base, r)).2.Sound roots ∧ Grown roots g q r (is.foldl step (base, r)).2 ∧
        (is.foldl step (base, r)).2.follow g (p ++ is) = some (is.foldl step (base, r)).1) ∨
      (r.freePages .pt < (r.missing g q).card ∧ r.oops < (is.foldl step (base, r)).2.oops) := by
  induction is generalizing r base p with
  | nil =>
    refine .inl ⟨hs, .refl, ?_⟩
    rw [List.append_nil]
    exact hf
  | cons i is ih =>
    have hlen : p.length + (is.length + 1) ≤ 3 := hp
    have hsplit : p ++ i :: is = p ++ [i] ++ is := List.append_cons ..
    have hfirst : p ++ [i] ∈ q := by
      apply hq
      · rw [hsplit]; exact List.prefix_append ..
      · rw [List.length_append, List.length_singleton]; omega
    rcases hw.next hs hg (by omega) hf hfirst hshort with ⟨h1, h2, h3⟩ | ⟨h1, h2⟩
    · have hrest := ih (r := (step (base, r) i).2) (p := p ++ [i]) h1
        (by rw [List.length_append, List.length_singleton]; omega) h3 ?_
      · rw [List.foldl_cons, hsplit]
        rcases hrest with ⟨h4, h5, h6⟩ | ⟨h4, h5⟩
        · exact .inl ⟨h4, h2.trans h5, h6⟩
        · -- what is missing and what is left have gone down together
          have hpt := h2.pt
          have hoops := h2.oops
          refine .inr ⟨?_, ?_⟩
          · omega
          · rw [← hoops]; exact h5
      · intro x hx hxl
        rw [← hsplit] at hx
        rw [List.length_append, List.length_singleton] at hxl
        exact hq x hx (by omega)
    · exact .inr ⟨h1, h2.trans_le (hw.foldl_mono is _)⟩

/-! ## Pages -/

/-- Pages have been mapped below root `g`, with `n` new frames and the tables of `q` where they were missing. -/
structure Extended (roots : Nat → Prop) (g : Nat) (q : Finset Path) (n : Nat) (r r' : Ram) : Prop where
  others : ∀ h p, roots h → h ≠ g → p.length ≤ 4 → r'.follow h p = r.follow h p
  pt : r'.freePages .pt + (r.missing g q).card = r.freePages .pt + (r'.missing g q).card
  user : r'.freePages .user + n = r.freePages .user
  oops : r'.oops = r.oops

variable {n n' addr : Nat}

theorem Extended.refl : Extended roots g q 0 r r := ⟨fun _ _ _ _ _ => rfl, rfl, rfl, rfl⟩

theorem Extended.trans (h1 : Extended roots g q n r r') (h2 : Extended roots g q n' r' r'') : Extended roots g q (n + n') r r'' := by
  refine ⟨fun h p hh hn hp => (h2.others h p hh hn hp).trans (h1.others h p hh hn hp), ?_, ?_, h2.oops.trans h1.oops⟩
  · have e1 := h1.pt
    have e2 := h2.pt
    omega
  · have e1 := h1.user
    have e2 := h2.user
    omega

theorem Grown.extended (h : Grown roots g q r r') : Extended roots g q 0 r r' :=
  ⟨fun a p ha hn hp => h.same a p ha hp fun hx => hn hx.1, h.pt, h.user, h.oops⟩

/-- No table of the roots is frame `f`. -/
def NoTable (r : Ram) (roots : Nat → Prop) (f : Nat) : Prop := ∀ h p, roots h → p.length ≤ 3 → r.follow h p ≠ some f

/-- The tables are as they were, whatever has happened to other frames. -/
theorem Sound.congr (hs : r.Sound roots) (hmem : ∀ f, ¬ r.NoTable roots f → r'.mem f = r.mem f) (hused : r.inUse ⊆ r'.inUse) :
    r'.Sound roots ∧ ∀ h p, roots h → p.length ≤ 4 → r'.follow h p = r.follow h p := by
  have htable : ∀ {h p f}, roots h → p.length ≤ 3 → r.follow h p = some f → r'.mem f = r.mem f := fun hh hp hf =>
    hmem _ fun hno => hno _ _ hh hp hf
  have hfollow : ∀ h p, roots h → p.length ≤ 4 → r'.follow h p = r.follow h p := by
    intro h p hh hp
    apply Radix.follow_congr
    intro ks j f hk hf
    have hlen := hk.length_le
    rw [List.length_append, List.length_singleton] at hlen
    rw [htable hh (by omega) hf]
  refine ⟨⟨fun a b ks ls e ha hb hk hl h1 h2 => ?_, fun g p f hg hp hf => ?_, fun g p f hg hp hf => ?_⟩, hfollow⟩
  · have h1 := (hfollow a ks ha (by omega)).symm.trans h1
    have h2 := (hfollow b ls hb (by omega)).symm.trans h2
    exact hs.forest a b ks ls e ha hb hk hl h1 h2
  · obtain ⟨h1, h2⟩ := hs.within g p f hg hp ((hfollow g p hg hp).symm.trans hf)
    exact ⟨hused h1, h2⟩
  · have hf := (hfollow g p hg (by omega)).symm.trans hf
    rw [htable hg hp hf]
    exact hs.proper g p f hg hp hf

theorem Sound.mono (hs : r.Sound roots) (hmem : r'.mem = r.mem) (hused : r.inUse ⊆ r'.inUse) : r'.Sound roots :=
  (hs.congr (fun f _ => congrFun hmem f) hused).1

/-- A PTE gets a word that refers to a frame in use. -/
theorem Sound.leaf (hs : r.Sound roots) (word : Word) (hg : roots g) (hp : p.length = 3) (hf : r.follow g p = some base)
    (hword : word.present = true ∧ word.user = true) (hframe : word.frame ∈ r.inUse ∧ word.frame ≠ 0) :
    (r.put base i word).Sound roots ∧ (r.put base i word).follow g (p ++ [i]) = some word.frame ∧
      ∀ h js, roots h → js.length ≤ 4 → ¬ (h = g ∧ js = p ++ [i]) → (r.put base i word).follow h js = r.follow h js := by
  have hnext : word.next = some word.frame := by unfold Word.next; rw [if_pos hword.1]
  have hsame : ∀ h js, roots h → js.length ≤ 4 → ¬ (h = g ∧ js = p ++ [i]) →
      (r.put base i word).follow h js = r.follow h js := fun h js hh hjs hne =>
    Radix.follow_leaf hs.forest hg hp hf hh hjs hne
  refine ⟨⟨hs.forest.leaf hg hp hf, ?_, ?_⟩, ?_, hsame⟩
  · apply hs.within.leaf hs.forest hg hp hf
    intro h hh
    rw [hnext] at hh
    cases hh
    exact hframe
  · intro a js f ha hjs hfa j
    have hne : ¬ (a = g ∧ js = p ++ [i]) := by
      intro hx
      rw [hx.2, List.length_append, List.length_singleton] at hjs
      omega
    rw [hsame a js ha (by omega) hne] at hfa
    by_cases hfi : f = base ∧ j = i
    · obtain ⟨rfl, rfl⟩ := hfi
      have hput : (r.put f j word).mem f j = word := Radix.put_self
      rw [hput]
      exact .inr hword
    · have hput : (r.put base i word).mem f j = r.mem f j := Radix.put_other hfi
      rw [hput]
      exact hs.proper a js f ha hjs hfa j
  · rw [← hnext]
    exact Radix.follow_put_self hs.forest hg (Nat.le_of_eq hp) hf

theorem Sound.leaf_extended {word : Word} (hs : r.Sound roots) (hg : roots g) (hp : p.length = 3) (hf : r.follow g p = some base)
    (hword : word.present = true ∧ word.user = true) (hframe : word.frame ∈ r.inUse ∧ word.frame ≠ 0)
    (hshort : ∀ x ∈ q, x.length ≤ 3) : Extended roots g q 0 r (r.put base i word) := by
  obtain ⟨-, -, hsame⟩ := hs.leaf (i := i) word hg hp hf hword hframe
  have hmissing : (r.put base i word).missing g q = r.missing g q := by
    unfold missing
    apply Finset.filter_congr
    intro x hx
    have hx := hshort x hx
    rw [hsame g x hg (by omega) fun hh => ?_]
    rw [hh.2, List.length_append, List.length_singleton] at hx
    omega
  exact ⟨fun h js hh hne hjs => hsame h js hh hjs fun hx => hne hx.1, by rw [hmissing]; rfl, rfl, rfl⟩

/-- A new frame for a page, or none is left. -/
theorem alloc_user (hpick : Picks pick) (hs : r.Sound roots) :
    ((r.osPfnAlloc pick .user).2.Sound roots ∧ Extended roots g q 1 r (r.osPfnAlloc pick .user).2 ∧
        (r.osPfnAlloc pick .user).2.mem = r.mem ∧
        (r.osPfnAlloc pick .user).1 ∈ (r.osPfnAlloc pick .user).2.inUse ∧ (r.osPfnAlloc pick .user).1 ≠ 0 ∧
        (r.osPfnAlloc pick .user).1 ∉ r.inUse) ∨
      (r.freePages .user = 0 ∧ r.osPfnAlloc pick .user = (0, { r with oops := r.oops + 1 })) := by
  unfold osPfnAlloc
  by_cases hfree : r.freePages .user = 0
  · rw [if_pos hfree]
    exact .inr ⟨hfree, rfl⟩
  · rw [if_neg hfree]
    refine .inl ⟨hs.mono rfl (Finset.subset_insert ..), ⟨fun _ _ _ _ _ => rfl, ?_, ?_, rfl⟩, rfl, Finset.mem_insert_self ..,
      (hpick .user r.inUse).2, (hpick .user r.inUse).1⟩
    · simp only
      rw [Function.update_of_ne (by decide)]
      rfl
    · simp only
      rw [Function.update_self]
      omega

theorem mem_tops {x : Path} (h : x <+: [index addr 39, index addr 30, index addr 21]) (h0 : 0 < x.length) : x ∈ tops addr := by
  unfold tops
  simp only [Finset.mem_insert, Finset.mem_singleton]
  rcases x with _ | ⟨a, _ | ⟨b, _ | ⟨c, _ | ⟨d, x⟩⟩⟩⟩
  · cases h0
  · simp at h; simp [h]
  · simp at h; simp [h]
  · simp at h; simp [h]
  · have hlen := h.length_le
    simp only [List.length_cons, List.length_nil] at hlen
    omega

theorem tops_length {x : Path} (h : x ∈ tops addr) : x.length ≤ 3 := by
  unfold tops at h
  simp only [Finset.mem_insert, Finset.mem_singleton] at h
  rcases h with rfl | rfl | rfl <;> simp

/-- What is above a table that is there is there. -/
theorem tops_there {x : Path} (hf : r.follow g [index addr 39, index addr 30, index addr 21] = some base) (hx : x ∈ tops addr) :
    r.follow g x ≠ none := by
  intro hn
  obtain ⟨y, hy⟩ : x <+: [index addr 39, index addr 30, index addr 21] := by
    unfold tops at hx
    simp only [Finset.mem_insert, Finset.mem_singleton] at hx
    rcases hx with rfl | rfl | rfl <;> simp
  rw [← hy] at hf
  unfold follow at hf hn
  rw [Radix.follow_append_none hn] at hf
  cases hf

/-- The walk down to the page table of an address. -/
theorem Walks.walk {step : Nat × Ram → Fin 512 → Nat × Ram} (hw : Walks step) (hs : r.Sound roots) (hg : roots g)
    (hq : tops addr ⊆ q) (hshort : ∀ x ∈ q, x.length ≤ 3) {t : Nat × Ram}
    (ht : t = [index addr 39, index addr 30, index addr 21].foldl step (g, r)) :
    (t.2.Sound roots ∧ Grown roots g q r t.2 ∧ t.2.follow g [index addr 39, index addr 30, index addr 21] = some t.1) ∨
      (r.freePages .pt < (r.missing g q).card ∧ r.oops < t.2.oops) := by
  rw [ht]
  refine hw.descend (p := []) hs hg ?_ rfl (fun x hx h0 => hq (mem_tops hx h0)) fun x hx => (hshort x hx).trans (by decide)
  simp

/-- The PTE is written, the tables above being there. -/
theorem Sound.page (hs : r.Sound roots) (word : Word) (hg : roots g)
    (hf : r.follow g [index addr 39, index addr 30, index addr 21] = some base) (hword : word.present = true ∧ word.user = true)
    (hframe : word.frame ∈ r.inUse ∧ word.frame ≠ 0) (hshort : ∀ x ∈ q, x.length ≤ 3) :
    (r.put base (index addr 12) word).Sound roots ∧ Extended roots g q 0 r (r.put base (index addr 12) word) ∧
      (r.put base (index addr 12) word).follow g [index addr 39, index addr 30, index addr 21] = some base := by
  obtain ⟨h1, -, h3⟩ := hs.leaf (i := index addr 12) word hg rfl hf hword hframe
  refine ⟨h1, hs.leaf_extended hg rfl hf hword hframe hshort, ?_⟩
  rw [h3 g _ hg (by simp) fun hh => ?_]
  · exact hf
  · have hlen := congrArg List.length hh.2
    simp at hlen

/-- One page for alloc_pfn, vm_area_pagefault and install_page_table. -/
theorem mapUser_spec (hpick : Picks pick) (hs : r.Sound roots) (hg : roots g) (hq : tops addr ⊆ q)
    (hshort : ∀ x ∈ q, x.length ≤ 3) (upper write : Bool) :
    ((r.mapUser pick g addr upper write).Sound roots ∧ Extended roots g q 1 r (r.mapUser pick g addr upper write) ∧
        ∀ x ∈ tops addr, (r.mapUser pick g addr upper write).follow g x ≠ none) ∨
      ((r.freePages .pt < (r.missing g q).card ∨ r.freePages .user = 0) ∧ r.oops < (r.mapUser pick g addr upper write).oops) := by
  obtain ⟨t, ht⟩ : ∃ t, t = [index addr 39, index addr 30, index addr 21].foldl (nextTable pick upper) (g, r) := ⟨_, rfl⟩
  have hcall : r.mapUser pick g addr upper write =
      (t.2.osPfnAlloc pick .user).2.put t.1 (index addr 12) ⟨(t.2.osPfnAlloc pick .user).1, true, write, true⟩ := by
    rw [ht]
    rfl
  rw [hcall]
  rcases (nextTable_walks hpick upper).walk hs hg hq hshort ht with ⟨h1, h2, h3⟩ | ⟨h1, h2⟩
  · rcases alloc_user (g := g) (q := q) hpick h1 with ⟨h4, h5, h6, h7, h8, -⟩ | ⟨h4, h5⟩
    · have hf : (t.2.osPfnAlloc pick .user).2.follow g [index addr 39, index addr 30, index addr 21] = some t.1 := by
        unfold follow
        rw [h6]
        exact h3
      obtain ⟨h9, h10, h11⟩ := h4.page ⟨(t.2.osPfnAlloc pick .user).1, true, write, true⟩ hg hf ⟨rfl, rfl⟩ ⟨h7, h8⟩
        hshort
      exact .inl ⟨h9, (h2.extended.trans h5).trans h10, fun x hx => tops_there h11 hx⟩
    · refine .inr ⟨.inr (h2.user.symm.trans h4), ?_⟩
      rw [h5]
      exact Nat.lt_succ_of_le (Nat.le_of_eq h2.oops.symm)
  · exact .inr ⟨.inl h1, h2.trans_le (osPfnAlloc_oops t.2 .user)⟩

/-- One page for install_ptable, with a frame in use or a new one. -/
theorem mapPhysicalPage_spec (upfn : Nat) (hpick : Picks pick) (hs : r.Sound roots) (hg : roots g) (hq : tops addr ⊆ q)
    (hshort : ∀ x ∈ q, x.length ≤ 3) (write : Bool) (hu : upfn ≠ 0 → upfn ∈ r.inUse) {t : Nat × Ram}
    (ht : t = r.mapPhysicalPage pick g addr write upfn) :
    (t.2.Sound roots ∧ Extended roots g q (if upfn = 0 then 1 else 0) r t.2 ∧
        t.2.follow g (pagePath addr) = some t.1 ∧ (upfn = 0 → t.2.NoTable roots t.1)) ∨
      (r.freePages .pt < (r.missing g q).card ∨ (upfn = 0 ∧ r.freePages .user = 0)) := by
  obtain ⟨u, hu'⟩ : ∃ u, u = [index addr 39, index addr 30, index addr 21].foldl (nextTable0 pick) (g, r) := ⟨_, rfl⟩
  have hcall : r.mapPhysicalPage pick g addr write upfn =
      ((if upfn = 0 then u.2.osPfnAlloc pick .user else (upfn, u.2)).1,
        (if upfn = 0 then u.2.osPfnAlloc pick .user else (upfn, u.2)).2.put u.1 (index addr 12)
          ⟨(if upfn = 0 then u.2.osPfnAlloc pick .user else (upfn, u.2)).1, true, write, true⟩) := by
    rw [hu']
    rfl
  rw [hcall] at ht
  rcases (nextTable0_walks hpick).walk hs hg hq hshort hu' with ⟨h1, h2, h3⟩ | ⟨h1, -⟩
  · by_cases h0 : upfn = 0
    · simp only [if_pos h0] at ht ⊢
      rcases alloc_user (g := g) (q := q) hpick h1 with ⟨h4, h5, h6, h7, h8, h9⟩ | ⟨h4, h5⟩
      · have hf : (u.2.osPfnAlloc pick .user).2.follow g [index addr 39, index addr 30, index addr 21] = some u.1 := by
          unfold follow
          rw [h6]
          exact h3
        obtain ⟨h10, h11, -⟩ := h4.page ⟨(u.2.osPfnAlloc pick .user).1, true, write, true⟩ hg hf ⟨rfl, rfl⟩
          ⟨h7, h8⟩ hshort
        obtain ⟨-, hpage, hsame⟩ := h4.leaf (i := index addr 12) ⟨(u.2.osPfnAlloc pick .user).1, true, write, true⟩
          hg rfl hf ⟨rfl, rfl⟩ ⟨h7, h8⟩
        rw [ht]
        refine .inl ⟨h10, (h2.extended.trans h5).trans h11, hpage, fun _ h p hh hp he => ?_⟩
        -- it was not in use when the tables were complete
        have hne : ¬ (h = g ∧ p = [index addr 39, index addr 30, index addr 21] ++ [index addr 12]) := by
          intro hx
          rw [hx.2] at hp
          exact absurd hp (by simp)
        rw [hsame h p hh (by omega) hne] at he
        have hmem : u.2.follow h p = some (u.2.osPfnAlloc pick .user).1 := by
          unfold follow at he ⊢
          rw [h6] at he
          exact he
        exact h9 (h1.within h p _ hh (by omega) hmem).1
      · exact .inr (.inr ⟨h0, h2.user.symm.trans h4⟩)
    · simp only [if_neg h0] at ht ⊢
      have hframe : upfn ∈ u.2.inUse ∧ upfn ≠ 0 := ⟨h2.used (hu h0), h0⟩
      obtain ⟨h10, h11, -⟩ := h1.page ⟨upfn, true, write, true⟩ hg h3 ⟨rfl, rfl⟩ hframe hshort
      have hpage := (h1.leaf (i := index addr 12) ⟨upfn, true, write, true⟩ hg rfl h3 ⟨rfl, rfl⟩ hframe).2.1
      rw [ht]
      exact .inl ⟨h10, h2.extended.trans h11, hpage, fun h => absurd h h0⟩
  · exact .inr (.inl h1)

/-- What get_user_pte finds: the PTE of a page that is mapped. -/
theorem getUserPte_spec (hs : r.Sound roots) (hg : roots g) (addr : Nat) :
    (r.getUserPte g addr = none ∧ r.follow g (pagePath addr) = none) ∨
      ∃ base, r.getUserPte g addr = some (base, index addr 12) ∧
        r.follow g [index addr 39, index addr 30, index addr 21] = some base ∧
        r.follow g (pagePath addr) = some (r.mem base (index addr 12)).frame ∧
        (r.mem base (index addr 12)).present = true ∧ (r.mem base (index addr 12)).user = true := by
  have hroot : r.follow g [] = some g := rfl
  have hbelow : ∀ {x y : Path}, r.follow g x = none → r.follow g (x ++ y) = none := fun h => Radix.follow_append_none h
  unfold getUserPte
  simp only
  rcases hs.word hg (by decide) hroot (index addr 39) with ⟨h1, h2, h3⟩ | ⟨h1, h2⟩
  · rw [if_neg (by simp [h1, h2])]
    rcases hs.word hg (by simp) h3 (index addr 30) with ⟨h4, h5, h6⟩ | ⟨h4, h5⟩
    · rw [if_neg (by simp [h4, h5])]
      rcases hs.word hg (by simp) h6 (index addr 21) with ⟨h7, h8, h9⟩ | ⟨h7, h8⟩
      · rw [if_neg (by simp [h7, h8])]
        rcases hs.word hg (by simp) h9 (index addr 12) with ⟨h10, h11, h12⟩ | ⟨h10, h11⟩
        · rw [if_neg (by simp [h10, h11])]
          exact .inr ⟨_, rfl, h9, h12, h10, h11⟩
        · rw [if_pos (by simp [h10, Word.zero])]
          exact .inl ⟨rfl, h11⟩
      · rw [if_pos (by simp [h7, Word.zero])]
        exact .inl ⟨rfl, hbelow (y := [index addr 12]) h8⟩
    · rw [if_pos (by simp [h4, Word.zero])]
      exact .inl ⟨rfl, hbelow (y := [index addr 21, index addr 12]) h5⟩
  · rw [if_pos (by simp [h1, Word.zero])]
    exact .inl ⟨rfl, hbelow (y := [index addr 30, index addr 21, index addr 12]) h2⟩

end Ram

end Cs330.Mm
