/-
  Cs330.Mm.Walkers — the four walkers of a page table, on the words in memory.

  get_pte and get_user_pte look for the present and the user bit and go on by bits 43..12;
  alloc_pfn and the tail of vm_area_pagefault look for the present bit only;
  map_physical_page asks whether the word is 0 and goes on by FLAG_MASK, bits 45..12. On the
  words of a `Tree` the three tests agree (`Proper`), so each of them finds the table that
  the path of indices leads to (Lib.Radix), and a missing table is a new one of zeros.
  Proved: mapping a page sets its entry and no other page's, unmapping takes it away and no
  other, and the tree stays one (`page_table_is_map`).

  What os_pfn_alloc returns is `Answers`; for tables it is zeroed, and `Fresh` says that it
  is no table of the tree. Words of the kernel may be in the same tables, at indices that
  no user address has.
-/
import Mathlib.Data.Nat.Bitwise
import Cs330.Lib.Radix

namespace Cs330.Mm.Walkers

open Lib Lib.Radix

/-- The 512 words of every frame. -/
abbrev Memory := Nat → Fin 512 → UInt64

def PGD_MASK : UInt64 := 0xff8000000000
def PUD_MASK : UInt64 := 0x7fc0000000
def PMD_MASK : UInt64 := 0x3fe00000
def PTE_MASK : UInt64 := 0x1ff000
def PGD_SHIFT : UInt64 := 39
def PUD_SHIFT : UInt64 := 30
def PMD_SHIFT : UInt64 := 21
def PTE_SHIFT : UInt64 := 12
def FLAG_MASK : UInt64 := 0x3ffffffff000
def MM_WR : UInt32 := 0x2

/-- A word of a table; the masks leave nine bits. -/
def index (bits : UInt64) : Fin 512 := ⟨bits.toNat % 512, Nat.mod_lt _ (Nat.succ_pos 511)⟩

def pgdIndex (addr : UInt64) : Fin 512 := index ((addr &&& PGD_MASK) >>> PGD_SHIFT)
def pudIndex (addr : UInt64) : Fin 512 := index ((addr &&& PUD_MASK) >>> PUD_SHIFT)
def pmdIndex (addr : UInt64) : Fin 512 := index ((addr &&& PMD_MASK) >>> PMD_SHIFT)
def pteIndex (addr : UInt64) : Fin 512 := index ((addr &&& PTE_MASK) >>> PTE_SHIFT)

/-- `(*entry >> PTE_SHIFT) & 0xFFFFFFFF` -/
def pfnOf (entry : UInt64) : Nat := ((entry >>> PTE_SHIFT) &&& 0xFFFFFFFF).toNat

/-- `(pfn << PTE_SHIFT) | flags` -/
def entryOf (pfn : UInt32) (flags : UInt64) : UInt64 := (pfn.toUInt64 <<< PTE_SHIFT) ||| flags

/-! ## The walkers -/

/-- Where the entry of an address is, if the walk comes to it. -/
def getPte (m : Memory) (pgd : UInt32) (addr : UInt64) : Option (Nat × Fin 512) :=
  let base := pgd.toNat
  let entry := m base (pgdIndex addr)
  if entry &&& 0x1 = 0 ∨ entry &&& 0x4 = 0 then none
  else
    let base := pfnOf entry
    let entry := m base (pudIndex addr)
    if entry &&& 0x1 = 0 ∨ entry &&& 0x4 = 0 then none
    else
      let base := pfnOf entry
      let entry := m base (pmdIndex addr)
      -- the third test is always false
      if entry &&& 0x1 = 0 ∨ entry &&& 0x4 = 0 ∨ entry &&& 0x80 = 1 then none
      else
        let base := pfnOf entry
        let entry := m base (pteIndex addr)
        if entry &&& 0x1 = 0 ∨ entry &&& 0x4 = 0 then none else some (base, pteIndex addr)

/-- entry.c has the same walk; `dump` prints on the way. -/
def getUserPte (m : Memory) (pgd : UInt32) (addr : UInt64) : Option (Nat × Fin 512) := getPte m pgd addr

/-- What os_pfn_alloc returns for each table, if it is asked for, and for the page. -/
structure Answers where
  pud : UInt32
  pmd : UInt32
  pt : UInt32
  user : UInt32

/-- One level of alloc_pfn and vm_area_pagefault; os_pfn_alloc zeroes the frame. -/
def nextTable (t : Nat × Memory) (i : Fin 512) (pfn : UInt32) : Nat × Memory :=
  let entry := t.2 t.1 i
  if entry &&& 0x1 ≠ 0 then (pfnOf entry, t.2)
  else (pfn.toNat, put (fill t.2 pfn.toNat 0) t.1 i (entryOf pfn 0x7))

def mapUser (m : Memory) (pgd : UInt32) (addr acFlags : UInt64) (ans : Answers) : Memory :=
  let t := nextTable (pgd.toNat, m) (pgdIndex addr) ans.pud
  let t := nextTable t (pudIndex addr) ans.pmd
  let t := nextTable t (pmdIndex addr) ans.pt
  put t.2 t.1 (pteIndex addr) (entryOf ans.user acFlags)

def allocPfn (m : Memory) (pgd : UInt32) (addr : UInt64) (prot : UInt32) (ans : Answers) : Memory :=
  mapUser m pgd addr (0x5 ||| (prot &&& 0x2)).toUInt64 ans

/-- vm_area_pagefault, once the fault is one of an area. -/
def vmAreaPagefault (m : Memory) (pgd : UInt32) (addr : UInt64) (errorCode : UInt32) (ans : Answers) : Memory :=
  mapUser m pgd addr (0x5 ||| (errorCode &&& 0x2)).toUInt64 ans

/-- One level of map_physical_page. -/
def nextTable0 (t : Nat × Memory) (i : Fin 512) (pfn : UInt32) : Nat × Memory :=
  let entry := t.2 t.1 i
  if entry = 0 then (pfn.toNat, fill (put (fill t.2 pfn.toNat 0) t.1 i (entryOf pfn 0x7)) pfn.toNat 0)
  else (((entry &&& FLAG_MASK) >>> PTE_SHIFT).toNat, t.2)

def mapPhysicalPage (m : Memory) (pgd : UInt32) (address : UInt64) (accessFlags upfn : UInt32) (ans : Answers) : UInt32 × Memory :=
  let t := nextTable0 (pgd.toNat, m) (pgdIndex address) ans.pud
  let t := nextTable0 t (pudIndex address) ans.pmd
  let t := nextTable0 t (pmdIndex address) ans.pt
  let upfn := if upfn = 0 then ans.user else upfn
  let m := put t.2 t.1 (pteIndex address) (entryOf upfn 0x5)
  (upfn, if accessFlags &&& MM_WR ≠ 0 then put m t.1 (pteIndex address) (m t.1 (pteIndex address) ||| 0x2) else m)

/-- The memory, the reference counts of the frames, and the frame that is freed. -/
def pfnUnmap (m : Memory) (refcount : Nat → UInt8) (pgd : UInt32) (addr : UInt64) : Memory × (Nat → UInt8) × Option Nat :=
  match getPte m pgd addr with
  | none => (m, refcount, none)
  | some (base, i) =>
    let pfn := pfnOf (m base i)
    if refcount pfn = 1 then (put m base i 0, Function.update refcount pfn 0, some pfn)
    else (put m base i 0, Function.update refcount pfn (refcount pfn - 1), none)

/-! ## Words -/

/-- The table a word refers to: present, and not a page of 2 MB. -/
def next (entry : UInt64) : Option Nat := if entry &&& 0x1 ≠ 0 ∧ entry &&& 0x80 = 0 then some (pfnOf entry) else none

/-- What a word above the last level is on the way of a user address: 0, or as the walkers
    write it, present and for user mode, with a frame of 32 bits. -/
def Proper (entry : UInt64) : Prop :=
  entry = 0 ∨ (entry &&& 0x1 ≠ 0 ∧ entry &&& 0x4 ≠ 0 ∧ entry &&& 0x80 = 0 ∧
    ((entry &&& FLAG_MASK) >>> PTE_SHIFT).toNat = pfnOf entry)

theorem and_bit (w : UInt64) (k : Nat) (bit : UInt64) (hbit : bit.toNat = 2 ^ k) :
    w &&& bit = 0 ↔ w.toNat / 2 ^ k % 2 = 0 := by
  rw [← UInt64.toNat_inj, UInt64.toNat_and, hbit, Nat.and_two_pow, Nat.testBit_eq_decide_div_mod_eq]
  rcases Nat.mod_two_eq_zero_or_one (w.toNat / 2 ^ k) with h | h
  · simp [h]
  · simp [h]

theorem and_mask (x s n : Nat) : (x &&& (2 ^ n - 1) <<< s) >>> s = x / 2 ^ s % 2 ^ n := by
  rw [Nat.shiftRight_and_distrib, Nat.shiftLeft_shiftRight, Nat.and_two_pow_sub_one_eq_mod, Nat.shiftRight_eq_div_pow]

theorem pfnOf_eq (w : UInt64) : pfnOf w = w.toNat / 2 ^ 12 % 2 ^ 32 := by
  unfold pfnOf
  rw [UInt64.toNat_and, UInt64.toNat_shiftRight]
  show w.toNat >>> 12 &&& (2 ^ 32 - 1) = _
  rw [Nat.and_two_pow_sub_one_eq_mod, Nat.shiftRight_eq_div_pow]

theorem flagMask_eq (w : UInt64) : ((w &&& FLAG_MASK) >>> PTE_SHIFT).toNat = w.toNat / 2 ^ 12 % 2 ^ 34 := by
  rw [UInt64.toNat_shiftRight, UInt64.toNat_and]
  exact and_mask w.toNat 12 34

theorem entryOf_toNat (pfn : UInt32) {flags : UInt64} (h : flags.toNat < 2 ^ 12) :
    (entryOf pfn flags).toNat = pfn.toNat * 2 ^ 12 + flags.toNat := by
  have hlt := pfn.toNat_lt
  have hshift : PTE_SHIFT.toNat % 64 = 12 := rfl
  unfold entryOf
  rw [UInt64.toNat_or, UInt64.toNat_shiftLeft, UInt32.toNat_toUInt64, hshift,
    Nat.mod_eq_of_lt (by rw [Nat.shiftLeft_eq]; omega), ← Nat.shiftLeft_add_eq_or_of_lt h, Nat.shiftLeft_eq]

/-- The low bits of an entry are those of the flags. -/
theorem entryOf_bit (pfn : UInt32) {flags : UInt64} (h : flags.toNat < 2 ^ 12) {k : Nat} (hk : k < 12) {bit : UInt64}
    (hbit : bit.toNat = 2 ^ k) : entryOf pfn flags &&& bit = 0 ↔ flags.toNat / 2 ^ k % 2 = 0 := by
  obtain ⟨j, hj⟩ := Nat.exists_eq_add_of_lt hk
  have hpow : pfn.toNat * 2 ^ 12 = 2 ^ k * (2 * (2 ^ j * pfn.toNat)) := by
    rw [hj, Nat.pow_succ, Nat.pow_add, Nat.mul_comm pfn.toNat, Nat.mul_assoc, Nat.mul_assoc, Nat.mul_left_comm (2 ^ j)]
  rw [and_bit _ k bit hbit, entryOf_toNat pfn h, hpow, Nat.mul_add_div (Nat.two_pow_pos k), Nat.mul_add_mod]

/-- The word for a new table. -/
theorem proper_new (pfn : UInt32) : Proper (entryOf pfn 0x7) ∧ next (entryOf pfn 0x7) = some pfn.toNat := by
  have hlow : (0x7 : UInt64).toNat < 2 ^ 12 := by decide
  have hval := entryOf_toNat pfn hlow
  have hlt := pfn.toNat_lt
  have h1 : entryOf pfn 0x7 &&& 0x1 ≠ 0 := mt (entryOf_bit pfn hlow (k := 0) (by decide) rfl).mp (by decide)
  have h4 : entryOf pfn 0x7 &&& 0x4 ≠ 0 := mt (entryOf_bit pfn hlow (k := 2) (by decide) rfl).mp (by decide)
  have h80 : entryOf pfn 0x7 &&& 0x80 = 0 := (entryOf_bit pfn hlow (k := 7) (by decide) rfl).mpr (by decide)
  have hpfn : pfnOf (entryOf pfn 0x7) = pfn.toNat := by
    rw [pfnOf_eq, hval]
    change (pfn.toNat * 2 ^ 12 + 7) / 2 ^ 12 % 2 ^ 32 = pfn.toNat
    omega
  refine ⟨.inr ⟨h1, h4, h80, ?_⟩, ?_⟩
  · rw [flagMask_eq, hpfn, hval]
    change (pfn.toNat * 2 ^ 12 + 7) / 2 ^ 12 % 2 ^ 34 = pfn.toNat
    omega
  · unfold next
    rw [if_pos ⟨h1, h80⟩, hpfn]

/-- Every test of the walkers agrees with `next`. -/
theorem Proper.cases {entry : UInt64} (h : Proper entry) :
    (entry = 0 ∧ next entry = none) ∨
    (entry ≠ 0 ∧ entry &&& 0x1 ≠ 0 ∧ entry &&& 0x4 ≠ 0 ∧ next entry = some (pfnOf entry) ∧
      ((entry &&& FLAG_MASK) >>> PTE_SHIFT).toNat = pfnOf entry) := by
  rcases h with rfl | ⟨h1, h4, h80, hmask⟩
  · exact .inl ⟨rfl, rfl⟩
  · refine .inr ⟨fun h0 => h1 (by rw [h0]; rfl), h1, h4, ?_, hmask⟩
    unfold next
    rw [if_pos ⟨h1, h80⟩]

/-! ## Addresses -/

/-- Nine bits of an address. -/
theorem index_val (a mask shift : UInt64) (k : Nat) (hmask : mask.toNat = (2 ^ 9 - 1) <<< k) (hshift : shift.toNat % 64 = k) :
    (index ((a &&& mask) >>> shift)).val = a.toNat / 2 ^ k % 2 ^ 9 := by
  show ((a &&& mask) >>> shift).toNat % 512 = _
  rw [UInt64.toNat_shiftRight, UInt64.toNat_and, hmask, hshift, and_mask]
  exact Nat.mod_mod _ _

theorem pgdIndex_val (a : UInt64) : (pgdIndex a).val = a.toNat / 2 ^ 39 % 2 ^ 9 := index_val a PGD_MASK PGD_SHIFT 39 rfl rfl

theorem pudIndex_val (a : UInt64) : (pudIndex a).val = a.toNat / 2 ^ 30 % 2 ^ 9 := index_val a PUD_MASK PUD_SHIFT 30 rfl rfl

theorem pmdIndex_val (a : UInt64) : (pmdIndex a).val = a.toNat / 2 ^ 21 % 2 ^ 9 := index_val a PMD_MASK PMD_SHIFT 21 rfl rfl

theorem pteIndex_val (a : UInt64) : (pteIndex a).val = a.toNat / 2 ^ 12 % 2 ^ 9 := index_val a PTE_MASK PTE_SHIFT 12 rfl rfl

/-- From CODE_START on, and where the four indices are all of the address. -/
def IsUser (addr : UInt64) : Prop := 0x100000000 ≤ addr.toNat ∧ addr.toNat < 2 ^ 48

def pageOf (addr : UInt64) : Nat := addr.toNat / 2 ^ 12

/-- The indices that lead to the last table. -/
def way (addr : UInt64) : List (Fin 512) := [pgdIndex addr, pudIndex addr, pmdIndex addr]

theorem way_length (addr : UInt64) : (way addr).length = 3 := rfl

/-- The indices are the page. -/
theorem page_of_indices {a b : UInt64} (ha : IsUser a) (hb : IsUser b) (hway : way a = way b) (hlast : pteIndex a = pteIndex b) :
    pageOf a = pageOf b := by
  unfold way at hway
  simp only [List.cons.injEq, and_true] at hway
  have h1 := congrArg Fin.val hway.1
  have h2 := congrArg Fin.val hway.2.1
  have h3 := congrArg Fin.val hway.2.2
  have h4 := congrArg Fin.val hlast
  rw [pgdIndex_val, pgdIndex_val] at h1
  rw [pudIndex_val, pudIndex_val] at h2
  rw [pmdIndex_val, pmdIndex_val] at h3
  rw [pteIndex_val, pteIndex_val] at h4
  have hla := ha.2
  have hlb := hb.2
  unfold pageOf
  omega

/-! ## Trees -/

/-- Where a path of indices leads. -/
def follow (m : Memory) (pgd : UInt32) (p : List (Fin 512)) : Option Nat := Radix.follow next m pgd.toNat p

/-- A page table: each table is referred to once, and the words on the way of a user
    address are the user's. -/
structure Tree (m : Memory) (pgd : UInt32) : Prop where
  forest : Forest next (· = pgd.toNat) 3 m
  proper : ∀ addr, IsUser addr → ∀ p i f, p ++ [i] <+: way addr → follow m pgd p = some f → Proper (m f i)
  leaf : ∀ addr, IsUser addr → ∀ f, follow m pgd (way addr) = some f → m f (pteIndex addr) &&& 0x1 ≠ 0 →
    m f (pteIndex addr) &&& 0x4 ≠ 0

/-- The frame is no table of the tree. -/
def NoTable (m : Memory) (pgd : UInt32) (h : Nat) : Prop := ∀ p, p.length ≤ 3 → follow m pgd p ≠ some h

/-- What os_pfn_alloc promises. -/
def Fresh (m : Memory) (pgd : UInt32) (ans : Answers) : Prop :=
  [ans.pud, ans.pmd, ans.pt].Nodup ∧ ∀ pfn ∈ [ans.pud, ans.pmd, ans.pt], NoTable m pgd pfn.toNat

variable {m m' m'' : Memory} {pgd : UInt32} {a b : UInt64} {p : List (Fin 512)} {i : Fin 512} {base f h : Nat} {w : UInt64}

theorem follow_concat : follow m pgd (p ++ [i]) = (follow m pgd p).bind fun f => next (m f i) := Radix.follow_concat

theorem NoTable.within (hh : NoTable m pgd h) : Within next (· ≠ h) (· = pgd.toNat) 3 m := by
  intro g js f hg hjs hf he
  obtain rfl := hg
  exact hh js hjs (he ▸ hf)

/-- Tables may have been added, and the last of them are empty; the words of the last tables
    there were are as before. -/
structure Grown (pgd : UInt32) (m m' : Memory) : Prop where
  kept : ∀ js f, js.length ≤ 3 → follow m pgd js = some f → follow m' pgd js = some f
  words : ∀ js f, js.length = 3 → follow m pgd js = some f → ∀ j, m' f j = m f j
  empty : ∀ js f, js.length = 3 → follow m pgd js = none → follow m' pgd js = some f → ∀ j, m' f j = 0

theorem Grown.refl (pgd : UInt32) (m : Memory) : Grown pgd m m :=
  ⟨fun _ _ _ h => h, fun _ _ _ _ _ => rfl, fun _ _ _ h h' => by rw [h] at h'; cases h'⟩

theorem Grown.trans (h1 : Grown pgd m m') (h2 : Grown pgd m' m'') : Grown pgd m m'' := by
  refine ⟨fun js f hjs hf => h2.kept js f hjs (h1.kept js f hjs hf), fun js f hjs hf j => ?_, fun js f hjs hf hf' j => ?_⟩
  · rw [h2.words js f hjs (h1.kept js f (by omega) hf) j, h1.words js f hjs hf j]
  · cases hmid : follow m' pgd js with
    | none => exact h2.empty js f hjs hmid hf' j
    | some e =>
      have hsame := h2.kept js e (by omega) hmid
      rw [hf'] at hsame
      cases hsame
      rw [h2.words js f hjs hmid j]
      exact h1.empty js f hjs hf hmid j

/-- What a step of a walk comes to. -/
structure Stepped (pgd : UInt32) (m m' : Memory) (p : List (Fin 512)) (base : Nat) (h : Nat) : Prop where
  tree : Tree m' pgd
  grown : Grown pgd m m'
  there : follow m' pgd p = some base
  others : ∀ h', h' ≠ h → NoTable m pgd h' → NoTable m' pgd h'

theorem way_short (hp : p ++ [i] <+: way a) : p.length < 3 := by
  have hlen := hp.length_le
  rw [List.length_append, List.length_singleton] at hlen
  exact hlen

/-- The table is missing, and `pfn` becomes it. -/
theorem link_step (hT : Tree m pgd) (hp : p ++ [i] <+: way a) (hf : follow m pgd p = some base) (hzero : m base i = 0)
    (pfn : UInt32) (hh : NoTable m pgd pfn.toNat) :
    Stepped pgd m (put (fill m pfn.toNat 0) base i (entryOf pfn 0x7)) (p ++ [i]) pfn.toNat pfn.toNat := by
  obtain ⟨hproper, hnext⟩ := proper_new pfn
  have hlt := way_short hp
  have hnone : next (m base i) = none := by rw [hzero]; rfl
  have hlink : ∀ js, js.length ≤ 4 → follow (put (fill m pfn.toNat 0) base i (entryOf pfn 0x7)) pgd js =
      if js = p ++ [i] then some pfn.toNat else follow m pgd js := by
    intro js hjs
    have hl := follow_link hT.forest hh.within (fun hx => hx rfl) (show next 0 = none from rfl) hnext rfl hlt hf hnone rfl hjs
    simp only [true_and] at hl
    exact hl
  have hbase : base ≠ pfn.toNat := fun he => hh p (by omega) (he ▸ hf)
  -- the words of a table there was, except the one written
  have hword : ∀ f j, f ≠ pfn.toNat → ¬ (f = base ∧ j = i) → put (fill m pfn.toNat 0) base i (entryOf pfn 0x7) f j = m f j := by
    intro f j hf' hne
    rw [put_other hne]
    unfold fill
    rw [Function.update_of_ne hf']
  have hnew : ∀ j, put (fill m pfn.toNat 0) base i (entryOf pfn 0x7) pfn.toNat j = 0 := by
    intro j
    rw [put_other fun hx => hbase hx.1.symm]
    unfold fill
    rw [Function.update_self]
  have hthere : follow m pgd (p ++ [i]) = none := by
    rw [follow_concat, hf]
    exact hnone
  -- a last table is not `base`
  have hlast : ∀ js f, js.length = 3 → follow m pgd js = some f → f ≠ base := by
    intro js f hjs hfj he
    subst he
    have hpath := (hT.forest _ _ js p f rfl rfl (by omega) (by omega) hfj hf).2
    rw [hpath] at hjs
    omega
  have hplen : (p ++ [i]).length ≤ 3 := by
    rw [List.length_append, List.length_singleton]
    omega
  refine ⟨⟨?_, ?_, ?_⟩, ⟨?_, ?_, ?_⟩, ?_, ?_⟩
  · exact hT.forest.link hh.within (fun hx => hx rfl) rfl hnext rfl hlt hf hnone
  · intro addr haddr q j f hq hfq
    have hqlen := way_short hq
    rw [hlink q (by omega)] at hfq
    split at hfq
    · cases hfq
      rw [hnew j]
      exact .inl rfl
    · by_cases hfj : f = base ∧ j = i
      · rw [hfj.1, hfj.2, put_self]
        exact hproper
      · rw [hword f j (fun he => hh q (by omega) (he ▸ hfq)) hfj]
        exact hT.proper addr haddr q j f hq hfq
  · intro addr haddr f hfa
    rw [hlink (way addr) (Nat.le_succ 3)] at hfa
    split at hfa
    · cases hfa
      rw [hnew (pteIndex addr)]
      intro h
      exact absurd rfl h
    · rw [hword f _ (fun he => hh (way addr) (Nat.le_refl 3) (he ▸ hfa)) fun h => hlast (way addr) f rfl hfa h.1]
      exact hT.leaf addr haddr f hfa
  · intro js f hjs hfj
    rw [hlink js (by omega), if_neg, hfj]
    rintro rfl
    rw [hthere] at hfj
    cases hfj
  · intro js f hjs hfj j
    exact hword f j (fun he => hh js (by omega) (he ▸ hfj)) fun h => hlast js f hjs hfj h.1
  · intro js f hjs hnone' hfj j
    rw [hlink js (by omega), hnone'] at hfj
    split at hfj
    · cases hfj
      exact hnew j
    · cases hfj
  · rw [hlink _ (by omega), if_pos rfl]
  · intro h' hne hno js hjs hfj
    rw [hlink js (by omega)] at hfj
    split at hfj
    · cases hfj
      exact hne rfl
    · exact hno js hjs hfj

/-- What both `nextTable` and `nextTable0` do on the way of a user address. -/
def Builds (step : Nat × Memory → Fin 512 → UInt32 → Nat × Memory) (pgd : UInt32) : Prop :=
  ∀ m a p i base (pfn : UInt32), Tree m pgd → IsUser a → p ++ [i] <+: way a → follow m pgd p = some base → NoTable m pgd pfn.toNat →
    Stepped pgd m (step (base, m) i pfn).2 (p ++ [i]) (step (base, m) i pfn).1 pfn.toNat

/-- The table is there. -/
theorem found_step (hT : Tree m pgd) (hf : follow m pgd p = some base) (hnext : next (m base i) = some f) :
    Stepped pgd m m (p ++ [i]) f h := by
  refine ⟨hT, Grown.refl pgd m, ?_, fun _ _ hno => hno⟩
  rw [follow_concat, hf]
  exact hnext

theorem nextTable_builds (pgd : UInt32) : Builds nextTable pgd := by
  intro m a p i base pfn hT ha hp hf hh
  rcases (hT.proper a ha p i base hp hf).cases with ⟨hzero, -⟩ | ⟨-, h1, -, hnext, -⟩
  · have hstep : nextTable (base, m) i pfn = (pfn.toNat, put (fill m pfn.toNat 0) base i (entryOf pfn 0x7)) :=
      if_neg fun h => h (show m base i &&& 0x1 = 0 by rw [hzero]; rfl)
    rw [hstep]
    exact link_step hT hp hf hzero pfn hh
  · have hstep : nextTable (base, m) i pfn = (pfnOf (m base i), m) := if_pos h1
    rw [hstep]
    exact found_step hT hf hnext

/-- Its second bzero finds the frame zeroed, and FLAG_MASK finds the frame of the word. -/
theorem nextTable0_builds (pgd : UInt32) : Builds nextTable0 pgd := by
  intro m a p i base pfn hT ha hp hf hh
  rcases (hT.proper a ha p i base hp hf).cases with ⟨hzero, -⟩ | ⟨h0, -, -, hnext, hmask⟩
  · have hbase : base ≠ pfn.toNat := fun he => hh p (Nat.le_of_lt (way_short hp)) (he ▸ hf)
    have hstep : nextTable0 (base, m) i pfn = (pfn.toNat, fill (put (fill m pfn.toNat 0) base i (entryOf pfn 0x7)) pfn.toNat 0) :=
      if_pos hzero
    rw [hstep, fill_put hbase]
    exact link_step hT hp hf hzero pfn hh
  · have hstep : nextTable0 (base, m) i pfn = (((m base i &&& FLAG_MASK) >>> PTE_SHIFT).toNat, m) := if_neg h0
    rw [hstep, hmask]
    exact found_step hT hf hnext

/-- The three levels, one after the other. -/
def tables (step : Nat × Memory → Fin 512 → UInt32 → Nat × Memory) (m : Memory) (pgd : UInt32) (addr : UInt64) (ans : Answers) :
    Nat × Memory :=
  step (step (step (pgd.toNat, m) (pgdIndex addr) ans.pud) (pudIndex addr) ans.pmd) (pmdIndex addr) ans.pt

/-- They come to the last table of the address. -/
theorem tables_built {step : Nat × Memory → Fin 512 → UInt32 → Nat × Memory} (hb : Builds step pgd) (hT : Tree m pgd)
    (ha : IsUser a) {ans : Answers} (hans : Fresh m pgd ans) :
    Tree (tables step m pgd a ans).2 pgd ∧ Grown pgd m (tables step m pgd a ans).2 ∧
    follow (tables step m pgd a ans).2 pgd (way a) = some (tables step m pgd a ans).1 := by
  obtain ⟨hnodup, hno⟩ := hans
  simp only [List.nodup_cons, List.mem_cons, List.not_mem_nil, or_false, not_or, not_false_eq_true, List.nodup_nil, and_true] at hnodup
  obtain ⟨⟨hud, hut⟩, hdt⟩ := hnodup
  have hne : ∀ {x y : UInt32}, x ≠ y → y.toNat ≠ x.toNat := fun hxy he => hxy (UInt32.toNat_inj.1 he.symm)
  have h1 := hb m a [] (pgdIndex a) pgd.toNat ans.pud hT ha ⟨[pudIndex a, pmdIndex a], rfl⟩ rfl (hno _ (by simp))
  have h2 := hb _ a [pgdIndex a] (pudIndex a) _ ans.pmd h1.tree ha ⟨[pmdIndex a], rfl⟩ h1.there
    (h1.others _ (hne hud) (hno _ (by simp)))
  have h3 := hb _ a [pgdIndex a, pudIndex a] (pmdIndex a) _ ans.pt h2.tree ha (List.prefix_refl _) h2.there
    (h2.others _ (hne hdt) (h1.others _ (hne hut) (hno _ (by simp))))
  exact ⟨h3.tree, h1.grown.trans (h2.grown.trans h3.grown), h3.there⟩

/-! ## What get_pte finds -/

/-- The third test of get_pte on the third level. -/
theorem huge_never (entry : UInt64) : entry &&& 0x80 ≠ 1 := by
  intro h
  have hval := congrArg UInt64.toNat h
  rw [UInt64.toNat_and, show (0x80 : UInt64).toNat = 2 ^ 7 from rfl, Nat.and_two_pow] at hval
  change _ = 1 at hval
  omega

/-- One level of get_pte. -/
theorem level_cases (hT : Tree m pgd) (ha : IsUser a) (hp : p ++ [i] <+: way a) (hf : follow m pgd p = some base) :
    ((m base i &&& 0x1 = 0 ∨ m base i &&& 0x4 = 0) ∧ follow m pgd (way a) = none) ∨
    (¬ (m base i &&& 0x1 = 0 ∨ m base i &&& 0x4 = 0) ∧ follow m pgd (p ++ [i]) = some (pfnOf (m base i))) := by
  have hstep : follow m pgd (p ++ [i]) = next (m base i) := by
    rw [follow_concat, hf]
    rfl
  rcases (hT.proper a ha p i base hp hf).cases with ⟨hzero, hnext⟩ | ⟨-, h1, h4, hnext, -⟩
  · refine .inl ⟨.inl (by rw [hzero]; rfl), ?_⟩
    obtain ⟨js, hjs⟩ := hp
    rw [← hjs]
    exact follow_append_none (hstep.trans hnext)
  · refine .inr ⟨?_, hstep.trans hnext⟩
    rintro (h | h)
    · exact h1 h
    · exact h4 h

theorem getPte_eq (hT : Tree m pgd) (ha : IsUser a) : getPte m pgd a = (follow m pgd (way a)).bind fun f =>
    if m f (pteIndex a) &&& 0x1 = 0 ∨ m f (pteIndex a) &&& 0x4 = 0 then none else some (f, pteIndex a) := by
  unfold getPte
  dsimp only
  rcases level_cases hT ha (p := []) (i := pgdIndex a) ⟨[pudIndex a, pmdIndex a], rfl⟩ rfl with ⟨ht, hn⟩ | ⟨ht, h1⟩
  · rw [if_pos ht, hn]
    rfl
  rw [if_neg ht]
  rcases level_cases hT ha (p := [pgdIndex a]) (i := pudIndex a) ⟨[pmdIndex a], rfl⟩ h1 with ⟨ht, hn⟩ | ⟨ht, h2⟩
  · rw [if_pos ht, hn]
    rfl
  rw [if_neg ht]
  rcases level_cases hT ha (p := [pgdIndex a, pudIndex a]) (i := pmdIndex a) (List.prefix_refl _) h2 with ⟨ht, hn⟩ | ⟨ht, h3⟩
  · rw [if_pos, hn]
    · rfl
    · rcases ht with ht | ht
      · exact .inl ht
      · exact .inr (.inl ht)
  rw [if_neg, show way a = [pgdIndex a, pudIndex a] ++ [pmdIndex a] from rfl, h3]
  · rfl
  · rintro (h | h | h)
    · exact ht (.inl h)
    · exact ht (.inr h)
    · exact huge_never _ h

/-- What is found is an entry of the last table. -/
theorem getPte_some (hT : Tree m pgd) (ha : IsUser a) {e : Nat × Fin 512} (he : getPte m pgd a = some e) :
    follow m pgd (way a) = some e.1 ∧ e.2 = pteIndex a := by
  rw [getPte_eq hT ha] at he
  cases hf : follow m pgd (way a) with
  | none => rw [hf] at he; cases he
  | some f =>
    rw [hf] at he
    change (if _ then _ else _) = some e at he
    split at he
    · cases he
    · cases he
      exact ⟨rfl, rfl⟩

/-- Both walks find for the other pages what they found, with the same contents. -/
def OthersKept (m m' : Memory) (pgd : UInt32) (a : UInt64) : Prop :=
  ∀ b, IsUser b → pageOf a ≠ pageOf b → getPte m' pgd b = getPte m pgd b ∧ getUserPte m' pgd b = getUserPte m pgd b ∧
    ∀ e, getPte m pgd b = some e ∨ getUserPte m pgd b = some e → m' e.1 e.2 = m e.1 e.2

/-- A new table is empty, so nothing more is found. -/
theorem getPte_grown (hT : Tree m pgd) (hT' : Tree m' pgd) (hg : Grown pgd m m') (hb : IsUser b) :
    getPte m' pgd b = getPte m pgd b ∧ ∀ e, getPte m pgd b = some e → m' e.1 e.2 = m e.1 e.2 := by
  refine ⟨?_, ?_⟩
  · rw [getPte_eq hT hb, getPte_eq hT' hb]
    cases hf : follow m pgd (way b) with
    | some f =>
      rw [hg.kept (way b) f (Nat.le_refl 3) hf]
      show (if _ then _ else _) = (if _ then _ else _)
      rw [hg.words (way b) f rfl hf]
    | none =>
      cases hf' : follow m' pgd (way b) with
      | none => rfl
      | some f =>
        have hzero := hg.empty (way b) f rfl hf hf' (pteIndex b)
        exact if_pos (.inl (by rw [hzero]; rfl))
  · intro e he
    exact hg.words (way b) e.1 rfl (getPte_some hT hb he).1 e.2

/-! ## The last level -/

section
variable (hT : Tree m pgd) (ha : IsUser a) (hf : follow m pgd (way a) = some f)
include hT hf

theorem follow_put_leaf (js : List (Fin 512)) (hjs : js.length ≤ 3) : follow (put m f i w) pgd js = follow m pgd js := by
  apply follow_leaf hT.forest rfl rfl hf rfl (Nat.le_succ_of_le hjs)
  intro h
  have hlen := congrArg List.length h.2
  rw [List.length_append, way_length, List.length_singleton] at hlen
  omega

theorem put_above (hp : p ++ [i] <+: way b) (hq : follow m pgd p = some base) {k j : Fin 512} : put m f k w base j = m base j := by
  apply put_other
  intro h
  have hlt := way_short hp
  have hpath := (hT.forest _ _ p (way a) f rfl rfl (by omega) (Nat.le_refl 3) (h.1 ▸ hq) hf).2
  rw [hpath, way_length] at hlt
  omega

include ha

/-- The entry of another page is another word. -/
theorem put_leaf_other (hb : IsUser b) (hne : pageOf a ≠ pageOf b) (hq : follow m pgd (way b) = some base) :
    put m f (pteIndex a) w base (pteIndex b) = m base (pteIndex b) := by
  apply put_other
  intro h
  have hpath := (hT.forest _ _ (way a) (way b) f rfl rfl (Nat.le_refl 3) (Nat.le_refl 3) hf (h.1 ▸ hq)).2
  exact hne (page_of_indices ha hb hpath h.2.symm)

omit ha in
theorem Tree.put_leaf (hw : w &&& 0x1 ≠ 0 → w &&& 0x4 ≠ 0) : Tree (put m f (pteIndex a) w) pgd := by
  refine ⟨hT.forest.leaf rfl rfl hf, ?_, ?_⟩
  · intro b hb p i base hp hq
    rw [follow_put_leaf hT hf p (Nat.le_of_lt (way_short hp))] at hq
    rw [put_above hT hf hp hq]
    exact hT.proper b hb p i base hp hq
  · intro b hb base hq
    rw [follow_put_leaf hT hf (way b) (Nat.le_refl 3)] at hq
    by_cases h : base = f ∧ pteIndex b = pteIndex a
    · rw [h.1, h.2, put_self]
      exact hw
    · rw [put_other h]
      exact hT.leaf b hb base hq

theorem getPte_put_leaf (hw : w &&& 0x1 ≠ 0 → w &&& 0x4 ≠ 0) : getPte (put m f (pteIndex a) w) pgd a =
    if w &&& 0x1 = 0 ∨ w &&& 0x4 = 0 then none else some (f, pteIndex a) := by
  rw [getPte_eq (Tree.put_leaf hT hf hw) ha, follow_put_leaf hT hf (way a) (Nat.le_refl 3), hf]
  show (if _ then _ else _) = _
  rw [put_self]

theorem put_leaf_kept (hw : w &&& 0x1 ≠ 0 → w &&& 0x4 ≠ 0) : OthersKept m (put m f (pteIndex a) w) pgd a := by
  intro b hb hne
  have hsame : getPte (put m f (pteIndex a) w) pgd b = getPte m pgd b := by
    rw [getPte_eq (Tree.put_leaf hT hf hw) hb, getPte_eq hT hb, follow_put_leaf hT hf (way b) (Nat.le_refl 3)]
    cases hq : follow m pgd (way b) with
    | none => rfl
    | some base =>
      show (if _ then _ else _) = (if _ then _ else _)
      rw [put_leaf_other hT ha hf hb hne hq]
  refine ⟨hsame, hsame, ?_⟩
  intro e he
  obtain ⟨hq, hi⟩ := getPte_some hT hb (he.elim id id)
  rw [hi]
  exact put_leaf_other hT ha hf hb hne hq

end

/-! ## The page table is a map -/

theorem OthersKept.grown (hT : Tree m pgd) (hT' : Tree m' pgd) (hg : Grown pgd m m') (h : OthersKept m' m'' pgd a) :
    OthersKept m m'' pgd a := by
  intro b hb hne
  obtain ⟨hsame, hwords⟩ := getPte_grown hT hT' hg hb
  obtain ⟨h1, h2, h3⟩ := h b hb hne
  refine ⟨h1.trans hsame, h2.trans hsame, ?_⟩
  intro e he
  have he' : getPte m pgd b = some e := he.elim id id
  rw [h3 e (.inl (hsame.trans he')), hwords e he']

/-- The page has an entry with this frame and these flags, and the others have theirs. -/
structure Mapped (m m' : Memory) (pgd : UInt32) (a : UInt64) (pfn : UInt32) (flags : Nat) : Prop where
  tree : Tree m' pgd
  entry : ∃ e, getPte m' pgd a = some e ∧ getUserPte m' pgd a = some e ∧ (m' e.1 e.2).toNat = pfn.toNat * 2 ^ 12 + flags
  others : OthersKept m m' pgd a

/-- The page has none. -/
structure Unmapped (m m' : Memory) (pgd : UInt32) (a : UInt64) : Prop where
  tree : Tree m' pgd
  getPte : getPte m' pgd a = none
  getUserPte : getUserPte m' pgd a = none
  others : OthersKept m m' pgd a

/-- The tables, and the entry in the last of them. -/
theorem mapped {step : Nat × Memory → Fin 512 → UInt32 → Nat × Memory} (hb : Builds step pgd) (hT : Tree m pgd)
    (ha : IsUser a) {ans : Answers} (hans : Fresh m pgd ans) (pfn : UInt32) {flags : UInt64} (hlow : flags.toNat < 2 ^ 12)
    (h1 : flags.toNat % 2 = 1) (h4 : flags.toNat / 4 % 2 = 1) :
    Mapped m (put (tables step m pgd a ans).2 (tables step m pgd a ans).1 (pteIndex a) (entryOf pfn flags)) pgd a pfn flags.toNat := by
  obtain ⟨hT', hgrown, hf⟩ := tables_built hb hT ha hans
  have hpresent : ¬ entryOf pfn flags &&& 0x1 = 0 := by
    rw [entryOf_bit pfn hlow (k := 0) (by decide) rfl]
    omega
  have huser : ¬ entryOf pfn flags &&& 0x4 = 0 := by
    rw [entryOf_bit pfn hlow (k := 2) (by decide) rfl]
    omega
  have hfound : getPte (put (tables step m pgd a ans).2 (tables step m pgd a ans).1 (pteIndex a) (entryOf pfn flags)) pgd a =
      some ((tables step m pgd a ans).1, pteIndex a) := by
    rw [getPte_put_leaf hT' ha hf fun _ => huser, if_neg]
    rintro (h | h)
    · exact hpresent h
    · exact huser h
  refine ⟨Tree.put_leaf hT' hf fun _ => huser, ⟨_, hfound, hfound, ?_⟩, ?_⟩
  · rw [put_self]
    exact entryOf_toNat pfn hlow
  · exact (put_leaf_kept hT' ha hf fun _ => huser).grown hT hT' hgrown

theorem unmapped (hT : Tree m pgd) (ha : IsUser a) (refcount : Nat → UInt8) :
    Unmapped m (pfnUnmap m refcount pgd a).1 pgd a := by
  unfold pfnUnmap
  cases he : getPte m pgd a with
  | none => exact ⟨hT, he, he, fun b _ _ => ⟨rfl, rfl, fun _ _ => rfl⟩⟩
  | some e =>
    obtain ⟨f, j⟩ := e
    obtain ⟨hf, hj⟩ := getPte_some hT ha he
    change j = pteIndex a at hj
    subst hj
    have hzero : (0 : UInt64) &&& 0x1 ≠ 0 → (0 : UInt64) &&& 0x4 ≠ 0 := fun h => absurd rfl h
    have hgone := getPte_put_leaf hT ha hf hzero
    rw [if_pos (.inl rfl)] at hgone
    have hdone : Unmapped m (put m f (pteIndex a) 0) pgd a :=
      ⟨Tree.put_leaf hT hf hzero, hgone, hgone, put_leaf_kept hT ha hf hzero⟩
    dsimp only
    split
    · exact hdone
    · exact hdone

/-- Bit 1 of an int is 0 or 2. -/
theorem and_two (x : UInt32) : x &&& 0x2 = 0 ∨ x &&& 0x2 = 0x2 := by
  rw [← UInt32.toNat_inj, ← UInt32.toNat_inj, UInt32.toNat_and, show (0x2 : UInt32).toNat = 2 ^ 1 from rfl, Nat.and_two_pow]
  cases x.toNat.testBit 1
  · exact .inl rfl
  · exact .inr rfl

/-- The flags of an entry. -/
def flagsOf (access : UInt32) : Nat := if access &&& 0x2 = 0 then 0x5 else 0x7

theorem mapUser_mapped (hT : Tree m pgd) (ha : IsUser a) {ans : Answers} (hans : Fresh m pgd ans) (access : UInt32) :
    Mapped m (mapUser m pgd a (0x5 ||| (access &&& 0x2)).toUInt64 ans) pgd a ans.user (flagsOf access) := by
  unfold flagsOf
  rcases and_two access with h | h
  · rw [h, if_pos rfl]
    exact mapped (nextTable_builds pgd) hT ha hans ans.user (by decide) rfl rfl
  · rw [h, if_neg (by decide)]
    exact mapped (nextTable_builds pgd) hT ha hans ans.user (by decide) rfl rfl

/-- The second write adds the bit to the word of the first. -/
theorem mapPhysicalPage_mapped (hT : Tree m pgd) (ha : IsUser a) {ans : Answers} (hans : Fresh m pgd ans)
    (accessFlags upfn : UInt32) : Mapped m (mapPhysicalPage m pgd a accessFlags upfn ans).2 pgd a
      (if upfn = 0 then ans.user else upfn) (flagsOf accessFlags) := by
  unfold mapPhysicalPage flagsOf
  dsimp only
  generalize (if upfn = 0 then ans.user else upfn) = pfn
  have hwritable : entryOf pfn 0x5 ||| 0x2 = entryOf pfn 0x7 := UInt64.or_assoc ..
  rcases and_two accessFlags with h | h
  · rw [show MM_WR = 0x2 from rfl, h, if_neg (fun h => h rfl), if_pos rfl]
    exact mapped (nextTable0_builds pgd) hT ha hans pfn (by decide) rfl rfl
  · rw [show MM_WR = 0x2 from rfl, h, if_pos (by decide), if_neg (by decide), put_self, put_put, hwritable]
    exact mapped (nextTable0_builds pgd) hT ha hans pfn (by decide) rfl rfl

/-- For every page table, page and answers of os_pfn_alloc, of every operation: the entry of
    the page is the new one, or none; the other pages have theirs; it is a page table again. -/
theorem page_table_is_map (hT : Tree m pgd) (ha : IsUser a) :
    (∀ ans, Fresh m pgd ans →
      (∀ prot, Mapped m (allocPfn m pgd a prot ans) pgd a ans.user (flagsOf prot)) ∧
      (∀ errorCode, Mapped m (vmAreaPagefault m pgd a errorCode ans) pgd a ans.user (flagsOf errorCode)) ∧
      ∀ accessFlags upfn, (mapPhysicalPage m pgd a accessFlags upfn ans).1 = (if upfn = 0 then ans.user else upfn) ∧
        Mapped m (mapPhysicalPage m pgd a accessFlags upfn ans).2 pgd a (mapPhysicalPage m pgd a accessFlags upfn ans).1
          (flagsOf accessFlags)) ∧
    ∀ refcount, Unmapped m (pfnUnmap m refcount pgd a).1 pgd a := by
  refine ⟨?_, unmapped hT ha⟩
  intro ans hans
  refine ⟨mapUser_mapped hT ha hans, mapUser_mapped hT ha hans, ?_⟩
  intro accessFlags upfn
  exact ⟨rfl, mapPhysicalPage_mapped hT ha hans accessFlags upfn⟩

/-- A table of zeros reaches no other. -/
theorem follow_zero (hzero : ∀ i, m pgd.toNat i = 0) {js : List (Fin 512)} (hf : follow m pgd js = some f) : js = [] ∧ f = pgd.toNat := by
  cases js with
  | nil => cases hf; exact ⟨rfl, rfl⟩
  | cons j js =>
    change (next (m pgd.toNat j)).bind _ = some f at hf
    rw [hzero j] at hf
    cases hf

/-- A new page table. -/
theorem Tree.zero (hzero : ∀ i, m pgd.toNat i = 0) : Tree m pgd := by
  refine ⟨?_, ?_, ?_⟩
  · intro g g' is js f hg hg' _ _ his hjs
    obtain rfl := hg
    obtain rfl := hg'
    exact ⟨rfl, (follow_zero hzero his).1.trans (follow_zero hzero hjs).1.symm⟩
  · intro addr _ p i f _ hf
    rw [(follow_zero hzero hf).2, hzero i]
    exact .inl rfl
  · intro addr _ f hf
    exact absurd (follow_zero hzero hf).1 (List.cons_ne_nil _ _)

/-- A new process, with the first page of its data area. -/
def firstPage : Memory := allocPfn (fun _ _ => 0) 1 0x180000000 0x3 ⟨2, 3, 4, 5⟩

theorem firstPage_tree : Tree firstPage 1 := by
  have hzero : ∀ i : Fin 512, (fun _ _ => 0 : Memory) (1 : UInt32).toNat i = 0 := fun _ => rfl
  have huser : IsUser 0x180000000 := ⟨by decide, by decide⟩
  have hfresh : Fresh (fun _ _ => 0) 1 ⟨2, 3, 4, 5⟩ := by
    refine ⟨by decide, ?_⟩
    intro pfn hpfn p _ hp
    have hroot := (follow_zero hzero hp).2
    rw [UInt32.toNat_inj] at hroot
    subst hroot
    exact absurd hpfn (by decide)
  exact (mapUser_mapped (Tree.zero hzero) huser hfresh 0x3).tree

/-- Its tables lie one behind the other. -/
theorem firstPage_follow {p : List (Fin 512)} (hp : p.length ≤ 3) (hf : follow firstPage 1 p = some f) : f = p.length + 1 := by
  have hwords : ∀ n : Fin 3, ∀ i : Fin 512, ∀ h ∈ next (firstPage (n + 1) i), h = n + 2 := by decide +kernel
  induction p using List.reverseRecOn generalizing f with
  | nil => cases hf; rfl
  | append_singleton p i ih =>
    rw [List.length_append, List.length_singleton] at hp ⊢
    rw [follow_concat] at hf
    obtain ⟨g, hg, hi⟩ := Option.bind_eq_some_iff.mp hf
    obtain rfl := ih (by omega) hg
    exact hwords ⟨p.length, by omega⟩ i f hi

theorem firstPage_fresh : Fresh firstPage 1 ⟨6, 7, 8, 9⟩ := by
  refine ⟨by decide, ?_⟩
  intro pfn hpfn p hp hf
  have hle : pfn.toNat ≤ 4 := by
    rw [firstPage_follow hp hf]
    omega
  simp only [List.mem_cons, List.not_mem_nil, or_false] at hpfn
  rcases hpfn with rfl | rfl | rfl
  · exact absurd hle (by decide)
  · exact absurd hle (by decide)
  · exact absurd hle (by decide)

/-- The page behind it, with the tables that are there; the top page of the stack, with new ones; the page given back. -/
theorem page_table_is_map_firstPage :
    Mapped firstPage (allocPfn firstPage 1 0x180001000 0x1 ⟨6, 7, 8, 9⟩) 1 0x180001000 9 0x5 ∧
      Mapped firstPage (vmAreaPagefault firstPage 1 0x7FFFFF000 0x6 ⟨6, 7, 8, 9⟩) 1 0x7FFFFF000 9 0x7 ∧
      getPte firstPage 1 0x180000000 = some (4, 0) ∧
      Unmapped firstPage (pfnUnmap firstPage (fun _ => 1) 1 0x180000000).1 1 0x180000000 := by
  refine ⟨?_, ?_, by decide +kernel, ?_⟩
  · exact ((page_table_is_map firstPage_tree ⟨by decide, by decide⟩).1 ⟨6, 7, 8, 9⟩ firstPage_fresh).1 0x1
  · exact ((page_table_is_map firstPage_tree ⟨by decide, by decide⟩).1 ⟨6, 7, 8, 9⟩ firstPage_fresh).2.1 0x6
  · exact (page_table_is_map firstPage_tree ⟨by decide, by decide⟩).2 fun _ => 1

end Cs330.Mm.Walkers
