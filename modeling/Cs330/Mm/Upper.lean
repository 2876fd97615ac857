/-
  Cs330.Mm.Upper — the write bits of the upper entries.

  A table gets an upper entry with the write bit of the page it is allocated for, and keeps
  it: a read fault can make a whole 2 MB read-only. `Edits` are the changes a table goes
  through, installs and changes of one PTE; every call and fault makes such (`edited_…`).

  In DATA and the region of mmap no upper entry forbids a write (`uppers_step`): mmap and
  cfork set the bit, and the entries above DATA and the top of the stack, under which read
  faults install pages, are there from the start of the process and allow writes.
-/
import Cs330.Mm.Ownership

namespace Cs330.Mm

open Lib Lib.Seg Vm

namespace PageTable

/-- `ins` are the pages that get a PTE, with the write bit for new upper entries, `clr` those that may lose it. -/
inductive Edits (ins : Nat → Bool → Prop) (clr : Nat → Prop) (t : PageTable) : PageTable → Prop
  | refl : Edits ins clr t t
  | install {u : PageTable} (p : Nat) (e : Pte) (w : Bool) : Edits ins clr t u → ins p w → Edits ins clr t (u.install p e w)
  | alter {u : PageTable} (p : Nat) (f : Pte → Option Pte) : Edits ins clr t u → clr p ∨ (∀ e, f e ≠ none) →
      Edits ins clr t (u.alter p f)

/-- No upper entry above page `p` forbids writes. -/
structure OpenAt (t : PageTable) (p : Nat) : Prop where
  pgd : t.pgd (p / 2 ^ 27) ≠ some false
  pud : t.pud (p / 2 ^ 18) ≠ some false
  pmd : t.pmd (p / 2 ^ 9) ≠ some false

variable {ins ins' : Nat → Bool → Prop} {clr clr' : Nat → Prop} {t u v : PageTable} {p q k : Nat} {w : Bool} {e : Pte}

theorem Edits.trans (h1 : t.Edits ins clr u) (h2 : u.Edits ins clr v) : t.Edits ins clr v := by
  induction h2 with
  | refl => exact h1
  | install p e w _ hi ih => exact .install p e w ih hi
  | alter p f _ hc ih => exact .alter p f ih hc

theorem Edits.mono (h : t.Edits ins clr u) (hi : ∀ p w, ins p w → ins' p w) (hc : ∀ p, clr p → clr' p) : t.Edits ins' clr' u := by
  induction h with
  | refl => exact .refl
  | install p e w _ h ih => exact .install p e w ih (hi p w h)
  | alter p f _ h ih => exact .alter p f ih (h.imp_left (hc p))

theorem install_pte_ne (h : t.pte k ≠ none) : (t.install p e w).pte k ≠ none := by
  rw [install_pte]
  by_cases hk : k = p
  · rw [hk, Function.update_self]
    exact Option.some_ne_none e
  · rw [Function.update_of_ne hk]
    exact h

/-- A PTE that may not be cleared stays. -/
theorem Edits.pte_ne (h : t.Edits ins clr u) (hk : t.pte k ≠ none) (hc : ¬ clr k) : u.pte k ≠ none := by
  induction h with
  | refl => exact hk
  | install p e w _ _ ih => exact install_pte_ne ih
  | @alter u p f _ hf ih =>
    rw [alter_pte]
    by_cases hkp : k = p
    · obtain ⟨e, he⟩ := Option.ne_none_iff_exists'.mp ih
      rw [← hkp, Function.update_self, he]
      exact hf.resolve_left (hkp ▸ hc) e
    · rw [Function.update_of_ne hkp]
      exact ih

/-- One level: an entry that is made allows what the others do. -/
theorem update_open {f : Nat → Option Bool} {i j : Nat} (h : f j ≠ some false) (hor : w = true ∨ i ≠ j ∨ f i ≠ none) :
    Function.update f i (some ((f i).getD w)) j ≠ some false := by
  by_cases hij : j = i
  · subst hij
    rw [Function.update_self]
    intro hf
    have hf := Option.some.inj hf
    cases hj : f j with
    | none =>
      rw [hj] at hf hor
      rcases hor with hw | hne | hne
      · rw [hw] at hf
        cases hf
      · exact hne rfl
      · exact hne rfl
    | some b =>
      rw [hj] at hf h
      exact h (congrArg some hf)
  · rw [Function.update_of_ne hij]
    exact h

theorem OpenAt.install (h : t.OpenAt q) (h1 : w = true ∨ p / 2 ^ 27 ≠ q / 2 ^ 27 ∨ t.pgd (p / 2 ^ 27) ≠ none)
    (h2 : w = true ∨ p / 2 ^ 18 ≠ q / 2 ^ 18 ∨ t.pud (p / 2 ^ 18) ≠ none)
    (h3 : w = true ∨ p / 2 ^ 9 ≠ q / 2 ^ 9 ∨ t.pmd (p / 2 ^ 9) ≠ none) : (t.install p e w).OpenAt q :=
  ⟨update_open h.pgd h1, update_open h.pud h2, update_open h.pmd h3⟩

theorem OpenAt.alter {f : Pte → Option Pte} (h : t.OpenAt q) : (t.alter p f).OpenAt q := ⟨h.pgd, h.pud, h.pmd⟩

/-- What was installed for writing lies below upper entries that allow it. -/
theorem Edits.openAt (h : t.Edits (fun _ w => w = true) clr u) (ho : t.OpenAt q) : u.OpenAt q := by
  induction h with
  | refl => exact ho
  | install p e w _ hw ih => exact ih.install (.inl hw) (.inl hw) (.inl hw)
  | alter p f _ _ ih => exact ih.alter

/-- An upper entry that is there keeps its write bit. -/
theorem Edits.pmd_eq {i : Nat} {b : Bool} (h : t.Edits ins clr u) (hb : t.pmd i = some b) : u.pmd i = some b := by
  induction h with
  | refl => exact hb
  | @install u p e w _ _ ih =>
    show Function.update u.pmd (p / 2 ^ 9) (some ((u.pmd (p / 2 ^ 9)).getD w)) i = some b
    by_cases hi : i = p / 2 ^ 9
    · rw [← hi, Function.update_self, ih, Option.getD_some]
    · rw [Function.update_of_ne hi, ih]
  | alter p f _ _ ih => exact ih

theorem empty_openAt (q : Nat) : empty.OpenAt q := ⟨nofun, nofun, nofun⟩

/-- The walk finds entries, and none forbids. -/
theorem allows_of_openAt (h : t.OpenAt p) (he : t.pte p = some e) (hw : w = true → e.write = true) : t.allows p w = true := by
  have hsome : t.pte p ≠ none := by
    rw [he]
    exact Option.some_ne_none e
  obtain ⟨h1, h2, h3⟩ := t.walk p hsome
  have htrue : ∀ {b : Option Bool}, b ≠ none → b ≠ some false → (b == some true) = true := by
    intro b hn hf
    cases b with
    | none => exact absurd rfl hn
    | some b =>
      cases b with
      | false => exact absurd rfl hf
      | true => rfl
  unfold allows
  rw [he]
  cases w with
  | false => rfl
  | true => simp only [hw rfl, htrue h1 h.pgd, htrue h2 h.pud, htrue h3 h.pmd, Bool.and_self, Bool.not_true, Bool.or_true]

/-! ## DATA and the region of mmap -/

/-- Pages every process has: the first of DATA and the top of the stack. -/
def anchors : List Nat := [pageOf DATA_START, pageOf (STACK_START - 4096)]

/-- Read faults install pages in RODATA, DATA and the stack only. -/
def Fits (p : Nat) (w : Bool) : Prop :=
  w = true ∨ (RODATA_START ≤ 4096 * p ∧ 4096 * p < MMAP_AREA_START) ∨
    (STACK_START - MAX_STACK_SIZE ≤ 4096 * p ∧ 4096 * p < STACK_START)

structure Open (t : PageTable) : Prop where
  anchored : ∀ k ∈ anchors, t.pte k ≠ none
  openAt : ∀ k, DATA_START ≤ 4096 * k → 4096 * k < MMAP_AREA_END → t.OpenAt k

theorem Open.install (h : t.Open) (hf : Fits p w) : (t.install p e w).Open := by
  refine ⟨fun k hk => install_pte_ne (h.anchored k hk), fun k h1 h2 => ?_⟩
  have hk := h.openAt k h1 h2
  rcases hf with hw | hp
  · exact hk.install (.inl hw) (.inl hw) (.inl hw)
  -- the upper entries of the two pages
  obtain ⟨d1, d2, d3⟩ := t.walk (pageOf DATA_START) (h.anchored _ (by decide))
  obtain ⟨s1, s2, -⟩ := t.walk (pageOf (STACK_START - 4096)) (h.anchored _ (by decide))
  have hd : pageOf DATA_START = 0x180000 := by decide
  have hs : pageOf (STACK_START - 4096) = 0x7FFFFF := by decide
  rw [hd] at d1 d2 d3
  rw [hs] at s1 s2
  unfold DATA_START at h1
  unfold MMAP_AREA_END at h2
  unfold RODATA_START MMAP_AREA_START STACK_START MAX_STACK_SIZE at hp
  have h27 : p / 2 ^ 27 = 0x180000 / 2 ^ 27 := by omega
  refine hk.install (.inr (.inr (h27 ▸ d1))) (.inr ?_) (.inr ?_)
  · by_cases hro : p / 2 ^ 18 = 0x180000 / 2 ^ 18
    · exact .inr (hro ▸ d2)
    by_cases hst : p / 2 ^ 18 = 0x7FFFFF / 2 ^ 18
    · exact .inr (hst ▸ s2)
    · exact .inl (by omega)
  · by_cases hdata : p / 2 ^ 9 = 0x180000 / 2 ^ 9
    · exact .inr (hdata ▸ d3)
    · exact .inl (by omega)

theorem Open.edits (h : t.Open) (he : t.Edits Fits (· ∉ anchors) u) : u.Open := by
  induction he with
  | refl => exact h
  | install p e w _ hf ih => exact ih.install hf
  | @alter u p f _ hf ih =>
    have hstep : u.Edits Fits (· ∉ anchors) (u.alter p f) := .alter p f .refl hf
    exact ⟨fun k hk => hstep.pte_ne (ih.anchored k hk) fun hno => hno hk, fun k h1 h2 => (ih.openAt k h1 h2).alter⟩

end PageTable

namespace Sys

/-! ## The calls -/

/-- All tables have gone through such changes, and every slot has the table it had. -/
structure Edited (ins : Nat → Bool → Prop) (clr : Nat → Prop) (s t : Sys) : Prop where
  pgd : ∀ i, (t.ctxList i).pgd = (s.ctxList i).pgd
  tables : ∀ g, (s.tables g).Edits ins clr (t.tables g)

variable {s t u : Sys} {pid addr child parent : Nat} {pick : Finset Nat → Nat} {ins ins' : Nat → Bool → Prop}
  {clr clr' : Nat → Prop}

theorem Edited.refl (s : Sys) : Edited ins clr s s := ⟨fun _ => rfl, fun _ => .refl⟩

theorem Edited.trans (h1 : Edited ins clr s t) (h2 : Edited ins clr t u) : Edited ins clr s u :=
  ⟨fun i => (h2.pgd i).trans (h1.pgd i), fun g => (h1.tables g).trans (h2.tables g)⟩

theorem Edited.table (h : Edited ins clr s t) (pid : Nat) : (s.table pid).Edits ins clr (t.table pid) := by
  unfold Sys.table
  rw [h.pgd]
  exact h.tables _

theorem edited_of_tables (hc : ∀ i, (t.ctxList i).pgd = (s.ctxList i).pgd) (ht : t.tables = s.tables) : Edited ins clr s t :=
  ⟨hc, fun g => by rw [ht]; exact .refl⟩

theorem edited_setCtx {c : Ctx} (h : c.pgd = (s.ctxList pid).pgd) : Edited ins clr s (s.setCtx pid c) := by
  refine edited_of_tables (fun i => ?_) rfl
  show (Function.update s.ctxList pid c i).pgd = _
  by_cases hi : i = pid
  · rw [hi, Function.update_self, h]
  · rw [Function.update_of_ne hi]

theorem edited_setTable {T : PageTable} (h : (s.table pid).Edits ins clr T) : Edited ins clr s (s.setTable pid T) := by
  refine ⟨fun _ => rfl, fun g => ?_⟩
  show (s.tables g).Edits ins clr (Function.update s.tables (s.ctxList pid).pgd T g)
  by_cases hg : g = (s.ctxList pid).pgd
  · rw [hg, Function.update_self]
    exact h
  · rw [Function.update_of_ne hg]
    exact .refl

theorem edited_osPfnAlloc (s : Sys) (pick : Finset Nat → Nat) : Edited ins clr s (s.osPfnAlloc pick).2 :=
  edited_of_tables (fun i => by rw [osPfnAlloc_ctxList]) (osPfnAlloc_tables pick)

theorem edited_installPage {w upper : Bool} (h : ins (pageOf addr) upper) :
    Edited ins clr s (s.installPage pick pid addr w upper) :=
  (edited_osPfnAlloc s pick).trans (edited_setTable (.install _ _ _ .refl h))

theorem edited_alter (pid addr : Nat) (f : Pte → Option Pte) (h : clr (pageOf addr) ∨ ∀ e, f e ≠ none) :
    Edited ins clr s (s.setTable pid ((s.table pid).alter (pageOf addr) f)) := edited_setTable (.alter _ _ .refl h)

theorem edited_foldl {f : Sys → Nat → Sys} {vs : List Nat} (h : ∀ s, ∀ v ∈ vs, Edited ins clr s (f s v)) (s : Sys) :
    Edited ins clr s (vs.foldl f s) := by
  induction vs generalizing s with
  | nil => exact .refl s
  | cons v vs ih => exact (h s v List.mem_cons_self).trans (ih (fun s w hw => h s w (List.mem_cons_of_mem v hw)) _)

theorem edited_setAreas (s : Sys) (pid : Nat) (areas : List VmArea) (nodes : Int) :
    Edited ins clr s (s.setAreas pid areas nodes) :=
  (edited_setCtx (c := { s.ctxList pid with vmArea := areas }) rfl).trans (edited_of_tables (fun _ => rfl) rfl)

theorem edited_vmAreaMap (h : ∀ p, ins p true) (length : Int) (prot flags : UInt32) :
    Edited ins clr s (s.vmAreaMap pick pid addr length prot flags).2 := by
  unfold vmAreaMap
  simp only
  split
  · exact edited_setAreas ..
  split
  · exact (edited_setAreas ..).trans (edited_foldl (fun s v _ => edited_installPage (h _)) _)
  · exact edited_setAreas ..

theorem edited_pfnUnmap (h : clr (pageOf addr)) : Edited ins clr s (s.pfnUnmap pid addr) := by
  unfold pfnUnmap
  cases s.getUserPte pid addr with
  | none => exact .refl s
  | some e =>
    simp only
    split
    · exact (edited_of_tables (s := s) (t := s.osPfnFree e.frame) (fun _ => rfl) rfl).trans (edited_alter pid addr _ (.inl h))
    · exact (edited_of_tables (s := s) (t := s.decrementRefcount e.frame) (fun _ => rfl) rfl).trans (edited_alter pid addr _ (.inl h))

theorem edited_vmAreaUnmap {length : Int} (h : (unmapAreas (s.ctxList pid).vmArea addr length).1 = 0 →
    ∀ v ∈ vaddrs addr (plus addr (pageRound length)), clr (pageOf v)) : Edited ins clr s (s.vmAreaUnmap pid addr length).2 := by
  unfold vmAreaUnmap
  simp only
  split
  · rename_i h0
    exact (edited_setAreas ..).trans (edited_foldl (fun s v hv => edited_pfnUnmap (h h0.1 v hv)) _)
  · exact edited_setAreas ..

theorem edited_changePermissions (s : Sys) (pid addr : Nat) (prot : UInt32) :
    Edited ins clr s (s.changePermissions pid addr prot) := by
  unfold changePermissions
  cases s.getUserPte pid addr with
  | none => exact .refl s
  | some e =>
    simp only
    split
    · exact edited_alter pid addr _ (.inr fun e => Option.some_ne_none _)
    · exact .refl s

theorem edited_vmAreaMprotect (s : Sys) (pid addr : Nat) (length : Int) (prot : UInt32) :
    Edited ins clr s (s.vmAreaMprotect pid addr length prot).2 := by
  unfold vmAreaMprotect
  simp only
  split
  · exact (edited_setAreas ..).trans (edited_foldl (fun s v _ => edited_changePermissions s pid addr prot) _)
  · exact edited_setAreas ..

theorem edited_doExpand (s : Sys) (pid size : Nat) (segmentT : Int) : Edited ins clr s (s.doExpand pid size segmentT).2 := by
  rcases doExpand_spec s pid size segmentT with h | ⟨n, -, -, h⟩ | ⟨n, -, -, h⟩
  · rw [h]
    exact .refl s
  · rw [h]
    exact edited_setCtx rfl
  · rw [h]
    exact edited_setCtx rfl

theorem edited_handleCowFault (s : Sys) (pick : Finset Nat → Nat) (pid cr2 : Nat) :
    Edited ins clr s (s.handleCowFault pick pid cr2).2 := by
  unfold handleCowFault
  simp only
  split
  · exact .refl s
  split
  · exact .refl s
  cases s.getUserPte pid cr2 with
  | none => exact .refl s
  | some e =>
    simp only
    split
    · exact edited_alter pid cr2 _ (.inr fun e => Option.some_ne_none _)
    · have halloc : Edited ins clr s ((s.decrementRefcount e.frame).osPfnAlloc pick).2 :=
        (edited_of_tables (s := s) (t := s.decrementRefcount e.frame) (fun _ => rfl) rfl).trans (edited_osPfnAlloc _ pick)
      have hcopy : Edited ins clr s (((s.decrementRefcount e.frame).osPfnAlloc pick).2.copyFrame
          ((s.decrementRefcount e.frame).osPfnAlloc pick).1 e.frame) := halloc.trans (edited_of_tables (fun _ => rfl) rfl)
      exact hcopy.trans (edited_alter pid cr2 _ (.inr fun e => Option.some_ne_none _))

theorem growStack_nextFree (s : Sys) (pick : Finset Nat → Nat) (pid : Nat) (err : UInt64) (n : Nat) :
    ((growStack pick pid err n s).ctxList pid).stack.nextFree = (s.ctxList pid).stack.nextFree - 4096 * n := by
  induction n generalizing s with
  | zero => rfl
  | succ n ih =>
    unfold growStack
    simp only
    rw [ih, installPageTable, installPage_ctxList, setStackNextFree, setCtx_self]
    simp only
    omega

/-- The stack grows over pages in between. -/
theorem edited_growStack (low : Nat) (err : UInt64) (n : Nat) (hn : low + 4096 * n ≤ (s.ctxList pid).stack.nextFree)
    (h : ∀ v, low ≤ v → v < (s.ctxList pid).stack.nextFree → ins (pageOf v) (decide (err &&& 2 ≠ 0))) :
    Edited ins clr s (growStack pick pid err n s) := by
  induction n generalizing s with
  | zero => exact .refl s
  | succ n ih =>
    unfold growStack
    simp only
    obtain ⟨nf, hnf⟩ : ∃ nf, nf = (s.ctxList pid).stack.nextFree - 4096 := ⟨_, rfl⟩
    rw [← hnf]
    have h1 : Edited ins clr s (s.setStackNextFree pid nf) := edited_setCtx rfl
    have h2 : Edited ins clr s ((s.setStackNextFree pid nf).installPageTable pick pid nf err) :=
      h1.trans (edited_installPage (h nf (by omega) (by omega)))
    have hctx : (((s.setStackNextFree pid nf).installPageTable pick pid nf err).ctxList pid).stack.nextFree = nf := by
      rw [installPageTable, installPage_ctxList, setStackNextFree, setCtx_self]
    refine h2.trans (ih (by rw [hctx]; omega) fun v hv hlt => h v hv ?_)
    rw [hctx] at hlt
    omega

theorem edited_doPageFault (pick : Finset Nat → Nat) (clr : Nat → Prop) (hlay : (s.ctxList pid).Layout) (cr2 : Nat) (err : UInt64) :
    Edited PageTable.Fits clr s (s.doPageFault pick pid cr2 err).2 := by
  obtain ⟨hd1, hd2, -, hd4, -⟩ := hlay.data
  obtain ⟨hr1, hr2, -, hr4, -⟩ := hlay.rodata
  obtain ⟨hs1, hs2, hs3, hs4, hs5, -⟩ := hlay.stack
  unfold DATA_START at hd1 hr2 hr4
  unfold RODATA_START at hr1
  unfold MMAP_AREA_START at hd2 hd4
  unfold STACK_START MAX_STACK_SIZE at hs1 hs3
  unfold STACK_START at hs2 hs4
  have hlow : ∀ {w v}, RODATA_START ≤ v → v < MMAP_AREA_START → PageTable.Fits (pageOf v) w := by
    intro w v h1 h2
    unfold RODATA_START at h1
    unfold MMAP_AREA_START at h2
    rw [pageOf_eq (by omega)]
    unfold PageTable.Fits RODATA_START MMAP_AREA_START
    omega
  have hstack : ∀ {w v}, 0x7FF000000 ≤ v → v < 0x800000000 → PageTable.Fits (pageOf v) w := by
    intro w v h1 h2
    rw [pageOf_eq (by omega)]
    unfold PageTable.Fits STACK_START MAX_STACK_SIZE
    omega
  unfold doPageFault
  simp only
  split
  · exact edited_handleCowFault s pick pid cr2
  split
  · exact .refl s
  split
  · split
    · exact edited_installPage (hlow (by unfold RODATA_START; omega) (by unfold MMAP_AREA_START; omega))
    · exact .refl s
  split
  · split
    · exact edited_installPage (hlow (by unfold RODATA_START; omega) (by unfold MMAP_AREA_START; omega))
    · exact .refl s
  split
  · rename_i hin
    split
    · rename_i hlt
      have hgrow : Edited PageTable.Fits clr s (growStack pick pid err
          (((s.ctxList pid).stack.nextFree - cr2 / 4096 * 4096) / 4096) s) :=
        edited_growStack 0x7FF000000 err _ (by omega) fun v h1 h2 => hstack h1 (by omega)
      refine hgrow.trans (edited_installPage (hstack ?_ ?_))
      all_goals rw [growStack_nextFree]; omega
    · exact .refl s
  split
  · rcases vmAreaPagefault_cases s pick pid cr2 err with h | ⟨h, -⟩
    · rw [h]
      exact .refl s
    · rw [h]
      exact edited_installPage (.inl rfl)
  · exact .refl s

theorem edited_store (s : Sys) (pid addr : Nat) (byte : UInt8) : Edited ins clr s (s.store pid addr byte) := by
  unfold Sys.store
  cases (s.table pid).pte (pageOf addr) with
  | none => exact .refl s
  | some e => exact edited_of_tables (fun _ => rfl) rfl

theorem edited_doExit (s : Sys) (pid : Nat) : Edited ins clr s (s.doExit pid) := by
  have hvfork : Edited ins clr s (s.vforkExitHandle pid) := by
    unfold vforkExitHandle
    simp only
    split
    · exact .refl s
    · exact edited_setCtx rfl
  unfold doExit
  exact hvfork.trans (edited_setCtx rfl)

theorem edited_fault (hlay : (s.ctxList pid).Layout) (addr : Nat) (write : Bool) :
    Edited PageTable.Fits clr s (s.fault pick pid addr write) := by
  have h := edited_doPageFault pick clr hlay addr ((s.table pid).errorCode (pageOf addr) write)
  unfold fault
  simp only
  split
  · exact h
  · exact h.trans (edited_doExit _ pid)

/-! ## cfork -/

theorem edited_installPtable (h : ∀ p, ins p true) (s : Sys) (pick : Finset Nat → Nat) (pid : Nat) (seg : MmSegment) (vaddr upfn : Nat) :
    Edited ins clr s (s.installPtable pick pid seg vaddr upfn).2 := by
  unfold installPtable
  simp only
  refine .trans ?_ (edited_setTable (.install _ _ _ .refl (h _)))
  split
  · exact edited_osPfnAlloc s pick
  · exact .refl s

theorem edited_sharePage (h : ∀ p, ins p true) (s : Sys) (pick : Finset Nat → Nat) (child parent : Nat) (seg : MmSegment) (vaddr : Nat) :
    Edited ins clr s (s.sharePage pick child parent seg vaddr) := by
  unfold sharePage
  cases s.getUserPte parent vaddr with
  | none => exact .refl s
  | some e =>
    have h1 : Edited ins clr s (s.setTable parent ((s.table parent).alter (pageOf vaddr) fun e => some { e with write := false })) :=
      edited_alter parent vaddr _ (.inr fun e => Option.some_ne_none _)
    have h2 := h1.trans (edited_installPtable h _ pick child seg vaddr e.frame)
    have h3 := h2.trans (edited_alter child vaddr (fun _ => some { e with write := false }) (.inr fun e => Option.some_ne_none _))
    exact h3.trans (edited_of_tables (fun _ => rfl) rfl)

theorem edited_copyPage (h : ∀ p, ins p true) (s : Sys) (pick : Finset Nat → Nat) (child parent : Nat) (seg : MmSegment) (vaddr : Nat) :
    Edited ins clr s (s.copyPage pick child parent seg vaddr) := by
  unfold copyPage
  cases s.getUserPte parent vaddr with
  | none => exact .refl s
  | some e => exact (edited_installPtable h s pick child seg vaddr 0).trans (edited_of_tables (fun _ => rfl) rfl)

theorem edited_cforkCopyMm (h : ∀ p, ins p true) (s : Sys) (pick : Finset Nat → Nat) (child parent : Nat) :
    Edited ins clr s (s.cforkCopyMm pick child parent) := by
  have hshare : ∀ seg (vs : List Nat) s, Edited ins clr s (vs.foldl (fun s v => s.sharePage pick child parent seg v) s) :=
    fun seg vs s => edited_foldl (fun s v _ => edited_sharePage h s pick child parent seg v) s
  have hcopy : ∀ seg (vs : List Nat) s, Edited ins clr s (vs.foldl (fun s v => s.copyPage pick child parent seg v) s) :=
    fun seg vs s => edited_foldl (fun s v _ => edited_copyPage h s pick child parent seg v) s
  unfold cforkCopyMm
  simp only [← List.foldl_flatMap]
  exact ((((hshare _ _ _).trans (hshare _ _ _)).trans (hshare _ _ _)).trans (hcopy _ _ _)).trans (hshare _ _ _)

/-- The tables of the other processes, and the one the child gets. -/
theorem edited_doCfork {pgd : Nat} (hpgd : ∀ i, (s.ctxList i).pgd ≠ pgd) {r : Nat × Sys}
    (h : s.doCfork pick pid pgd = some r) :
    (∀ i, i ≠ r.1 → (s.table i).Edits (fun _ w => w = true) (fun _ => False) (r.2.table i)) ∧
      PageTable.empty.Edits (fun _ w => w = true) (fun _ => False) (r.2.table r.1) := by
  obtain ⟨child, hnew, rfl⟩ := Option.map_eq_some_iff.mp h
  obtain ⟨s0, hs0⟩ : ∃ s0 : Sys, s0 = { s.setCtx child { s.ctxList pid with ppid := pid, pgd := pgd } with
      tables := Function.update s.tables pgd PageTable.empty
      numVmArea := s.numVmArea + (s.ctxList pid).vmArea.length } := ⟨_, rfl⟩
  have hctx : s0.ctxList child = { s.ctxList pid with ppid := pid, pgd := pgd } := by rw [hs0]; exact Function.update_self ..
  have hoth : ∀ i, i ≠ child → s0.ctxList i = s.ctxList i := fun i hi => by rw [hs0]; exact Function.update_of_ne hi ..
  have hedit : Edited (fun _ w => w = true) (fun _ => False) s0 (s0.cforkCopyMm pick child pid) := by
    apply edited_cforkCopyMm
    exact fun _ => rfl
  have hall : Edited (fun _ w => w = true) (fun _ => False) s0 ((s0.cforkCopyMm pick child pid).setCtx child
      { (s0.cforkCopyMm pick child pid).ctxList child with state := .ready }) := hedit.trans (edited_setCtx rfl)
  simp only
  rw [← hs0]
  refine ⟨fun i hi => ?_, ?_⟩
  · have htable : s0.table i = s.table i := by
      unfold table
      rw [hoth i hi, hs0]
      exact Function.update_of_ne (hpgd i) ..
    rw [← htable]
    exact hall.table i
  · have htable : s0.table child = PageTable.empty := by
      unfold table
      rw [hctx, hs0]
      exact Function.update_self ..
    rw [← htable]
    exact hall.table child

/-! ## Runs -/

/-- Every process has its anchors, and no upper entry over DATA and the region of mmap forbids it writes. -/
def Uppers (s : Sys) : Prop := ∀ pid, s.Live pid → (s.table pid).Open

theorem Uppers.edited (h : s.Uppers) (he : Edited PageTable.Fits (· ∉ PageTable.anchors) s t) (hl : ∀ i, t.Live i → s.Live i) :
    t.Uppers := fun i hi => (h i (hl i hi)).edits (he.table i)

/-- munmap does not reach the anchors. -/
theorem unmap_anchors {length : Int} (ha : 4096 ∣ addr) (hlen : Vm.Promised length) {areas : List VmArea}
    (h : (unmapAreas areas addr length).1 = 0) : ∀ v ∈ vaddrs addr (plus addr (pageRound length)), pageOf v ∉ PageTable.anchors := by
  intro v hv hk
  have hlt : pageOf v < 2 ^ 36 := by
    unfold pageOf
    omega
  obtain ⟨h1, h2⟩ := (mem_unmapped ha hlen h hlt).mp (List.mem_map_of_mem hv)
  have hpage : pageOf v = 0x180000 ∨ pageOf v = 0x7FFFFF := by
    have hd : pageOf DATA_START = 0x180000 := by decide
    have hs : pageOf (STACK_START - 4096) = 0x7FFFFF := by decide
    unfold PageTable.anchors at hk
    rw [hd, hs] at hk
    simpa using hk
  obtain ⟨hn, hn31, hnp, hle, hup⟩ := pageUp_spec hlen
  unfold unmapAreas at h
  split at h
  · cases h
  rename_i hin
  by_cases h0 : addr = 0
  · omega
  · obtain ⟨hlow, hhigh⟩ := not_not.mp fun hno => hin ⟨h0, hno⟩
    have hsum : plus addr length = addr + length.toNat := by
      obtain ⟨hl1, hl2⟩ := hlen
      unfold plus
      omega
    unfold MMAP_AREA_START at hlow
    rw [hsum, end_eq] at hhigh
    obtain ⟨hl1, hl2⟩ := hlen
    omega

/-- exec_init allocates all tables for writing. -/
theorem start_openAt (h : Start s) (pid : Nat) (hl : s.Live pid) (k : Nat) : (s.table pid).OpenAt k := by
  obtain ⟨mem, pick, pgd, hp, h0, h70, rfl⟩ := h
  have hedit : Edited (fun _ w => w = true) (fun _ => False) (boot mem pgd) (execInit mem pick pgd) := by
    unfold execInit
    simp only
    have hp : ∀ (s : Sys) mm, Edited (fun _ w => w = true) (fun _ => False) s (s.installPtable pick 1 mm 0 0).2 := fun s mm => by
      apply edited_installPtable
      exact fun _ => rfl
    exact ((edited_foldl (fun s v _ => edited_installPage rfl) _).trans (hp _ _)).trans (hp _ _)
  exact (hedit.table pid).openAt (PageTable.empty_openAt k)

/-- The first process has the anchors, writable. -/
theorem start_anchored (h : Start s) {k : Nat} (hk : k ∈ PageTable.anchors) :
    s.Live 1 ∧ (∀ i, s.Live i → i = 1) ∧ ∃ e, (s.table 1).pte k = some e ∧ e.write = true := by
  obtain ⟨mem, pick, pgd, hp, h0, h70, rfl⟩ := h
  obtain ⟨hc, hf⟩ := frames_execInit mem pgd hp h0 h70
  have hl : (execInit mem pick pgd).Live 1 := (live_congr hc).mpr (boot_live.mpr rfl)
  refine ⟨hl, fun i hi => boot_live.mp ((live_congr hc).mp hi), ?_⟩
  obtain ⟨g, hg, -⟩ := (Frames.freshAll_filled (fun u => (hp u).1) 1 true [pageOf DATA_START, pageOf (STACK_START - 4096)]).new k hk
  exact ⟨_, (frames_map hl k).symm.trans ((congrFun (congrFun (congrArg Frames.map hf) 1) k).trans hg), rfl⟩

theorem start_uppers (h : Start s) : s.Uppers := by
  intro pid hl
  refine ⟨fun k hk => ?_, fun k _ _ => start_openAt h pid hl k⟩
  obtain ⟨-, honly, e, he, -⟩ := start_anchored h hk
  rw [honly pid hl, he]
  exact Option.some_ne_none e

theorem uppers_fault (hp : Picks pick) (hb : s.Base) (hl : s.Live pid) (h : s.Uppers) (addr : Nat) (write : Bool) :
    (s.fault pick pid addr write).Uppers := by
  refine h.edited (edited_fault (hb.layout pid hl) addr write) fun i hi => ?_
  obtain ⟨hloc, -⟩ := doPageFault_spec hp hb.distinct hl addr ((s.table pid).errorCode (pageOf addr) write)
  unfold fault at hi
  simp only at hi
  split at hi
  · exact (hloc.live i).mp hi
  · exact (hloc.live i).mp ((live_doExit (hloc.distinct hb.distinct) ((hloc.live pid).mpr hl) i).mp hi).2

/-- The child has the pages of the parent, all below upper entries that allow writes. -/
theorem uppers_cfork (hp : Picks pick) (hb : s.Base) (hl : s.Live pid) (hs : s.Each (Ctx.Sound False)) {pgd : Nat}
    (hpgd : ∀ i, (s.ctxList i).pgd ≠ pgd) (h : s.Uppers) {r : Nat × Sys} (hr : s.doCfork pick pid pgd = some r) : r.2.Uppers := by
  obtain ⟨hothers, hchild⟩ := edited_doCfork hpgd hr
  have hc := doCfork_spec hp hb hl hpgd hr
  have hne : pid ≠ r.1 := fun he => hc.dead (he ▸ hl)
  intro i hi
  by_cases hic : i = r.1
  · subst hic
    refine ⟨fun k hk => ?_, fun k _ _ => hchild.openAt (PageTable.empty_openAt k)⟩
    have hparent : s.frames.map pid k ≠ none := by
      rw [frames_map hl]
      exact (h pid hl).anchored k hk
    obtain ⟨e, he⟩ := Option.ne_none_iff_exists'.mp hparent
    rw [← frames_map hi, hc.frames]
    exact Frames.fork_mapped hne ((hb.layout pid hl).shape.mem_pages (hs pid k e he).holds) hparent
  · have hli : s.Live i := ((hc.live i).mp hi).resolve_left hic
    exact (h i hli).edits ((hothers i hic).mono (fun _ _ hw => .inl hw) fun _ hf => hf.elim)

theorem uppers_step {e : Ev} (hb : s.Base) (hs : s.Each (Ctx.Sound False)) (h : s.Uppers) (ho : s.Promised e)
    (he : s.step e = some t) : t.Uppers := by
  unfold step at he
  split at he
  swap
  · cases he
  rename_i hl
  have hd := hb.distinct
  have hfits : ∀ p, PageTable.Fits p true := fun _ => .inl rfl
  cases e with
  | mmap pid addr length prot flags pick =>
    cases he
    exact h.edited (edited_vmAreaMap hfits length prot flags) fun i hi =>
      ((local_vmAreaMap ho.2.2 hd hl addr length prot flags).1.live i).mp hi
  | munmap pid addr length =>
    cases he
    exact h.edited (edited_vmAreaUnmap (unmap_anchors ho.1 ho.2)) fun i hi => ((local_vmAreaUnmap hd hl addr length).live i).mp hi
  | mprotect pid addr length prot =>
    cases he
    exact h.edited (edited_vmAreaMprotect s pid addr length prot) fun i hi =>
      ((local_vmAreaMprotect hd hl addr length prot).live i).mp hi
  | expand pid size segmentT =>
    cases he
    exact h.edited (edited_doExpand s pid size segmentT) fun i hi => ((local_doExpand s pid size segmentT).live i).mp hi
  | cfork pid pgd pick =>
    obtain ⟨r, hr, rfl⟩ := Option.map_eq_some_iff.mp he
    exact uppers_cfork ho.1 hb hl hs ho.2 h hr
  | exit pid =>
    cases he
    exact h.edited (edited_doExit s pid) fun i hi => ((live_doExit hd hl i).mp hi).2
  | read pid addr pick =>
    simp only [call] at he
    split at he
    · cases he
    split at he
    · cases he
      exact h
    · cases he
      exact uppers_fault ho hb hl h addr false
  | write pid addr byte pick =>
    simp only [call] at he
    split at he
    · cases he
    split at he
    · cases he
      exact h.edited (edited_store s pid addr byte) fun i hi => (live_congr (store_ctxList s pid addr byte)).mp hi
    · cases he
      exact uppers_fault ho hb hl h addr true

end Sys

end Cs330.Mm
