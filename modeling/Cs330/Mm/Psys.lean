/-
  Cs330.Mm.Psys — faults, mmap and cfork over physical memory.

  install_page_table, vm_area_pagefault, handle_cow_fault, vm_area_map and cfork_copy_mm
  with the walkers of Cs330.Mm.Ram, as the source has them: none looks at what os_pfn_alloc
  returns, and what get_user_pte returns is written through, NULL or not.

  Proved here, for as many frames as are taken: a page at a time, and the loops over pages,
  the tables stay sound (`mapUser_fits`, `populate_spec`, `forkPages_spec`).
-/
import Cs330.Mm.Fault
import Cs330.Mm.Cfork
import Cs330.Mm.Ram

namespace Cs330.Mm

open Lib Vm

namespace Ram

/-- `install_ptable` -/
def installPtable (r : Ram) (pick : Region → Finset Nat → Nat) (base : Nat) (mm : MmSegment) (address upfn : Nat) : Nat × Ram :=
  let address := if address = 0 then mm.start else address
  r.mapPhysicalPage pick base address (mm.accessFlags &&& MM_WR ≠ 0) upfn

/-- One page that parent and child are to share; `parent` and `child` are their page tables. -/
def sharePage (pick : Region → Finset Nat → Nat) (child parent : Nat) (seg : MmSegment) (r : Ram) (vaddr : Nat) : Ram :=
  match r.getUserPte parent vaddr with
  | none => r
  | some pte =>
    let r := r.put pte.1 pte.2 { r.mem pte.1 pte.2 with present := true, write := false }
    let r := (r.installPtable pick child seg vaddr (r.mem pte.1 pte.2).frame).2
    let childPte := (r.getUserPte child vaddr).getD null
    let r := r.put childPte.1 childPte.2 (r.mem pte.1 pte.2)
    let frame := (r.mem pte.1 pte.2).frame
    { r with refcount := Function.update r.refcount frame (r.refcount frame + 1) }

/-- One page of the stack. -/
def copyPage (pick : Region → Finset Nat → Nat) (child parent : Nat) (seg : MmSegment) (r : Ram) (vaddr : Nat) : Ram :=
  match r.getUserPte parent vaddr with
  | none => r
  | some pte =>
    let a := r.installPtable pick child seg vaddr 0
    a.2.copyFrame a.1 (a.2.mem pte.1 pte.2).frame

end Ram

/-- Contexts over physical memory. -/
structure Psys where
  ctxList : Nat → Ctx
  ram : Ram

/-- The checks of vm_area_pagefault; `true` is `return -1`. -/
def pagefaultRefused (areas : List VmArea) (addr : Nat) (errorCode : UInt64) : Bool :=
  if ¬ (MMAP_AREA_START ≤ addr ∧ addr < MMAP_AREA_END) then true
  else if errorCode &&& 1 ≠ 0 then true
  else
    match areas with
    | [] => true
    | first :: _ =>
      if addr < first.vmStart then true
      else if ¬ noGapAt addr areas then true
      else decide (errorCode &&& 2 ≠ 0 ∧ ¬ writableAt addr areas)

/-- The checks of handle_cow_fault. -/
def cowRefused (c : Ctx) (cr2 : Nat) : Bool :=
  let inData := (Sys.vaddrs c.data.start c.data.nextFree).any fun vaddr => decide (vaddr ≤ cr2) && decide (cr2 < vaddr + 4096)
  !(areaAt cr2 c.vmArea || inData) || !writableAt cr2 c.vmArea

namespace Psys

def setCtx (k : Psys) (pid : Nat) (c : Ctx) : Psys := { k with ctxList := Function.update k.ctxList pid c }

/-- `install_page_table` -/
def installPageTable (k : Psys) (pick : Region → Finset Nat → Nat) (pid addr : Nat) (errorCode : UInt64) : Psys :=
  { k with ram := k.ram.mapUser pick (k.ctxList pid).pgd addr (errorCode &&& 2 ≠ 0) (errorCode &&& 2 ≠ 0) }

/-- `vm_area_pagefault` -/
def vmAreaPagefault (k : Psys) (pick : Region → Finset Nat → Nat) (pid addr : Nat) (errorCode : UInt64) : Int × Psys :=
  if pagefaultRefused (k.ctxList pid).vmArea addr errorCode then (-1, k)
  else (1, { k with ram := k.ram.mapUser pick (k.ctxList pid).pgd addr true (errorCode &&& 2 ≠ 0) })

/-- `handle_cow_fault` -/
def handleCowFault (k : Psys) (pick : Region → Finset Nat → Nat) (pid cr2 : Nat) : Int × Psys :=
  let c := k.ctxList pid
  if cowRefused c cr2 then (-1, k)
  else
    let pte := (k.ram.getUserPte c.pgd cr2).getD Ram.null
    let e := k.ram.mem pte.1 pte.2
    if k.ram.refcount e.frame = 1 then
      (1, { k with ram := k.ram.put pte.1 pte.2 { e with present := true, write := true } })
    else
      let r := { k.ram with refcount := Function.update k.ram.refcount e.frame (k.ram.refcount e.frame - 1) }
      let a := r.osPfnAlloc pick .user
      let r := a.2.copyFrame a.1 (a.2.mem pte.1 pte.2).frame
      (1, { k with ram := r.put pte.1 pte.2 ⟨a.1, true, true, true⟩ })

/-- `alloc_pfn` -/
def allocPfn (pick : Region → Finset Nat → Nat) (pgd : Nat) (prot : UInt32) (r : Ram) (addr : Nat) : Ram :=
  r.mapUser pick pgd addr true (prot &&& 2 ≠ 0)

/-- `vm_area_map` -/
def vmAreaMap (k : Psys) (pick : Region → Finset Nat → Nat) (pid addr : Nat) (length : Int) (prot flags : UInt32) : Int × Psys :=
  let c := k.ctxList pid
  let r := mapAreas c.vmArea addr length prot flags
  let k' := k.setCtx pid { c with vmArea := r.2.1 }
  if r.1 = -1 then (-1, k')
  else if flags &&& MAP_POPULATE ≠ 0 then
    let ret := r.1.toNat
    (ret, { k' with ram := (Sys.vaddrs ret (plus ret (pageRound length))).foldl (allocPfn pick c.pgd prot) k'.ram })
  else (r.1, k')

/-- The loops of cfork_copy_mm, into page table `child`. -/
def forkPages (pick : Region → Finset Nat → Nat) (c : Ctx) (areas : List VmArea) (child parent : Nat) (r : Ram) : Ram :=
  let share (seg : MmSegment) (r : Ram) (vs : List Nat) := vs.foldl (Ram.sharePage pick child parent seg) r
  let r := share c.code r (Sys.vaddrs c.code.start c.code.nextFree)
  let r := share c.rodata r (Sys.vaddrs c.rodata.start c.rodata.nextFree)
  let r := share c.data r (Sys.vaddrs c.data.start c.data.nextFree)
  let r := (Sys.vaddrsDown c.stack.nextFree c.stack.stop).foldl (Ram.copyPage pick child parent c.stack) r
  areas.foldl (fun r a => share c.stack r (Sys.vaddrs a.vmStart a.vmEnd)) r

/-- `cfork_copy_mm` -/
def cforkCopyMm (k : Psys) (pick : Region → Finset Nat → Nat) (child parent : Nat) : Psys :=
  let areas := (k.ctxList parent).vmArea
  let a := k.ram.osPfnAlloc pick .pt
  let c := { k.ctxList child with vmArea := areas, pgd := a.1 }
  { k.setCtx child c with ram := forkPages pick c areas a.1 (k.ctxList parent).pgd (a.2.bzero a.1) }

inductive Call where
  | pagefault (pid addr : Nat) (errorCode : UInt64)
  | cow (pid cr2 : Nat)
  | map (pid addr : Nat) (length : Int) (prot flags : UInt32)
  | install (pid addr : Nat) (errorCode : UInt64)
  | cfork (child parent : Nat)

/-- What a call returns, 0 where it returns nothing, and the state it leaves. -/
def run (k : Psys) (pick : Region → Finset Nat → Nat) : Call → Int × Psys
  | .pagefault pid addr errorCode => k.vmAreaPagefault pick pid addr errorCode
  | .cow pid cr2 => k.handleCowFault pick pid cr2
  | .map pid addr length prot flags => k.vmAreaMap pick pid addr length prot flags
  | .install pid addr errorCode => (0, k.installPageTable pick pid addr errorCode)
  | .cfork child parent => (0, k.cforkCopyMm pick child parent)

/-! ## The pages of a call -/

/-- The page tables in use. -/
def root (k : Psys) (g : Nat) : Prop := ∃ i, (k.ctxList i).state ≠ .unused ∧ (k.ctxList i).pgd = g

/-- The tables above the pages of a list of addresses. -/
def topsOf (addrs : List Nat) : Finset Path := addrs.toFinset.biUnion Ram.tops

/-- The pages cfork_copy_mm shares, and those it copies, each with its segment. -/
def sharedPages (c : Ctx) (areas : List VmArea) : List (MmSegment × Nat) :=
  (Sys.vaddrs c.code.start c.code.nextFree).map (c.code, ·) ++ (Sys.vaddrs c.rodata.start c.rodata.nextFree).map (c.rodata, ·) ++
    (Sys.vaddrs c.data.start c.data.nextFree).map (c.data, ·) ++
    areas.flatMap fun a => (Sys.vaddrs a.vmStart a.vmEnd).map (c.stack, ·)

def copiedPages (c : Ctx) : List (MmSegment × Nat) := (Sys.vaddrsDown c.stack.nextFree c.stack.stop).map (c.stack, ·)

/-- Where install_ptable maps a page. -/
def target (page : MmSegment × Nat) : Nat := if page.2 = 0 then page.1.start else page.2

end Psys

/-! ## One page after the other -/

namespace Ram

variable {r r' : Ram} {roots : Nat → Prop} {pick : Region → Finset Nat → Nat} {g parent child n addr vaddr : Nat}
  {q : Finset Path} {seg : MmSegment} {addrs : List Nat}

theorem topsOf_short {x : Path} (h : x ∈ Psys.topsOf addrs) : x.length ≤ 3 := by
  unfold Psys.topsOf at h
  obtain ⟨a, -, ha⟩ := Finset.mem_biUnion.mp h
  exact tops_length ha

theorem tops_subset (h : addr ∈ addrs) : tops addr ⊆ Psys.topsOf addrs :=
  Finset.subset_biUnion_of_mem tops (List.mem_toFinset.mpr h)

/-- What is left for the tables goes down with what is missing. -/
theorem Extended.budget (h : Extended roots g q n r r') (hb : (r.missing g q).card ≤ r.freePages .pt) :
    (r'.missing g q).card ≤ r'.freePages .pt := by
  have e := h.pt
  omega

/-- A page fault's page, when the frames for it are there, and only then. -/
theorem mapUser_fits (hpick : Picks pick) (hs : r.Sound roots) (hg : roots g) (addr : Nat) (upper write : Bool) :
    ((r.mapUser pick g addr upper write).Sound roots ∧ (r.mapUser pick g addr upper write).oops = r.oops ∧
        (r.missing g (tops addr)).card ≤ r.freePages .pt ∧ 0 < r.freePages .user) ∨
      (¬ ((r.missing g (tops addr)).card ≤ r.freePages .pt ∧ 0 < r.freePages .user) ∧
        r.oops < (r.mapUser pick g addr upper write).oops) := by
  rcases mapUser_spec hpick hs hg (Finset.Subset.refl (tops addr)) (fun x hx => tops_length hx) upper write with
    ⟨h1, h2, h3⟩ | ⟨h1, h2⟩
  · -- nothing is missing any more
    have hnone : (r.mapUser pick g addr upper write).missing g (tops addr) = ∅ := by
      unfold missing
      exact Finset.filter_eq_empty_iff.mpr fun x hx => h3 x hx
    have hpt := h2.pt
    have huser := h2.user
    rw [hnone, Finset.card_empty] at hpt
    exact .inl ⟨h1, h2.oops, by omega, by omega⟩
  · exact .inr ⟨by omega, h2⟩

/-- The loop of MAP_POPULATE. -/
theorem populate_spec (hpick : Picks pick) (prot : UInt32) (hs : r.Sound roots) (hg : roots g) (hq : ∀ v ∈ addrs, tops v ⊆ q)
    (hshort : ∀ x ∈ q, x.length ≤ 3) (hpt : (r.missing g q).card ≤ r.freePages .pt) (huser : addrs.length ≤ r.freePages .user) :
    (addrs.foldl (Psys.allocPfn pick g prot) r).Sound roots ∧
      Extended roots g q addrs.length r (addrs.foldl (Psys.allocPfn pick g prot) r) := by
  induction addrs generalizing r with
  | nil => exact ⟨hs, .refl⟩
  | cons v addrs ih =>
    rw [List.length_cons] at huser
    rcases mapUser_spec hpick hs hg (hq v (List.mem_cons_self ..)) hshort true (prot &&& 2 ≠ 0) with ⟨h1, h2, -⟩ | ⟨h1, -⟩
    · have hleft := h2.user
      obtain ⟨h3, h4⟩ := ih h1 (fun w hw => hq w (List.mem_cons_of_mem _ hw)) (h2.budget hpt) (by omega)
      rw [List.length_cons, Nat.add_comm]
      exact ⟨h3, h2.trans h4⟩
    · omega

/-- A walk finds the PTE of the page it is for. -/
theorem Sound.pte {base : Nat} (hs : r.Sound roots) (hg : roots g)
    (hf : r.follow g [index addr 39, index addr 30, index addr 21] = some base) (hpage : r.follow g (pagePath addr) ≠ none) :
    (r.mem base (index addr 12)).present = true ∧ (r.mem base (index addr 12)).user = true ∧
      r.follow g (pagePath addr) = some (r.mem base (index addr 12)).frame := by
  rcases hs.word hg (by simp) hf (index addr 12) with ⟨h1, h2, h3⟩ | ⟨-, h2⟩
  · exact ⟨h1, h2, h3⟩
  · exact absurd h2 hpage

/-- Frame 0 is no table. -/
theorem Sound.put_null (hs : r.Sound roots) (i : Fin 512) (word : Word) :
    (r.put 0 i word).Sound roots ∧ ∀ h p, roots h → p.length ≤ 4 → (r.put 0 i word).follow h p = r.follow h p := by
  have hno : r.NoTable roots 0 := fun h x hh hx he => (hs.within h x 0 hh (by omega) he).2 rfl
  have hmem : ∀ f, ¬ r.NoTable roots f → (r.put 0 i word).mem f = r.mem f := fun f hf =>
    Function.update_of_ne (fun h0 : f = 0 => hf (h0.symm ▸ hno)) ..
  have hused : r.inUse ⊆ (r.put 0 i word).inUse := Finset.Subset.refl _
  exact hs.congr hmem hused

/-- Nor is a frame that is not in use. -/
theorem Sound.copyFrame {dst : Nat} (hs : r.Sound roots) (src : Nat) (hno : r.NoTable roots dst) :
    (r.copyFrame dst src).Sound roots ∧ ∀ h p, roots h → p.length ≤ 4 → (r.copyFrame dst src).follow h p = r.follow h p := by
  have hmem : ∀ f, ¬ r.NoTable roots f → (r.copyFrame dst src).mem f = r.mem f := fun f hf =>
    Function.update_of_ne (fun h0 : f = dst => hf (h0.symm ▸ hno)) ..
  have hused : r.inUse ⊆ (r.copyFrame dst src).inUse := Finset.Subset.refl _
  exact hs.congr hmem hused

theorem Extended.of_follow (hg : roots g) (hf : ∀ h p, roots h → p.length ≤ 4 → r'.follow h p = r.follow h p)
    (hshort : ∀ x ∈ q, x.length ≤ 3) (hfree : r'.freePages = r.freePages) (hoops : r'.oops = r.oops) :
    Extended roots g q 0 r r' := by
  have hmissing : r'.missing g q = r.missing g q := by
    unfold missing
    exact Finset.filter_congr fun x hx => by rw [hf g x hg ((hshort x hx).trans (by decide))]
  refine ⟨fun h p hh _ hp => hf h p hh hp, ?_, congrFun hfree .user, hoops⟩
  rw [hmissing, hfree]

/-- A write through what get_user_pte has returned, a NULL pointer included. -/
theorem Sound.write {word : Word} (hs : r.Sound roots) (addr : Nat) (hg : roots g) (hword : word.present = true ∧ word.user = true)
    (hframe : word.frame ∈ r.inUse ∧ word.frame ≠ 0) (hshort : ∀ x ∈ q, x.length ≤ 3) {p : Nat × Fin 512}
    (hp : p = (r.getUserPte g addr).getD null) : (r.put p.1 p.2 word).Sound roots ∧ Extended roots g q 0 r (r.put p.1 p.2 word) := by
  rcases getUserPte_spec hs hg addr with ⟨h1, -⟩ | ⟨base, h1, h2, -⟩
  · rw [h1] at hp
    have hp : p = (0, 0) := hp
    subst hp
    obtain ⟨h3, h4⟩ := hs.put_null 0 word
    exact ⟨h3, .of_follow hg h4 hshort rfl rfl⟩
  · rw [h1] at hp
    have hp : p = (base, index addr 12) := hp
    subst hp
    obtain ⟨h3, h4, -⟩ := hs.page (q := q) word hg h2 hword hframe hshort
    exact ⟨h3, h4⟩

/-- The write bit of a PTE goes. -/
theorem Sound.readOnly {base : Nat} {word : Word} (hs : r.Sound roots) (hg : roots g)
    (hf : r.follow g [index addr 39, index addr 30, index addr 21] = some base)
    (hpage : r.follow g (pagePath addr) = some (r.mem base (index addr 12)).frame)
    (hbits : (r.mem base (index addr 12)).present = true ∧ (r.mem base (index addr 12)).user = true)
    (hword : word = { r.mem base (index addr 12) with present := true, write := false })
    (ht : r' = r.put base (index addr 12) word) :
    r'.Sound roots ∧ (∀ h p, r'.follow h p = r.follow h p) ∧
      (r'.mem base (index addr 12)).frame = (r.mem base (index addr 12)).frame := by
  have hframe := hs.within g (pagePath addr) _ hg (by simp [pagePath]) hpage
  have hbits' : word.present = true ∧ word.user = true := by
    rw [hword]
    exact ⟨rfl, hbits.2⟩
  have hsameFrame : word.frame = (r.mem base (index addr 12)).frame := by rw [hword]
  have hmem : r'.mem base (index addr 12) = word := by
    rw [ht]
    exact Radix.put_self
  rw [← hsameFrame] at hframe
  refine ⟨?_, fun h p => ?_, hmem ▸ hsameFrame⟩
  · rw [ht]
    exact (hs.page (q := ∅) _ hg hf hbits' hframe (fun x hx => absurd hx (Finset.notMem_empty x))).1
  · rw [ht]
    apply Radix.follow_put_same
    unfold Word.next
    rw [if_pos hbits'.1, if_pos hbits.1, hsameFrame]

/-- A page cfork shares. -/
theorem sharePage_spec (hpick : Picks pick) (hs : r.Sound roots) (hP : roots parent) (hC : roots child) (hne : parent ≠ child)
    (hshort : ∀ x ∈ q, x.length ≤ 3)
    (hq : r.follow parent (pagePath vaddr) ≠ none → tops (Psys.target (seg, vaddr)) ⊆ q)
    (hpt : (r.missing child q).card ≤ r.freePages .pt) :
    (sharePage pick child parent seg r vaddr).Sound roots ∧ Extended roots child q 0 r (sharePage pick child parent seg r vaddr) := by
  unfold sharePage
  rcases getUserPte_spec hs hP vaddr with ⟨h1, -⟩ | ⟨base, h1, hf, hpage, hword⟩
  · rw [h1]
    exact ⟨hs, .refl⟩
  rw [h1]
  have hq := hq (by rw [hpage]; exact Option.some_ne_none _)
  simp only
  -- the parent's entry is made read-only
  obtain ⟨r1, hr1⟩ : ∃ r1, r1 = r.put base (index vaddr 12) { r.mem base (index vaddr 12) with present := true, write := false } :=
    ⟨_, rfl⟩
  obtain ⟨s1, hsame, hframe⟩ := hs.readOnly hP hf hpage hword rfl hr1
  have e1 : Extended roots child q 0 r r1 := .of_follow hC (fun h p _ _ => hsame h p) hshort (by rw [hr1]; rfl) (by rw [hr1]; rfl)
  rw [← hr1]
  have hin := hs.within parent (pagePath vaddr) _ hP (by simp [pagePath]) hpage
  rw [← hframe] at hin
  have hused : r1.inUse = r.inUse := by rw [hr1]; rfl
  -- the frame is mapped for the child
  obtain ⟨t, ht⟩ : ∃ t, t = r1.installPtable pick child seg vaddr (r1.mem base (index vaddr 12)).frame := ⟨_, rfl⟩
  obtain ⟨s2, e2⟩ : t.2.Sound roots ∧ Extended roots child q 0 r1 t.2 := by
    rcases mapPhysicalPage_spec _ hpick s1 hC hq hshort (seg.accessFlags &&& MM_WR ≠ 0) (fun _ => hused ▸ hin.1) ht with
      ⟨h2, h3, -⟩ | h2 | ⟨h2, -⟩
    · rw [if_neg hin.2] at h3
      exact ⟨h2, h3⟩
    · exact absurd (e1.budget hpt) (Nat.not_le.mpr h2)
    · exact absurd h2 hin.2
  rw [← ht]
  -- and then the entry is copied
  have hpath : t.2.follow parent [index vaddr 39, index vaddr 30, index vaddr 21] = some base := by
    rw [e2.others parent _ hP hne (by simp), hsame]
    exact hf
  have hthere : t.2.follow parent (pagePath vaddr) ≠ none := by
    rw [e2.others parent _ hP hne (by simp [pagePath]), hsame, hpage]
    exact Option.some_ne_none _
  obtain ⟨h4, h5, h6⟩ := s2.pte hP hpath hthere
  have hin2 := s2.within parent (pagePath vaddr) _ hP (by simp [pagePath]) h6
  obtain ⟨s3, e3⟩ := s2.write (q := q) vaddr hC ⟨h4, h5⟩ hin2 hshort rfl
  have e := (e1.trans e2).trans e3
  exact ⟨s3.mono rfl (Finset.Subset.refl _), e.others, e.pt, e.user, e.oops⟩

/-- A page of the stack. -/
theorem copyPage_spec (hpick : Picks pick) (hs : r.Sound roots) (hP : roots parent) (hC : roots child)
    (hshort : ∀ x ∈ q, x.length ≤ 3)
    (hq : r.follow parent (pagePath vaddr) ≠ none → tops (Psys.target (seg, vaddr)) ⊆ q ∧ 0 < r.freePages .user)
    (hpt : (r.missing child q).card ≤ r.freePages .pt) :
    (copyPage pick child parent seg r vaddr).Sound roots ∧
      Extended roots child q (if (r.getUserPte parent vaddr).isSome then 1 else 0) r (copyPage pick child parent seg r vaddr) := by
  unfold copyPage
  rcases getUserPte_spec hs hP vaddr with ⟨h1, -⟩ | ⟨base, h1, hf, hpage, hword⟩
  · rw [h1]
    exact ⟨hs, .refl⟩
  rw [h1]
  obtain ⟨hq, huser⟩ := hq (by rw [hpage]; exact Option.some_ne_none _)
  simp only [Option.isSome_some, if_true]
  obtain ⟨t, ht⟩ : ∃ t, t = r.installPtable pick child seg vaddr 0 := ⟨_, rfl⟩
  rw [← ht]
  rcases mapPhysicalPage_spec 0 hpick hs hC hq hshort (seg.accessFlags &&& MM_WR ≠ 0) (fun h => absurd rfl h) ht with
    ⟨h2, h3, -, h5⟩ | h2 | ⟨-, h2⟩
  · -- the page that is written is no table
    rw [if_pos rfl] at h3
    have hno := h5 rfl
    obtain ⟨h6, h7⟩ := h2.copyFrame (t.2.mem base (index vaddr 12)).frame hno
    have e : Extended roots child q 0 t.2 (t.2.copyFrame t.1 (t.2.mem base (index vaddr 12)).frame) :=
      .of_follow hC h7 hshort rfl rfl
    exact ⟨h6, h3.trans e⟩
  · exact absurd hpt (Nat.not_le.mpr h2)
  · exact absurd huser (by rw [h2]; exact Nat.lt_irrefl 0)

/-! ## The loops of cfork_copy_mm -/

theorem Sound.isSome (hs : r.Sound roots) (hg : roots g) : (r.getUserPte g addr).isSome = true ↔ r.follow g (pagePath addr) ≠ none := by
  rcases getUserPte_spec hs hg addr with ⟨h1, h2⟩ | ⟨base, h1, -, h3, -⟩
  · rw [h1, h2]
    simp
  · rw [h1, h3]
    simp

theorem shareAll_spec (seg : MmSegment) (hpick : Picks pick) (hP : roots parent) (hC : roots child) (hne : parent ≠ child)
    (hshort : ∀ x ∈ q, x.length ≤ 3) (vs : List Nat) (hs : r.Sound roots)
    (hq : ∀ v ∈ vs, r.follow parent (pagePath v) ≠ none → tops (Psys.target (seg, v)) ⊆ q)
    (hpt : (r.missing child q).card ≤ r.freePages .pt) :
    (vs.foldl (sharePage pick child parent seg) r).Sound roots ∧
      Extended roots child q 0 r (vs.foldl (sharePage pick child parent seg) r) := by
  induction vs generalizing r with
  | nil => exact ⟨hs, .refl⟩
  | cons v vs ih =>
    obtain ⟨h1, h2⟩ := sharePage_spec hpick hs hP hC hne hshort (hq v (List.mem_cons_self ..)) hpt
    obtain ⟨h3, h4⟩ := ih h1 (fun w hw hthere => hq w (List.mem_cons_of_mem _ hw) (by
      rwa [h2.others parent _ hP hne (by simp [pagePath])] at hthere)) (h2.budget hpt)
    exact ⟨h3, h2.trans h4⟩

theorem copyAll_spec (seg : MmSegment) (there : Nat → Bool) (hpick : Picks pick) (hP : roots parent) (hC : roots child)
    (hne : parent ≠ child) (hshort : ∀ x ∈ q, x.length ≤ 3) (vs : List Nat) (hs : r.Sound roots)
    (hthere : ∀ v ∈ vs, there v = true ↔ r.follow parent (pagePath v) ≠ none)
    (hq : ∀ v ∈ vs, there v = true → tops (Psys.target (seg, v)) ⊆ q)
    (hpt : (r.missing child q).card ≤ r.freePages .pt) (huser : (vs.filter there).length ≤ r.freePages .user) :
    (vs.foldl (copyPage pick child parent seg) r).Sound roots ∧
      Extended roots child q (vs.filter there).length r (vs.foldl (copyPage pick child parent seg) r) := by
  induction vs generalizing r with
  | nil => exact ⟨hs, .refl⟩
  | cons v vs ih =>
    have hv := hthere v (List.mem_cons_self ..)
    have hpos : there v = true → 0 < r.freePages .user := by
      intro h
      rw [List.filter_cons_of_pos h, List.length_cons] at huser
      omega
    obtain ⟨h1, h2⟩ := copyPage_spec hpick hs hP hC hshort (fun h => ⟨hq v (List.mem_cons_self ..) (hv.mpr h), hpos (hv.mpr h)⟩) hpt
    have hcount : (List.filter there (v :: vs)).length =
        (if (r.getUserPte parent v).isSome then 1 else 0) + (vs.filter there).length := by
      by_cases h : there v = true
      · rw [List.filter_cons_of_pos h, if_pos ((hs.isSome hP).mpr (hv.mp h)), List.length_cons, Nat.add_comm]
      · rw [List.filter_cons_of_neg h, if_neg fun hx => h (hv.mpr ((hs.isSome hP).mp hx)), Nat.zero_add]
    have hleft := h2.user
    obtain ⟨h3, h4⟩ := ih h1 (fun w hw => by
        rw [h2.others parent _ hP hne (by simp [pagePath])]
        exact hthere w (List.mem_cons_of_mem _ hw))
      (fun w hw => hq w (List.mem_cons_of_mem _ hw)) (h2.budget hpt) (by omega)
    rw [hcount]
    exact ⟨h3, h2.trans h4⟩

theorem shareAreas_spec (seg : MmSegment) (hpick : Picks pick) (hP : roots parent) (hC : roots child) (hne : parent ≠ child)
    (hshort : ∀ x ∈ q, x.length ≤ 3) (areas : List VmArea) (hs : r.Sound roots)
    (hq : ∀ a ∈ areas, ∀ v ∈ Sys.vaddrs a.vmStart a.vmEnd, r.follow parent (pagePath v) ≠ none →
      tops (Psys.target (seg, v)) ⊆ q)
    (hpt : (r.missing child q).card ≤ r.freePages .pt) :
    (areas.foldl (fun r a => (Sys.vaddrs a.vmStart a.vmEnd).foldl (sharePage pick child parent seg) r) r).Sound roots ∧
      Extended roots child q 0 r
        (areas.foldl (fun r a => (Sys.vaddrs a.vmStart a.vmEnd).foldl (sharePage pick child parent seg) r) r) := by
  induction areas generalizing r with
  | nil => exact ⟨hs, .refl⟩
  | cons a areas ih =>
    obtain ⟨h1, h2⟩ := shareAll_spec seg hpick hP hC hne hshort _ hs (hq a (List.mem_cons_self ..)) hpt
    obtain ⟨h3, h4⟩ := ih h1 (fun b hb v hv hthere => hq b (List.mem_cons_of_mem _ hb) v hv (by
      rwa [h2.others parent _ hP hne (by simp [pagePath])] at hthere)) (h2.budget hpt)
    exact ⟨h3, h2.trans h4⟩

/-- All pages of the parent, into the child's page table. -/
theorem forkPages_spec (c : Ctx) (areas : List VmArea) (there : MmSegment × Nat → Bool) (hpick : Picks pick) (hP : roots parent)
    (hC : roots child) (hne : parent ≠ child) (hshort : ∀ x ∈ q, x.length ≤ 3) (hs : r.Sound roots)
    (hthere : ∀ page, there page = true ↔ r.follow parent (pagePath page.2) ≠ none)
    (hq : ∀ page ∈ Psys.sharedPages c areas ++ Psys.copiedPages c, there page = true → tops (Psys.target page) ⊆ q)
    (hpt : (r.missing child q).card ≤ r.freePages .pt)
    (huser : ((Psys.copiedPages c).filter there).length ≤ r.freePages .user) :
    (Psys.forkPages pick c areas child parent r).Sound roots ∧
      Extended roots child q ((Psys.copiedPages c).filter there).length r (Psys.forkPages pick c areas child parent r) := by
  have hshare : ∀ {seg : MmSegment} {vs : List Nat}, (∀ v ∈ vs, (seg, v) ∈ Psys.sharedPages c areas) → ∀ {u : Ram},
      (∀ p, p.length ≤ 4 → u.follow parent p = r.follow parent p) →
      ∀ v ∈ vs, u.follow parent (pagePath v) ≠ none → tops (Psys.target (seg, v)) ⊆ q := by
    intro seg vs hvs u hu v hv hpage
    rw [hu _ (by simp [pagePath])] at hpage
    exact hq (seg, v) (List.mem_append_left _ (hvs v hv)) ((hthere _).mpr hpage)
  have hmem : ∀ {seg : MmSegment} {v : Nat}, (seg, v) ∈ Psys.sharedPages c areas ↔
      (c.code = seg ∧ v ∈ Sys.vaddrs c.code.start c.code.nextFree) ∨
        (c.rodata = seg ∧ v ∈ Sys.vaddrs c.rodata.start c.rodata.nextFree) ∨
        (c.data = seg ∧ v ∈ Sys.vaddrs c.data.start c.data.nextFree) ∨
        ∃ a ∈ areas, c.stack = seg ∧ v ∈ Sys.vaddrs a.vmStart a.vmEnd := by
    intro seg v
    unfold Psys.sharedPages
    simp [and_comm]
  unfold Psys.forkPages
  simp only
  obtain ⟨s1, e1⟩ := shareAll_spec c.code hpick hP hC hne hshort (Sys.vaddrs c.code.start c.code.nextFree) hs
    (hshare (fun v hv => hmem.mpr (.inl ⟨rfl, hv⟩)) fun _ _ => rfl) hpt
  obtain ⟨s2, e2⟩ := shareAll_spec c.rodata hpick hP hC hne hshort (Sys.vaddrs c.rodata.start c.rodata.nextFree) s1
    (hshare (fun v hv => hmem.mpr (.inr (.inl ⟨rfl, hv⟩))) fun p hp => e1.others parent p hP hne hp) (e1.budget hpt)
  have e2 := e1.trans e2
  obtain ⟨s3, e3⟩ := shareAll_spec c.data hpick hP hC hne hshort (Sys.vaddrs c.data.start c.data.nextFree) s2
    (hshare (fun v hv => hmem.mpr (.inr (.inr (.inl ⟨rfl, hv⟩)))) fun p hp => e2.others parent p hP hne hp) (e2.budget hpt)
  have e3 := e2.trans e3
  -- the stack
  have hstack : ((Sys.vaddrsDown c.stack.nextFree c.stack.stop).filter fun v => there (c.stack, v)).length =
      ((Psys.copiedPages c).filter there).length := by
    unfold Psys.copiedPages
    rw [List.filter_map, List.length_map]
    rfl
  have hleft := e3.user
  obtain ⟨s4, e4⟩ := copyAll_spec c.stack (fun v => there (c.stack, v)) hpick hP hC hne hshort
    (Sys.vaddrsDown c.stack.nextFree c.stack.stop) s3
    (fun v _ => by rw [e3.others parent _ hP hne (by simp [pagePath])]; exact hthere (c.stack, v))
    (fun v hv => hq (c.stack, v) (List.mem_append_right _ (List.mem_map_of_mem hv))) (e3.budget hpt) (by omega)
  have e4 := e3.trans e4
  rw [hstack, Nat.zero_add] at e4
  obtain ⟨s5, e5⟩ := shareAreas_spec c.stack hpick hP hC hne hshort areas s4
    (fun a ha => hshare (fun v hv => hmem.mpr (.inr (.inr (.inr ⟨a, ha, rfl, hv⟩)))) fun p hp => e4.others parent p hP hne hp)
    (e4.budget hpt)
  exact ⟨s5, e4.trans e5⟩

theorem Sound.fewer {roots' : Nat → Prop} (hs : r.Sound roots) (h : ∀ g, roots' g → roots g) : r.Sound roots' :=
  ⟨fun a b ks ls e ha hb => hs.forest a b ks ls e (h a ha) (h b hb), fun g p f hg => hs.within g p f (h g hg),
    fun g p f hg => hs.proper g p f (h g hg)⟩

/-- A page table for the child. -/
theorem alloc_root (hpick : Picks pick) (hs : r.Sound roots) (hfree : r.freePages .pt ≠ 0) {a : Nat × Ram}
    (ha : a = r.osPfnAlloc pick .pt) : (a.2.bzero a.1).Sound (fun g => g = a.1 ∨ roots g) ∧ a.1 ∉ r.inUse ∧
      (a.2.bzero a.1).freePages .pt + 1 = r.freePages .pt ∧ (a.2.bzero a.1).freePages .user = r.freePages .user ∧
      (a.2.bzero a.1).oops = r.oops ∧
      ∀ g p, roots g → p.length ≤ 4 → (a.2.bzero a.1).follow g p = r.follow g p := by
  obtain ⟨h, hh⟩ : ∃ h, h = pick .pt r.inUse := ⟨_, rfl⟩
  obtain ⟨hnew, h0⟩ := hpick .pt r.inUse
  rw [← hh] at hnew h0
  have hbad : ¬ (h ∈ r.inUse ∧ h ≠ 0) := fun hx => hnew hx.1
  have hzero : Word.zero.next = none := rfl
  have hone : a.1 = h := by rw [ha, hh]; unfold osPfnAlloc; rw [if_neg hfree]
  obtain ⟨r', hr'⟩ : ∃ r', r' = a.2.bzero a.1 := ⟨_, rfl⟩
  have hr : r' = { r with
      mem := Radix.fill r.mem h Word.zero
      inUse := insert h r.inUse
      freePages := Function.update r.freePages .pt (r.freePages .pt - 1) } := by
    rw [hr', ha, hh]
    unfold osPfnAlloc
    rw [if_neg hfree]
    simp only [bzero, Radix.fill, Function.update_idem]
  rw [← hr', hone]
  have hfollow : ∀ g p, roots g → p.length ≤ 4 → r'.follow g p = r.follow g p := by
    intro g p hg hp
    rw [hr]
    exact Radix.follow_fill (fun b ks e hb hk => hs.within b ks e hb (by omega)) hbad hg hp
  refine ⟨⟨?_, ?_, ?_⟩, hnew, ?_, ?_, ?_, hfollow⟩
  · rw [hr]
    exact hs.forest.root hs.within hbad hzero
  · rw [hr]
    exact hs.within.root hbad hzero (fun e he => ⟨Finset.mem_insert_of_mem he.1, he.2⟩) ⟨Finset.mem_insert_self .., h0⟩
  · intro g p f hg hp hf i
    have hmem : r'.mem = Radix.fill r.mem h Word.zero := by rw [hr]
    rw [hmem]
    unfold Radix.fill
    by_cases hfh : f = h
    · subst hfh
      rw [Function.update_self]
      exact .inl rfl
    · rw [Function.update_of_ne hfh]
      rcases hg with rfl | hg
      · -- from the new table there is no way on
        have hp0 : p = [] := by
          by_contra hne
          unfold follow at hf
          rw [hmem, Radix.follow_root hzero hne] at hf
          cases hf
        subst hp0
        cases hf
        exact absurd rfl hfh
      · rw [hfollow g p hg (by omega)] at hf
        exact hs.proper g p f hg hp hf i
  · rw [hr]
    simp only [Function.update_self]
    omega
  · rw [hr]
    simp
  · rw [hr]

end Ram

end Cs330.Mm
