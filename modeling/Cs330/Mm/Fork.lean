/-
  Cs330.Mm.Fork — do_fork, and what the child of a fork reads.

  copy_mm gives the child the frames of CODE and RODATA (`linkPage`, without counting them)
  and copies the pages of DATA and STACK; it does not go through the areas.

  `Mirrors`: what the child maps so far holds what the parent's page of that number held
  before. Each way to give the child a page keeps it (`mirrors_linkPage`,
  `mirrors_copyPage`, `mirrors_sharePage`), so the child of either fork reads the bytes
  of the parent in all pages the loops go through (`doFork_mirrors`, `doCfork_mirrors`).
-/
import Cs330.Mm.Footprint

namespace Cs330.Mm

open Lib Lib.Seg Vm

namespace Sys

/-- One page of CODE or RODATA. -/
def linkPage (s : Sys) (pick : Finset Nat → Nat) (child parent : Nat) (seg : MmSegment) (vaddr : Nat) : Sys :=
  match s.getUserPte parent vaddr with
  | none => s
  | some e => (s.installPtable pick child seg vaddr e.frame).2

/-- `copy_mm` -/
def copyMm (s : Sys) (pick : Finset Nat → Nat) (child parent : Nat) : Sys :=
  let c := s.ctxList parent
  let s := (vaddrs c.code.start c.code.nextFree).foldl (fun s v => s.linkPage pick child parent c.code v) s
  let s := (vaddrs c.rodata.start c.rodata.nextFree).foldl (fun s v => s.linkPage pick child parent c.rodata v) s
  let s := (vaddrs c.data.start c.data.nextFree).foldl (fun s v => s.copyPage pick child parent c.data v) s
  (vaddrsDown c.stack.nextFree c.stack.stop).foldl (fun s v => s.copyPage pick child parent c.stack v) s

/-- `do_fork`: the child's pid, if there is a slot. `pgd` is the frame its page table gets. -/
def doFork (s : Sys) (pick : Finset Nat → Nat) (pid pgd : Nat) : Option (Nat × Sys) :=
  s.getNewCtx.map fun child =>
    let s' : Sys :=
      { s.setCtx child { s.ctxList pid with ppid := pid, pgd := pgd } with
        tables := Function.update s.tables pgd PageTable.empty }
    let s' := s'.copyMm pick child pid
    (child, s'.setCtx child { s'.ctxList child with state := .ready })

/-! ## Pages for the child -/

variable {P Q : Nat → Prop} {s t u : Sys} {child parent pid pgd k vaddr : Nat} {e : Pte} {pick : Finset Nat → Nat}

structure Mirrors (s : Sys) (child parent : Nat) (P : Nat → Prop) (t : Sys) : Prop where
  ctx : t.ctxList = s.ctxList
  frames : ∀ k, ((t.table parent).pte k).map Entry.frame = ((s.table parent).pte k).map Entry.frame
  used : s.phys.inUse ⊆ t.phys.inUse
  mem : ∀ f ∈ s.phys.inUse, t.phys.mem f = s.phys.mem f
  new : ∀ k d, (t.table child).pte k = some d →
    d.frame ∈ t.phys.inUse ∧ ∃ e, (s.table parent).pte k = some e ∧ t.phys.mem d.frame = s.phys.mem e.frame
  done : ∀ k, P k → (s.table parent).pte k ≠ none → (t.table child).pte k ≠ none

theorem Mirrors.refl (parent : Nat) (hnew : ∀ k, (s.table child).pte k = none) : Mirrors s child parent (fun _ => False) s := by
  refine ⟨rfl, fun _ => rfl, subset_rfl, fun _ _ => rfl, fun k d h => ?_, fun _ h _ => h.elim⟩
  rw [hnew k] at h
  cases h

theorem Mirrors.mono (h : Mirrors s child parent P t) (hQ : ∀ k, Q k → P k) : Mirrors s child parent Q t :=
  ⟨h.ctx, h.frames, h.used, h.mem, h.new, fun k hk => h.done k (hQ k hk)⟩

/-- Page `k` of the child is given a frame that holds what the parent's holds. -/
structure Puts (child parent k : Nat) (e : Pte) (t u : Sys) : Prop where
  ctx : u.ctxList = t.ctxList
  frames : ∀ l, ((u.table parent).pte l).map Entry.frame = ((t.table parent).pte l).map Entry.frame
  used : t.phys.inUse ⊆ u.phys.inUse
  mem : ∀ f ∈ t.phys.inUse, u.phys.mem f = t.phys.mem f
  new : ∃ d, (u.table child).pte = Function.update (t.table child).pte k (some d) ∧ d.frame ∈ u.phys.inUse ∧
    u.phys.mem d.frame = t.phys.mem e.frame

/-- The frames of the parent are in use. -/
def Owns (s : Sys) (pid : Nat) : Prop := ∀ k e, (s.table pid).pte k = some e → e.frame ≠ 0 ∧ e.frame ∈ s.phys.inUse

/-- What the parent's entry maps now it mapped before, to a frame in use. -/
theorem Mirrors.parent_entry (h : Mirrors s child parent P t) (hs : s.Owns parent) (he : (t.table parent).pte k = some e) :
    ∃ e0, (s.table parent).pte k = some e0 ∧ e0.frame = e.frame ∧ e.frame ≠ 0 ∧ e.frame ∈ s.phys.inUse := by
  have hpar := h.frames k
  rw [he] at hpar
  obtain ⟨e0, he0, hf⟩ := Option.map_eq_some_iff.mp hpar.symm
  exact ⟨e0, he0, hf, hf ▸ hs k e0 he0⟩

theorem Mirrors.put (h : Mirrors s child parent P t) (hs : s.Owns parent) (he : (t.table parent).pte k = some e)
    (hu : Puts child parent k e t u) : Mirrors s child parent (fun l => P l ∨ l = k) u := by
  obtain ⟨d, hd, hdu, hdm⟩ := hu.new
  obtain ⟨e0, he0, hf, -, hin⟩ := h.parent_entry hs he
  refine ⟨hu.ctx.trans h.ctx, fun l => (hu.frames l).trans (h.frames l), h.used.trans hu.used, fun f hf => ?_,
    fun l d' hl => ?_, fun l hl hp => ?_⟩
  · rw [hu.mem f (h.used hf), h.mem f hf]
  · rw [hd] at hl
    by_cases hlk : l = k
    · rw [hlk, Function.update_self] at hl
      cases hl
      refine ⟨hdu, e0, hlk ▸ he0, ?_⟩
      rw [hdm, h.mem _ hin, hf]
    · rw [Function.update_of_ne hlk] at hl
      obtain ⟨h1, e', h2, h3⟩ := h.new l d' hl
      exact ⟨hu.used h1, e', h2, (hu.mem _ h1).trans h3⟩
  · rw [hd]
    by_cases hlk : l = k
    · rw [hlk, Function.update_self]
      exact Option.some_ne_none d
    · rw [Function.update_of_ne hlk]
      exact h.done l (hl.resolve_right hlk) hp

/-- The parent has no such page, and none is given. -/
theorem Mirrors.skip (h : Mirrors s child parent P t) (he : (t.table parent).pte k = none) :
    Mirrors s child parent (fun l => P l ∨ l = k) t := by
  refine ⟨h.ctx, h.frames, h.used, h.mem, h.new, fun l hl hp => ?_⟩
  rcases hl with hl | rfl
  · exact h.done l hl hp
  · have hpar := h.frames l
    rw [he] at hpar
    exact absurd (Option.map_eq_none_iff.mp hpar.symm) hp

theorem table_setTable_other {i j : Nat} (h : (s.ctxList j).pgd ≠ (s.ctxList i).pgd) (tab : PageTable) :
    (s.setTable i tab).table j = s.table j := Function.update_of_ne h ..

theorem installPtable_eq (pick : Finset Nat → Nat) (seg : MmSegment) (hv : vaddr ≠ 0) {upfn : Nat} (hu : upfn ≠ 0) :
    (s.installPtable pick pid seg vaddr upfn).2 =
      s.setTable pid ((s.table pid).install (pageOf vaddr) ⟨upfn, seg.accessFlags &&& MM_WR ≠ 0⟩ true) := by
  unfold installPtable
  simp only [if_neg hv, if_neg hu]

/-- A change of the child's table alone. -/
theorem puts_setTable {w : Bool} (hne : (t.ctxList child).pgd ≠ (t.ctxList parent).pgd) (he : e.frame ∈ t.phys.inUse)
    {tab : PageTable} (htab : tab.pte = Function.update (t.table child).pte k (some ⟨e.frame, w⟩)) :
    Puts child parent k e t (t.setTable child tab) := by
  refine ⟨rfl, fun l => ?_, subset_rfl, fun _ _ => rfl, ⟨e.frame, w⟩, ?_, he, rfl⟩
  · rw [table_setTable_other hne.symm]
  · rw [table_setTable]
    exact htab

section
variable (h : Mirrors s child parent P t) (hne : (s.ctxList child).pgd ≠ (s.ctxList parent).pgd) (hs : s.Owns parent)
  (hv : vaddr ≠ 0) (seg : MmSegment)
include h hne hs hv

theorem mirrors_linkPage (pick : Finset Nat → Nat) :
    Mirrors s child parent (fun l => P l ∨ l = pageOf vaddr) (t.linkPage pick child parent seg vaddr) := by
  have hne' : (t.ctxList child).pgd ≠ (t.ctxList parent).pgd := by rwa [h.ctx]
  unfold linkPage getUserPte
  rw [PageTable.get_eq]
  cases he : (t.table parent).pte (pageOf vaddr) with
  | none => exact h.skip he
  | some e =>
    obtain ⟨-, -, -, h0, hin⟩ := h.parent_entry hs he
    refine h.put hs he ?_
    simp only
    rw [installPtable_eq pick seg hv h0]
    exact puts_setTable hne' (h.used hin) rfl

theorem mirrors_copyPage (hp : Picks pick) :
    Mirrors s child parent (fun l => P l ∨ l = pageOf vaddr) (t.copyPage pick child parent seg vaddr) := by
  have hne' : (t.ctxList child).pgd ≠ (t.ctxList parent).pgd := by rwa [h.ctx]
  unfold copyPage getUserPte
  rw [PageTable.get_eq]
  cases he : (t.table parent).pte (pageOf vaddr) with
  | none => exact h.skip he
  | some e =>
    obtain ⟨hnew, -⟩ := hp t.phys.inUse
    refine h.put hs he ?_
    unfold installPtable
    simp only [if_neg hv, if_true, osPfnAlloc_eq hp]
    refine ⟨rfl, fun l => ?_, fun f hf => Finset.mem_insert_of_mem hf, fun f hf => ?_, ⟨pick t.phys.inUse, seg.accessFlags &&& MM_WR ≠ 0⟩,
      ?_, Finset.mem_insert_self _ _, Function.update_self ..⟩
    · have htable := table_setTable_other (s := t) hne'.symm
        ((t.table child).install (pageOf vaddr) ⟨pick t.phys.inUse, seg.accessFlags &&& MM_WR ≠ 0⟩ true)
      exact congrArg (fun tab : PageTable => (tab.pte l).map Entry.frame) htable
    · have hfp : f ≠ pick t.phys.inUse := fun he => hnew (he ▸ hf)
      exact Function.update_of_ne hfp ..
    · exact congrArg PageTable.pte (table_setTable t child
        ((t.table child).install (pageOf vaddr) ⟨pick t.phys.inUse, seg.accessFlags &&& MM_WR ≠ 0⟩ true))

theorem mirrors_sharePage (pick : Finset Nat → Nat) :
    Mirrors s child parent (fun l => P l ∨ l = pageOf vaddr) (t.sharePage pick child parent seg vaddr) := by
  have hne' : (t.ctxList child).pgd ≠ (t.ctxList parent).pgd := by rwa [h.ctx]
  unfold sharePage getUserPte
  rw [PageTable.get_eq]
  cases he : (t.table parent).pte (pageOf vaddr) with
  | none => exact h.skip he
  | some e =>
    obtain ⟨-, -, -, h0, hin⟩ := h.parent_entry hs he
    refine h.put hs he ?_
    simp only
    -- the parent's PTE keeps its frame; the child's is written twice
    obtain ⟨t1, ht1⟩ : ∃ t1, t1 = t.setTable parent ((t.table parent).alter (pageOf vaddr) fun e => some { e with write := false }) :=
      ⟨_, rfl⟩
    have hchild : t1.table child = t.table child := by rw [ht1]; exact table_setTable_other hne' _
    have hparent : (t1.table parent).pte = Function.update (t.table parent).pte (pageOf vaddr) (some ⟨e.frame, false⟩) := by
      rw [ht1, table_setTable, PageTable.alter_pte, he]
      rfl
    have hne1 : (t1.ctxList child).pgd ≠ (t1.ctxList parent).pgd := by rw [ht1]; exact hne'
    rw [← ht1, installPtable_eq pick seg hv h0]
    obtain ⟨tab, htab⟩ : ∃ tab, tab = (t1.table child).install (pageOf vaddr) ⟨e.frame, seg.accessFlags &&& MM_WR ≠ 0⟩ true := ⟨_, rfl⟩
    rw [← htab]
    have htabs : ((t1.setTable child tab).setTable child (((t1.setTable child tab).table child).alter (pageOf vaddr) fun _ =>
        some { e with write := false })).incrementRefcount e.frame =
        (t1.setTable child (tab.alter (pageOf vaddr) fun _ => some { e with write := false })).incrementRefcount e.frame := by
      rw [table_setTable]
      unfold setTable
      rw [Function.update_idem]
    rw [htabs]
    have hin1 : e.frame ∈ t1.phys.inUse := by rw [ht1]; exact h.used hin
    have hput : Puts child parent (pageOf vaddr) e t1
        (t1.setTable child (tab.alter (pageOf vaddr) fun _ => some { e with write := false })) :=
      puts_setTable (w := false) hne1 hin1 (by
        rw [PageTable.alter_pte, htab, PageTable.install_pte, Function.update_self, Function.update_idem]
        rfl)
    refine ⟨?_, fun l => ?_, ?_, fun f hf => ?_, ?_⟩
    · exact hput.ctx.trans (by rw [ht1]; rfl)
    · refine (hput.frames l).trans ?_
      rw [hparent]
      by_cases hl : l = pageOf vaddr
      · rw [hl, Function.update_self, he]
        rfl
      · rw [Function.update_of_ne hl]
    · have hsub := hput.used
      rw [ht1] at hsub
      rw [ht1]
      exact hsub
    · rw [ht1]
      rfl
    · obtain ⟨d, h1, h2, h3⟩ := hput.new
      rw [hchild] at h1
      refine ⟨d, h1, h2, h3.trans ?_⟩
      rw [ht1]
      rfl

end

/-! ## The loops -/

/-- A loop over addresses gives the child their pages. -/
theorem Mirrors.foldl {f : Sys → Nat → Sys} (vs : List Nat) (h : Mirrors s child parent P t)
    (hf : ∀ P t, Mirrors s child parent P t → ∀ v ∈ vs, Mirrors s child parent (fun l => P l ∨ l = pageOf v) (f t v)) :
    Mirrors s child parent (fun l => P l ∨ l ∈ vs.map pageOf) (vs.foldl f t) := by
  induction vs generalizing P t with
  | nil => exact h.mono fun k hk => hk.resolve_right List.not_mem_nil
  | cons v vs ih =>
    have hrest := ih (hf P t h v List.mem_cons_self) fun P t h w hw => hf P t h w (List.mem_cons_of_mem _ hw)
    refine hrest.mono fun k hk => ?_
    rcases hk with hk | hk
    · exact .inl (.inl hk)
    · rcases List.mem_cons.mp hk with rfl | hk
      · exact .inl (.inr rfl)
      · exact .inr hk

section
variable (hnew : ∀ k, (s.table child).pte k = none) (hne : (s.ctxList child).pgd ≠ (s.ctxList parent).pgd)
  (hs : s.Owns parent) (hp : Picks pick)
include hnew hne hs hp

theorem copyMm_mirrors (h0 : ∀ v ∈ (s.ctxList parent).sharedAddrs, v ≠ 0)
    (h1 : ∀ v ∈ vaddrsDown (s.ctxList parent).stack.nextFree (s.ctxList parent).stack.stop, v ≠ 0) :
    Mirrors s child parent (fun l => l ∈ (s.ctxList parent).sharedPages ++ (s.ctxList parent).stackPages)
      (s.copyMm pick child parent) := by
  unfold Ctx.sharedAddrs at h0
  simp only [List.mem_append] at h0
  have hcode := (Mirrors.refl parent hnew).foldl
    (vaddrs (s.ctxList parent).code.start (s.ctxList parent).code.nextFree)
    fun P t h v hv => mirrors_linkPage h hne hs (h0 v (.inl (.inl hv))) (s.ctxList parent).code pick
  have hrodata := hcode.foldl (vaddrs (s.ctxList parent).rodata.start (s.ctxList parent).rodata.nextFree)
    fun P t h v hv => mirrors_linkPage h hne hs (h0 v (.inl (.inr hv))) (s.ctxList parent).rodata pick
  have hdata := hrodata.foldl (vaddrs (s.ctxList parent).data.start (s.ctxList parent).data.nextFree)
    fun P t h v hv => mirrors_copyPage h hne hs (h0 v (.inr hv)) (s.ctxList parent).data hp
  have hstack := hdata.foldl (vaddrsDown (s.ctxList parent).stack.nextFree (s.ctxList parent).stack.stop)
    fun P t h v hv => mirrors_copyPage h hne hs (h1 v hv) (s.ctxList parent).stack hp
  unfold copyMm
  refine hstack.mono fun k hk => ?_
  unfold Ctx.sharedPages Ctx.sharedAddrs Ctx.stackPages at hk
  simp only [List.map_append, List.mem_append] at hk
  simp only [false_or]
  exact hk

theorem cforkCopyMm_mirrors (hsame : (s.ctxList child).sharedAddrs = (s.ctxList parent).sharedAddrs)
    (hstk : (s.ctxList child).stack = (s.ctxList parent).stack)
    (h0 : ∀ v ∈ (s.ctxList parent).sharedAddrs, v ≠ 0)
    (h1 : ∀ v ∈ vaddrsDown (s.ctxList parent).stack.nextFree (s.ctxList parent).stack.stop, v ≠ 0)
    (h2 : ∀ v ∈ (s.ctxList parent).areaAddrs, v ≠ 0) :
    Mirrors s child parent (fun l => l ∈ (s.ctxList parent).sharedPages ++ (s.ctxList parent).stackPages ++
      (s.ctxList parent).areaPages) (s.cforkCopyMm pick child parent) := by
  rw [← hsame] at h0
  rw [← hstk] at h1
  have hpages : (s.ctxList parent).sharedPages = (s.ctxList child).sharedPages := congrArg (List.map pageOf) hsame.symm
  unfold Ctx.sharedAddrs at h0
  simp only [List.mem_append] at h0
  have hcode := (Mirrors.refl parent hnew).foldl
    (vaddrs (s.ctxList child).code.start (s.ctxList child).code.nextFree)
    fun P t h v hv => mirrors_sharePage h hne hs (h0 v (.inl (.inl hv))) (s.ctxList child).code pick
  have hrodata := hcode.foldl (vaddrs (s.ctxList child).rodata.start (s.ctxList child).rodata.nextFree)
    fun P t h v hv => mirrors_sharePage h hne hs (h0 v (.inl (.inr hv))) (s.ctxList child).rodata pick
  have hdata := hrodata.foldl (vaddrs (s.ctxList child).data.start (s.ctxList child).data.nextFree)
    fun P t h v hv => mirrors_sharePage h hne hs (h0 v (.inr hv)) (s.ctxList child).data pick
  have hstack := hdata.foldl (vaddrsDown (s.ctxList child).stack.nextFree (s.ctxList child).stack.stop)
    fun P t h v hv => mirrors_copyPage h hne hs (h1 v hv) (s.ctxList child).stack hp
  have hareas := hstack.foldl ((s.ctxList parent).areaAddrs)
    fun P t h v hv => mirrors_sharePage h hne hs (h2 v hv) (s.ctxList child).stack pick
  unfold cforkCopyMm
  simp only [← List.foldl_flatMap, hstack.ctx]
  refine hareas.mono fun k hk => ?_
  rw [hpages] at hk
  unfold Ctx.sharedPages Ctx.sharedAddrs Ctx.stackPages Ctx.areaPages at hk
  simp only [List.map_append, List.mem_append, ← hstk] at hk
  simp only [false_or]
  exact hk

end

/-! ## The forks -/

/-- The child has a byte of every page the loops have come to. -/
theorem Mirrors.load (h : Mirrors s child parent P t) {addr : Nat} {b : UInt8} (hk : P (pageOf addr))
    (hb : s.load parent addr = some b) : t.load child addr = some b := by
  obtain ⟨e, he, rfl⟩ := Option.map_eq_some_iff.mp hb
  obtain ⟨d, hd⟩ := Option.ne_none_iff_exists'.mp (h.done _ hk (by rw [he]; exact Option.some_ne_none e))
  obtain ⟨-, e', he', hmem⟩ := h.new _ d hd
  rw [he] at he'
  cases he'
  unfold Sys.load
  rw [hd, Option.map_some, hmem]

/-- The state in which the pages are copied: the child is a copy of the context with an
    empty page table. -/
structure Forking (s : Sys) (pid pgd child : Nat) (s0 : Sys) : Prop where
  ctx : s0.ctxList = Function.update s.ctxList child { s.ctxList pid with ppid := pid, pgd := pgd }
  tables : s0.tables = Function.update s.tables pgd PageTable.empty
  phys : s0.phys = s.phys

section
variable {s0 : Sys} (h : Forking s pid pgd child s0) (hne : pid ≠ child) (hpgd : ∀ i, (s.ctxList i).pgd ≠ pgd)
include h

theorem Forking.child_ctx : s0.ctxList child = { s.ctxList pid with ppid := pid, pgd := pgd } := by
  rw [h.ctx, Function.update_self]

theorem Forking.child_table (k : Nat) : (s0.table child).pte k = none := by
  unfold table
  rw [h.child_ctx, h.tables, Function.update_self]
  rfl

include hne

theorem Forking.parent_ctx : s0.ctxList pid = s.ctxList pid := by rw [h.ctx, Function.update_of_ne hne]

include hpgd

theorem Forking.parent_table : s0.table pid = s.table pid := by
  unfold table
  rw [h.parent_ctx hne, h.tables, Function.update_of_ne (hpgd pid)]

theorem Forking.apart : (s0.ctxList child).pgd ≠ (s0.ctxList pid).pgd := by
  rw [h.child_ctx, h.parent_ctx hne]
  exact (hpgd pid).symm

theorem Forking.owns (hs : s.Owns pid) : s0.Owns pid := by
  intro k e he
  rw [h.parent_table hne hpgd] at he
  rw [h.phys]
  exact hs k e he

theorem Forking.load (addr : Nat) : s0.load pid addr = s.load pid addr := by
  unfold Sys.load
  rw [h.parent_table hne hpgd, h.phys]

end

theorem load_setState (s : Sys) (child : Nat) (st : ProcState) (i addr : Nat) :
    (s.setCtx child { s.ctxList child with state := st }).load i addr = s.load i addr := by
  have hpgd : ((s.setCtx child { s.ctxList child with state := st }).ctxList i).pgd = (s.ctxList i).pgd := by
    show (Function.update s.ctxList child _ i).pgd = _
    by_cases hi : i = child
    · rw [hi, Function.update_self]
    · rw [Function.update_of_ne hi]
  unfold Sys.load table
  rw [hpgd]
  rfl

/-- A process all of whose pages lie in its segments and areas, in frames it may rely on. -/
structure Whole (s : Sys) (pid : Nat) : Prop where
  live : s.Live pid
  shape : (s.ctxList pid).Shape
  stack : 0 < (s.ctxList pid).stack.nextFree
  covers : s.Covers pid
  owns : s.Owns pid

variable {addr : Nat} {b : UInt8}

theorem Whole.holds (hw : s.Whole pid) (hb : s.load pid addr = some b) : (s.ctxList pid).Holds (pageOf addr) := by
  obtain ⟨e, he, -⟩ := Option.map_eq_some_iff.mp hb
  exact hw.covers _ (by rw [he]; exact Option.some_ne_none e)

/-- The slot of a child is not its parent's. -/
theorem Whole.ne_child (hw : s.Whole pid) (hslot : s.getNewCtx = some child) : pid ≠ child := by
  have hun : (s.ctxList child).state = .unused := by simpa using List.find?_some hslot
  exact fun he => hw.live.2.2 (he ▸ hun)

/-- The child of do_fork reads what the parent did, in all pages but those of areas. -/
theorem doFork_load (hw : s.Whole pid) (hp : Picks pick) (hpgd : ∀ i, (s.ctxList i).pgd ≠ pgd)
    (h : s.doFork pick pid pgd = some (child, t)) (hb : s.load pid addr = some b)
    (harea : pageOf addr ∉ (s.ctxList pid).areaPages) : t.load child addr = some b := by
  obtain ⟨c, hslot, hpair⟩ := Option.map_eq_some_iff.mp h
  obtain ⟨rfl, ht⟩ := Prod.mk.inj hpair
  have hne := hw.ne_child hslot
  obtain ⟨s0, hs0⟩ : ∃ s0 : Sys, s0 = { s.setCtx c { s.ctxList pid with ppid := pid, pgd := pgd } with
      tables := Function.update s.tables pgd PageTable.empty } := ⟨_, rfl⟩
  have hf : Forking s pid pgd c s0 := by rw [hs0]; exact ⟨rfl, rfl, rfl⟩
  have hctx := hf.parent_ctx hne
  obtain ⟨h0, h1, -⟩ := hw.shape.addrs_ne_zero hw.stack
  have hm := copyMm_mirrors hf.child_table (hf.apart hne hpgd) (hf.owns hne hpgd hw.owns) hp (by rwa [hctx]) (by rwa [hctx])
  rw [hctx] at hm
  rw [← ht, load_setState, ← hs0]
  refine hm.load ?_ ((hf.load hne hpgd addr).trans hb)
  exact (List.mem_append.mp (hw.shape.mem_pages (hw.holds hb))).resolve_right harea

/-- The child of do_cfork reads what the parent did. -/
theorem doCfork_load (hw : s.Whole pid) (hp : Picks pick) (hpgd : ∀ i, (s.ctxList i).pgd ≠ pgd)
    (h : s.doCfork pick pid pgd = some (child, t)) (hb : s.load pid addr = some b) : t.load child addr = some b := by
  obtain ⟨c, hslot, hpair⟩ := Option.map_eq_some_iff.mp h
  obtain ⟨rfl, ht⟩ := Prod.mk.inj hpair
  have hne := hw.ne_child hslot
  obtain ⟨s0, hs0⟩ : ∃ s0 : Sys, s0 = { s.setCtx c { s.ctxList pid with ppid := pid, pgd := pgd } with
      tables := Function.update s.tables pgd PageTable.empty
      numVmArea := s.numVmArea + (s.ctxList pid).vmArea.length } := ⟨_, rfl⟩
  have hf : Forking s pid pgd c s0 := by rw [hs0]; exact ⟨rfl, rfl, rfl⟩
  have hctx := hf.parent_ctx hne
  have hcc := hf.child_ctx
  obtain ⟨h0, h1, h2⟩ := hw.shape.addrs_ne_zero hw.stack
  have hm := cforkCopyMm_mirrors hf.child_table (hf.apart hne hpgd) (hf.owns hne hpgd hw.owns) hp
    (by rw [hctx, hcc]; rfl) (by rw [hctx, hcc]) (by rwa [hctx]) (by rwa [hctx]) (by rwa [hctx])
  rw [hctx] at hm
  rw [← ht, load_setState, ← hs0]
  exact hm.load (hw.shape.mem_pages (hw.holds hb)) ((hf.load hne hpgd addr).trans hb)

end Sys

end Cs330.Mm
