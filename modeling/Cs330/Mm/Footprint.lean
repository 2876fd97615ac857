/-
  Cs330.Mm.Footprint — what a call of one process may touch, whoever shares its page table.

  `Fills pid P s t`: of the tables only that of `pid` changed, and it maps no page it did
  not map before but pages in `P`. `Keeps pid s t`: the same of a whole call, which may also
  change the context of `pid`; pages it maps lie in its segments and areas if they did
  before. Every call but the forks and exit keeps (`keeps_call`), with no assumption on
  whom the table belongs to besides.
-/
import Cs330.Mm.Described
import Cs330.Mm.Vfork

namespace Cs330.Mm

open Lib Lib.Seg Vm

namespace Sys

variable {P Q : Nat → Prop} {s t u : Sys} {pid addr : Nat} {pick : Finset Nat → Nat}

/-- Every mapped page of the table of `pid` lies in a segment or an area of `pid`. -/
def Covers (s : Sys) (pid : Nat) : Prop := ∀ k, (s.table pid).pte k ≠ none → (s.ctxList pid).Holds k

structure Fills (pid : Nat) (P : Nat → Prop) (s t : Sys) : Prop where
  ctx : t.ctxList = s.ctxList
  tables : ∀ g, g ≠ (s.ctxList pid).pgd → t.tables g = s.tables g
  pages : ∀ k, (t.table pid).pte k ≠ none → P k ∨ (s.table pid).pte k ≠ none

theorem Fills.refl (pid : Nat) (P : Nat → Prop) (s : Sys) : Fills pid P s s := ⟨rfl, fun _ _ => rfl, fun _ h => .inr h⟩

theorem Fills.trans (h1 : Fills pid P s t) (h2 : Fills pid P t u) : Fills pid P s u := by
  refine ⟨h2.ctx.trans h1.ctx, fun g hg => ?_, fun k hk => ?_⟩
  · rw [h2.tables g (by rwa [h1.ctx]), h1.tables g hg]
  · rcases h2.pages k hk with hk | hk
    · exact .inl hk
    · exact h1.pages k hk

theorem Fills.mono (h : Fills pid P s t) (hPQ : ∀ k, P k → Q k) : Fills pid Q s t :=
  ⟨h.ctx, h.tables, fun k hk => (h.pages k hk).imp (hPQ k) id⟩

theorem Fills.foldl {f : Sys → Nat → Sys} {is : List Nat} (h : ∀ s, ∀ i ∈ is, Fills pid P s (f s i)) (s : Sys) :
    Fills pid P s (is.foldl f s) := by
  induction is generalizing s with
  | nil => exact .refl pid P s
  | cons i is ih =>
    have hhead := h s i List.mem_cons_self
    have htail := ih (fun s j hj => h s j (List.mem_cons_of_mem _ hj)) (f s i)
    exact hhead.trans htail

@[simp] theorem table_setTable (s : Sys) (pid : Nat) (t : PageTable) : (s.setTable pid t).table pid = t :=
  Function.update_self ..

/-- Frames and counters may change in between. -/
theorem fills_setTable (hc : t.ctxList = s.ctxList) (ht : t.tables = s.tables) {tab : PageTable}
    (hp : ∀ k, tab.pte k ≠ none → P k ∨ (s.table pid).pte k ≠ none) : Fills pid P s (t.setTable pid tab) := by
  refine ⟨hc, fun g hg => ?_, fun k hk => hp k (by rwa [table_setTable] at hk)⟩
  show Function.update t.tables (t.ctxList pid).pgd tab g = _
  rw [hc, Function.update_of_ne hg, ht]

theorem fills_phys (hc : t.ctxList = s.ctxList) (ht : t.tables = s.tables) : Fills pid P s t := by
  refine ⟨hc, fun g _ => by rw [ht], fun k hk => .inr ?_⟩
  unfold table at hk ⊢
  rwa [hc, ht] at hk

theorem fills_install (hc : t.ctxList = s.ctxList) (ht : t.tables = s.tables) {k : Nat} (hk : P k) (e : Pte) (w : Bool) :
    Fills pid P s (t.setTable pid ((t.table pid).install k e w)) := by
  refine fills_setTable hc ht fun l hl => ?_
  by_cases hlk : l = k
  · exact .inl (hlk ▸ hk)
  · rw [PageTable.install_pte, Function.update_of_ne hlk] at hl
    unfold table at hl ⊢
    rw [hc, ht] at hl
    exact .inr hl

theorem fills_alter (hc : t.ctxList = s.ctxList) (ht : t.tables = s.tables) (k : Nat) (f : Pte → Option Pte) :
    Fills pid P s (t.setTable pid ((t.table pid).alter k f)) := by
  have htable : t.table pid = s.table pid := by unfold table; rw [hc, ht]
  refine fills_setTable hc ht fun l hl => .inr fun hnone => hl ?_
  rw [PageTable.alter_pte, htable]
  by_cases hlk : l = k
  · rw [hlk, Function.update_self, ← hlk, hnone]
    rfl
  · rw [Function.update_of_ne hlk, hnone]

theorem fills_installPage {addr : Nat} (hP : P (pageOf addr)) (w u : Bool) (s : Sys) :
    Fills pid P s (s.installPage pick pid addr w u) :=
  fills_install (osPfnAlloc_ctxList pick) (osPfnAlloc_tables pick) hP _ _

theorem fills_pfnUnmap (s : Sys) (pid addr : Nat) :
    Fills pid P s (s.pfnUnmap pid addr) ∧ ((s.pfnUnmap pid addr).table pid).pte (pageOf addr) = none := by
  unfold pfnUnmap
  have hget : s.getUserPte pid addr = (s.table pid).pte (pageOf addr) := PageTable.get_eq _ _
  cases h : s.getUserPte pid addr with
  | none => exact ⟨.refl pid P s, by rw [← hget, h]⟩
  | some e =>
    have hgone : ∀ t : Sys, ((t.setTable pid ((t.table pid).alter (pageOf addr) fun _ => none)).table pid).pte (pageOf addr) =
        none := fun t => by
      rw [table_setTable, PageTable.alter_pte, Function.update_self]
      exact Option.bind_fun_none _
    have halter : ∀ t : Sys, t.ctxList = s.ctxList → t.tables = s.tables →
        Fills pid P s (t.setTable pid ((t.table pid).alter (pageOf addr) fun _ => none)) :=
      fun t hc ht => fills_alter hc ht _ _
    simp only
    split
    · exact ⟨halter (s.osPfnFree e.frame) rfl rfl, hgone _⟩
    · exact ⟨halter (s.decrementRefcount e.frame) rfl rfl, hgone _⟩

theorem fills_changePermissions (s : Sys) (pid addr : Nat) (prot : UInt32) : Fills pid P s (s.changePermissions pid addr prot) := by
  unfold changePermissions
  cases s.getUserPte pid addr with
  | none => exact .refl pid P s
  | some e =>
    simp only
    split
    · exact fills_alter rfl rfl _ _
    · exact .refl pid P s

theorem fills_store (s : Sys) (pid addr : Nat) (byte : UInt8) : Fills pid P s (s.store pid addr byte) := by
  unfold Sys.store
  cases (s.table pid).pte (pageOf addr) with
  | none => exact .refl pid P s
  | some e => exact fills_phys rfl rfl

/-- The loop of munmap: the pages of the range are gone. -/
theorem fills_pfnUnmapAll (s : Sys) (pid : Nat) (is : List Nat) :
    Fills pid (fun _ => False) s (s.pfnUnmapAll pid is) ∧ ∀ k ∈ is.map pageOf, ((s.pfnUnmapAll pid is).table pid).pte k = none := by
  induction is generalizing s with
  | nil => exact ⟨.refl pid _ s, fun k hk => absurd hk List.not_mem_nil⟩
  | cons i is ih =>
    obtain ⟨h1, hgone⟩ := @fills_pfnUnmap (fun _ => False) s pid i
    obtain ⟨h2, hall⟩ := ih (s.pfnUnmap pid i)
    refine ⟨h1.trans h2, fun k hk => ?_⟩
    rcases List.mem_cons.mp hk with rfl | hk
    · by_contra hne
      exact (h2.pages _ hne).elim id fun h => h hgone
    · exact hall k hk

/-! ## Whole calls -/

/-- A call of `pid` that does not end it. -/
structure Keeps (pid : Nat) (s t : Sys) : Prop where
  others : ∀ i, i ≠ pid → t.ctxList i = s.ctxList i
  pgd : (t.ctxList pid).pgd = (s.ctxList pid).pgd
  ppid : (t.ctxList pid).ppid = (s.ctxList pid).ppid
  state : (t.ctxList pid).state = (s.ctxList pid).state
  tables : ∀ g, g ≠ (s.ctxList pid).pgd → t.tables g = s.tables g
  shape : (t.ctxList pid).Shape
  covers : s.Covers pid → t.Covers pid
  /-- The stack grows no further down than its segment goes. -/
  stack : (t.ctxList pid).stack.nextFree = (s.ctxList pid).stack.nextFree ∨
    STACK_START - MAX_STACK_SIZE ≤ (t.ctxList pid).stack.nextFree

variable {c : Ctx} {length : Int}

theorem Fills.keeps (h : Fills pid (s.ctxList pid).Holds s t) (hs : (s.ctxList pid).Shape) : Keeps pid s t := by
  have hctx : ∀ i, t.ctxList i = s.ctxList i := fun i => congrFun h.ctx i
  refine ⟨fun i _ => hctx i, by rw [hctx], by rw [hctx], by rw [hctx], h.tables, by rwa [hctx], fun hc k hk => ?_,
    .inl (by rw [hctx])⟩
  rw [hctx]
  exact (h.pages k hk).elim id (hc k)

/-- A change of the context and then of the table. -/
theorem Fills.keeps_set {c : Ctx} (h : Fills pid P u t) (hu : u.ctxList = Function.update s.ctxList pid c)
    (hut : u.tables = s.tables) (hpgd : c.pgd = (s.ctxList pid).pgd) (hppid : c.ppid = (s.ctxList pid).ppid)
    (hstate : c.state = (s.ctxList pid).state) (hshape : c.Shape)
    (hcov : s.Covers pid → ∀ k, (t.table pid).pte k ≠ none → (P k ∨ (s.table pid).pte k ≠ none) → c.Holds k)
    (hstack : c.stack.nextFree = (s.ctxList pid).stack.nextFree ∨ STACK_START - MAX_STACK_SIZE ≤ c.stack.nextFree) :
    Keeps pid s t := by
  have hself : t.ctxList pid = c := by rw [h.ctx, hu, Function.update_self]
  have htable : (u.table pid) = s.table pid := by
    unfold table
    rw [hut, hu, Function.update_self, hpgd]
  have hg : (u.ctxList pid).pgd = (s.ctxList pid).pgd := by rw [hu, Function.update_self, hpgd]
  refine ⟨fun i hi => by rw [h.ctx, hu, Function.update_of_ne hi], by rw [hself, hpgd], by rw [hself, hppid],
    by rw [hself, hstate], fun g hne => ?_, by rwa [hself], fun hc k hk => ?_, by rwa [hself]⟩
  · rw [h.tables g (by rwa [hg]), hut]
  · rw [hself]
    refine hcov hc k hk ?_
    have hpages := h.pages k hk
    rwa [htable] at hpages

theorem keeps_doExpand (hs : (s.ctxList pid).Shape) (size : Nat) (segmentT : Int) :
    Keeps pid s (s.doExpand pid size segmentT).2 := by
  obtain ⟨hr1, hr2, hr3, hr4, hr5⟩ := hs.rodata
  obtain ⟨hd1, hd2, hd3, hd4, hd5⟩ := hs.data
  rcases doExpand_spec s pid size segmentT with h | ⟨n, hn, hle, h⟩ | ⟨n, hn, hle, h⟩
  · rw [h]
    exact (Fills.refl pid _ s).keeps hs
  · rw [h]
    refine (Fills.refl pid (fun _ => False) _).keeps_set rfl rfl rfl rfl rfl ?_ (fun hc k _ hk => ?_) (.inl rfl)
    · exact { hs with rodata := ⟨hr1, hr2, by simp only; omega, by simp only; omega, by simp only; omega⟩ }
    · refine (hc k (hk.resolve_left id)).mono rfl ⟨rfl, ?_⟩ ⟨rfl, Nat.le_refl _⟩ ⟨rfl, Nat.le_refl _⟩ rfl
      simp only
      omega
  · rw [h]
    refine (Fills.refl pid (fun _ => False) _).keeps_set rfl rfl rfl rfl rfl ?_ (fun hc k _ hk => ?_) (.inl rfl)
    · exact { hs with data := ⟨hd1, hd2, by simp only; omega, by simp only; omega, by simp only; omega⟩ }
    · refine (hc k (hk.resolve_left id)).mono rfl ⟨rfl, Nat.le_refl _⟩ ⟨rfl, ?_⟩ ⟨rfl, Nat.le_refl _⟩ rfl
      simp only
      omega

/-- The new list of areas of a call. -/
theorem shape_call (hs : c.Shape) (call : Call) (h : call.Promised) :
    Ctx.Shape { c with vmArea := (call.run c.vmArea).2.1 } := by
  obtain ⟨h1, h2⟩ := call.run_inv h hs.areas hs.merged
  exact { hs with areas := h1, merged := h2 }

theorem keeps_mmap (hs : (s.ctxList pid).Shape) (ha : 4096 ∣ addr) (hlen : Vm.Promised length) (prot flags : UInt32) :
    Keeps pid s (s.vmAreaMap pick pid addr length prot flags).2 := by
  have hshape := shape_call hs (.mmap addr length prot flags) ⟨ha, hlen⟩
  have hold : ∀ k, (s.ctxList pid).Holds k →
      Ctx.Holds { s.ctxList pid with vmArea := (mapAreas (s.ctxList pid).vmArea addr length prot flags).2.1 } k :=
    fun k hk => hk.areas fun hne => by
      rcases mapAreas_keeps hs.areas ha hlen prot flags (4096 * k) with h | ⟨hnone, -⟩
      · rwa [h]
      · exact absurd hnone hne
  unfold vmAreaMap
  simp only
  split
  · exact (Fills.refl pid (fun _ => False) _).keeps_set rfl rfl rfl rfl rfl hshape
      (fun hc k _ hk => hold k (hc k (hk.resolve_left id))) (.inl rfl)
  rename_i hret
  split
  · -- populated: the pages are in the new area
    obtain ⟨ret, he, hdvd, -, hhigh, hcov⟩ := mapAreas_covers hs.areas hlen ha hret
    rw [end_eq] at hhigh
    rw [he, Int.toNat_natCast, pageRound_eq hlen, plus_nat (by omega)]
    refine (Fills.foldl (P := fun k => protAt (mapAreas (s.ctxList pid).vmArea addr length prot flags).2.1 (4096 * k) ≠ none)
      (fun t i hi => fills_installPage ?_ _ true t) _).keeps_set rfl rfl rfl rfl rfl hshape (fun hc k _ hk => ?_) (.inl rfl)
    · have hmem := List.mem_map_of_mem (f := pageOf) hi
      rw [mem_pages hdvd (by omega)] at hmem
      rw [hcov _ hmem.1 hmem.2]
      exact Option.some_ne_none _
    · rcases hk with hk | hk
      · exact .inr (.inr (.inr (.inr hk)))
      · exact hold k (hc k hk)
  · exact (Fills.refl pid (fun _ => False) _).keeps_set rfl rfl rfl rfl rfl hshape
      (fun hc k _ hk => hold k (hc k (hk.resolve_left id))) (.inl rfl)

theorem keeps_munmap (hs : (s.ctxList pid).Shape) (ha : 4096 ∣ addr) (hlen : Vm.Promised length) :
    Keeps pid s (s.vmAreaUnmap pid addr length).2 := by
  have hshape := shape_call hs (.munmap addr length) ⟨ha, hlen⟩
  unfold vmAreaUnmap
  simp only
  by_cases h0 : (unmapAreas (s.ctxList pid).vmArea addr length).1 = 0
  · have hvalue : ∀ x, protAt (unmapAreas (s.ctxList pid).vmArea addr length).2.1 x =
        if addr ≤ x ∧ x < addr + pageUp length then none else protAt (s.ctxList pid).vmArea x :=
      (unmapAreas_clears hs.areas hlen ha h0).value
    split
    · obtain ⟨hfill, hgone⟩ := fills_pfnUnmapAll (s.setAreas pid (unmapAreas (s.ctxList pid).vmArea addr length).2.1
        (unmapAreas (s.ctxList pid).vmArea addr length).2.2) pid (vaddrs addr (plus addr (pageRound length)))
      refine hfill.keeps_set rfl rfl rfl rfl rfl hshape (fun hc k hpres hk => ?_) (.inl rfl)
      refine (hc k (hk.resolve_left id)).areas fun hne => ?_
      -- a page of the range has been unmapped
      have hlt : 4096 * k < MMAP_AREA_END := by
        by_contra hge
        exact hne (hs.areas.valueAt_above (Nat.le_of_not_lt hge))
      rw [end_eq] at hlt
      have hout : ¬ (addr ≤ 4096 * k ∧ 4096 * k < addr + pageUp length) := fun hin =>
        hpres (hgone k ((mem_unmapped ha hlen h0 (by omega)).mpr hin))
      rwa [hvalue, if_neg hout]
    · rename_i hnil
      have hnil : (s.ctxList pid).vmArea = [] := by
        by_contra hne
        exact hnil ⟨h0, hne⟩
      refine (Fills.refl pid (fun _ => False) _).keeps_set rfl rfl rfl rfl rfl hshape
        (fun hc k _ hk => (hc k (hk.resolve_left id)).areas fun hne => absurd ?_ hne) (.inl rfl)
      rw [hnil]
      rfl
  · have hfail := unmapAreas_fails h0
    split
    · rename_i h
      exact absurd h.1 h0
    · refine (Fills.refl pid (fun _ => False) _).keeps_set rfl rfl rfl rfl rfl hshape
        (fun hc k _ hk => (hc k (hk.resolve_left id)).areas fun hne => ?_) (.inl rfl)
      rwa [hfail]

theorem keeps_mprotect (hs : (s.ctxList pid).Shape) (ha : 4096 ∣ addr) (hlen : Vm.Promised length) (prot : UInt32) :
    Keeps pid s (s.vmAreaMprotect pid addr length prot).2 := by
  have hshape := shape_call hs (.mprotect addr length prot) ⟨ha, hlen⟩
  unfold vmAreaMprotect
  simp only
  split
  · rename_i h0
    refine (Fills.foldl (P := fun _ => False) (fun t i _ => fills_changePermissions t pid addr prot) _).keeps_set
      rfl rfl rfl rfl rfl hshape (fun hc k _ hk => (hc k (hk.resolve_left id)).areas fun hne => ?_) (.inl rfl)
    have hvalue : ∀ x, protAt (protectAreas (s.ctxList pid).vmArea addr length prot).2.1 x =
        if addr ≤ x ∧ x < addr + pageUp length then (protAt (s.ctxList pid).vmArea x).map fun _ => prot
        else protAt (s.ctxList pid).vmArea x := (protectAreas_paints hs.areas hlen ha h0).1.value
    rw [hvalue]
    split
    · simpa using hne
    · exact hne
  · rename_i h0
    have hfail := protectAreas_fails h0
    refine (Fills.refl pid (fun _ => False) _).keeps_set rfl rfl rfl rfl rfl hshape
      (fun hc k _ hk => (hc k (hk.resolve_left id)).areas fun hne => ?_) (.inl rfl)
    rwa [hfail]

/-! ## Faults -/

theorem segment_page {seg : MmSegment} (hdvd : 4096 ∣ seg.start) (ha : addr < 2 ^ 48) (h1 : seg.start ≤ addr)
    (h2 : addr < seg.nextFree) : seg.Holds (pageOf addr) := by
  rw [pageOf_eq ha]
  exact ⟨by omega, by omega⟩

/-- The same change of the context on both sides. -/
theorem Fills.setCtx (h : Fills pid P s t) {c : Ctx} (hc : c.pgd = (s.ctxList pid).pgd) :
    Fills pid P (s.setCtx pid c) (t.setCtx pid c) := by
  have htable : ∀ u : Sys, (u.setCtx pid c).table pid = u.tables c.pgd := fun u => by
    unfold table
    rw [setCtx_self]
    rfl
  have hctx : (t.setCtx pid c).ctxList = (s.setCtx pid c).ctxList := by
    show Function.update t.ctxList pid c = Function.update s.ctxList pid c
    rw [h.ctx]
  refine ⟨hctx, fun g hg => ?_, fun k hk => ?_⟩
  · rw [setCtx_self, hc] at hg
    exact h.tables g hg
  · rw [htable, hc] at hk ⊢
    have hpages := h.pages k
    unfold table at hpages
    rw [h.ctx] at hpages
    exact hpages hk

theorem growStack_pages (err : UInt64) (n : Nat) (s : Sys) (hn : 4096 * n ≤ (s.ctxList pid).stack.nextFree)
    (ha : 4096 ∣ (s.ctxList pid).stack.nextFree) (htop : (s.ctxList pid).stack.nextFree ≤ STACK_START) :
    Fills pid (fun k => (s.ctxList pid).stack.nextFree - 4096 * n ≤ 4096 * k ∧ 4096 * k < (s.ctxList pid).stack.nextFree)
      (s.setStackNextFree pid ((s.ctxList pid).stack.nextFree - 4096 * n)) (growStack pick pid err n s) := by
  induction n generalizing s with
  | zero =>
    refine ⟨?_, fun _ _ => rfl, fun k hk => .inr ?_⟩
    · show s.ctxList = Function.update s.ctxList pid _
      exact (Function.update_eq_self pid s.ctxList).symm
    · unfold setStackNextFree table
      rw [setCtx_self]
      exact hk
  | succ n ih =>
    obtain ⟨nf, hnf⟩ : ∃ nf, nf = (s.ctxList pid).stack.nextFree - 4096 := ⟨_, rfl⟩
    obtain ⟨s1, hs1⟩ : ∃ s1, s1 = (s.setStackNextFree pid nf).installPageTable pick pid nf err := ⟨_, rfl⟩
    have hctx : s1.ctxList = (s.setStackNextFree pid nf).ctxList := by rw [hs1]; exact installPage_ctxList pick _ _
    have hself : (s1.ctxList pid).stack.nextFree = nf := by rw [hctx, setStackNextFree, setCtx_self]
    have hih := ih s1 (by rw [hself]; omega) (by rw [hself]; omega) (by rw [hself]; omega)
    rw [hself] at hih
    have hpage : nf ≤ 4096 * pageOf nf ∧ 4096 * pageOf nf < (s.ctxList pid).stack.nextFree := by
      unfold STACK_START at htop
      rw [pageOf_eq (by omega)]
      omega
    have hone : Fills pid (fun k => (s.ctxList pid).stack.nextFree - 4096 * (n + 1) ≤ 4096 * k ∧
        4096 * k < (s.ctxList pid).stack.nextFree) (s.setStackNextFree pid nf) s1 := by
      rw [hs1]
      exact fills_installPage ⟨by omega, hpage.2⟩ _ _ _
    have hboth := hone.setCtx (c := { s1.ctxList pid with stack := { (s1.ctxList pid).stack with nextFree := nf - 4096 * n } })
      (by rw [hctx])
    have hfinal : (s.setStackNextFree pid nf).setCtx pid
        { s1.ctxList pid with stack := { (s1.ctxList pid).stack with nextFree := nf - 4096 * n } } =
        s.setStackNextFree pid ((s.ctxList pid).stack.nextFree - 4096 * (n + 1)) := by
      rw [hctx]
      unfold setStackNextFree setCtx
      simp only [Function.update_self, Function.update_idem]
      rw [show nf - 4096 * n = (s.ctxList pid).stack.nextFree - 4096 * (n + 1) by omega]
    rw [hfinal] at hboth
    have hgrow : growStack pick pid err (n + 1) s = growStack pick pid err n s1 := by
      rw [hs1, hnf]
      rfl
    rw [hgrow]
    exact hboth.trans (hih.mono fun k hk => ⟨by omega, by omega⟩)

/-- The stack grows down to the page of `addr`. -/
theorem growStack_keeps (hs : (s.ctxList pid).Shape) (h1 : (s.ctxList pid).stack.start ≤ addr)
    (h2 : addr < (s.ctxList pid).stack.nextFree) (err : UInt64) :
    Keeps pid s ((growStack pick pid err (((s.ctxList pid).stack.nextFree - addr / 4096 * 4096) / 4096) s).installPageTable pick pid
      ((growStack pick pid err (((s.ctxList pid).stack.nextFree - addr / 4096 * 4096) / 4096) s).ctxList pid).stack.nextFree
      err) := by
  obtain ⟨s1, s2, s3, s4⟩ := hs.stack
  obtain ⟨n, hn⟩ : ∃ n, n = ((s.ctxList pid).stack.nextFree - addr / 4096 * 4096) / 4096 := ⟨_, rfl⟩
  rw [← hn]
  have hdvd : 4096 ∣ (s.ctxList pid).stack.start := by
    rw [s1]
    decide
  obtain ⟨nf, hnf⟩ : ∃ nf, nf = (s.ctxList pid).stack.nextFree - 4096 * n := ⟨_, rfl⟩
  have hlow : (s.ctxList pid).stack.start ≤ nf ∧ nf < (s.ctxList pid).stack.nextFree := by omega
  have hgrow := @growStack_pages pid pick err n s (by omega) s4 (Nat.le_of_lt s3)
  rw [← hnf] at hgrow
  have hself : ((growStack pick pid err n s).ctxList pid).stack.nextFree = nf := by
    rw [hgrow.ctx, setStackNextFree, setCtx_self]
  rw [hself]
  have hpage : nf ≤ 4096 * pageOf nf ∧ 4096 * pageOf nf < (s.ctxList pid).stack.nextFree := by
    unfold STACK_START at s3
    rw [pageOf_eq (by omega)]
    omega
  have hfill : Fills pid _ _ ((growStack pick pid err n s).installPageTable pick pid nf err) :=
    hgrow.trans (fills_installPage hpage _ _ _)
  have hstack : STACK_START - MAX_STACK_SIZE ≤ nf := s1 ▸ hlow.1
  refine hfill.keeps_set rfl rfl rfl rfl rfl ?_ (fun hc k _ hk => ?_) (.inr hstack)
  · exact { hs with stack := ⟨s1, s2, by simp only; omega, by simp only; omega⟩ }
  · rcases hk with hk | hk
    · exact .inr (.inr (.inr (.inl ⟨hk.1, by simp only [s2]; omega⟩)))
    · exact (hc k hk).mono rfl ⟨rfl, Nat.le_refl _⟩ ⟨rfl, Nat.le_refl _⟩ ⟨rfl, Nat.le_of_lt hlow.2⟩ rfl

theorem handleCowFault_keeps (hs : (s.ctxList pid).Shape) (cr2 : Nat) :
    s.handleCowFault pick pid cr2 = (-1, s) ∨
      ((s.handleCowFault pick pid cr2).1 = 1 ∧ Keeps pid s (s.handleCowFault pick pid cr2).2) := by
  unfold handleCowFault
  simp only
  split
  · exact .inl rfl
  split
  · exact .inl rfl
  cases s.getUserPte pid cr2 with
  | none => exact .inl rfl
  | some e =>
    simp only
    split
    · exact .inr ⟨rfl, (fills_alter rfl rfl _ _).keeps hs⟩
    · refine .inr ⟨rfl, (fills_alter (s := s) ?_ ?_ _ _).keeps hs⟩
      · exact osPfnAlloc_ctxList pick
      · exact osPfnAlloc_tables pick

/-- A fault is not resolved and changes nothing, or it keeps. -/
theorem doPageFault_keeps (hs : (s.ctxList pid).Shape) (ha : addr < 2 ^ 48) (err : UInt64) :
    s.doPageFault pick pid addr err = (false, s) ∨
      ((s.doPageFault pick pid addr err).1 = true ∧ Keeps pid s (s.doPageFault pick pid addr err).2) := by
  have hinstall : (s.ctxList pid).Holds (pageOf addr) → Keeps pid s (s.installPageTable pick pid addr err) :=
    fun hk => (fills_installPage hk _ _ s).keeps hs
  unfold doPageFault
  simp only
  split
  · rcases handleCowFault_keeps hs addr with h | ⟨hret, h⟩
    · rw [h]
      exact .inl rfl
    · exact .inr ⟨by rw [hret]; rfl, h⟩
  split
  · exact .inl rfl
  split
  · rename_i hseg
    split
    · rename_i hlt
      refine .inr ⟨rfl, hinstall (.inr (.inr (.inl (segment_page ?_ ha hseg.1 hlt))))⟩
      rw [hs.data.1]
      decide
    · exact .inl rfl
  split
  · rename_i hseg
    split
    · rename_i hlt
      refine .inr ⟨rfl, hinstall (.inr (.inl (segment_page ?_ ha hseg.1 hlt.1)))⟩
      rw [hs.rodata.1]
      decide
    · exact .inl rfl
  split
  · rename_i hseg
    split
    · rename_i hlt
      exact .inr ⟨rfl, growStack_keeps hs hseg.1 hlt err⟩
    · exact .inl rfl
  split
  · rcases vmAreaPagefault_cases s pick pid addr err with h | ⟨h, hgap, ⟨first, rest, hareas, hle⟩, -⟩
    · rw [h]
      exact .inl rfl
    · rw [h]
      refine .inr ⟨rfl, (fills_installPage (.inr (.inr (.inr (.inr ?_)))) _ true s).keeps hs⟩
      rw [pageOf_eq ha, protAt_page hs.areas]
      have hc := hs.areas
      rw [hareas] at hc hgap ⊢
      exact areaAt_of_noGap hc hgap hle
  · exact .inl rfl

/-- The calls of one process: it keeps, ends, or forks. -/
theorem step_footprint {e : Ev} (h : s.step e = some t) (ho : s.Promised e) (hs : (s.ctxList e.pid).Shape) :
    Keeps e.pid s t ∨ t = s.doExit e.pid ∨
      ∃ pgd pick child, Picks pick ∧ (∀ i, (s.ctxList i).pgd ≠ pgd) ∧ s.doCfork pick e.pid pgd = some (child, t) := by
  have haccess : ∀ {pid addr pick write}, addr < 2 ^ 47 → (s.ctxList pid).Shape →
      Keeps pid s (s.fault pick pid addr write) ∨ s.fault pick pid addr write = s.doExit pid := by
    intro pid addr pick write hlt hs
    unfold fault
    simp only
    rcases @doPageFault_keeps _ _ _ pick hs (Nat.lt_trans hlt (by decide))
      ((s.table pid).errorCode (pageOf addr) write) with h | ⟨hret, h⟩
    · rw [h]
      exact .inr rfl
    · rw [if_pos hret]
      exact .inl h
  unfold step at h
  split at h
  swap
  · cases h
  cases e with
  | mmap pid addr length prot flags pick =>
    cases h
    exact .inl (keeps_mmap hs ho.1 ho.2.1 prot flags)
  | munmap pid addr length =>
    cases h
    exact .inl (keeps_munmap hs ho.1 ho.2)
  | mprotect pid addr length prot =>
    cases h
    exact .inl (keeps_mprotect hs ho.1 ho.2 prot)
  | expand pid size segmentT =>
    cases h
    exact .inl (keeps_doExpand hs size segmentT)
  | cfork pid pgd pick =>
    obtain ⟨r, hr, rfl⟩ := Option.map_eq_some_iff.mp h
    exact .inr (.inr ⟨pgd, pick, r.1, ho.1, ho.2, hr⟩)
  | exit pid =>
    cases h
    exact .inr (.inl rfl)
  | read pid addr pick =>
    simp only [call] at h
    split at h
    · cases h
    rename_i hlt
    split at h
    · cases h
      exact .inl ((Fills.refl _ _ _).keeps hs)
    · cases h
      exact (haccess (Nat.lt_of_not_le hlt) hs).imp id .inl
  | write pid addr byte pick =>
    simp only [call] at h
    split at h
    · cases h
    rename_i hlt
    split at h
    · cases h
      exact .inl ((fills_store s pid addr byte).keeps hs)
    · cases h
      exact (haccess (Nat.lt_of_not_le hlt) hs).imp id .inl

/-! ## The forks -/

structure Copies (child parent : Nat) (P : Nat → Prop) (s t : Sys) : Prop where
  ctx : t.ctxList = s.ctxList
  tables : ∀ g, g ≠ (s.ctxList child).pgd → g ≠ (s.ctxList parent).pgd → t.tables g = s.tables g
  parent : ∀ k, (t.table parent).pte k ≠ none → (s.table parent).pte k ≠ none
  child : ∀ k, (t.table child).pte k ≠ none → P k ∨ (s.table child).pte k ≠ none

variable {child parent : Nat}

theorem Copies.refl (child parent : Nat) (P : Nat → Prop) (s : Sys) : Copies child parent P s s :=
  ⟨rfl, fun _ _ _ => rfl, fun _ h => h, fun _ h => .inr h⟩

theorem Copies.trans (h1 : Copies child parent P s t) (h2 : Copies child parent P t u) : Copies child parent P s u := by
  refine ⟨h2.ctx.trans h1.ctx, fun g hc hp => ?_, fun k hk => h1.parent k (h2.parent k hk), fun k hk => ?_⟩
  · rw [h2.tables g (by rwa [h1.ctx]) (by rwa [h1.ctx]), h1.tables g hc hp]
  · exact (h2.child k hk).elim .inl fun hk => h1.child k hk

theorem Copies.foldl {α : Type} {f : Sys → α → Sys} {is : List α}
    (h : ∀ t, t.ctxList = s.ctxList → ∀ i ∈ is, Copies child parent P t (f t i)) :
    Copies child parent P s (is.foldl f s) := by
  induction is generalizing s with
  | nil => exact .refl child parent P s
  | cons i is ih =>
    have hhead := h s rfl i List.mem_cons_self
    exact hhead.trans (ih fun t ht j hj => h t (ht.trans hhead.ctx) j (List.mem_cons_of_mem _ hj))

section
variable (hne : (s.ctxList child).pgd ≠ (s.ctxList parent).pgd)
include hne

theorem Fills.copies (h : Fills child P s t) : Copies child parent P s t := by
  refine ⟨h.ctx, fun g hg _ => h.tables g hg, fun k hk => ?_, h.pages⟩
  unfold table at hk ⊢
  rwa [h.ctx, h.tables _ hne.symm] at hk

theorem Fills.copies_parent (h : Fills parent (fun _ => False) s t) : Copies child parent P s t := by
  refine ⟨h.ctx, fun g _ hg => h.tables g hg, fun k hk => (h.pages k hk).resolve_left id, fun k hk => .inr ?_⟩
  unfold table at hk ⊢
  rwa [h.ctx, h.tables _ hne] at hk

theorem copies_installPtable (seg : MmSegment) {vaddr : Nat} (hv : vaddr ≠ 0) (hP : P (pageOf vaddr)) (upfn : Nat) :
    Copies child parent P s (s.installPtable pick child seg vaddr upfn).2 := by
  refine Fills.copies hne ?_
  unfold installPtable
  simp only [if_neg hv]
  split
  · exact fills_install (osPfnAlloc_ctxList pick) (osPfnAlloc_tables pick) hP _ _
  · exact fills_install rfl rfl hP _ _

theorem copies_sharePage (seg : MmSegment) {vaddr : Nat} (hv : vaddr ≠ 0) (hP : P (pageOf vaddr)) :
    Copies child parent P s (s.sharePage pick child parent seg vaddr) := by
  unfold sharePage
  cases s.getUserPte parent vaddr with
  | none => exact .refl child parent P s
  | some e =>
    obtain ⟨s1, hs1⟩ : ∃ s1, s1 = s.setTable parent ((s.table parent).alter (pageOf vaddr) fun e => some { e with write := false }) :=
      ⟨_, rfl⟩
    have h1 : Copies child parent P s s1 := by
      rw [hs1]
      exact (fills_alter rfl rfl _ _).copies_parent hne
    have hne1 : (s1.ctxList child).pgd ≠ (s1.ctxList parent).pgd := by rwa [h1.ctx]
    have h2 := @copies_installPtable _ _ pick _ _ hne1 seg _ hv hP e.frame
    simp only
    rw [← hs1]
    obtain ⟨s2, hs2⟩ : ∃ s2, s2 = (s1.installPtable pick child seg vaddr e.frame).2 := ⟨_, rfl⟩
    rw [← hs2] at h2 ⊢
    have hne2 : (s2.ctxList child).pgd ≠ (s2.ctxList parent).pgd := by rwa [h2.ctx]
    have h3 : Fills child P s2 ((s2.setTable child ((s2.table child).alter (pageOf vaddr) fun _ =>
        some { e with write := false })).incrementRefcount e.frame) :=
      (fills_alter rfl rfl _ _).trans (fills_phys rfl rfl)
    exact (h1.trans h2).trans (h3.copies hne2)

theorem copies_copyPage (seg : MmSegment) {vaddr : Nat} (hv : vaddr ≠ 0) (hP : P (pageOf vaddr)) :
    Copies child parent P s (s.copyPage pick child parent seg vaddr) := by
  unfold copyPage
  cases s.getUserPte parent vaddr with
  | none => exact .refl child parent P s
  | some e =>
    have h1 := @copies_installPtable _ _ pick _ _ hne seg _ hv hP 0
    have hne1 : ((s.installPtable pick child seg vaddr 0).2.ctxList child).pgd ≠
        ((s.installPtable pick child seg vaddr 0).2.ctxList parent).pgd := by rwa [h1.ctx]
    have h2 : Fills child P (s.installPtable pick child seg vaddr 0).2 ((s.installPtable pick child seg vaddr 0).2.copyFrame
        (s.installPtable pick child seg vaddr 0).1 e.frame) := fills_phys rfl rfl
    exact h1.trans (h2.copies hne1)

end

/-- The pages cfork gives the child lie in its segments and areas. -/
theorem copies_cforkCopyMm (hne : (s.ctxList child).pgd ≠ (s.ctxList parent).pgd) (hs : (s.ctxList child).Shape)
    (hpos : 0 < (s.ctxList child).stack.nextFree) (hareas : (s.ctxList parent).vmArea = (s.ctxList child).vmArea) :
    Copies child parent (s.ctxList child).Holds s (s.cforkCopyMm pick child parent) := by
  obtain ⟨hc1, hc2⟩ := hs.code
  obtain ⟨hr1, -, -, hr4, -⟩ := hs.rodata
  obtain ⟨hd1, -, -, hd4, -⟩ := hs.data
  obtain ⟨-, hs2, hs3, hs4⟩ := hs.stack
  unfold CODE_START CODE_PAGES at hc2
  unfold CODE_START at hc1
  unfold RODATA_START at hr1
  unfold DATA_START at hr4 hd1
  unfold MMAP_AREA_START at hd4
  unfold STACK_START at hs2 hs3
  -- the loops that share a range of addresses
  have hshare : ∀ (seg : MmSegment) (start stop : Nat), 0 < start →
      (∀ v, start ≤ v → v < stop → (s.ctxList child).Holds (pageOf v)) → ∀ t, t.ctxList = s.ctxList →
      Copies child parent (s.ctxList child).Holds t
        ((vaddrs start stop).foldl (fun s v => s.sharePage pick child parent seg v) t) := by
    intro seg start stop h0 hholds t ht
    refine Copies.foldl fun u hu v hv => copies_sharePage (by rwa [hu, ht]) seg ?_ ?_
    · obtain ⟨-, i, rfl⟩ := mem_vaddrs.mp hv
      omega
    · obtain ⟨hlt, i, rfl⟩ := mem_vaddrs.mp hv
      exact hholds _ (by omega) hlt
  have hcode := hshare (s.ctxList child).code (s.ctxList child).code.start (s.ctxList child).code.nextFree (by omega)
    (fun v h1 h2 => .inl (segment_page (by omega) (by omega) h1 h2)) s rfl
  have hrodata := hshare (s.ctxList child).rodata (s.ctxList child).rodata.start (s.ctxList child).rodata.nextFree (by omega)
    (fun v h1 h2 => .inr (.inl (segment_page (by omega) (by omega) h1 h2))) _ hcode.ctx
  have h2 := hcode.trans hrodata
  have hdata := hshare (s.ctxList child).data (s.ctxList child).data.start (s.ctxList child).data.nextFree (by omega)
    (fun v h1 h2 => .inr (.inr (.inl (segment_page (by omega) (by omega) h1 h2)))) _ h2.ctx
  have h3 := h2.trans hdata
  have hstack : ∀ t, t.ctxList = s.ctxList → Copies child parent (s.ctxList child).Holds t
      ((vaddrsDown (s.ctxList child).stack.nextFree (s.ctxList child).stack.stop).foldl
        (fun s' v => s'.copyPage pick child parent (s.ctxList child).stack v) t) := by
    intro t ht
    refine Copies.foldl fun u hu v hv => ?_
    obtain ⟨i, hi, rfl⟩ := List.mem_map.mp hv
    have hi := List.mem_range.mp hi
    refine copies_copyPage (by rwa [hu, ht]) _ (by omega) (.inr (.inr (.inr (.inl ?_))))
    rw [pageOf_eq (by omega)]
    exact ⟨by omega, by omega⟩
  have h4 := h3.trans (hstack _ h3.ctx)
  unfold cforkCopyMm
  refine h4.trans (Copies.foldl fun u hu a ha => ?_)
  rw [h4.ctx, hareas] at ha
  obtain ⟨hlow, -, hhigh, hdvd, -⟩ := hs.areas.forall_mem a ha
  simp only [lo_eq, hi_eq, end_eq] at hlow hhigh
  unfold MMAP_AREA_START at hlow
  refine hshare _ a.vmStart a.vmEnd (by omega) (fun v h1 h2 => .inr (.inr (.inr (.inr ?_)))) u (hu.trans h4.ctx)
  rw [pageOf_eq (by omega), protAt_page hs.areas]
  unfold protAt
  rw [hs.areas.valueAt_mem ha ⟨h1, h2⟩]
  exact Option.some_ne_none _

/-- What do_cfork does: a slot that was not in use gets a page table of its own. -/
structure CforkTables (s : Sys) (pid pgd child : Nat) (t : Sys) : Prop where
  slot : 0 < child ∧ child < MAX_PROCESSES ∧ (s.ctxList child).state = .unused
  ctx : t.ctxList child = { s.ctxList pid with ppid := pid, pgd := pgd, state := .ready }
  others : ∀ i, i ≠ child → t.ctxList i = s.ctxList i
  tables : ∀ g, g ≠ pgd → g ≠ (s.ctxList pid).pgd → t.tables g = s.tables g
  parent : ∀ k, (t.tables (s.ctxList pid).pgd).pte k ≠ none → (s.tables (s.ctxList pid).pgd).pte k ≠ none
  child : ∀ k, (t.tables pgd).pte k ≠ none → (s.ctxList pid).Holds k

theorem doCfork_tables (h0 : (s.ctxList 0).state ≠ .unused) (hl : s.Live pid) (hs : (s.ctxList pid).Shape)
    (hpos : 0 < (s.ctxList pid).stack.nextFree) {pgd : Nat} (hpgd : ∀ i, (s.ctxList i).pgd ≠ pgd)
    (h : s.doCfork pick pid pgd = some (child, t)) : CforkTables s pid pgd child t := by
  obtain ⟨c, hnew, hpair⟩ := Option.map_eq_some_iff.mp h
  obtain ⟨rfl, he⟩ := Prod.mk.inj hpair
  have hslot := getNewCtx_spec h0 hnew
  have hne : pid ≠ c := fun hpc => hl.2.2 (hpc ▸ hslot.2.2)
  -- the new context, with an empty page table
  obtain ⟨s0, hs0⟩ : ∃ s0 : Sys, s0 =
      { s.setCtx c { s.ctxList pid with ppid := pid, pgd := pgd } with
        tables := Function.update s.tables pgd PageTable.empty
        numVmArea := s.numVmArea + (s.ctxList pid).vmArea.length } := ⟨_, rfl⟩
  have hctx : s0.ctxList c = { s.ctxList pid with ppid := pid, pgd := pgd } := by
    rw [hs0]
    exact Function.update_self ..
  have hoth : ∀ i, i ≠ c → s0.ctxList i = s.ctxList i := fun i hi => by
    rw [hs0]
    exact Function.update_of_ne hi ..
  have htabs : s0.tables = Function.update s.tables pgd PageTable.empty := by rw [hs0]
  have hcopy : Copies c pid (s0.ctxList c).Holds s0 (s0.cforkCopyMm pick c pid) := by
    refine copies_cforkCopyMm ?_ ?_ ?_ ?_
    · rw [hctx, hoth pid hne]
      exact (hpgd pid).symm
    · rw [hctx]
      exact { hs with }
    · rw [hctx]
      exact hpos
    · rw [hctx, hoth pid hne]
  have hholds : ∀ k, (s0.ctxList c).Holds k → (s.ctxList pid).Holds k := fun k hk => by
    rw [hctx] at hk
    exact Ctx.Holds.mono hk rfl ⟨rfl, Nat.le_refl _⟩ ⟨rfl, Nat.le_refl _⟩ ⟨rfl, Nat.le_refl _⟩ rfl
  have ht : t = (s0.cforkCopyMm pick c pid).setCtx c { (s0.cforkCopyMm pick c pid).ctxList c with state := .ready } := by
    rw [← he, hs0]
  have htt : t.tables = (s0.cforkCopyMm pick c pid).tables := by rw [ht]; rfl
  refine ⟨hslot, ?_, fun i hi => ?_, fun g hg hgp => ?_, fun k hk => ?_, fun k hk => ?_⟩
  · rw [ht, setCtx_self, hcopy.ctx, hctx]
  · rw [ht]
    exact (Function.update_of_ne hi ..).trans (by rw [hcopy.ctx, hoth i hi])
  · rw [htt, hcopy.tables g (by rwa [hctx]) (by rwa [hoth pid hne]), htabs, Function.update_of_ne hg]
  · have hp := hcopy.parent k
    unfold table at hp
    rw [hcopy.ctx, hoth pid hne, htabs, Function.update_of_ne (hpgd pid), ← htt] at hp
    exact hp hk
  · have hc := hcopy.child k
    unfold table at hc
    rw [hcopy.ctx, hctx, htabs, Function.update_self, ← htt] at hc
    exact (hc hk).elim (fun hk => hholds k (by rwa [hctx])) fun hk => absurd rfl hk

/-- What do_vfork does: the child shares the page table. -/
structure VforkTables (s : Sys) (pid child : Nat) (t : Sys) : Prop where
  slot : 0 < child ∧ child < MAX_PROCESSES ∧ (s.ctxList child).state = .unused
  ctx : t.ctxList child = { s.ctxList pid with
    ppid := pid
    state := .running
    stack := { (s.ctxList pid).stack with
      nextFree := minus (s.ctxList pid).stack.nextFree (vforkOffset (s.ctxList pid).stack) } }
  caller : t.ctxList pid = { s.ctxList pid with state := .waiting }
  others : ∀ i, i ≠ child → i ≠ pid → t.ctxList i = s.ctxList i
  tables : ∀ g, g ≠ (s.ctxList pid).pgd → t.tables g = s.tables g

theorem fills_vforkPage (seg : MmSegment) (offset vaddr : Nat) (s : Sys) :
    Fills child (fun _ => True) s (s.vforkPage pick child parent seg offset vaddr) := by
  unfold vforkPage
  cases s.getUserPte parent vaddr with
  | none => exact .refl child _ s
  | some e =>
    simp only
    cases s.getUserPte child (minus vaddr offset) with
    | some curr => exact fills_phys rfl rfl
    | none =>
      have hinstall : Fills child (fun _ => True) s (s.installPtable pick child seg (minus vaddr offset) 0).2 := by
        unfold installPtable
        simp only [if_true]
        exact fills_install (osPfnAlloc_ctxList pick) (osPfnAlloc_tables pick) trivial _ _
      have hcopy : Fills child (fun _ => True) (s.installPtable pick child seg (minus vaddr offset) 0).2
          ((s.installPtable pick child seg (minus vaddr offset) 0).2.copyFrame
            (s.installPtable pick child seg (minus vaddr offset) 0).1 e.frame) := fills_phys rfl rfl
      exact hinstall.trans hcopy

theorem doVfork_tables (h0 : (s.ctxList 0).state ≠ .unused) (hl : s.Live pid)
    (h : s.doVfork pick pid = some (child, t)) : VforkTables s pid child t := by
  obtain ⟨c, hnew, hpair⟩ := Option.map_eq_some_iff.mp h
  obtain ⟨rfl, he⟩ := Prod.mk.inj hpair
  have hslot := getNewCtx_spec h0 hnew
  have hne : pid ≠ c := fun hpc => hl.2.2 (hpc ▸ hslot.2.2)
  obtain ⟨s0, hs0⟩ : ∃ s0, s0 = (s.setCtx c { s.ctxList pid with ppid := pid }).setCtx pid
      { (s.setCtx c { s.ctxList pid with ppid := pid }).ctxList pid with state := .waiting } := ⟨_, rfl⟩
  have hctx : s0.ctxList c = { s.ctxList pid with ppid := pid } := by
    rw [hs0]
    exact (Function.update_of_ne hne.symm ..).trans (Function.update_self ..)
  have hpid : s0.ctxList pid = { s.ctxList pid with state := .waiting } := by
    rw [hs0, setCtx_self]
    show { Function.update s.ctxList c _ pid with state := .waiting } = _
    rw [Function.update_of_ne hne]
  have hoth : ∀ i, i ≠ c → i ≠ pid → s0.ctxList i = s.ctxList i := fun i hi hip => by
    rw [hs0]
    exact (Function.update_of_ne hip ..).trans (Function.update_of_ne hi ..)
  have hpgd : (s0.ctxList c).pgd = (s.ctxList pid).pgd := by rw [hctx]
  -- the loop over the stack
  have hpage := @fills_vforkPage pick c pid (s0.ctxList c).stack (vforkOffset (s0.ctxList c).stack)
  have hfill := @Fills.foldl _ _ _ (vaddrsDown (s0.ctxList c).stack.nextFree (s0.ctxList c).stack.stop)
    (fun u v _ => hpage v u) s0
  obtain ⟨s1, hs1⟩ : ∃ s1, s1 = (vaddrsDown (s0.ctxList c).stack.nextFree (s0.ctxList c).stack.stop).foldl
    (fun s v => s.vforkPage pick c pid (s0.ctxList c).stack (vforkOffset (s0.ctxList c).stack) v) s0 := ⟨_, rfl⟩
  rw [← hs1] at hfill
  have ht : t = (s1.setCtx c { s1.ctxList c with stack := { (s0.ctxList c).stack with
      nextFree := minus (s0.ctxList c).stack.nextFree (vforkOffset (s0.ctxList c).stack) } }).setCtx c
        { s1.ctxList c with
          state := .running
          stack := { (s0.ctxList c).stack with
            nextFree := minus (s0.ctxList c).stack.nextFree (vforkOffset (s0.ctxList c).stack) } } := by
    rw [← he, hs1, hs0]
    unfold vforkCopyMm
    simp only [setCtx_self]
  refine ⟨hslot, ?_, ?_, fun i hi hip => ?_, fun g hg => ?_⟩
  · rw [ht, setCtx_self, hfill.ctx, hctx]
  · rw [ht]
    exact ((Function.update_of_ne hne ..).trans (Function.update_of_ne hne ..)).trans (by rw [hfill.ctx, hpid])
  · rw [ht]
    exact ((Function.update_of_ne hi ..).trans (Function.update_of_ne hi ..)).trans (by rw [hfill.ctx, hoth i hi hip])
  · rw [ht]
    refine (hfill.tables g (by rwa [hpgd])).trans ?_
    rw [hs0]
    rfl

end Sys

end Cs330.Mm
