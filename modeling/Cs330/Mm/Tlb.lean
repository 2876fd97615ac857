/-
  Cs330.Mm.Tlb — no old translation is used.

  What a call changes in the page table of the running process it drops from the TLB, or it
  was not there to be kept (`Follows`); the tables of others are not in cr3. So in every run
  the processes see the memory their page tables give them, and the calls and accesses are
  a run of Cs330.Mm.Machine (`coherent_run`), if mmap populates no page that is there. That
  does happen, where the last area grows (Cs330.Mm.Populate), and then the old frame may
  stay in use (`coherent_iff`).
-/
import Cs330.Mm.Cpu

namespace Cs330.Mm

open Lib Lib.Seg Vm

/-! ## What a call changes -/

namespace PageTable

variable {t : PageTable} {p q : Nat}

/-- An upper entry that is there stays. -/
theorem update_present {f : Nat → Option Bool} {i j : Nat} {w : Bool} (h : f j ≠ none) :
    Function.update f i (some ((f i).getD w)) j = f j := by
  by_cases hj : j = i
  · obtain ⟨b, hb⟩ := Option.ne_none_iff_exists'.mp h
    subst hj
    rw [Function.update_self, hb]
    rfl
  · exact Function.update_of_ne hj ..

theorem install_translate (h : q ≠ p) (e : Pte) (w : Bool) : (t.install p e w).translate q = t.translate q := by
  have hpte : (t.install p e w).pte q = t.pte q := Function.update_of_ne h ..
  unfold translate
  rw [hpte]
  cases hq : t.pte q with
  | none => rfl
  | some d =>
    obtain ⟨h1, h2, h3⟩ := t.walk q (by rw [hq]; exact Option.some_ne_none d)
    have hallows : (t.install p e w).allows q true = t.allows q true := by
      unfold allows
      rw [hpte, hq]
      show (_ || (_ && Function.update t.pgd _ _ _ == _ && Function.update t.pud _ _ _ == _ && Function.update t.pmd _ _ _ == _)) = _
      rw [update_present h1, update_present h2, update_present h3]
    rw [Option.map_some, Option.map_some, hallows]

theorem alter_translate (h : q ≠ p) (f : Pte → Option Pte) : (t.alter p f).translate q = t.translate q := by
  have hpte : (t.alter p f).pte q = t.pte q := Function.update_of_ne h ..
  unfold translate allows
  rw [hpte]
  rfl

theorem translate_none : t.translate p = none ↔ t.pte p = none := Option.map_eq_none_iff

end PageTable

namespace Sys

/-- Table `g` translates every page but those of `P` as before. -/
def Alters (g : Nat) (P : Nat → Prop) (s t : Sys) : Prop := ∀ p, ¬ P p → (t.tables g).translate p = (s.tables g).translate p

variable {s t u : Sys} {g pid addr child parent vaddr : Nat} {P : Nat → Prop} {pick : Finset Nat → Nat}

theorem Alters.trans (h1 : Alters g P s t) (h2 : Alters g P t u) : Alters g P s u := fun p hp => (h2 p hp).trans (h1 p hp)

theorem alters_of_tables (h : t.tables g = s.tables g) : Alters g P s t := fun p _ => by rw [h]

theorem alters_setTable (hc : t.ctxList = s.ctxList) (ht : t.tables = s.tables) {T : PageTable}
    (h : (s.ctxList pid).pgd = g → ∀ p, ¬ P p → T.translate p = (s.table pid).translate p) : Alters g P s (t.setTable pid T) := by
  intro p hp
  show (Function.update t.tables (t.ctxList pid).pgd T g).translate p = _
  rw [hc, ht]
  by_cases hg : (s.ctxList pid).pgd = g
  · rw [← hg, Function.update_self]
    exact h hg p hp
  · rw [Function.update_of_ne (Ne.symm hg)]

theorem alters_alter (hc : t.ctxList = s.ctxList) (ht : t.tables = s.tables) (h : P (pageOf addr)) (f : Pte → Option Pte) :
    Alters g P s (t.setTable pid ((t.table pid).alter (pageOf addr) f)) := by
  refine alters_setTable hc ht fun _ p hp => ?_
  have hne : p ≠ pageOf addr := fun he => hp (he ▸ h)
  rw [PageTable.alter_translate hne]
  unfold Sys.table
  rw [hc, ht]

theorem alters_installPage (h : P (pageOf addr)) (s : Sys) (pick : Finset Nat → Nat) (pid : Nat) (w upper : Bool) :
    Alters g P s (s.installPage pick pid addr w upper) := by
  refine alters_setTable (osPfnAlloc_ctxList pick) (osPfnAlloc_tables pick) fun _ p hp => ?_
  have hne : p ≠ pageOf addr := fun he => hp (he ▸ h)
  rw [PageTable.install_translate hne]
  unfold Sys.table
  rw [osPfnAlloc_ctxList, osPfnAlloc_tables]

theorem alters_foldl {f : Sys → Nat → Sys} {vs : List Nat} (h : ∀ s, ∀ v ∈ vs, Alters g P s (f s v)) (s : Sys) :
    Alters g P s (vs.foldl f s) := by
  induction vs generalizing s with
  | nil => exact fun _ _ => rfl
  | cons v vs ih => exact (h s v List.mem_cons_self).trans (ih (fun s w hw => h s w (List.mem_cons_of_mem v hw)) _)

theorem alters_pfnUnmap (h : P (pageOf addr)) (s : Sys) (pid : Nat) : Alters g P s (s.pfnUnmap pid addr) := by
  unfold pfnUnmap
  cases s.getUserPte pid addr with
  | none => exact fun _ _ => rfl
  | some e =>
    simp only
    split
    · exact alters_alter rfl rfl h _
    · exact alters_alter rfl rfl h _

theorem alters_changePermissions (h : P (pageOf addr)) (s : Sys) (pid : Nat) (prot : UInt32) :
    Alters g P s (s.changePermissions pid addr prot) := by
  unfold changePermissions
  cases s.getUserPte pid addr with
  | none => exact fun _ _ => rfl
  | some e =>
    simp only
    split
    · exact alters_alter rfl rfl h _
    · exact fun _ _ => rfl

theorem alters_handleCowFault (h : P (pageOf addr)) (s : Sys) (pick : Finset Nat → Nat) (pid : Nat) :
    Alters g P s (s.handleCowFault pick pid addr).2 := by
  unfold handleCowFault
  simp only
  split
  · exact fun _ _ => rfl
  split
  · exact fun _ _ => rfl
  cases s.getUserPte pid addr with
  | none => exact fun _ _ => rfl
  | some e =>
    simp only
    split
    · exact alters_alter rfl rfl h _
    · exact alters_alter (osPfnAlloc_ctxList pick) (osPfnAlloc_tables pick) h _

/-- A page of the parent is shared; nothing of the child's table counts. -/
theorem alters_sharePage (hg : (s.ctxList child).pgd ≠ g) (seg : MmSegment) :
    Alters g (· = pageOf vaddr) s (s.sharePage pick child parent seg vaddr) := by
  unfold sharePage
  cases s.getUserPte parent vaddr with
  | none => exact fun _ _ => rfl
  | some e =>
    have h1 : Alters g (· = pageOf vaddr) s
        (s.setTable parent ((s.table parent).alter (pageOf vaddr) fun e => some { e with write := false })) :=
      alters_alter (P := (· = pageOf vaddr)) rfl rfl rfl _
    have h2 : ∀ s1 : Sys, s1.ctxList = s.ctxList →
        Alters g (· = pageOf vaddr) s1 (s1.installPtable pick child seg vaddr e.frame).2 := by
      intro s1 hs1
      unfold installPtable
      simp only
      split
      · exact alters_setTable (osPfnAlloc_ctxList pick) (osPfnAlloc_tables pick) fun he => absurd he (hs1 ▸ hg)
      · exact alters_setTable rfl rfl fun he => absurd he (hs1 ▸ hg)
    have h3 : ∀ s2 : Sys, Alters g (· = pageOf vaddr) s2
        (s2.setTable child ((s2.table child).alter (pageOf vaddr) fun _ => some { e with write := false })) :=
      fun s2 => alters_alter (P := (· = pageOf vaddr)) rfl rfl rfl _
    exact (h1.trans (h2 _ rfl)).trans ((h3 _).trans fun _ _ => rfl)

theorem alters_copyPage (hg : (s.ctxList child).pgd ≠ g) (seg : MmSegment) :
    Alters g P s (s.copyPage pick child parent seg vaddr) := by
  unfold copyPage
  cases s.getUserPte parent vaddr with
  | none => exact fun _ _ => rfl
  | some e =>
    have h : Alters g P s (s.installPtable pick child seg vaddr 0).2 := by
      unfold installPtable
      simp only
      exact alters_setTable (osPfnAlloc_ctxList pick) (osPfnAlloc_tables pick) fun he => absurd he hg
    exact h.trans fun _ _ => rfl

/-- The stack grows over pages in between. -/
theorem alters_growStack (low : Nat) (err : UInt64) (n : Nat) (hn : low + 4096 * n ≤ (s.ctxList pid).stack.nextFree)
    (h : ∀ v, low ≤ v → v < (s.ctxList pid).stack.nextFree → P (pageOf v)) : Alters g P s (growStack pick pid err n s) := by
  induction n generalizing s with
  | zero => exact fun _ _ => rfl
  | succ n ih =>
    unfold growStack
    simp only
    obtain ⟨nf, hnf⟩ : ∃ nf, nf = (s.ctxList pid).stack.nextFree - 4096 := ⟨_, rfl⟩
    rw [← hnf]
    have h1 : Alters g P s ((s.setStackNextFree pid nf).installPageTable pick pid nf err) :=
      alters_installPage (h nf (by omega) (by omega)) (s.setStackNextFree pid nf) pick pid _ _
    have hctx : (((s.setStackNextFree pid nf).installPageTable pick pid nf err).ctxList pid).stack.nextFree = nf := by
      rw [installPageTable, installPage_ctxList, setStackNextFree, setCtx_self]
    refine h1.trans (ih (by rw [hctx]; omega) fun v hv hlt => h v hv ?_)
    rw [hctx] at hlt
    omega

/-- A fault at a page that is not there installs only such pages. -/
theorem alters_doPageFault (hlay : (s.ctxList pid).Layout) (hs : s.Each (Ctx.Sound False)) (hl : s.Live pid) {err : UInt64}
    (h7 : err ≠ 7) (hnone : (s.table pid).pte (pageOf addr) = none) :
    Alters g (fun p => (s.table pid).pte p = none) s (s.doPageFault pick pid addr err).2 := by
  obtain ⟨-, hc2⟩ := hlay.code
  obtain ⟨-, -, -, hr4, -⟩ := hlay.rodata
  obtain ⟨-, -, -, hd4, -⟩ := hlay.data
  obtain ⟨hs1, hs2, hs3, hs4, hs5, -⟩ := hlay.stack
  -- no segment and no area holds a page below the stack
  have hbelow : ∀ v, (s.ctxList pid).stack.start ≤ v → v < (s.ctxList pid).stack.nextFree →
      (s.table pid).pte (pageOf v) = none := by
    intro v h1 h2
    by_contra hno
    obtain ⟨e, he⟩ := Option.ne_none_iff_exists'.mp hno
    have hholds := (hs pid _ e ((frames_map hl _).trans he)).holds
    unfold STACK_START MAX_STACK_SIZE at hs1
    unfold STACK_START at hs4
    unfold CODE_START CODE_PAGES at hc2
    unfold DATA_START at hr4
    unfold MMAP_AREA_START at hd4
    rw [pageOf_eq (by omega)] at hholds
    rcases hholds with hk | hk | hk | hk | hk
    · have := hk.2
      omega
    · have := hk.2
      omega
    · have := hk.2
      omega
    · have := hk.low
      omega
    · refine hk (hlay.areas.valueAt_above ?_)
      rw [end_eq]
      omega
  unfold doPageFault
  simp only
  rw [if_neg h7]
  split
  · exact fun _ _ => rfl
  split
  · split
    · exact alters_installPage hnone s pick pid _ _
    · exact fun _ _ => rfl
  split
  · split
    · exact alters_installPage hnone s pick pid _ _
    · exact fun _ _ => rfl
  split
  · rename_i hin
    split
    · rename_i hlt
      obtain ⟨hin1, -⟩ := hin
      unfold STACK_START MAX_STACK_SIZE at hs1
      have hgrow : Alters g (fun p => (s.table pid).pte p = none) s (growStack pick pid err
          (((s.ctxList pid).stack.nextFree - addr / 4096 * 4096) / 4096) s) :=
        alters_growStack (s.ctxList pid).stack.start err _ (by omega) hbelow
      refine hgrow.trans (alters_installPage (hbelow _ ?_ ?_) _ pick pid _ _)
      all_goals rw [growStack_nextFree]; omega
    · exact fun _ _ => rfl
  split
  · rcases vmAreaPagefault_cases s pick pid addr err with h | ⟨h, -⟩
    · rw [h]
      exact fun _ _ => rfl
    · rw [h]
      exact alters_installPage hnone s pick pid _ _
  · exact fun _ _ => rfl

theorem store_tables (s : Sys) (pid addr : Nat) (byte : UInt8) : (s.store pid addr byte).tables = s.tables := by
  unfold Sys.store
  cases (s.table pid).pte (pageOf addr) with
  | none => rfl
  | some e => rfl

/-- Populating touches the pages of the range only. -/
theorem alters_vmAreaMap {length : Int} {prot flags : UInt32}
    (h : (mapAreas (s.ctxList pid).vmArea addr length prot flags).1 ≠ -1 → flags &&& MAP_POPULATE ≠ 0 →
      ∀ v ∈ vaddrs (mapAreas (s.ctxList pid).vmArea addr length prot flags).1.toNat
        (plus (mapAreas (s.ctxList pid).vmArea addr length prot flags).1.toNat (pageRound length)), P (pageOf v)) :
    Alters g P s (s.vmAreaMap pick pid addr length prot flags).2 := by
  unfold vmAreaMap
  simp only
  split
  · exact fun _ _ => rfl
  rename_i hok
  split
  · rename_i hpop
    have hloop := alters_foldl (g := g) (f := fun s i => s.allocPfn pick pid i prot)
      (fun s v hv => alters_installPage (h hok hpop v hv) s pick pid _ _)
      (s.setAreas pid (mapAreas (s.ctxList pid).vmArea addr length prot flags).2.1
        (mapAreas (s.ctxList pid).vmArea addr length prot flags).2.2)
    exact hloop
  · exact fun _ _ => rfl

end Sys

namespace Cpu

variable {c d e : Cpu} {pid addr child parent vaddr : Nat} {pick : Finset Nat → Nat}

/-! ## What stays in the TLB -/

/-- The entries that stay are those of pages the call leaves. -/
structure Follows (c d : Cpu) : Prop where
  current : d.current = c.current
  cr3 : d.cr3 = c.cr3
  cached : Cache.Follows c.tlb c.walk d.tlb d.walk

theorem Follows.refl (c : Cpu) : c.Follows c := ⟨rfl, rfl, .refl _ _⟩

theorem Follows.trans (h1 : c.Follows d) (h2 : d.Follows e) : c.Follows e :=
  ⟨h2.current.trans h1.current, h2.cr3.trans h1.cr3, h1.cached.trans h2.cached⟩

/-- What the kernel changes is not there. -/
theorem follows_on {f : Sys → Sys} {P : Nat → Prop} (h : Sys.Alters c.cr3 P c.sys (f c.sys)) (hP : ∀ p, P p → c.walk p = none) :
    c.Follows (c.on f) :=
  ⟨rfl, rfl, Cache.follows_absent fun p hp => h p fun hpp => hp (hP p hpp)⟩

/-- What the kernel changes is dropped. -/
theorem follows_invlpg {f : Sys → Sys} (h : Sys.Alters c.cr3 (· = pageOf addr) c.sys (f c.sys)) :
    c.Follows ((c.on f).invlpg addr) :=
  ⟨rfl, rfl, Cache.follows_drop h⟩

theorem follows_foldl {I : Cpu → Prop} {f : Cpu → Nat → Cpu} (h : ∀ c v, I c → c.Follows (f c v) ∧ I (f c v)) (vs : List Nat)
    (hI : I c) : c.Follows (vs.foldl f c) ∧ I (vs.foldl f c) := by
  induction vs generalizing c with
  | nil => exact ⟨.refl c, hI⟩
  | cons v vs ih =>
    obtain ⟨h1, h2⟩ := h c v hI
    obtain ⟨h3, h4⟩ := ih h2
    exact ⟨h1.trans h3, h4⟩

theorem follows_setAreas (c : Cpu) (pid : Nat) (areas : List VmArea) (nodes : Int) :
    c.Follows (c.on fun s => s.setAreas pid areas nodes) :=
  follows_on (P := fun _ => False) (fun _ _ => rfl) fun _ hf => hf.elim

theorem follows_pfnUnmap (c : Cpu) (pid addr : Nat) : c.Follows (c.pfnUnmap pid addr) := by
  unfold pfnUnmap
  cases c.sys.getUserPte pid addr with
  | none => exact .refl c
  | some _ => exact follows_invlpg (Sys.alters_pfnUnmap (P := (· = pageOf addr)) rfl c.sys pid)

theorem follows_changePermissions (c : Cpu) (pid addr : Nat) (prot : UInt32) : c.Follows (c.changePermissions pid addr prot) := by
  unfold changePermissions
  cases c.sys.getUserPte pid addr with
  | none => exact .refl c
  | some _ => exact follows_invlpg (Sys.alters_changePermissions (P := (· = pageOf addr)) rfl c.sys pid prot)

theorem follows_vmAreaUnmap (c : Cpu) (pid addr : Nat) (length : Int) : c.Follows (c.vmAreaUnmap pid addr length) := by
  unfold vmAreaUnmap
  simp only
  split
  · exact (follows_setAreas ..).trans
      (follows_foldl (I := fun _ => True) (fun c v _ => ⟨follows_pfnUnmap c pid v, trivial⟩) _ trivial).1
  · exact follows_setAreas ..

theorem follows_vmAreaMprotect (c : Cpu) (pid addr : Nat) (length : Int) (prot : UInt32) :
    c.Follows (c.vmAreaMprotect pid addr length prot) := by
  unfold vmAreaMprotect
  simp only
  split
  · exact (follows_setAreas ..).trans
      (follows_foldl (I := fun _ => True) (fun c _ _ => ⟨follows_changePermissions c pid addr prot, trivial⟩) _ trivial).1
  · exact follows_setAreas ..

/-- handle_cow_fault changes nothing if it fails. -/
theorem handleCowFault_ret (s : Sys) (pick : Finset Nat → Nat) (pid cr2 : Nat) :
    (s.handleCowFault pick pid cr2).1 = 1 ∨ (s.handleCowFault pick pid cr2).2 = s := by
  unfold Sys.handleCowFault
  simp only
  split
  · exact .inr rfl
  split
  · exact .inr rfl
  cases s.getUserPte pid cr2 with
  | none => exact .inr rfl
  | some e =>
    simp only
    split
    · exact .inl rfl
    · exact .inl rfl

theorem follows_handleCowFault (c : Cpu) (pick : Finset Nat → Nat) (pid cr2 : Nat) : c.Follows (c.handleCowFault pick pid cr2).2 := by
  unfold handleCowFault
  simp only
  split
  · exact follows_invlpg (f := fun _ => (c.sys.handleCowFault pick pid cr2).2)
      (Sys.alters_handleCowFault (P := (· = pageOf cr2)) rfl c.sys pick pid)
  · rename_i hret
    have hsame := (handleCowFault_ret c.sys pick pid cr2).resolve_left hret
    rw [hsame]
    exact .refl c

theorem follows_sharePage (hg : (c.sys.ctxList child).pgd ≠ c.cr3) (pick : Finset Nat → Nat) (parent : Nat) (seg : MmSegment)
    (vaddr : Nat) : c.Follows (c.sharePage pick child parent seg vaddr) ∧
      ((c.sharePage pick child parent seg vaddr).sys.ctxList child).pgd ≠ (c.sharePage pick child parent seg vaddr).cr3 := by
  have hf : c.Follows (c.sharePage pick child parent seg vaddr) := by
    unfold sharePage
    cases c.sys.getUserPte parent vaddr with
    | none => exact .refl c
    | some _ => exact follows_invlpg (Sys.alters_sharePage hg seg)
  refine ⟨hf, ?_⟩
  rw [hf.cr3, sharePage_sys, Sys.sharePage_ctxList]
  exact hg

/-- The child's table is not the one in cr3. -/
theorem follows_cforkCopyMm (hg : (c.sys.ctxList child).pgd ≠ c.cr3) (pick : Finset Nat → Nat) (parent : Nat) :
    c.Follows (c.cforkCopyMm pick child parent) := by
  have hshare : ∀ seg (vs : List Nat) (c : Cpu), (c.sys.ctxList child).pgd ≠ c.cr3 →
      c.Follows (vs.foldl (fun c v => c.sharePage pick child parent seg v) c) ∧
        ((vs.foldl (fun c v => c.sharePage pick child parent seg v) c).sys.ctxList child).pgd ≠
          (vs.foldl (fun c v => c.sharePage pick child parent seg v) c).cr3 :=
    fun seg vs c hc => follows_foldl (I := fun c => (c.sys.ctxList child).pgd ≠ c.cr3)
      (fun c v hc => follows_sharePage hc pick parent seg v) vs hc
  have hcopy : ∀ seg (vs : List Nat) (c : Cpu), (c.sys.ctxList child).pgd ≠ c.cr3 →
      c.Follows (c.on fun s => vs.foldl (fun s v => s.copyPage pick child parent seg v) s) ∧
        ((c.on fun s => vs.foldl (fun s v => s.copyPage pick child parent seg v) s).sys.ctxList child).pgd ≠ c.cr3 := by
    intro seg vs c hc
    have h : Sys.Alters c.cr3 (fun _ => False) c.sys (vs.foldl (fun s v => s.copyPage pick child parent seg v) c.sys) ∧
        (vs.foldl (fun s v => s.copyPage pick child parent seg v) c.sys).ctxList = c.sys.ctxList := by
      generalize c.sys = s at hc
      induction vs generalizing s with
      | nil => exact ⟨fun _ _ => rfl, rfl⟩
      | cons v vs ih =>
        have hctx := Sys.copyPage_ctxList s pick child parent seg v
        obtain ⟨h1, h2⟩ := ih (s.copyPage pick child parent seg v) (by rw [hctx]; exact hc)
        exact ⟨(Sys.alters_copyPage hc seg).trans h1, h2.trans hctx⟩
    refine ⟨follows_on h.1 fun _ hf => hf.elim, ?_⟩
    show ((vs.foldl (fun s v => s.copyPage pick child parent seg v) c.sys).ctxList child).pgd ≠ c.cr3
    rw [h.2]
    exact hc
  unfold cforkCopyMm
  simp only [← List.foldl_flatMap]
  obtain ⟨h1, g1⟩ := hshare (c.sys.ctxList child).code _ c hg
  obtain ⟨h2, g2⟩ := hshare (c.sys.ctxList child).rodata _ _ g1
  obtain ⟨h3, g3⟩ := hshare (c.sys.ctxList child).data _ _ g2
  obtain ⟨h4, g4⟩ := hcopy (c.sys.ctxList child).stack _ _ g3
  obtain ⟨h5, -⟩ := hshare (c.sys.ctxList child).stack _ _ g4
  exact (((h1.trans h2).trans h3).trans h4).trans h5

theorem follows_doCfork {pgd : Nat} (hcr3 : c.cr3 ≠ pgd) {r : Nat × Cpu} (h : c.doCfork pick pid pgd = some r) : c.Follows r.2 := by
  obtain ⟨child, -, rfl⟩ := Option.map_eq_some_iff.mp h
  obtain ⟨f, hf⟩ : ∃ f : Sys → Sys, f = fun s =>
      { s.setCtx child { c.sys.ctxList pid with ppid := pid, pgd := pgd } with
        tables := Function.update s.tables pgd PageTable.empty
        numVmArea := s.numVmArea + (c.sys.ctxList pid).vmArea.length } := ⟨_, rfl⟩
  have h1 : c.Follows (c.on f) := by
    refine follows_on (P := fun _ => False) (Sys.alters_of_tables ?_) fun _ hf => hf.elim
    rw [hf]
    exact Function.update_of_ne hcr3 ..
  have hg : ((c.on f).sys.ctxList child).pgd ≠ (c.on f).cr3 := by
    show ((f c.sys).ctxList child).pgd ≠ c.cr3
    rw [hf]
    show (Function.update c.sys.ctxList child _ child).pgd ≠ c.cr3
    rw [Function.update_self]
    exact Ne.symm hcr3
  simp only
  rw [← hf]
  refine (h1.trans (follows_cforkCopyMm hg pick pid)).trans (follows_on (P := fun _ => False) (fun _ _ => rfl) fun _ hf => hf.elim)

/-! ## Runs -/

/-- What every step keeps. -/
structure Right (c : Cpu) : Prop where
  base : c.sys.Base
  each : c.sys.Each (Ctx.Sound False)
  live : ∀ pid, c.current = some pid → c.sys.Live pid ∧ c.cr3 = (c.sys.ctxList pid).pgd
  cached : c.current ≠ none → Cache.Coherent c.tlb c.walk

theorem Right.lookup (h : c.Right) (hc : c.current = some pid) (p : Nat) : c.lookup p = (c.sys.table pid).translate p := by
  have hcoh := h.cached (by rw [hc]; exact Option.some_ne_none pid)
  unfold Cpu.lookup Sys.table
  rw [hcoh.lookup_eq, ← (h.live pid hc).2]
  rfl

theorem Right.coherent (h : c.Right) : c.Coherent := by
  refine ⟨fun pid hc p => ?_, fun pid hc p write => ?_, fun pid hc addr => ?_⟩
  · rw [h.lookup hc]
    unfold PageTable.translate
    rw [Option.map_map]
    rfl
  · unfold Cpu.allows PageTable.allows
    rw [h.lookup hc]
    unfold PageTable.translate
    cases he : (c.sys.table pid).pte p with
    | none => rfl
    | some e =>
      cases write with
      | false => rfl
      | true =>
        show (!true || (c.sys.table pid).allows p true) = _
        unfold PageTable.allows
        rw [he]
        rfl
  · unfold Cpu.load Sys.load
    rw [h.lookup hc]
    unfold PageTable.translate
    cases (c.sys.table pid).pte (pageOf addr) with
    | none => rfl
    | some e => rfl

theorem Right.errorCode (h : c.Right) (hc : c.current = some pid) (p : Nat) (write : Bool) :
    c.errorCode p write = (c.sys.table pid).errorCode p write := by
  unfold Cpu.errorCode PageTable.errorCode
  rw [h.lookup hc]
  unfold PageTable.translate
  rw [Option.isSome_map]

theorem Right.store (h : c.Right) (hc : c.current = some pid) (addr : Nat) (byte : UInt8) :
    c.store addr byte = c.on fun s => s.store pid addr byte := by
  unfold Cpu.store Cpu.on Sys.store
  rw [h.lookup hc]
  unfold PageTable.translate
  cases he : (c.sys.table pid).pte (pageOf addr) with
  | none => simp only [he, Option.map_none]
  | some e => simp only [he, Option.map_some]

/-- The process lives on, in the table it had. -/
def Stays (s t : Sys) (pid : Nat) : Prop := t.Live pid ∧ (t.ctxList pid).pgd = (s.ctxList pid).pgd

theorem stays_of_local {s t : Sys} (hl : s.Live pid) (h : Sys.Local pid s t) : Stays s t pid := ⟨(h.live pid).mpr hl, h.pgd pid⟩

/-- A page fault, before what do_exit makes of it. -/
theorem Right.fault (h : c.Right) (hc : c.current = some pid) (hp : Sys.Picks pick) (addr : Nat) (write : Bool)
    (hno : (c.sys.table pid).allows (pageOf addr) write = false) :
    (c.fault pick pid addr write).sys = c.sys.fault pick pid addr write ∧
      ((c.fault pick pid addr write).current = none ∨
        c.Follows (c.fault pick pid addr write) ∧ Stays c.sys (c.fault pick pid addr write).sys pid) := by
  have hl := (h.live pid hc).1
  obtain ⟨hret, hsys⟩ := doPageFault_sys c pick pid addr ((c.sys.table pid).errorCode (pageOf addr) write)
  unfold Cpu.fault Sys.fault
  rw [h.errorCode hc]
  simp only
  rw [hret]
  split
  · refine ⟨hsys, .inr ⟨?_, by rw [hsys]; exact stays_of_local hl (Sys.doPageFault_spec hp h.base.distinct hl addr _).1⟩⟩
    unfold doPageFault
    split
    · exact follows_handleCowFault c pick pid addr
    · rename_i h7
      -- a read of a page that is there does not fault, and a write has error code 7
      have hnone : (c.sys.table pid).pte (pageOf addr) = none := by
        cases he : (c.sys.table pid).pte (pageOf addr) with
        | none => rfl
        | some e =>
          refine absurd ?_ h7
          unfold PageTable.errorCode
          cases write with
          | false =>
            rw [PageTable.allows_read, he] at hno
            cases hno
          | true =>
            rw [he, Option.isSome_some]
            decide
      refine follows_on (f := fun _ => (c.sys.doPageFault pick pid addr ((c.sys.table pid).errorCode (pageOf addr) write)).2)
        (Sys.alters_doPageFault (h.base.layout pid hl) h.each hl h7 hnone) fun p hp => ?_
      unfold walk
      rw [(h.live pid hc).2]
      exact PageTable.translate_none.mpr hp
  · refine ⟨?_, .inl rfl⟩
    show ((c.doPageFault pick pid addr _).2.sys).doExit pid = _
    rw [hsys]

/-- A call of the current process: the memory is that of the call alone, and the process goes on with what the call leaves
    in the TLB, or is gone. -/
theorem Right.call (h : c.Right) {ev : Ev} (hc : c.current = some ev.pid) (ho : c.sys.Promised ev) (hun : Unpopulated c.sys ev)
    (hd : c.call ev = some d) : c.sys.step ev = some d.sys ∧
      (d.current = none ∨ c.Follows d ∧ Stays c.sys d.sys ev.pid) := by
  obtain ⟨hl, hcr3⟩ := h.live ev.pid hc
  have hdist := h.base.distinct
  unfold Sys.step
  rw [if_pos hl]
  cases ev with
  | mmap pid addr length prot flags pick =>
    cases hd
    refine ⟨rfl, .inr ⟨follows_on (P := fun p => (c.sys.table pid).pte p = none) (Sys.alters_vmAreaMap hun) fun p hp => ?_,
      stays_of_local hl (Sys.local_vmAreaMap ho.2.2 hdist hl addr length prot flags).1⟩⟩
    unfold walk
    rw [hcr3]
    exact PageTable.translate_none.mpr hp
  | munmap pid addr length =>
    cases hd
    refine ⟨congrArg some (vmAreaUnmap_sys c pid addr length).symm, .inr ⟨follows_vmAreaUnmap c pid addr length, ?_⟩⟩
    rw [vmAreaUnmap_sys]
    exact stays_of_local hl (Sys.local_vmAreaUnmap hdist hl addr length)
  | mprotect pid addr length prot =>
    cases hd
    refine ⟨congrArg some (vmAreaMprotect_sys c pid addr length prot).symm,
      .inr ⟨follows_vmAreaMprotect c pid addr length prot, ?_⟩⟩
    rw [vmAreaMprotect_sys]
    exact stays_of_local hl (Sys.local_vmAreaMprotect hdist hl addr length prot)
  | expand pid size segmentT =>
    cases hd
    refine ⟨rfl, .inr ⟨follows_on (P := fun _ => False) (fun p _ => ?_) fun _ hf => hf.elim,
      stays_of_local hl (Sys.local_doExpand c.sys pid size segmentT)⟩⟩
    rcases Sys.doExpand_spec c.sys pid size segmentT with hx | ⟨n, -, -, hx⟩ | ⟨n, -, -, hx⟩
    · rw [hx]
    · rw [hx]
      rfl
    · rw [hx]
      rfl
  | cfork pid pgd pick =>
    have hsys := doCfork_sys c pick pid pgd
    have hd : (c.doCfork pick pid pgd).map Prod.snd = some d := hd
    rw [hd] at hsys
    obtain ⟨r, hr, rfl⟩ := Option.map_eq_some_iff.mp hd
    obtain ⟨q, hq, hqr⟩ := Option.map_eq_some_iff.mp hsys.symm
    have hspec := Sys.doCfork_spec ho.1 h.base hl ho.2 hq
    have hne : pid ≠ q.1 := fun he => hspec.dead (he ▸ hl)
    rw [hqr] at hspec
    exact ⟨hsys.symm, .inr ⟨follows_doCfork (by rw [hcr3]; exact ho.2 pid) hr,
      (hspec.live pid).mpr (.inr hl), congrArg Ctx.pgd (hspec.others pid hne)⟩⟩
  | exit pid =>
    cases hd
    exact ⟨rfl, .inl rfl⟩
  | read pid addr pick =>
    simp only [Cpu.call] at hd
    simp only [Sys.call]
    split at hd
    · cases hd
    rename_i hlt
    rw [if_neg hlt]
    rw [h.coherent.allows pid hc] at hd
    split at hd
    · rename_i ha
      cases hd
      rw [if_pos ha]
      exact ⟨rfl, .inr ⟨.refl c, hl, rfl⟩⟩
    · rename_i ha
      cases hd
      rw [if_neg ha]
      obtain ⟨hsys, hf⟩ := h.fault hc ho addr false (Bool.eq_false_iff.mpr ha)
      exact ⟨congrArg some hsys.symm, hf⟩
  | write pid addr byte pick =>
    simp only [Cpu.call] at hd
    simp only [Sys.call]
    split at hd
    · cases hd
    rename_i hlt
    rw [if_neg hlt]
    rw [h.coherent.allows pid hc, h.store hc] at hd
    split at hd
    · rename_i ha
      cases hd
      rw [if_pos ha]
      exact ⟨rfl, .inr ⟨follows_on (P := fun _ => False) (Sys.alters_of_tables (congrFun (Sys.store_tables ..) _)) fun _ hf => hf.elim,
        stays_of_local hl (Sys.local_store hl ha byte)⟩⟩
    · rename_i ha
      cases hd
      rw [if_neg ha]
      obtain ⟨hsys, hf⟩ := h.fault hc ho addr true (Bool.eq_false_iff.mpr ha)
      exact ⟨congrArg some hsys.symm, hf⟩

theorem Right.step {ev : Event} (h : c.Right) (ho : c.Promised ev) (hd : c.step ev = some d) : d.Right ∧
    ((ev.call? = none ∧ d.sys = c.sys) ∨ ∃ x, ev.call? = some x ∧ c.sys.Promised x ∧ c.sys.step x = some d.sys) := by
  cases ev with
  | call x =>
    simp only [Cpu.step] at hd
    split at hd
    swap
    · cases hd
    rename_i hc
    obtain ⟨hstep, hrest⟩ := h.call hc ho.1 ho.2 hd
    refine ⟨⟨Sys.base_step h.base ho.1 hstep, Sys.each_step h.base ho.1 h.each (fun hf => hf.elim) hstep, ?_, ?_⟩,
      .inr ⟨x, rfl, ho.1, hstep⟩⟩
    · intro pid hp
      rcases hrest with hnone | ⟨hf, hstay⟩
      · rw [hnone] at hp
        cases hp
      · rw [hf.current, hc] at hp
        cases hp
        exact ⟨hstay.1, by rw [hf.cr3, hstay.2, (h.live _ hc).2]⟩
    · intro hcur
      rcases hrest with hnone | ⟨hf, -⟩
      · exact absurd hnone hcur
      · exact (h.cached (by rw [← hf.current]; exact hcur)).follows hf.cached
  | switch pid =>
    simp only [Cpu.step] at hd
    split at hd
    swap
    · cases hd
    rename_i hl
    cases hd
    refine ⟨⟨h.base, h.each, fun p hp => ?_, fun _ => Cache.coherent_empty _⟩, .inl ⟨rfl, rfl⟩⟩
    cases hp
    exact ⟨hl, rfl⟩
  | fill p =>
    cases hd
    exact ⟨⟨h.base, h.each, h.live, fun hc => Cache.coherent_fill (h.cached hc) p⟩, .inl ⟨rfl, rfl⟩⟩
  | evict p =>
    cases hd
    exact ⟨⟨h.base, h.each, h.live, fun hc => (h.cached hc).evict p⟩, .inl ⟨rfl, rfl⟩⟩

theorem start_right (h : c.Start) : c.Right := by
  obtain ⟨hs, hc, hcr3, htlb⟩ := h
  refine ⟨Sys.start_base hs, Sys.start_each False hs, fun pid hp => ?_, fun _ => ?_⟩
  · obtain rfl := Option.some.inj (hc.symm.trans hp)
    exact ⟨(Sys.start_anchored hs (k := pageOf DATA_START) (by decide)).1, hcr3⟩
  · rw [htlb]
    exact Cache.coherent_empty _

/-- With whatever the processor keeps, the processes run as on the page tables alone. -/
theorem coherent_run (c d : Cpu) (es : List Event) (h0 : c.Start) (hr : machine.Run Promised c es d) :
    Sys.machine.Run Sys.Promised c.sys (es.filterMap Event.call?) d.sys ∧ d.Coherent := by
  obtain ⟨hright, hrun⟩ := hr.project (N := Sys.machine) Cpu.sys Event.call?
    (fun _ _ _ hI ho hs => Right.step hI ho hs) (start_right h0)
  exact ⟨hrun, hright.coherent⟩

/-- With nothing in the TLB. -/
def booted : Cpu := ⟨Sys.booted, some 1, (Sys.booted.ctxList 1).pgd, fun _ => none⟩

theorem start_booted : booted.Start := ⟨Sys.start_booted, rfl, rfl, rfl⟩

/-- A page at the start of the region. -/
def mmapPage : Ev := .mmap 1 0 4096 3 MAP_POPULATE Sys.nextFrame

theorem promised_mmapPage : Documented booted (.call mmapPage) := by
  have hlen : Vm.Promised 4096 := by decide
  refine ⟨⟨⟨by decide, hlen, Sys.picks_nextFrame⟩, fun _ _ v hv => ?_⟩, fun x hx => ?_⟩
  · obtain rfl : v = MMAP_AREA_START := by
      have hone : Sys.vaddrs MMAP_AREA_START (MMAP_AREA_START + 4096) = [MMAP_AREA_START] := by decide
      have hv : v ∈ Sys.vaddrs MMAP_AREA_START (MMAP_AREA_START + 4096) := hv
      rw [hone] at hv
      exact List.mem_singleton.mp hv
    decide
  · cases hx
    trivial

/-- The page is kept, and unmapped. -/
theorem coherent_run_unmapped : ∃ d, machine.Run Promised booted [.call mmapPage, .fill (pageOf MMAP_AREA_START),
    .call (.munmap 1 MMAP_AREA_START 4096)] d ∧ d.current = some 1 ∧ d.Coherent := by
  have hlen : Vm.Promised 4096 := by decide
  obtain ⟨d, hd, hc⟩ : ∃ d, machine.Run Promised booted [.call mmapPage, .fill (pageOf MMAP_AREA_START),
      .call (.munmap 1 MMAP_AREA_START 4096)] d ∧ d.current = some 1 :=
    ⟨_, .cons promised_mmapPage.1 rfl (.cons trivial rfl (.cons ⟨⟨by decide, hlen⟩, trivial⟩ rfl (.nil _))), rfl⟩
  exact ⟨d, hd, hc, (coherent_run booted d _ start_booted hd).2⟩

/-! ## Populating pages that are there -/

/-- A populated page has a frame that was not in use. -/
theorem populated_frame {s : Sys} {length : Int} {prot flags : UInt32} {v : Nat} (hp : Sys.Picks pick)
    (hok : (mapAreas (s.ctxList pid).vmArea addr length prot flags).1 ≠ -1) (hpop : flags &&& MAP_POPULATE ≠ 0)
    (hv : v ∈ Sys.vaddrs (mapAreas (s.ctxList pid).vmArea addr length prot flags).1.toNat
      (plus (mapAreas (s.ctxList pid).vmArea addr length prot flags).1.toNat (pageRound length))) :
    ∃ f, f ∉ s.phys.inUse ∧ ((s.vmAreaMap pick pid addr length prot flags).2.table pid).pte (pageOf v) =
      some ⟨f, decide (prot &&& 2 ≠ 0)⟩ := by
  unfold Sys.vmAreaMap
  simp only
  rw [if_neg hok, if_pos hpop]
  obtain ⟨s0, hs0⟩ : ∃ s0, s0 = s.setAreas pid (mapAreas (s.ctxList pid).vmArea addr length prot flags).2.1
      (mapAreas (s.ctxList pid).vmArea addr length prot flags).2.2 := ⟨_, rfl⟩
  rw [← hs0]
  obtain ⟨h1, h2, -⟩ := Sys.allocPfn_loop (s := s0) (fun u => (hp u).2) pid prot (Sys.vaddrs
    (mapAreas (s.ctxList pid).vmArea addr length prot flags).1.toNat
    (plus (mapAreas (s.ctxList pid).vmArea addr length prot flags).1.toNat (pageRound length)))
  obtain ⟨f, hf, hnew, -⟩ := (Frames.freshAll_filled (s := s0.tableFrames (s0.ctxList pid).pgd) (fun u => (hp u).1) ()
    (decide (prot &&& 2 ≠ 0)) _).new _ (List.mem_map_of_mem hv)
  have hphys : s0.phys = s.phys := by
    rw [hs0]
    rfl
  rw [← h1] at hf
  refine ⟨f, ?_, ?_⟩
  · rw [← hphys]
    exact hnew
  · unfold Sys.table
    rw [h2]
    exact hf

theorem right_run {es : List Event} (h0 : c.Start) (hr : machine.Run Documented c es d) : d.Right ∧ d.sys.frames.Inv := by
  have hboth : (d.Right ∧ d.sys.frames.Inv) ∧ Sys.machine.Run Machine.any c.sys (es.filterMap Event.call?) d.sys := by
    refine hr.project (N := Sys.machine) (I := fun c => c.Right ∧ c.sys.frames.Inv) Cpu.sys Event.call?
      (fun a ev b hI ho hs => ?_) ⟨start_right h0, (Sys.start_counted h0.1).inv⟩
    obtain ⟨hb, hstep⟩ := hI.1.step ho.1 hs
    rcases hstep with ⟨hnone, hsame⟩ | ⟨x, hx, hpx, hsx⟩
    · exact ⟨⟨hb, by rw [hsame]; exact hI.2⟩, .inl ⟨hnone, hsame⟩⟩
    · exact ⟨⟨hb, (Sys.counted_step hI.1.base hI.2 hpx (ho.2 x hx) hsx).1⟩, .inr ⟨x, hx, trivial, hsx⟩⟩
  exact hboth.1

/-- Whatever was looked up before a call, no old translation outlives it, if and only if it populates no page that is there. -/
theorem coherent_iff (c₀ c : Cpu) (es : List Event) (h0 : c₀.Start) (hr : machine.Run Documented c₀ es c) (x : Ev)
    (hc : c.current = some x.pid) (ho : c.sys.Promised x) :
    (∀ (ps : List Nat) (d : Cpu), machine.Run Machine.any c (ps.map Event.fill ++ [.call x]) d → d.Coherent) ↔ Unpopulated c.sys x := by
  obtain ⟨hright, hinv⟩ := right_run h0 hr
  constructor
  · intro h
    cases x with
    | mmap pid addr length prot flags pick =>
      intro hok hpop v hv
      by_contra hthere
      obtain ⟨o, hold⟩ := Option.ne_none_iff_exists'.mp hthere
      obtain ⟨f, hnew, hpte⟩ := populated_frame ho.2.2 hok hpop hv
      have hc : c.current = some pid := hc
      have hl := (hright.live pid hc).1
      -- the page is looked up just before
      obtain ⟨d, hd⟩ : ∃ d : Cpu, d = ({ c with tlb := Function.update c.tlb (pageOf v) (c.walk (pageOf v)) } : Cpu).vmAreaMap
          pick pid addr length prot flags := ⟨_, rfl⟩
      have hrun : machine.Run Machine.any c ([pageOf v].map Event.fill ++ [.call (.mmap pid addr length prot flags pick)]) d := by
        refine .cons trivial rfl (.cons trivial ?_ (.nil d))
        rw [hd]
        exact if_pos hc
      have hframe := (h _ d hrun).frame pid (by rw [hd]; exact hc) (pageOf v)
      have hlook : d.lookup (pageOf v) = c.walk (pageOf v) := by
        have hw : c.walk (pageOf v) = some ⟨o.frame, (c.sys.table pid).allows (pageOf v) true⟩ := by
          unfold walk PageTable.translate
          rw [(hright.live pid hc).2]
          show ((c.sys.table pid).pte (pageOf v)).map _ = _
          rw [hold]
          rfl
        unfold Cpu.lookup Cache.lookup
        rw [hd]
        show (Function.update c.tlb (pageOf v) (c.walk (pageOf v)) (pageOf v)).or _ = _
        rw [Function.update_self, hw]
        rfl
      rw [hlook, hd] at hframe
      have hframe : (c.walk (pageOf v)).map Entry.frame = (((c.sys.vmAreaMap pick pid addr length prot flags).2.table pid).pte
        (pageOf v)).map Entry.frame := hframe
      rw [hpte, walk, (hright.live pid hc).2] at hframe
      have hframe : ((((c.sys.table pid).pte (pageOf v)).map fun e => (⟨e.frame, _⟩ : Pte)).map Entry.frame) = some f := hframe
      rw [hold] at hframe
      have hof : o.frame = f := Option.some.inj hframe
      exact hnew (hof ▸ hinv.used pid _ o ((Sys.frames_map hl _).trans hold))
    | _ => trivial
  · intro hun ps d hrun
    have hfills : ∀ (ps : List Nat) (b : Cpu), b.Right → b.sys = c.sys → b.current = c.current →
        machine.Run Machine.any b (ps.map Event.fill ++ [.call x]) d → d.Right := by
      intro ps
      induction ps with
      | nil =>
        intro b hb hs hcur hrun
        cases hrun with
        | cons _ hstep hrest =>
          cases hrest
          have hpromised : b.Promised (.call x) := ⟨by rw [hs]; exact ho, by rw [hs]; exact hun⟩
          exact (hb.step hpromised hstep).1
      | cons p ps ih =>
        intro b hb hs hcur hrun
        cases hrun with
        | cons _ hstep hrest =>
          have hpromised : b.Promised (.fill p) := trivial
          have hnext := (hb.step hpromised hstep).1
          cases hstep
          exact ih _ hnext hs hcur hrest
    exact (hfills ps c hright rfl rfl hrun).coherent

/-- The page behind it, with the same flags: the last area grows, and both are populated. -/
def mmapBehind : Ev := .mmap 1 (MMAP_AREA_START + 4096) 4096 3 MAP_POPULATE Sys.nextFrame

theorem coherent_iff_behind : ∃ c, machine.Run Documented booted [.call mmapPage] c ∧
    ∃ (ps : List Nat) (d : Cpu), machine.Run Machine.any c (ps.map Event.fill ++ [.call mmapBehind]) d ∧ ¬ d.Coherent := by
  have hlen : Vm.Promised 4096 := by decide
  obtain ⟨c, hr, hc, hstale⟩ : ∃ c, machine.Run Documented booted [.call mmapPage] c ∧ c.current = some 1 ∧
      ¬ Unpopulated c.sys mmapBehind := by
    refine ⟨_, .cons promised_mmapPage rfl (.nil _), rfl, fun h => ?_⟩
    have hnone := h (by decide) (by decide) MMAP_AREA_START (by decide)
    revert hnone
    decide
  refine ⟨c, hr, ?_⟩
  by_contra hno
  push Not at hno
  exact hstale ((coherent_iff booted c _ start_booted hr mmapBehind hc ⟨by decide, hlen, Sys.picks_nextFrame⟩).mp hno)

end Cpu

end Cs330.Mm
