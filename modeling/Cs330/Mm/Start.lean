/-
  Cs330.Mm.Start — the state after boot.

  exec_init gives the first process the pages of its code, one page of data and one of
  stack, each a frame of its own. So the invariants hold there: `Base`, the frames' `Inv`
  with no counter above 1 (`start_counted`), and `Ctx.Sound` of every entry.
-/
import Cs330.Mm.Described

namespace Cs330.Mm

open Lib Lib.Seg Vm

namespace Sys

variable {mem : Nat → Nat → UInt8} {pick : Finset Nat → Nat} {pgd : Nat} {s : Sys}

theorem boot_live {i : Nat} : (boot mem pgd).Live i ↔ i = 1 := by
  constructor
  · intro h
    by_contra hne
    refine h.2.2 ?_
    show (if i = 0 then _ else if i = 1 then _ else _ : Ctx).state = _
    rw [if_neg (Nat.ne_of_gt h.1), if_neg hne]
  · intro h
    subst h
    exact ⟨by decide, by decide, fun h => by cases h⟩

theorem boot_distinct (h0 : pgd ≠ 0) (h70 : pgd ≠ 0x70) : (boot mem pgd).Distinct := by
  intro i j hi he
  rw [boot_live.mp hi] at he ⊢
  by_contra hne
  change (if j = 0 then _ else if j = 1 then _ else _ : Ctx).pgd = pgd at he
  by_cases hj : j = 0
  · rw [if_pos hj] at he; exact h70 he.symm
  · rw [if_neg hj, if_neg hne] at he; exact h0 he.symm

theorem boot_map (i k : Nat) : (boot mem pgd).frames.map i k = none := by
  show (if _ then _ else _) = none
  split <;> rfl

theorem boot_inv : (boot mem pgd).frames.Inv := by
  have hno : ∀ {i k e}, (boot mem pgd).frames.map i k ≠ some e := fun h => by rw [boot_map] at h; cases h
  refine ⟨fun _ _ _ _ _ h => absurd h hno, fun _ _ _ h => absurd h hno, fun f => ?_, fun _ _ _ h => absurd h hno⟩
  have hempty : (boot mem pgd).frames.holders f = ∅ := Set.eq_empty_of_forall_notMem fun i h => by
    obtain ⟨k, e, h, -⟩ := h
    exact hno h
  rw [hempty, Set.encard_empty]
  exact bot_le

theorem initCtx_layout : (initCtx pgd).Layout := by
  have hro : RODATA_START ≤ RODATA_START ∧ RODATA_START ≤ DATA_START ∧ 4096 ∣ RODATA_START := by decide
  have hdata : DATA_START ≤ DATA_START + 4096 ∧ DATA_START + 4096 ≤ MMAP_AREA_START ∧ 4096 ∣ DATA_START + 4096 := by decide
  have hstack : STACK_START - MAX_STACK_SIZE ≤ STACK_START - 4096 ∧ STACK_START - 4096 < STACK_START ∧
      4096 ∣ STACK_START - 4096 ∧ (3 : UInt32) &&& MM_WR ≠ 0 := by decide
  have hareas : Areas MMAP_AREA_START [] := by decide
  exact ⟨⟨rfl, rfl⟩, ⟨rfl, rfl, hro⟩, ⟨rfl, rfl, hdata⟩, ⟨rfl, rfl, hstack⟩, hareas, trivial⟩

theorem initCtx_sound (W : Prop) {k : Nat} {e : Pte} (h : (initCtx pgd).Holds k) : (initCtx pgd).Sound W k e :=
  ⟨h, fun _ _ _ hf => by cases hf⟩

/-- exec_init fills the pages of the code, one page of data and one of stack. -/
theorem frames_execInit (mem : Nat → Nat → UInt8) (pgd : Nat) (hp : Picks pick) (h0 : pgd ≠ 0) (h70 : pgd ≠ 0x70) :
    (execInit mem pick pgd).ctxList = (boot mem pgd).ctxList ∧
      (execInit mem pick pgd).frames = ((boot mem pgd).frames.freshAll pick 1 false
        ((vaddrs CODE_START (CODE_START + CODE_PAGES * 4096)).map pageOf)).freshAll pick 1 true
          [pageOf DATA_START, pageOf (STACK_START - 4096)] := by
  have hd : (boot mem pgd).Distinct := boot_distinct h0 h70
  have hl : (boot mem pgd).Live 1 := boot_live.mpr rfl
  -- the code
  obtain ⟨vs, hvs⟩ : ∃ vs, vs = vaddrs CODE_START (CODE_START + CODE_PAGES * 4096) := ⟨_, rfl⟩
  obtain ⟨s1, hs1⟩ : ∃ s1, s1 = vs.foldl (fun s v => s.installPage pick 1 v false true) (boot mem pgd) := ⟨_, rfl⟩
  obtain ⟨f1, c1⟩ := frames_installPage_loop hp hd hl false true vs
  rw [← hs1] at f1 c1
  -- the data
  obtain ⟨s2, hs2⟩ : ∃ s2, s2 = (s1.installPtable pick 1 (initCtx pgd).data 0 0).2 := ⟨_, rfl⟩
  have f2 := frames_installPtable_new (s := s1) (initCtx pgd).data 0 hp (distinct_congr c1 hd)
    ((live_congr c1).mpr hl)
  have c2 := (installPtable_ctxList s1 pick 1 (initCtx pgd).data 0 0).trans c1
  rw [← hs2, if_pos rfl] at f2
  rw [← hs2] at c2
  -- the stack
  obtain ⟨s3, hs3⟩ : ∃ s3, s3 = (s2.installPtable pick 1
    { (initCtx pgd).stack with start := (initCtx pgd).stack.stop - 4096 } 0 0).2 := ⟨_, rfl⟩
  have f3 := frames_installPtable_new (s := s2) { (initCtx pgd).stack with start := (initCtx pgd).stack.stop - 4096 } 0
    hp (distinct_congr c2 hd) ((live_congr c2).mpr hl)
  have c3 := (installPtable_ctxList s2 pick 1 { (initCtx pgd).stack with start := (initCtx pgd).stack.stop - 4096 } 0 0).trans c2
  rw [← hs3, if_pos rfl] at f3
  rw [← hs3] at c3
  have hs : execInit mem pick pgd = s3 := by rw [hs3, hs2, hs1, hvs]; rfl
  have hw : decide ((3 : UInt32) &&& MM_WR ≠ 0) = true := by decide
  have f2 : s2.frames = s1.frames.fresh 1 (pageOf DATA_START) (pick s1.frames.used) (decide ((3 : UInt32) &&& MM_WR ≠ 0)) := f2
  have f3 : s3.frames = s2.frames.fresh 1 (pageOf (STACK_START - 4096)) (pick s2.frames.used)
      (decide ((3 : UInt32) &&& MM_WR ≠ 0)) := f3
  rw [hs]
  refine ⟨c3, ?_⟩
  rw [f3, f2, f1, hvs, hw, Frames.freshAll_cons, Frames.freshAll_cons]
  exact rfl

/-- Each of these pages belongs to the first process. -/
theorem execInit_holds {k : Nat} (hk : k ∈ (vaddrs CODE_START (CODE_START + CODE_PAGES * 4096)).map pageOf ∨
    k ∈ [pageOf DATA_START, pageOf (STACK_START - 4096)]) : (initCtx pgd).Holds k := by
  have hdata : DATA_START ≤ 4096 * pageOf DATA_START ∧ 4096 * pageOf DATA_START < DATA_START + 4096 := by decide
  have hstack : STACK_START - 4096 ≤ 4096 * pageOf (STACK_START - 4096) ∧ 4096 * pageOf (STACK_START - 4096) < STACK_START := by
    decide
  rcases hk with hk | hk
  · have hcode : 4096 ∣ CODE_START ∧ CODE_START + CODE_PAGES * 4096 ≤ 2 ^ 48 := by decide
    exact Or.inl ((mem_pages hcode.1 hcode.2).mp hk)
  rcases List.mem_cons.mp hk with rfl | hk
  · exact Or.inr (Or.inr (Or.inl hdata))
  · rw [List.mem_singleton.mp hk]
    exact Or.inr (Or.inr (Or.inr (Or.inl ⟨hstack.1, hstack.2⟩)))

/-- exec_init maps pages of the first process, each to a new frame. -/
theorem execInit_spec (mem : Nat → Nat → UInt8) (pgd : Nat) (hp : Picks pick) (h0 : pgd ≠ 0) (h70 : pgd ≠ 0x70) :
    (execInit mem pick pgd).ctxList = (boot mem pgd).ctxList ∧
      Frames.Ops (· ≠ 0) 1 (boot mem pgd).frames (execInit mem pick pgd).frames ∧
      ∀ k e, (execInit mem pick pgd).frames.map 1 k = some e → (initCtx pgd).Holds k := by
  obtain ⟨hc, hf⟩ := frames_execInit mem pgd hp h0 h70
  refine ⟨hc, ?_, fun k e he => ?_⟩
  · rw [hf]
    exact (Frames.Ops.freshAll (fun u => hp u) _ _).trans (.freshAll (fun u => hp u) _ _)
  · by_contra hno
    rw [hf, (Frames.freshAll_filled (fun u => (hp u).1) 1 true _).others 1 k fun h => hno (execInit_holds (Or.inr h.2)),
      (Frames.freshAll_filled (fun u => (hp u).1) 1 false _).others 1 k fun h => hno (execInit_holds (Or.inl h.2)), boot_map] at he
    cases he

/-- What holds of the frames when `n` forks have been made. -/
structure Counted (s : Sys) (n : Nat) : Prop where
  inv : s.frames.Inv
  count : ∀ f, (s.phys.refcount f).toNat ≤ 1 + n

theorem start_base (h : Start s) : s.Base := by
  obtain ⟨mem, pick, pgd, hp, h0, h70, rfl⟩ := h
  obtain ⟨hc, ho, -⟩ := execInit_spec mem pgd hp h0 h70
  refine ⟨distinct_congr hc (boot_distinct h0 h70), ?_, fun i hi => ?_, fun i k e he => ?_⟩
  · rw [hc]; exact fun h => by cases h
  · rw [hc, boot_live.mp ((live_congr hc).mp hi)]
    exact initCtx_layout
  · exact ho.all (fun j k e he => by rw [boot_map] at he; cases he) i k e he

theorem start_counted (h : Start s) : s.Counted 0 := by
  obtain ⟨mem, pick, pgd, hp, h0, h70, rfl⟩ := h
  obtain ⟨-, ho, -⟩ := execInit_spec mem pgd hp h0 h70
  refine ⟨ho.inv boot_inv, fun f => ?_⟩
  have hle := ho.count_le boot_inv f
  exact hle

theorem start_each (W : Prop) (h : Start s) : s.Each (Ctx.Sound W) := by
  obtain ⟨mem, pick, pgd, hp, h0, h70, rfl⟩ := h
  obtain ⟨hc, ho, hm⟩ := execInit_spec mem pgd hp h0 h70
  intro i k e he
  by_cases hi : i = 1
  · subst hi
    rw [hc]
    exact initCtx_sound W (hm k e he)
  · rw [ho.others hi, boot_map] at he
    cases he

theorem step_mmap {pid addr : Nat} {length : Int} {prot flags : UInt32} (hl : s.Live pid) :
    s.step (.mmap pid addr length prot flags pick) = some (s.vmAreaMap pick pid addr length prot flags).2 := if_pos hl

theorem step_cfork {pid : Nat} {r : Nat × Sys} (hl : s.Live pid) (h : s.doCfork pick pid pgd = some r) :
    s.step (.cfork pid pgd pick) = some r.2 := (if_pos hl).trans (congrArg (Option.map Prod.snd) h)

/-- The state after a cfork that finds a slot. -/
theorem step_cfork_some {pid : Nat} (hl : s.Live pid) (h : (s.doCfork pick pid pgd).isSome = true) :
    s.step (.cfork pid pgd pick) = some (((s.doCfork pick pid pgd).map Prod.snd).getD s) := by
  obtain ⟨r, hr⟩ := Option.isSome_iff_exists.mp h
  rw [step_cfork hl hr, hr]
  rfl

theorem step_write_fault {pid addr : Nat} {byte : UInt8} (hl : s.Live pid) (ha : addr < 2 ^ 47)
    (hno : (s.table pid).allows (pageOf addr) true = false) : s.step (.write pid addr byte pick) = some (s.fault pick pid addr true) := by
  refine (if_pos hl).trans ?_
  simp only [call, if_neg (Nat.not_le.mpr ha), hno]
  rfl

/-- With zeroed frames, and the frames taken in order. -/
def booted : Sys := execInit (fun _ _ => 0) nextFrame 0x71

theorem start_booted : Start booted := ⟨_, _, _, picks_nextFrame, by decide, by decide, rfl⟩

/-- Frame 0x72 is no page table yet. -/
theorem execInit_pgd (hp : Picks pick) (i : Nat) : ((execInit mem pick 0x71).ctxList i).pgd ≠ 0x72 := by
  rw [(execInit_spec mem 0x71 hp (by decide) (by decide)).1]
  show (if i = 0 then _ else if i = 1 then _ else _ : Ctx).pgd ≠ _
  split
  · decide
  split
  · decide
  · decide

theorem booted_pgd (i : Nat) : (booted.ctxList i).pgd ≠ 0x72 := execInit_pgd picks_nextFrame i

/-- The first process makes a child. -/
theorem booted_cfork : ∃ t, booted.step (.cfork 1 0x72 nextFrame) = some t ∧ Cforked booted nextFrame 1 0x72 2 t := by
  have hl : booted.Live 1 := by decide
  obtain ⟨t, ht⟩ : ∃ t, booted.doCfork nextFrame 1 0x72 = some (2, t) := ⟨_, rfl⟩
  refine ⟨t, step_cfork hl ht, ?_⟩
  exact doCfork_spec picks_nextFrame (start_base start_booted) hl booted_pgd ht

/-- A mapping of `length` bytes at the start of the region, writable and populated. -/
def populated (length : Int) : Sys := (booted.vmAreaMap nextFrame 1 0 length 3 MAP_POPULATE).2

theorem populated_step (length : Int) : booted.step (.mmap 1 0 length 3 MAP_POPULATE nextFrame) = some (populated length) :=
  step_mmap (by decide)

/-- Three pages of which the middle one has been given back. -/
def holed : Sys := ((populated 12288).vmAreaUnmap 1 (MMAP_AREA_START + 4096) 4096).2

theorem holed_step : (populated 12288).step (.munmap 1 (MMAP_AREA_START + 4096) 4096) = some holed := if_pos (by decide)

theorem holed_areas : (holed.ctxList 1).vmArea =
    [⟨MMAP_AREA_START, MMAP_AREA_START + 4096, 3⟩, ⟨MMAP_AREA_START + 8192, MMAP_AREA_START + 12288, 3⟩] := by
  decide +kernel

end Sys

end Cs330.Mm
