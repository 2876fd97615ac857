/-
  Cs330.Mm.Leak — frames that stay in use with nobody to map them.

  `Accounted`: every frame in use is mapped by a live process, and its counter is the number
  of PTEs of live processes that map it. Calls, the faults in DATA and in the region of mmap,
  and cfork keep it. do_exit lowers no counter, and mmap with MAP_POPULATE lowers none where
  it replaces a PTE; only the exit of the last process gives all its frames back
  (Cs330.Mm.Cleanup). So a run stays accounted exactly as long as no process that maps a page
  ends before the last one, and no page is populated that is there (`accounted_iff`).
  `child_leaves_counts` is a child that exits.
-/
import Cs330.Mm.Cleanup
import Cs330.Mm.Legal
import Cs330.Mm.Ownership
import Cs330.Mm.Populate

namespace Cs330.Mm

open Lib Lib.Seg Vm

namespace Sys

variable {s t : Sys} {pid addr child : Nat} {length : Int} {prot flags : UInt32} {pick : Finset Nat → Nat}

/-- The PTEs of live processes for a frame, by process and page. -/
def ptes (s : Sys) (f : Nat) : Set (Nat × Nat) := {x | s.Live x.1 ∧ ∃ e, (s.table x.1).get x.2 = some e ∧ e.frame = f}

structure Accounted (s : Sys) : Prop where
  mapped : ∀ f ∈ s.phys.inUse, ∃ pid k e, s.Live pid ∧ (s.table pid).get k = some e ∧ e.frame = f
  counted : ∀ f ∈ s.phys.inUse, (s.ptes f).encard = (s.phys.refcount f).toNat

/-- The page faults: those in DATA and in the region of mmap. -/
def Listed (s : Sys) : Ev → Prop
  | .read pid addr _ => (s.table pid).allows (pageOf addr) false = true ∨ (DATA_START ≤ addr ∧ addr < MMAP_AREA_END)
  | .write pid addr _ _ => (s.table pid).allows (pageOf addr) true = true ∨ (DATA_START ≤ addr ∧ addr < MMAP_AREA_END)
  | _ => True

/-- The process ends: it exits, or accesses memory that is not its own. -/
def Ends (s : Sys) : Ev → Prop
  | .exit _ => True
  | .read pid addr _ => (s.table pid).allows (pageOf addr) false = false ∧ ¬ (s.ctxList pid).Legal addr false
  | .write pid addr _ _ => (s.table pid).allows (pageOf addr) true = false ∧ ¬ (s.ctxList pid).Legal addr true
  | _ => False

/-- The last area grows, and mmap populates from its first page on, where a page is there. -/
def Repopulates (s : Sys) : Ev → Prop
  | .mmap pid addr length prot flags _ => flags &&& MAP_POPULATE ≠ 0 ∧
      LastGrows (s.ctxList pid).vmArea addr (pageUp length) prot ∧ ∃ a k, (s.ctxList pid).vmArea.getLast? = some a ∧
        a.vmStart ≤ 4096 * k ∧ 4096 * k < a.vmStart + pageUp length ∧ (s.table pid).get k ≠ none
  | _ => False

/-- The process of the event maps a page. -/
def Maps (s : Sys) (e : Ev) : Prop := ∃ k, (s.table e.pid).get k ≠ none

/-- A process that maps a page ends while another is left, or a page that is there is populated. -/
def Leaks (s : Sys) (e : Ev) : Prop := (s.Ends e ∧ s.Maps e ∧ ∃ j, j ≠ e.pid ∧ s.Live j) ∨ s.Repopulates e

/-! ## As frames -/

theorem ptes_eq (s : Sys) (f : Nat) : s.ptes f = s.frames.entries f := by
  ext x
  unfold ptes Frames.entries
  by_cases hl : s.Live x.1
  · simp [hl, frames_map, PageTable.get_eq]
  · simp [hl, frames_dead hl]

theorem accounted_of_exact (h : s.frames.Exact) : s.Accounted := by
  refine ⟨fun f hf => ?_, fun f hf => ?_⟩
  · obtain ⟨x, hx⟩ := h.held f hf
    rw [← ptes_eq] at hx
    obtain ⟨hl, e, he, hef⟩ := hx
    exact ⟨x.1, x.2, e, hl, he, hef⟩
  · rw [ptes_eq]; exact h.count f hf

theorem exact_of_accounted (hi : s.frames.Inv) (h : s.Accounted) : s.frames.Exact := by
  refine ⟨hi.used, fun f hf => ?_, fun f hf => ?_⟩
  · obtain ⟨pid, k, e, hl, he, hef⟩ := h.mapped f hf
    rw [← ptes_eq]
    exact ⟨(pid, k), hl, e, he, hef⟩
  · rw [← ptes_eq]; exact h.counted f hf

/-- Seven processes do not wrap a counter that is right. -/
theorem noWrap_of_exact (hi : s.frames.Inv) (hx : s.frames.Exact) {e : Ev} (hl : s.Live e.pid) : s.NoWrap e := by
  cases e with
  | cfork pid pgd pick =>
    intro v _ d hd h
    have hl : s.Live pid := hl
    rw [getUserPte_eq hl] at hd
    have hle := hx.count_le hi (A := Finset.range MAX_PROCESSES) (fun i k e he => ?_) (hi.used _ _ _ hd)
    · have h : s.frames.count d.frame = 255 := h
      rw [h, Finset.card_range] at hle
      exact absurd hle (by decide)
    · by_contra hno
      have hdead : ¬ s.Live i := fun hl => hno (Finset.mem_range.mpr hl.2.1)
      rw [frames_dead hdead] at he
      cases he
  | _ => trivial

/-! ## Each step -/

section
variable (hx : s.frames.Exact)
include hx

theorem exact_mends (hp : Picks pick) (h : Mends s pick pid addr t) : t.frames.Exact := by
  cases h with
  | fresh w hnone hf => rw [hf]; exact hx.fresh hnone (hp _).1
  | inPlace hf => rw [hf]; exact hx.chmod _ _ _
  | copied e he h1 hf =>
    rw [hf]
    apply hx.copy (hp _).1
    intro d hd
    rw [he] at hd
    cases hd
    exact h1

/-- A process that ends gives nothing back. -/
theorem exact_doExit (hd : s.Distinct) (hl : s.Live pid) :
    (s.doExit pid).frames.Exact ↔ ¬ ∃ k, (s.table pid).get k ≠ none := by
  rw [frames_doExit hd hl]
  constructor
  · rintro h ⟨k, hk⟩
    rw [PageTable.get_eq, ← frames_map hl] at hk
    obtain ⟨e, he⟩ := Option.ne_none_iff_exists'.mp hk
    exact hx.not_clear he h
  · intro h
    have hempty : s.frames.map pid = fun _ => none := by
      funext k
      rw [frames_map hl, ← PageTable.get_eq]
      by_contra hk
      exact h ⟨k, hk⟩
    refine hx.congr (fun i k => ?_) rfl rfl
    show (Function.update s.frames.map pid (fun _ => none) i k).map _ = _
    rw [← hempty, Function.update_eq_self]

theorem exact_fault (hp : Picks pick) (hb : s.Base) (hl : s.Live pid) {write : Bool}
    (hno : (s.table pid).allows (pageOf addr) write = false) (h1 : DATA_START ≤ addr) (h2 : addr < MMAP_AREA_END) :
    (s.fault pick pid addr write).frames.Exact ↔
      ¬ (¬ (s.ctxList pid).Legal addr write ∧ ∃ k, (s.table pid).get k ≠ none) := by
  rcases fault_region hp hb.distinct hl (hb.layout pid hl) hno h1 h2 with ⟨hleg, hm⟩ | ⟨hleg, hf⟩
  · exact iff_of_true (exact_mends hx hp hm) fun h => h.1 hleg
  · rw [hf, exact_doExit hx hb.distinct hl]
    exact not_congr ⟨fun h => ⟨hleg, h⟩, fun h => h.2⟩

theorem exact_cfork (hp : Picks pick) (hb : s.Base) (hl : s.Live pid) (hi : s.frames.Inv) {pgd : Nat}
    (h : Cforked s pick pid pgd child t) : t.frames.Exact := by
  have hne : pid ≠ child := fun he => h.dead (he ▸ hl)
  have hroom := room_of_noWrap hb hl hi (noWrap_of_exact hi hx (e := .cfork pid pgd pick) hl)
  rw [h.frames]
  exact hx.fork hi (fun u => (hp u).1) hne (hb.layout pid hl).fork_nodup (frames_dead h.dead) hroom

end

/-- The frames of an mmap that populates. -/
theorem frames_populate (hp : Picks pick) (hd : s.Distinct) (hl : s.Live pid) (hlen : Vm.Promised length) {ret : Nat}
    (hret : (mapAreas (s.ctxList pid).vmArea addr length prot flags).1 = ret) (hhigh : ret + pageUp length ≤ MMAP_AREA_END)
    (hpop : flags &&& MAP_POPULATE ≠ 0) : (s.vmAreaMap pick pid addr length prot flags).2.frames =
      s.frames.freshAll pick pid (prot &&& 2 ≠ 0) ((vaddrs ret (ret + pageUp length)).map pageOf) := by
  have h := local_setAreas s pid (mapAreas (s.ctxList pid).vmArea addr length prot flags).2.1
    (mapAreas (s.ctxList pid).vmArea addr length prot flags).2.2
  obtain ⟨e1, -, -⟩ := frames_setAreas s pid (mapAreas (s.ctxList pid).vmArea addr length prot flags).2.1
    (mapAreas (s.ctxList pid).vmArea addr length prot flags).2.2
  rw [end_eq] at hhigh
  rw [vmAreaMap_eq hret]
  simp only [if_pos hpop]
  rw [pageRound_eq hlen, plus_nat (by omega)]
  exact (frames_installPage_loop hp (h.distinct hd) ((h.live pid).mpr hl) _ true _).1.trans (by rw [e1])

section
variable (hb : s.Base) (hl : s.Live pid) (hs : s.Each (Ctx.Sound False)) (ha : 4096 ∣ addr) (hlen : Vm.Promised length)
include hb hl hs ha hlen

/-- Which pages mmap populates, and when one of them is there. -/
theorem repopulates_iff {ret : Nat} (hret : (mapAreas (s.ctxList pid).vmArea addr length prot flags).1 = ret)
    (hpop : flags &&& MAP_POPULATE ≠ 0) : s.Repopulates (.mmap pid addr length prot flags pick) ↔
      ∃ k, ret ≤ 4096 * k ∧ 4096 * k < ret + pageUp length ∧ (s.table pid).get k ≠ none := by
  have hlay := hb.layout pid hl
  obtain ⟨r, hm, hor, -⟩ := mapAreas_maps hlay.areas hlen ha (by rw [hret]; omega)
  constructor
  · rintro ⟨-, hg, a, k, hlast, h1, h2, hk⟩
    obtain ⟨b, hlast', -, hstart⟩ := mapAreas_grows hlay.areas hlen ha hg flags
    rw [hlast] at hlast'
    cases hlast'
    have hstart : ret = a.vmStart := by rw [hret] at hstart; omega
    exact ⟨k, hstart ▸ h1, hstart ▸ h2, hk⟩
  · rintro ⟨k, h1, h2, hk⟩
    rcases hor with he | ⟨hg, -⟩
    · -- nothing is mapped where there is no area
      obtain rfl : ret = r := by rw [hret] at he; omega
      have hlow := hm.low
      have hhigh := hm.high
      rw [PageTable.get_eq, ← frames_map hl] at hk
      obtain ⟨e, he⟩ := Option.ne_none_iff_exists'.mp hk
      exact absurd (hm.free (4096 * k) h1 h2) (hlay.region (hs pid k e he).holds (by omega) (by omega))
    · obtain ⟨a, hlast, -, hstart⟩ := mapAreas_grows hlay.areas hlen ha hg flags
      have hstart : ret = a.vmStart := by rw [hret] at hstart; omega
      exact ⟨hpop, hg, a, k, hlast, hstart ▸ h1, hstart ▸ h2, hk⟩

theorem exact_mmap (hx : s.frames.Exact) (hp : Picks pick) : (s.vmAreaMap pick pid addr length prot flags).2.frames.Exact ↔
    ¬ s.Repopulates (.mmap pid addr length prot flags pick) := by
  have hlay := hb.layout pid hl
  obtain ⟨e1, -, -⟩ := frames_setAreas s pid (mapAreas (s.ctxList pid).vmArea addr length prot flags).2.1
    (mapAreas (s.ctxList pid).vmArea addr length prot flags).2.2
  by_cases hret : (mapAreas (s.ctxList pid).vmArea addr length prot flags).1 = -1
  · refine iff_of_true ?_ fun h => ?_
    · unfold vmAreaMap
      simp only [if_pos hret]
      rw [e1]; exact hx
    · obtain ⟨a, -, -, hstart⟩ := mapAreas_grows hlay.areas hlen ha h.2.1 flags
      omega
  obtain ⟨ret, he, hdvd, -, hhigh, -⟩ := mapAreas_covers hlay.areas hlen ha hret
  by_cases hpop : flags &&& MAP_POPULATE ≠ 0
  · rw [frames_populate hp hb.distinct hl hlen he hhigh hpop, repopulates_iff hb hl hs ha hlen he hpop]
    rw [end_eq] at hhigh
    have hmem : ∀ k, k ∈ (vaddrs ret (ret + pageUp length)).map pageOf ↔ ret ≤ 4096 * k ∧ 4096 * k < ret + pageUp length :=
      fun k => mem_pages hdvd (by omega)
    constructor
    · rintro h ⟨k, h1, h2, hk⟩
      rw [PageTable.get_eq, ← frames_map hl] at hk
      obtain ⟨e, he⟩ := Option.ne_none_iff_exists'.mp hk
      exact hx.not_freshAll (fun u => (hp u).1) _ ((hmem k).mpr ⟨h1, h2⟩) he h
    · intro h
      apply hx.freshAll (fun u => (hp u).1) _ (rangePages_nodup hdvd (by omega))
      intro k hk
      obtain ⟨h1, h2⟩ := (hmem k).mp hk
      rw [frames_map hl, ← PageTable.get_eq]
      by_contra hne
      exact h ⟨k, h1, h2, hne⟩
  · refine iff_of_true ?_ fun h => hpop h.1
    rw [vmAreaMap_eq he]
    simp only [if_neg hpop]
    rw [e1]; exact hx

end

theorem live_of_step {e : Ev} (h : s.step e = some t) : s.Live e.pid := by
  unfold step at h
  split at h
  · assumption
  · cases h

/-- A step keeps the counters right, do_cleanup apart, if and only if no process that maps a page
    ends, and none that is there is populated. -/
theorem exact_step {e : Ev} (hb : s.Base) (hi : s.frames.Inv) (hs : s.Each (Ctx.Sound False)) (hx : s.frames.Exact)
    (ho : s.Promised e) (hlist : s.Listed e) (h : s.step e = some t) :
    t.frames.Exact ↔ ¬ ((s.Ends e ∧ s.Maps e) ∨ s.Repopulates e) := by
  unfold step at h
  split at h
  swap
  · cases h
  rename_i hl
  have hd := hb.distinct
  cases e with
  | mmap pid addr length prot flags pick =>
    cases h
    refine (exact_mmap hb hl hs ho.1 ho.2.1 hx ho.2.2).trans (not_congr ?_)
    exact (or_iff_right fun h => h.1).symm
  | munmap pid addr length =>
    cases h
    refine iff_of_true ?_ fun h => h.elim (fun h => h.1) id
    have hl : s.Live pid := hl
    rcases vmAreaUnmap_cases hd hl (hb.layout pid hl) ho.1 ho.2 with ⟨hf, -⟩ | ⟨-, ks, areas, hf, -⟩
    · rw [hf]; exact hx
    · rw [hf]; exact hx.dropAll pid ks
  | mprotect pid addr length prot =>
    cases h
    refine iff_of_true ?_ fun h => h.elim (fun h => h.1) id
    have hl : s.Live pid := hl
    rcases vmAreaMprotect_cases hd hl (hb.layout pid hl) ho.1 ho.2 prot with ⟨hf, -⟩ | ⟨-, areas, hf, -⟩
    · rw [hf]; exact hx
    · rw [hf]; exact hx.chmod _ _ _
  | expand pid size segmentT =>
    cases h
    refine iff_of_true ?_ fun h => h.elim (fun h => h.1) id
    rw [frames_doExpand]; exact hx
  | cfork pid pgd pick =>
    obtain ⟨r, hr, rfl⟩ := Option.map_eq_some_iff.mp h
    exact iff_of_true (exact_cfork hx ho.1 hb hl hi (doCfork_spec ho.1 hb hl ho.2 hr)) fun h => h.elim (fun h => h.1) id
  | exit pid =>
    cases h
    refine (exact_doExit hx hd hl).trans (not_congr ?_)
    exact ⟨fun h => Or.inl ⟨trivial, h⟩, fun h => h.elim (fun h => h.2) False.elim⟩
  | read pid addr pick =>
    simp only [call] at h
    split at h
    · cases h
    split at h
    · rename_i ha
      cases h
      refine iff_of_true hx fun h => h.elim (fun h => ?_) id
      have hno := h.1.1
      rw [ha] at hno
      cases hno
    · rename_i ha
      cases h
      have hno : (s.table pid).allows (pageOf addr) false = false := by simpa using ha
      obtain ⟨h1, h2⟩ := hlist.resolve_left ha
      refine (exact_fault hx ho hb hl hno h1 h2).trans (not_congr ?_)
      exact ⟨fun h => Or.inl ⟨⟨hno, h.1⟩, h.2⟩, fun h => h.elim (fun h => ⟨h.1.2, h.2⟩) False.elim⟩
  | write pid addr byte pick =>
    simp only [call] at h
    split at h
    · cases h
    split at h
    · rename_i ha
      cases h
      refine iff_of_true ?_ fun h => h.elim (fun h => ?_) id
      · have hl : s.Live pid := hl
        obtain ⟨d, hd, hdw⟩ := PageTable.allows_write ha
        rw [frames_store hl ((frames_map hl _).trans hd) hdw]
        exact hx.store _ _ _ _
      · have hno := h.1.1
        rw [ha] at hno
        cases hno
    · rename_i ha
      cases h
      have hno : (s.table pid).allows (pageOf addr) true = false := by simpa using ha
      obtain ⟨h1, h2⟩ := hlist.resolve_left ha
      refine (exact_fault hx ho hb hl hno h1 h2).trans (not_congr ?_)
      exact ⟨fun h => Or.inl ⟨⟨hno, h.1⟩, h.2⟩, fun h => h.elim (fun h => ⟨h.1.2, h.2⟩) False.elim⟩

/-- exec_init uses each of its frames once. -/
theorem start_exact (h : Start s) : s.frames.Exact := by
  obtain ⟨mem, pick, pgd, hp, h0, h70, rfl⟩ := h
  obtain ⟨-, hf⟩ := frames_execInit mem pgd hp h0 h70
  have hboot : (boot mem pgd).frames.Exact := by
    refine ⟨fun i k e he => ?_, fun f hf => absurd hf (Finset.notMem_empty f), fun f hf => absurd hf (Finset.notMem_empty f)⟩
    rw [boot_map] at he
    cases he
  have hcode : 4096 ∣ CODE_START ∧ CODE_START + CODE_PAGES * 4096 ≤ 2 ^ 48 := by decide
  rw [hf]
  have h1 := hboot.freshAll (fun u => (hp u).1) false (i := 1) (rangePages_nodup hcode.1 hcode.2) fun k _ => boot_map 1 k
  refine h1.freshAll (fun u => (hp u).1) true (by decide) fun k hk => ?_
  rw [(Frames.freshAll_filled (fun u => (hp u).1) 1 false _).others 1 k fun h => ?_, boot_map]
  have hin := (mem_pages hcode.1 hcode.2).mp h.2
  have hdata : CODE_START + CODE_PAGES * 4096 ≤ 4096 * pageOf DATA_START ∧
      CODE_START + CODE_PAGES * 4096 ≤ 4096 * pageOf (STACK_START - 4096) := by decide
  rcases List.mem_cons.mp hk with rfl | hk
  · omega
  · rw [List.mem_singleton.mp hk] at hin
    omega

/-! ## The last process -/

/-- A fault that is legal leaves its process alive. -/
theorem live_fault (hp : Picks pick) (hb : s.Base) (hl : s.Live pid) {write : Bool}
    (hno : (s.table pid).allows (pageOf addr) write = false) (h1 : DATA_START ≤ addr) (h2 : addr < MMAP_AREA_END)
    (hleg : (s.ctxList pid).Legal addr write) : (s.fault pick pid addr write).Live pid := by
  have hloc := (doPageFault_spec hp hb.distinct hl addr ((s.table pid).errorCode (pageOf addr) write)).1
  unfold fault
  simp only
  rcases doPageFault_region hp hb.distinct hl (hb.layout pid hl) hno h1 h2 rfl with ⟨-, hret, -⟩ | ⟨hno, -⟩
  · rw [if_pos hret]
    exact (hloc.live pid).mpr hl
  · exact absurd hleg hno

/-- A process ends by do_exit and nothing else. -/
theorem ends_or_lives {e : Ev} (hb : s.Base) (ho : s.Promised e) (hlist : s.Listed e) (h : s.step e = some t) :
    (s.Ends e ∧ t = s.doExit e.pid) ∨ (¬ s.Ends e ∧ t.Live e.pid) := by
  unfold step at h
  split at h
  swap
  · cases h
  rename_i hl
  have hd := hb.distinct
  cases e with
  | mmap pid addr length prot flags pick =>
    cases h
    exact .inr ⟨id, ((local_vmAreaMap ho.2.2 hd hl addr length prot flags).1.live pid).mpr hl⟩
  | munmap pid addr length =>
    cases h
    exact .inr ⟨id, ((local_vmAreaUnmap hd hl addr length).live pid).mpr hl⟩
  | mprotect pid addr length prot =>
    cases h
    exact .inr ⟨id, ((local_vmAreaMprotect hd hl addr length prot).live pid).mpr hl⟩
  | expand pid size segmentT =>
    cases h
    exact .inr ⟨id, ((local_doExpand s pid size segmentT).live pid).mpr hl⟩
  | cfork pid pgd pick =>
    obtain ⟨r, hr, rfl⟩ := Option.map_eq_some_iff.mp h
    exact .inr ⟨id, ((doCfork_spec ho.1 hb hl ho.2 hr).live pid).mpr (.inr hl)⟩
  | exit pid =>
    cases h
    exact .inl ⟨trivial, rfl⟩
  | read pid addr pick =>
    simp only [call] at h
    split at h
    · cases h
    split at h
    · rename_i ha
      cases h
      refine .inr ⟨fun h => ?_, hl⟩
      have hno := h.1
      rw [ha] at hno
      cases hno
    · rename_i ha
      cases h
      have hno : (s.table pid).allows (pageOf addr) false = false := by simpa using ha
      obtain ⟨h1, h2⟩ := hlist.resolve_left ha
      by_cases hleg : (s.ctxList pid).Legal addr false
      · exact .inr ⟨fun h => h.2 hleg, live_fault ho hb hl hno h1 h2 hleg⟩
      · rcases fault_region ho hd hl (hb.layout pid hl) hno h1 h2 with ⟨h, -⟩ | ⟨-, hf⟩
        · exact absurd h hleg
        · exact .inl ⟨⟨hno, hleg⟩, hf⟩
  | write pid addr byte pick =>
    simp only [call] at h
    split at h
    · cases h
    split at h
    · rename_i ha
      cases h
      refine .inr ⟨fun h => ?_, ((local_store hl ha byte).live pid).mpr hl⟩
      have hno := h.1
      rw [ha] at hno
      cases hno
    · rename_i ha
      cases h
      have hno : (s.table pid).allows (pageOf addr) true = false := by simpa using ha
      obtain ⟨h1, h2⟩ := hlist.resolve_left ha
      by_cases hleg : (s.ctxList pid).Legal addr true
      · exact .inr ⟨fun h => h.2 hleg, live_fault ho hb hl hno h1 h2 hleg⟩
      · rcases fault_region ho hd hl (hb.layout pid hl) hno h1 h2 with ⟨h, -⟩ | ⟨-, hf⟩
        · exact absurd h hleg
        · exact .inl ⟨⟨hno, hleg⟩, hf⟩

/-- What a step of the machine that cleans up can be. -/
theorem closeStep_cases {e : Ev} (hb : s.Base) (ho : s.Promised e) (hlist : s.Listed e) (h : s.closeStep e = some t) :
    (s.step e = some t ∧ t.ProcExist) ∨
      (s.LastExit e.pid ∧ s.Ends e ∧ t = (s.doExit e.pid).doCleanup e.pid) := by
  obtain ⟨u, hu, ht⟩ := Option.map_eq_some_iff.mp h
  by_cases hproc : u.ProcExist
  · rw [if_pos hproc] at ht
    subst ht
    exact .inl ⟨hu, hproc⟩
  · rw [if_neg hproc] at ht
    rcases ends_or_lives hb ho hlist hu with ⟨hend, rfl⟩ | ⟨-, hlive⟩
    · exact .inr ⟨⟨live_of_step hu, hproc⟩, hend, ht.symm⟩
    · exact absurd (procExist_iff.mpr ⟨_, hlive⟩) hproc

theorem closeStep_of_live {e : Ev} {i : Nat} (h : s.step e = some t) (hl : t.Live i) : s.closeStep e = some t := by
  unfold closeStep
  rw [h, Option.map_some, if_pos (procExist_iff.mpr ⟨i, hl⟩)]

/-- What every state of the runs has. -/
structure Tidy (s : Sys) : Prop where
  base : s.Base
  inv : s.frames.Inv
  each : s.Each (Ctx.Sound False)
  exact : s.frames.Exact

/-- With no process left, and no frame in use. -/
theorem tidy_of_none (h0 : (s.ctxList 0).state ≠ .unused) (hno : ∀ i, ¬ s.Live i) (hused : s.phys.inUse = ∅) : s.Tidy := by
  have hmap : ∀ {i k e}, s.frames.map i k ≠ some e := fun h => by rw [frames_dead (hno _)] at h; cases h
  have hempty : ∀ f, s.frames.holders f = ∅ := fun f => Set.eq_empty_of_forall_notMem fun i ⟨k, e, h, _⟩ => hmap h
  have hin : ∀ f, f ∉ s.frames.used := fun f hf => by rw [frames_used, hused] at hf; exact Finset.notMem_empty f hf
  exact {
    base := ⟨fun i j hl => absurd hl (hno i), h0, fun i hl => absurd hl (hno i), fun i k e h => absurd h hmap⟩
    inv := ⟨fun _ _ _ _ _ h => absurd h hmap, fun _ _ _ h => absurd h hmap,
      fun f => by rw [hempty, Set.encard_empty]; exact bot_le, fun _ _ _ h => absurd h hmap⟩
    each := fun i k e h => absurd h hmap
    exact := ⟨fun _ _ _ h => absurd h hmap, fun f hf => absurd hf (hin f), fun f hf => absurd hf (hin f)⟩ }

/-- The exit of the last process leaves nothing behind. -/
theorem tidy_doCleanup (h : s.Tidy) (hlast : s.LastExit pid) : ((s.doExit pid).doCleanup pid).Tidy := by
  obtain ⟨hc, hno⟩ := hlast.closed h.base
  refine tidy_of_none ?_ hno (inUse_doCleanup hlast h.base h.each h.exact)
  rw [hc]
  exact (base_doExit h.base hlast.live).swapper

/-- A step of the machine that cleans up keeps the counters right if and only if it leaks nothing. -/
theorem exact_closeStep {e : Ev} (hs : s.Tidy) (ho : s.Promised e) (hlist : s.Listed e) (h : s.closeStep e = some t) :
    t.frames.Exact ↔ ¬ s.Leaks e := by
  rcases closeStep_cases hs.base ho hlist h with ⟨hstep, hproc⟩ | ⟨hlast, hend, rfl⟩
  · rw [exact_step hs.base hs.inv hs.each hs.exact ho hlist hstep]
    unfold Leaks
    refine not_congr (or_congr_left ⟨fun ⟨hend, hmap⟩ => ⟨hend, hmap, ?_⟩, fun ⟨hend, hmap, _⟩ => ⟨hend, hmap⟩⟩)
    -- the process that is left is another one
    obtain ⟨j, hj⟩ := procExist_iff.mp hproc
    rcases ends_or_lives hs.base ho hlist hstep with ⟨-, rfl⟩ | ⟨hno, -⟩
    · exact ⟨j, (live_doExit hs.base.distinct (live_of_step hstep) j).mp hj⟩
    · exact absurd hend hno
  · refine iff_of_true (tidy_doCleanup hs hlast).exact ?_
    rintro (⟨-, -, j, hne, hj⟩ | hr)
    · exact hne (hlast.only hs.base.distinct hj)
    · -- only mmap populates, and no process ends with it
      cases e with
      | mmap pid addr length prot flags pick => exact hend
      | _ => exact hr

theorem tidy_closeStep {e : Ev} (hs : s.Tidy) (ho : s.Promised e) (hlist : s.Listed e) (hk : ¬ s.Leaks e)
    (h : s.closeStep e = some t) : t.Tidy := by
  have hx := (exact_closeStep hs ho hlist h).mpr hk
  rcases closeStep_cases hs.base ho hlist h with ⟨hstep, -⟩ | ⟨hlast, -, rfl⟩
  · exact ⟨base_step hs.base ho hstep,
      (counted_step hs.base hs.inv ho (noWrap_of_exact hs.inv hs.exact (live_of_step hstep)) hstep).1,
      each_step hs.base ho hs.each False.elim hstep, hx⟩
  · exact tidy_doCleanup hs hlast

theorem start_tidy (h : Start s) : s.Tidy := ⟨start_base h, (start_counted h).inv, start_each False h, start_exact h⟩

end Sys

end Cs330.Mm
