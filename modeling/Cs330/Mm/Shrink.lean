/-
  Cs330.Mm.Shrink — shrink frees what others map.

  do_shrink moves the end of RODATA or DATA down and clears the pages above it, each with
  do_unmap_user, which frees the frame without a look at its counter; munmap uses pfn_unmap
  for the same, which lowers a counter above 1. After a cfork the two differ: the child goes
  on to map a frame that the allocator may hand out again (`shrink_frees_shared`).

  `shrink_respects_iff`: in runs of expand, faults, cfork and shrinks, with an allocator that
  returns frames not in use, a shrink does what it would do with pfn_unmap if and only if the
  counter of every frame it releases is 1.
-/
import Cs330.Lib.CInt
import Cs330.Mm.CopyOnWrite

namespace Cs330.Mm

open Lib Lib.CInt Lib.Seg Vm

/-- The segment MAP_RD or MAP_WR stands for. -/
def Ctx.segment (c : Ctx) (segmentT : Int) : Option MmSegment :=
  if segmentT = 0 then some c.rodata else if segmentT = 1 then some c.data else none

namespace Sys

/-- `do_unmap_user` -/
def doUnmapUser (s : Sys) (pid addr : Nat) : Sys :=
  match s.getUserPte pid addr with
  | none => s
  | some e =>
    let s' := s.osPfnFree e.frame
    s'.setTable pid ((s'.table pid).alter (pageOf addr) fun _ => none)

def setNextFree (s : Sys) (pid : Nat) (segmentT : Int) (nextFree : Nat) : Sys :=
  let c := s.ctxList pid
  s.setCtx pid (if segmentT = 0 then { c with rodata := { c.rodata with nextFree := nextFree } }
    else { c with data := { c.data with nextFree := nextFree } })

/-- `do_shrink`, with the function it calls for every page. -/
def shrinkWith (unmap : Sys → Nat → Nat → Sys) (s : Sys) (pid size : Nat) (segmentT : Int) : Nat × Sys :=
  if MAX_EXPAND_PAGES < size then (0, s)
  else
    match (s.ctxList pid).segment segmentT with
    | none => (0, s)
    | some segment =>
      let nextFree := u64 (segment.nextFree - size * 4096)
      if nextFree < segment.start then (0, s)
      else
        (nextFree, (vaddrs nextFree (u64 (nextFree + size * 4096))).foldl (fun s address => unmap s pid address)
          (s.setNextFree pid segmentT nextFree))

def doShrink : Sys → Nat → Nat → Int → Nat × Sys := shrinkWith doUnmapUser

/-- The addresses of the pages a shrink releases. -/
def released (s : Sys) (pid size : Nat) (segmentT : Int) : List Nat :=
  match (s.ctxList pid).segment segmentT with
  | none => []
  | some segment => vaddrs (segment.nextFree - size * 4096) segment.nextFree

/-- What a shrink is to do to the frames of the pages it releases. -/
structure Respects (s : Sys) (pid size : Nat) (segmentT : Int) : Prop where
  /-- A frame goes back to the pool only if nobody else maps it. -/
  freed : ∀ f ∈ s.phys.inUse, f ∉ (s.doShrink pid size segmentT).2.phys.inUse →
    ∀ j, j ≠ pid → s.Live j → ∀ k e, (s.table j).pte k = some e → e.frame ≠ f
  /-- Otherwise its counter is lowered by one. -/
  lowered : ∀ v ∈ s.released pid size segmentT, ∀ e, s.getUserPte pid v = some e →
    (∃ j, j ≠ pid ∧ s.Live j ∧ ∃ k e', (s.table j).pte k = some e' ∧ e'.frame = e.frame) →
    (s.doShrink pid size segmentT).2.phys.refcount e.frame = s.phys.refcount e.frame - 1
  /-- do_unmap_user does to every page what pfn_unmap does. -/
  same : s.doShrink pid size segmentT = s.shrinkWith pfnUnmap pid size segmentT

/-- The counters of the frames it releases are 1. -/
def Alone (s : Sys) (pid size : Nat) (segmentT : Int) : Prop :=
  ∀ v ∈ s.released pid size segmentT, ∀ e, s.getUserPte pid v = some e → s.phys.refcount e.frame = 1

/-! ## Runs -/

inductive Act where
  | sys (e : Ev)
  | shrink (pid size : Nat) (segmentT : Int)

def shrinking : Machine Sys Act where
  init := Start
  step s
    | .sys e => s.step e
    | .shrink pid size segmentT => if s.Live pid then some (s.doShrink pid size segmentT).2 else none

/-- expand, cfork and accesses to memory. -/
def Segmental : Ev → Prop
  | .expand _ _ _ | .cfork _ _ _ | .read _ _ _ | .write _ _ _ _ => True
  | _ => False

/-- Such events, faults among them that are resolved, and shrinks of pages that are not shared. -/
def Unshared (s : Sys) : Act → Prop
  | .sys e => s.Promised e ∧ Segmental e ∧ ∀ t, s.step e = some t → t.Live e.pid
  | .shrink pid size segmentT => s.Alone pid size segmentT

variable {s t : Sys} {pid addr size : Nat} {segmentT : Int} {k f : Nat} {e : Pte}

/-! ## One page -/

theorem doUnmapUser_eq (h : ∀ e, s.getUserPte pid addr = some e → s.phys.refcount e.frame = 1) :
    s.doUnmapUser pid addr = s.pfnUnmap pid addr := by
  unfold doUnmapUser pfnUnmap
  cases he : s.getUserPte pid addr with
  | none => rfl
  | some e => simp only [if_pos (h e he)]

theorem doUnmapUser_none (h : s.getUserPte pid addr = none) : s.doUnmapUser pid addr = s := by
  unfold doUnmapUser
  rw [h]

theorem doUnmapUser_ctxList (s : Sys) (pid addr : Nat) : (s.doUnmapUser pid addr).ctxList = s.ctxList := by
  unfold doUnmapUser
  cases s.getUserPte pid addr <;> rfl

theorem frames_doUnmapUser (hd : s.Distinct) (hl : s.Live pid) (he : s.getUserPte pid addr = some e) :
    (s.doUnmapUser pid addr).frames = { s.frames with
      map := Frames.put s.frames.map pid (pageOf addr) none
      count := Function.update s.frames.count e.frame 0
      used := s.frames.used.erase e.frame } := by
  unfold doUnmapUser
  rw [he]
  have hc : (s.osPfnFree e.frame).ctxList = s.ctxList := rfl
  have ht : (s.osPfnFree e.frame).tables = s.tables := rfl
  exact frames_alter hd hl hc ht he _

/-! ## The pages of a range -/

/-- Counters of 1 are not changed by what happens to the other pages. -/
theorem alone_pfnUnmap (hd : s.Distinct) (hl : s.Live pid) (hi : s.frames.Inv) {v w : Nat}
    (hw : ∀ e, s.getUserPte pid w = some e → s.phys.refcount e.frame = 1) :
    ∀ e, (s.pfnUnmap pid v).getUserPte pid w = some e → (s.pfnUnmap pid v).phys.refcount e.frame = 1 := by
  have hf := frames_pfnUnmap hd hl v
  have hl' : (s.pfnUnmap pid v).Live pid := (live_congr (pfnUnmap_ctxList s pid v)).mpr hl
  intro e he
  rw [getUserPte_eq hl', hf, Frames.drop_map, Frames.put_apply] at he
  split at he
  · cases he
  rename_i hne
  have hne : pageOf w ≠ pageOf v := fun h => hne ⟨rfl, h⟩
  have h1 : s.frames.count e.frame = 1 := hw e ((getUserPte_eq hl).trans he)
  show (s.pfnUnmap pid v).frames.count e.frame = 1
  rw [hf]
  unfold Frames.drop
  cases hv : s.frames.map pid (pageOf v) with
  | none => exact h1
  | some d =>
    -- another page has another frame
    have hdf : e.frame ≠ d.frame := fun h => hne (hi.inj pid _ _ _ _ he hv h)
    simp only
    split
    · exact (Function.update_of_ne hdf ..).trans h1
    · exact (Function.update_of_ne hdf ..).trans h1

theorem unmapAll_eq (hd : s.Distinct) (hl : s.Live pid) (hi : s.frames.Inv) (vs : List Nat)
    (h : ∀ v ∈ vs, ∀ e, s.getUserPte pid v = some e → s.phys.refcount e.frame = 1) :
    vs.foldl (fun s v => s.doUnmapUser pid v) s = vs.foldl (fun s v => s.pfnUnmap pid v) s := by
  induction vs generalizing s with
  | nil => rfl
  | cons v vs ih =>
    rw [List.foldl_cons, List.foldl_cons, doUnmapUser_eq (h v List.mem_cons_self)]
    have hc := pfnUnmap_ctxList s pid v
    refine ih (distinct_congr hc hd) ((live_congr hc).mpr hl) ?_ fun w hw => ?_
    · rw [frames_pfnUnmap hd hl]
      exact hi.drop pid _
    · exact alone_pfnUnmap hd hl hi (h w (List.mem_cons_of_mem v hw))

/-- A frame of a page that is cleared this way is free from then on. -/
theorem unmapAll_frees (hd : s.Distinct) (hl : s.Live pid) (vs : List Nat)
    (h : f ∉ s.phys.inUse ∨ ∃ v ∈ vs, ∃ e, s.getUserPte pid v = some e ∧ e.frame = f) :
    f ∉ (vs.foldl (fun s v => s.doUnmapUser pid v) s).phys.inUse := by
  induction vs generalizing s with
  | nil =>
    rcases h with h | ⟨v, hv, -⟩
    · exact h
    · exact absurd hv List.not_mem_nil
  | cons v vs ih =>
    rw [List.foldl_cons]
    have hc := doUnmapUser_ctxList s pid v
    have hl' := (live_congr hc).mpr hl
    apply ih (distinct_congr hc hd) hl'
    cases hv : s.getUserPte pid v with
    | none =>
      rw [doUnmapUser_none hv]
      refine h.imp_right fun ⟨w, hw, e, he, hfe⟩ => ⟨w, ?_, e, he, hfe⟩
      rcases List.mem_cons.mp hw with rfl | hw
      · rw [hv] at he; cases he
      · exact hw
    | some d =>
      have hf := frames_doUnmapUser hd hl hv
      have hused : (s.doUnmapUser pid v).phys.inUse = s.phys.inUse.erase d.frame := congrArg Frames.used hf
      by_cases hfd : f = d.frame
      · rw [hused, hfd]
        exact .inl (Finset.notMem_erase _ _)
      rcases h with h | ⟨w, hw, e, he, hfe⟩
      · rw [hused]
        exact .inl fun hmem => h (Finset.mem_of_mem_erase hmem)
      · have hpage : pageOf w ≠ pageOf v := fun hp => hfd (by
          rw [getUserPte_eq hl, hp, ← getUserPte_eq hl, hv] at he
          cases he
          exact hfe.symm)
        refine .inr ⟨w, ?_, e, ?_, hfe⟩
        · rcases List.mem_cons.mp hw with rfl | hw
          · exact absurd rfl hpage
          · exact hw
        · rw [getUserPte_eq hl', hf]
          refine (Frames.put_apply ..).trans ?_
          rw [if_neg fun h => hpage h.2, ← getUserPte_eq hl]
          exact he

/-- A frame that pfn_unmap does not find with counter 1 stays in use. -/
theorem pfnUnmapAll_keeps (hd : s.Distinct) (hl : s.Live pid) (hi : s.frames.Inv) (vs : List Nat) (hused : f ∈ s.phys.inUse)
    (h : ∀ k e, s.frames.map pid k = some e → e.frame = f → s.phys.refcount f ≠ 1) :
    f ∈ (vs.foldl (fun s v => s.pfnUnmap pid v) s).phys.inUse := by
  induction vs generalizing s with
  | nil => exact hused
  | cons v vs ih =>
    rw [List.foldl_cons]
    have hc := pfnUnmap_ctxList s pid v
    have hf := frames_pfnUnmap hd hl v
    have hi' : (s.pfnUnmap pid v).frames.Inv := hf ▸ hi.drop pid _
    cases hv : s.frames.map pid (pageOf v) with
    | none =>
      have hsame : s.pfnUnmap pid v = s := by unfold pfnUnmap; rw [getUserPte_eq hl, hv]
      rw [hsame]
      exact ih hd hl hi hused h
    | some d =>
      have hcount : ∀ g, g ≠ d.frame → (s.pfnUnmap pid v).frames.count g = s.frames.count g := fun g hg => by
        rw [hf]
        unfold Frames.drop
        rw [hv]
        simp only
        split
        · exact Function.update_of_ne hg ..
        · exact Function.update_of_ne hg ..
      have hkeep : f ∈ (s.pfnUnmap pid v).frames.used := by
        rw [hf]
        unfold Frames.drop
        rw [hv]
        simp only
        split
        · rename_i h1
          exact Finset.mem_erase.mpr ⟨fun hfd => h _ d hv hfd.symm (hfd ▸ h1), hused⟩
        · exact hused
      refine ih (distinct_congr hc hd) ((live_congr hc).mpr hl) hi' hkeep fun k e he hef => ?_
      rw [hf, Frames.drop_map, Frames.put_apply] at he
      split at he
      · cases he
      rename_i hne
      have hfd : f ≠ d.frame := fun hfd => hne ⟨rfl, hi.inj pid _ _ _ _ he hv (hef.trans hfd)⟩
      exact fun h1 => h k e he hef ((hcount f hfd).symm.trans h1)

/-! ## The call -/

/-- Below the end of a segment there is room for what a call may release. -/
theorem segment_room {c : Ctx} (h : c.Layout) {segment : MmSegment} (hs : c.segment segmentT = some segment) :
    0x140000000 ≤ segment.start ∧ segment.start ≤ segment.nextFree ∧ segment.nextFree < 2 ^ 48 ∧ 4096 ∣ segment.nextFree := by
  obtain ⟨hr1, -, hr3, hr4, hr5⟩ := h.rodata
  obtain ⟨hd1, -, hd3, hd4, hd5⟩ := h.data
  unfold RODATA_START at hr1 hr3
  unfold DATA_START at hr4 hd1 hd3
  unfold MMAP_AREA_START at hd4
  unfold Ctx.segment at hs
  split at hs
  · cases hs; omega
  split at hs
  · cases hs; omega
  · cases hs

theorem layout_setNextFree {segment : MmSegment} (hlay : (s.ctxList pid).Layout)
    (hs : (s.ctxList pid).segment segmentT = some segment) (hfits : segment.start + size * 4096 ≤ segment.nextFree) :
    ((s.setNextFree pid segmentT (segment.nextFree - size * 4096)).ctxList pid).Layout := by
  obtain ⟨hr1, hr2, hr3, hr4, hr5⟩ := hlay.rodata
  obtain ⟨hd1, hd2, hd3, hd4, hd5⟩ := hlay.data
  unfold setNextFree
  simp only [setCtx_self]
  unfold Ctx.segment at hs
  split at hs
  · rename_i h0
    cases hs
    rw [if_pos h0]
    refine { hlay with rodata := ⟨hr1, hr2, ?_, ?_, ?_⟩ } <;> simp only <;> omega
  split at hs
  · rename_i h0 h1
    cases hs
    rw [if_neg h0]
    refine { hlay with data := ⟨hd1, hd2, ?_, ?_, ?_⟩ } <;> simp only <;> omega
  · cases hs

/-- Whatever it calls for a page, a shrink is refused, or moves the end of the segment and goes through these pages. -/
theorem shrinkWith_cases (hlay : (s.ctxList pid).Layout) (size : Nat) (segmentT : Int) :
    (∀ unmap, s.shrinkWith unmap pid size segmentT = (0, s)) ∨
      ∃ n, 0 < n ∧ ((s.setNextFree pid segmentT n).ctxList pid).Layout ∧
        ∀ unmap, s.shrinkWith unmap pid size segmentT =
          (n, (s.released pid size segmentT).foldl (fun s v => unmap s pid v) (s.setNextFree pid segmentT n)) := by
  unfold shrinkWith released
  by_cases hsize : MAX_EXPAND_PAGES < size
  · exact .inl fun unmap => if_pos hsize
  simp only [if_neg hsize]
  cases hs : (s.ctxList pid).segment segmentT with
  | none => exact .inl fun _ => rfl
  | some segment =>
    obtain ⟨h1, h2, h3, -⟩ := segment_room hlay hs
    unfold MAX_EXPAND_PAGES at hsize
    have hlow : u64 (segment.nextFree - size * 4096) = segment.nextFree - size * 4096 := by unfold u64; omega
    have hhigh : u64 ((segment.nextFree - size * 4096 : Nat) + size * 4096) = segment.nextFree := by unfold u64; omega
    simp only [hlow, hhigh]
    by_cases hfits : segment.nextFree - size * 4096 < segment.start
    · exact .inl fun unmap => if_pos hfits
    · simp only [if_neg hfits]
      exact .inr ⟨_, by omega, layout_setNextFree hlay hs (by omega), fun _ => rfl⟩

theorem local_setNextFree (s : Sys) (pid : Nat) (segmentT : Int) (n : Nat) : Local pid s (s.setNextFree pid segmentT n) := by
  unfold setNextFree
  simp only
  split
  · exact .setCtx rfl Iff.rfl
  · exact .setCtx rfl Iff.rfl

theorem setNextFree_spec (s : Sys) (pid : Nat) (segmentT : Int) (n : Nat) :
    (s.setNextFree pid segmentT n).frames = s.frames ∧ (s.setNextFree pid segmentT n).phys = s.phys := by
  unfold setNextFree
  simp only
  split
  · refine ⟨(frames_setCtx pid _ ?_ ?_).1, rfl⟩
    · rfl
    · exact Iff.rfl
  · refine ⟨(frames_setCtx pid _ ?_ ?_).1, rfl⟩
    · rfl
    · exact Iff.rfl

section
variable (hb : s.Base) (hi : s.frames.Inv) (hl : s.Live pid)
include hb hi hl

/-- Where every counter is 1, the two functions come to the same. -/
theorem shrink_same (h : s.Alone pid size segmentT) : s.doShrink pid size segmentT = s.shrinkWith pfnUnmap pid size segmentT := by
  unfold doShrink
  rcases shrinkWith_cases (hb.layout pid hl) size segmentT with hres | ⟨n, -, -, hres⟩
  · rw [hres, hres]
  · have hloc := local_setNextFree s pid segmentT n
    obtain ⟨hf, hp⟩ := setNextFree_spec s pid segmentT n
    have hl' := (hloc.live pid).mpr hl
    rw [hres, hres, unmapAll_eq (hloc.distinct hb.distinct) hl' (hf ▸ hi)]
    intro v hv e he
    rw [hp]
    refine h v hv e ?_
    rw [getUserPte_eq hl, ← hf, ← getUserPte_eq hl']
    exact he

/-- With pfn_unmap, a frame that anyone else maps stays in use, and so does one of which the counter is not 1. -/
theorem shrinkWith_keeps (hused : f ∈ s.phys.inUse) (h : ∀ k e, s.frames.map pid k = some e → e.frame = f → s.phys.refcount f ≠ 1) :
    f ∈ (s.shrinkWith pfnUnmap pid size segmentT).2.phys.inUse := by
  rcases shrinkWith_cases (hb.layout pid hl) size segmentT with hres | ⟨n, -, -, hres⟩
  · rw [hres]
    exact hused
  · have hloc := local_setNextFree s pid segmentT n
    obtain ⟨hf, hp⟩ := setNextFree_spec s pid segmentT n
    rw [hres]
    apply pfnUnmapAll_keeps (hloc.distinct hb.distinct) ((hloc.live pid).mpr hl) (hf ▸ hi)
    · rw [hp]
      exact hused
    · intro k e he hef
      rw [hf] at he
      rw [hp]
      exact h k e he hef

theorem respects_of_alone (h : s.Alone pid size segmentT) : s.Respects pid size segmentT := by
  have hsame := shrink_same hb hi hl h
  refine ⟨fun f hf hfreed j hj hlj k e he hef => ?_, fun v hv e he hshared => ?_, hsame⟩
  · -- its counter was 1, so nobody else maps it
    rw [hsame] at hfreed
    refine hfreed (shrinkWith_keeps hb hi hl hf fun l d hd hdf h1 => hj ?_)
    have h1 : s.frames.count d.frame = 1 := by rw [hdf]; exact h1
    exact hi.of_count hd h1 j k e ((frames_map hlj k).trans he) (hef.trans hdf.symm)
  · obtain ⟨j, hj, hlj, k, e', he', hef⟩ := hshared
    have he := (getUserPte_eq hl).symm.trans he
    have h1 : s.frames.count e.frame = 1 := h v hv e ((getUserPte_eq hl).trans he)
    exact absurd (hi.of_count he h1 j k e' ((frames_map hlj k).trans he') hef) hj

theorem alone_of_respects (hok : (s.doShrink pid size segmentT).1 ≠ 0) (h : s.Respects pid size segmentT) :
    s.Alone pid size segmentT := by
  intro v hv e he
  by_contra h1
  have hmap := (getUserPte_eq hl).symm.trans he
  have hkept : e.frame ∈ (s.shrinkWith pfnUnmap pid size segmentT).2.phys.inUse :=
    shrinkWith_keeps hb hi hl (hi.used _ _ _ hmap) fun _ _ _ _ => h1
  rw [← h.same] at hkept
  unfold doShrink at hkept hok
  rcases shrinkWith_cases (hb.layout pid hl) size segmentT with hres | ⟨n, -, -, hres⟩
  · rw [hres] at hok
    exact hok rfl
  · have hloc := local_setNextFree s pid segmentT n
    obtain ⟨hf, -⟩ := setNextFree_spec s pid segmentT n
    have hl' := (hloc.live pid).mpr hl
    rw [hres] at hkept
    refine unmapAll_frees (hloc.distinct hb.distinct) hl' _ (.inr ⟨v, hv, e, ?_, rfl⟩) hkept
    rw [getUserPte_eq hl', hf]
    exact hmap

/-- A shrink of pages that are not shared concerns nobody else. -/
theorem local_doShrink (h : s.Alone pid size segmentT) : Local pid s (s.doShrink pid size segmentT).2 ∧
    ((s.doShrink pid size segmentT).2.ctxList pid).Layout := by
  rw [shrink_same hb hi hl h]
  rcases shrinkWith_cases (hb.layout pid hl) size segmentT with hres | ⟨n, -, hlay, hres⟩
  · rw [hres]
    exact ⟨.refl pid s, hb.layout pid hl⟩
  · have hloc := local_setNextFree s pid segmentT n
    obtain ⟨hfr, hc⟩ := frames_pfnUnmapAll (hloc.distinct hb.distinct) ((hloc.live pid).mpr hl) (s.released pid size segmentT)
    unfold pfnUnmapAll at hfr hc
    rw [hres]
    refine ⟨hloc.trans (.of_ctxList ?_ hc), ?_⟩
    · rw [hfr]
      exact .dropAll _
    · rw [hc]
      exact hlay

end

/-! ## Runs -/

/-- The live processes. -/
def alive (s : Sys) : Finset Nat := (Finset.range MAX_PROCESSES).filter s.Live

theorem mem_alive {i : Nat} : i ∈ s.alive ↔ s.Live i := by
  unfold alive
  rw [Finset.mem_filter, Finset.mem_range]
  exact ⟨fun h => h.2, fun h => ⟨h.2.1, h⟩⟩

theorem alive_congr (h : ∀ i, t.Live i ↔ s.Live i) : t.alive = s.alive := by
  ext i
  rw [mem_alive, mem_alive, h]

/-- Nobody ends, and cfork makes one process more. -/
theorem alive_step {e : Ev} (hb : s.Base) (hp : s.Promised e) (hseg : Segmental e) (hlive : t.Live e.pid) (h : s.step e = some t) :
    s.alive.card + e.forks ≤ t.alive.card := by
  unfold step at h
  split at h
  swap
  · cases h
  rename_i hl
  have hd := hb.distinct
  have hfault : ∀ {pid addr pick write}, Picks pick → s.Live pid → (s.fault pick pid addr write).Live pid →
      s.alive.card ≤ (s.fault pick pid addr write).alive.card := by
    intro pid addr pick write hp hl hlive
    obtain ⟨hloc, -⟩ := doPageFault_spec hp hd hl addr ((s.table pid).errorCode (pageOf addr) write)
    unfold fault at hlive ⊢
    simp only at hlive ⊢
    split at hlive
    · rename_i hr
      rw [if_pos hr, alive_congr hloc.live]
    · exact absurd hlive fun h => ((live_doExit (hloc.distinct hd) ((hloc.live pid).mpr hl) pid).mp h).1 rfl
  cases e with
  | expand pid size segmentT =>
    cases h
    rw [alive_congr (local_doExpand s pid size segmentT).live]
    exact Nat.le_refl _
  | cfork pid pgd pick =>
    obtain ⟨r, hr, rfl⟩ := Option.map_eq_some_iff.mp h
    have hc := doCfork_spec hp.1 hb hl hp.2 hr
    have hinsert : r.2.alive = insert r.1 s.alive := by
      ext i
      rw [Finset.mem_insert, mem_alive, mem_alive, hc.live]
    rw [hinsert, Finset.card_insert_of_notMem fun hm => hc.dead (mem_alive.mp hm)]
    exact Nat.le_refl _
  | read pid addr pick =>
    simp only [call] at h
    split at h
    · cases h
    split at h
    · cases h
      exact Nat.le_refl _
    · cases h
      exact hfault hp hl hlive
  | write pid addr byte pick =>
    simp only [call] at h
    split at h
    · cases h
    split at h
    · cases h
      rw [alive_congr fun i => live_congr (store_ctxList s pid addr byte)]
      exact Nat.le_refl _
    · cases h
      exact hfault hp hl hlive
  | _ => exact hseg.elim

/-- What holds in such runs: no counter is above the number of the processes. -/
structure Bounded (s : Sys) : Prop where
  base : s.Base
  counted : ∃ n, s.Counted n ∧ n < s.alive.card

theorem Bounded.inv (h : s.Bounded) : s.frames.Inv := by
  obtain ⟨n, hc, -⟩ := h.counted
  exact hc.inv

theorem start_bounded (h : Start s) : s.Bounded := by
  refine ⟨start_base h, 0, start_counted h, ?_⟩
  obtain ⟨mem, pick, pgd, hp, h0, h70, rfl⟩ := h
  obtain ⟨hc, -⟩ := execInit_spec mem pgd hp h0 h70
  exact Finset.card_pos.mpr ⟨1, mem_alive.mpr ((live_congr hc).mpr (boot_live.mpr rfl))⟩

theorem bounded_step {a : Act} (h : s.Bounded) (ho : s.Unshared a) (hs : shrinking.step s a = some t) : t.Bounded := by
  obtain ⟨hb, n, hc, hn⟩ := h
  have hle : s.alive.card ≤ MAX_PROCESSES := by
    refine (Finset.card_filter_le _ _).trans ?_
    rw [Finset.card_range]
  unfold MAX_PROCESSES at hle
  cases a with
  | sys e =>
    obtain ⟨hp, hseg, hlive⟩ := ho
    have hs : s.step e = some t := hs
    have hforks : e.forks ≤ 1 := by cases e <;> simp [Ev.forks]
    have hcard := alive_step hb hp hseg (hlive t hs) hs
    exact ⟨base_step hb hp hs, n + e.forks, counted_next hb hc (by omega) hp hs, by omega⟩
  | shrink pid size segmentT =>
    have hs : (if s.Live pid then some (s.doShrink pid size segmentT).2 else none) = some t := hs
    split at hs
    swap
    · cases hs
    rename_i hl
    cases hs
    obtain ⟨hloc, hlay⟩ := local_doShrink hb hc.inv hl ho
    obtain ⟨h1, h2⟩ := hloc.counted hc.inv
    refine ⟨hloc.base hb (Nat.ne_of_gt hl.1) fun _ => hlay, n, ⟨h1, fun f => (h2 f).trans ?_⟩, ?_⟩
    · have := hc.count f
      omega
    · rw [alive_congr hloc.live]
      exact hn

/-- In a run in which no shrink has released a shared page, a shrink that succeeds respects sharing if and only if it
    releases none either. -/
theorem shrink_respects_iff (h : shrinking.Reach Unshared s) (hl : s.Live pid) (hok : (s.doShrink pid size segmentT).1 ≠ 0) :
    s.Respects pid size segmentT ↔ s.Alone pid size segmentT := by
  have hinv : s.Bounded := h.inv Bounded (fun _ => start_bounded) fun _ _ _ => bounded_step
  exact ⟨alone_of_respects hinv.base hinv.inv hl hok, respects_of_alone hinv.base hinv.inv hl⟩

/-! ## A child that shares its data -/

/-- Such an event leaves a reachable state. -/
theorem reach_sys {e : Ev} (h : shrinking.Reach Unshared s) (hp : s.Promised e) (hseg : Segmental e) (hs : s.step e = some t)
    (hl : t.Live e.pid) : shrinking.Reach Unshared t := by
  refine .step (e := .sys e) h ⟨hp, hseg, fun u hu => ?_⟩ hs
  cases hs.symm.trans hu
  exact hl

/-- The first process has made a child. -/
def parted : Sys := ((booted.doCfork nextFrame 1 0x72).map Prod.snd).getD booted

theorem parted_reach : shrinking.Reach Unshared parted := by
  have hstep : booted.step (.cfork 1 0x72 nextFrame) = some parted := step_cfork_some (by decide) (by decide +kernel)
  have hp : booted.Promised (.cfork 1 0x72 nextFrame) := ⟨picks_nextFrame, booted_pgd⟩
  exact reach_sys (.init start_booted) hp trivial hstep (by decide +kernel : parted.Live 1)

/-- The first process writes to its page of data, which gives it a copy of its own. -/
def copied : Sys := parted.fault nextFrame 1 DATA_START true

/-- It has one page of data more. -/
def grown : Sys := (copied.doExpand 1 1 1).2

/-- And writes there as well. -/
def owned : Sys := grown.fault nextFrame 1 (DATA_START + 4096) true

theorem owned_reach : shrinking.Reach Unshared owned := by
  have h1 : shrinking.Reach Unshared copied := by
    refine reach_sys (e := .write 1 DATA_START 0 nextFrame) parted_reach picks_nextFrame trivial ?_ ?_
    · exact step_write_fault (by decide +kernel) (by decide) (by decide +kernel)
    · exact (by decide +kernel : copied.Live 1)
  have h2 : shrinking.Reach Unshared grown := by
    refine reach_sys (e := .expand 1 1 1) h1 trivial trivial (if_pos ?_) ?_
    · exact (by decide +kernel : copied.Live 1)
    · exact (by decide +kernel : grown.Live 1)
  refine reach_sys (e := .write 1 (DATA_START + 4096) 0 nextFrame) h2 picks_nextFrame trivial ?_ ?_
  · exact step_write_fault (by decide +kernel) (by decide) (by decide +kernel)
  · exact (by decide +kernel : owned.Live 1)

/-- It gives both pages back: their frames are free, and the child has kept the one they shared. -/
theorem shrink_respects_iff_owned : owned.Respects 1 2 1 ∧ owned.released 1 2 1 = [DATA_START, DATA_START + 4096] ∧
    owned.getUserPte 1 DATA_START = some ⟨12, true⟩ ∧ owned.getUserPte 1 (DATA_START + 4096) = some ⟨13, true⟩ ∧
    12 ∉ (owned.doShrink 1 2 1).2.phys.inUse ∧ 13 ∉ (owned.doShrink 1 2 1).2.phys.inUse ∧
    (owned.doShrink 1 2 1).2.getUserPte 2 DATA_START = some ⟨9, false⟩ ∧ 9 ∈ (owned.doShrink 1 2 1).2.phys.inUse := by
  have hl : owned.Live 1 := by decide +kernel
  have hok : (owned.doShrink 1 2 1).1 ≠ 0 := by decide +kernel
  have hreleased : owned.released 1 2 1 = [DATA_START, DATA_START + 4096] := by decide +kernel
  have hfirst : owned.getUserPte 1 DATA_START = some ⟨12, true⟩ := by decide +kernel
  have hsecond : owned.getUserPte 1 (DATA_START + 4096) = some ⟨13, true⟩ := by decide +kernel
  refine ⟨(shrink_respects_iff owned_reach hl hok).mpr fun v hv e he => ?_, hreleased, hfirst, hsecond, by decide +kernel,
    by decide +kernel, by decide +kernel, by decide +kernel⟩
  rw [hreleased, List.mem_cons, List.mem_singleton] at hv
  rcases hv with rfl | rfl
  · rw [hfirst] at he
    cases he
    decide +kernel
  · rw [hsecond] at he
    cases he
    decide +kernel

/-- The parent gives its page of data back: the child still maps the frame, which is free. -/
theorem shrink_frees_shared : shrinking.Reach Unshared parted ∧ (parted.doShrink 1 1 1).1 = DATA_START ∧
    ((parted.doShrink 1 1 1).2.table 2).pte (pageOf DATA_START) = some ⟨9, false⟩ ∧
    9 ∉ (parted.doShrink 1 1 1).2.phys.inUse ∧ ¬ parted.Respects 1 1 1 := by
  have hchild : (parted.table 2).pte (pageOf DATA_START) = some ⟨9, false⟩ := by decide +kernel
  have hfree : 9 ∉ (parted.doShrink 1 1 1).2.phys.inUse := by decide +kernel
  refine ⟨parted_reach, by decide +kernel, by decide +kernel, hfree, fun h => ?_⟩
  exact h.freed 9 (by decide +kernel) hfree 2 (by decide) (by decide +kernel) _ _ hchild rfl

end Sys

end Cs330.Mm
