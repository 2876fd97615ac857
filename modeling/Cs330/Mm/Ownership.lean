/-
  Cs330.Mm.Ownership — who may write to a frame in place, or give it back.

  handle_cow_fault, change_permissions and pfn_unmap take a counter of 1 to mean that nobody
  else maps the frame. `Decides` lists those moments, inside a step; `sole_owner` says they
  are right in every run in which os_pfn_alloc returns frames that are not in use, and no
  cfork increments a counter that reads 255. After 13180 frames the page list returns one
  that is in use (Cs330.Memory.InOrder), and set_pfn_info makes its counter 1, however many
  map it (`reused_frame`).
-/
import Cs330.Memory.InOrder
import Cs330.Mm.Populate
import Cs330.Mm.Start

namespace Cs330.Mm

open Lib Lib.Seg Vm Memory.Pool

def Ev.forks : Ev → Nat
  | .cfork _ _ _ => 1
  | _ => 0

namespace Sys

variable {s t : Sys} {pid addr child : Nat} {pick : Finset Nat → Nat}

/-- cfork increments no counter that is at its end. -/
def NoWrap (s : Sys) : Ev → Prop
  | .cfork pid _ _ => ∀ v ∈ (s.ctxList pid).sharedAddrs ++ (s.ctxList pid).areaAddrs, ∀ e, s.getUserPte pid v = some e →
      s.phys.refcount e.frame ≠ 255
  | _ => True

/-! ## The counters along a run -/

/-- The counters of a step by one process that forks nothing. -/
theorem Local.counted (h : Local pid s t) (hi : s.frames.Inv) :
    t.frames.Inv ∧ ∀ f, (t.phys.refcount f).toNat ≤ max 1 (s.phys.refcount f).toNat :=
  ⟨h.ops.inv hi, h.ops.count_le hi⟩

theorem doExit_counted (hd : s.Distinct) (hl : s.Live pid) (hi : s.frames.Inv) :
    (s.doExit pid).frames.Inv ∧ (s.doExit pid).phys.refcount = s.phys.refcount := by
  have hf := frames_doExit hd hl
  exact ⟨hf ▸ hi.clear pid, congrArg Frames.count hf⟩

theorem fault_counted (hp : Picks pick) (hd : s.Distinct) (hl : s.Live pid) (hi : s.frames.Inv) (write : Bool) :
    (s.fault pick pid addr write).frames.Inv ∧
      ∀ f, ((s.fault pick pid addr write).phys.refcount f).toNat ≤ max 1 (s.phys.refcount f).toNat := by
  have h := (doPageFault_spec hp hd hl addr ((s.table pid).errorCode (pageOf addr) write)).1
  obtain ⟨h1, h2⟩ := h.counted hi
  unfold fault
  simp only
  split
  · exact ⟨h1, h2⟩
  · obtain ⟨g1, g2⟩ := doExit_counted (h.distinct hd) ((h.live pid).mpr hl) h1
    exact ⟨g1, fun f => g2 ▸ h2 f⟩

theorem room_of_noWrap (hb : s.Base) (hl : s.Live pid) (hi : s.frames.Inv) {pgd : Nat} (hw : s.NoWrap (.cfork pid pgd pick)) :
    s.frames.Room pid ((s.ctxList pid).sharedPages ++ (s.ctxList pid).areaPages) := by
  refine hi.room (hb.layout pid hl).pages_nodup fun k hk e he => ?_
  unfold Ctx.sharedPages Ctx.areaPages at hk
  rw [← List.map_append] at hk
  obtain ⟨v, hv, rfl⟩ := List.mem_map.mp hk
  exact hw v hv e ((getUserPte_eq hl).trans he)

theorem cfork_counted (hp : Picks pick) (hb : s.Base) (hl : s.Live pid) (hi : s.frames.Inv) {pgd : Nat}
    (hw : s.NoWrap (.cfork pid pgd pick)) (h : Cforked s pick pid pgd child t) :
    t.frames.Inv ∧ ∀ f, (t.phys.refcount f).toNat ≤ max 1 ((s.phys.refcount f).toNat + 1) := by
  have hne : pid ≠ child := fun he => h.dead (he ▸ hl)
  have hnodup := (hb.layout pid hl).pages_nodup
  have hroom := room_of_noWrap hb hl hi hw
  obtain ⟨h1, h2⟩ := hi.fork hne (fun u => (hp u).1) (s.ctxList pid).stackPages (fun k => if_neg h.dead) hroom
  rw [← h.frames] at h1 h2
  refine ⟨h1, fun f => (h2 f).trans ?_⟩
  have hle := hi.uses_le_one (i := pid) hnodup f
  exact max_le_max (le_refl _) (Nat.add_le_add_left hle _)

theorem counted_step {e : Ev} (hb : s.Base) (hi : s.frames.Inv) (ho : s.Promised e) (hw : s.NoWrap e) (h : s.step e = some t) :
    t.frames.Inv ∧ ∀ f, (t.phys.refcount f).toNat ≤ max 1 ((s.phys.refcount f).toNat + e.forks) := by
  unfold step at h
  split at h
  swap
  · cases h
  rename_i hl
  have hd := hb.distinct
  cases e with
  | mmap pid addr length prot flags pick => cases h; exact (local_vmAreaMap ho.2.2 hd hl addr length prot flags).1.counted hi
  | munmap pid addr length => cases h; exact (local_vmAreaUnmap hd hl addr length).counted hi
  | mprotect pid addr length prot => cases h; exact (local_vmAreaMprotect hd hl addr length prot).counted hi
  | expand pid size segmentT => cases h; exact (local_doExpand s pid size segmentT).counted hi
  | cfork pid pgd pick =>
    obtain ⟨r, hr, rfl⟩ := Option.map_eq_some_iff.mp h
    exact cfork_counted ho.1 hb hl hi hw (doCfork_spec ho.1 hb hl ho.2 hr)
  | exit pid =>
    cases h
    obtain ⟨h1, h2⟩ := doExit_counted hd hl hi
    exact ⟨h1, fun f => h2 ▸ le_max_right _ _⟩
  | read pid addr pick =>
    simp only [call] at h
    split at h
    · cases h
    split at h
    · cases h; exact ⟨hi, fun f => le_max_right _ _⟩
    · cases h; exact fault_counted ho hd hl hi false
  | write pid addr byte pick =>
    simp only [call] at h
    split at h
    · cases h
    split at h
    · rename_i ha; cases h; exact (local_store hl ha byte).counted hi
    · cases h; exact fault_counted ho hd hl hi true

theorem noWrap_of_counted {n : Nat} {e : Ev} (h : s.Counted n) (hn : n + e.forks < 255) : s.NoWrap e := by
  cases e with
  | cfork pid pgd pick =>
    intro v _ e _ he
    have hle := h.count e.frame
    rw [he] at hle
    have hn : n + 1 < 255 := hn
    have h255 : (255 : UInt8).toNat = 255 := rfl
    omega
  | _ => trivial

theorem counted_next {n : Nat} {e : Ev} (hb : s.Base) (hc : s.Counted n) (hn : n + e.forks < 255) (ho : s.Promised e)
    (h : s.step e = some t) : t.Counted (n + e.forks) := by
  obtain ⟨h1, h2⟩ := counted_step hb hc.inv ho (noWrap_of_counted hc hn) h
  refine ⟨h1, fun f => (h2 f).trans ?_⟩
  have := hc.count f
  omega

/-! ## The decisions -/

/-- In taking an event from `s`, the code comes to state `t` and there takes `pid` to be the
    only one to map a frame: it makes the PTE writable in place, or frees the frame. -/
inductive Decides (s : Sys) : Ev → Sys → Nat → Nat → Prop
  | cow {pid addr : Nat} {byte : UInt8} {pick : Finset Nat → Nat} {e : Pte} :
      (s.table pid).errorCode (pageOf addr) true = 7 → s.getUserPte pid addr = some e →
      (s.handleCowFault pick pid addr).2.getUserPte pid addr = some ⟨e.frame, true⟩ →
      Decides s (.write pid addr byte pick) s pid e.frame
  | mprotect {pid addr : Nat} {length : Int} {prot : UInt32} {done rest : List Nat} {v : Nat} {t : Sys} {e : Pte} :
      (protectAreas (s.ctxList pid).vmArea addr length prot).1 = 0 →
      vaddrs addr (plus addr (pageRound length)) = done ++ v :: rest →
      t = done.foldl (fun s _ => s.changePermissions pid addr prot)
        (s.setAreas pid (protectAreas (s.ctxList pid).vmArea addr length prot).2.1
          (protectAreas (s.ctxList pid).vmArea addr length prot).2.2) →
      t.getUserPte pid addr = some e → (t.changePermissions pid addr prot).getUserPte pid addr = some ⟨e.frame, true⟩ →
      Decides s (.mprotect pid addr length prot) t pid e.frame
  | munmap {pid addr : Nat} {length : Int} {done rest : List Nat} {v : Nat} {t : Sys} {e : Pte} :
      (unmapAreas (s.ctxList pid).vmArea addr length).1 = 0 → (s.ctxList pid).vmArea ≠ [] →
      vaddrs addr (plus addr (pageRound length)) = done ++ v :: rest →
      t = (s.setAreas pid (unmapAreas (s.ctxList pid).vmArea addr length).2.1
        (unmapAreas (s.ctxList pid).vmArea addr length).2.2).pfnUnmapAll pid done →
      t.getUserPte pid v = some e → e.frame ∉ (t.pfnUnmap pid v).phys.inUse →
      Decides s (.munmap pid addr length) t pid e.frame

/-- No other process has a PTE for the frame. -/
def SoleOwner (s : Sys) (pid frame : Nat) : Prop :=
  ∀ q, q ≠ pid → s.Live q → ∀ a e, s.getUserPte q a = some e → e.frame ≠ frame

theorem soleOwner_of_sole {f : Nat} (h : s.frames.Sole pid f) : s.SoleOwner pid f := by
  intro q hq hl a e he hf
  rw [getUserPte_eq hl] at he
  exact hq (h q (pageOf a) e he hf)

/-- The decisions of a state are right if the counters are. -/
theorem decides_sole {e : Ev} {f : Nat} (hb : s.Base) (hi : s.frames.Inv) (hl : s.Live e.pid) (hp : s.Promised e)
    (h : s.Decides e t pid f) : t.SoleOwner pid f := by
  refine soleOwner_of_sole ?_
  have hd := hb.distinct
  cases h with
  | @cow _ addr _ pick d h7 he hafter =>
    have hl : s.Live pid := hl
    have he' := he
    rw [getUserPte_eq hl] at he'
    have hl' := ((local_handleCowFault hp hd hl addr).live pid).mpr hl
    rw [getUserPte_eq hl'] at hafter
    rcases handleCowFault_cases hp hd hl addr with h | ⟨d', hd', -, -, ⟨h1, -⟩ | ⟨h1, hf⟩⟩
    · rw [h] at hafter
      exact hi.sole pid (pageOf addr) ⟨d.frame, true⟩ hafter rfl
    · obtain rfl : d = d' := Option.some.inj (he'.symm.trans hd')
      exact hi.of_count he' h1
    · -- a copy goes to a frame that was not in use
      rw [hf, Frames.copy_map, if_pos ⟨rfl, rfl⟩, he'] at hafter
      have hg : pick s.phys.inUse = d.frame := congrArg Entry.frame (Option.some.inj hafter)
      exact absurd (hg ▸ hi.used _ _ _ he') (hp _).1
  | @mprotect _ addr length prot done rest v t d h0 hlist ht he hafter =>
    have hl : s.Live pid := hl
    have hset := local_setAreas s pid (protectAreas (s.ctxList pid).vmArea addr length prot).2.1
      (protectAreas (s.ctxList pid).vmArea addr length prot).2.2
    have hcl := frames_changePermissions_loop (hset.distinct hd) ((hset.live pid).mpr hl) addr prot done
    rw [← ht] at hcl
    have hlt : t.Live pid := (live_congr hcl.2).mpr ((hset.live pid).mpr hl)
    have hdt := distinct_congr hcl.2 (hset.distinct hd)
    have hops : Frames.Ops (· ≠ 0) pid s.frames t.frames := by
      rw [hcl.1]
      split
      · exact hset.ops
      · exact .chmod _ _ hset.ops
    have hit := hops.inv hi
    have hnext := frames_changePermissions hdt hlt addr prot
    have hl'' : (t.changePermissions pid addr prot).Live pid := (live_congr (changePermissions_ctxList t pid addr prot)).mpr hlt
    rw [getUserPte_eq hl'', hnext] at hafter
    have hsole := (hit.chmod pid (pageOf addr) (decide (prot &&& 2 ≠ 0))).sole pid _ _ hafter rfl
    intro j k d' hj hjf
    rw [getUserPte_eq hlt] at he
    by_cases hjp : j = pid
    · exact hjp
    · exact hsole j k d' (by rw [Frames.chmod_map, if_neg fun h => hjp h.1]; exact hj) hjf
  | @munmap _ addr length done rest v t d h0 hne hlist ht he hafter =>
    have hl : s.Live pid := hl
    have hset := local_setAreas s pid (unmapAreas (s.ctxList pid).vmArea addr length).2.1
      (unmapAreas (s.ctxList pid).vmArea addr length).2.2
    have hcl := frames_pfnUnmapAll (hset.distinct hd) ((hset.live pid).mpr hl) done
    rw [← ht] at hcl
    have hlt : t.Live pid := (live_congr hcl.2).mpr ((hset.live pid).mpr hl)
    have hdt := distinct_congr hcl.2 (hset.distinct hd)
    have hops : Frames.Ops (· ≠ 0) pid s.frames t.frames := by
      rw [hcl.1]
      exact hset.ops.trans (.dropAll _)
    have hit := hops.inv hi
    rw [getUserPte_eq hlt] at he
    have hnext := frames_pfnUnmap hdt hlt v
    have hused : (t.pfnUnmap pid v).phys.inUse = (t.frames.drop pid (pageOf v)).used := congrArg Frames.used hnext
    rw [hused] at hafter
    refine hit.of_count he ?_
    by_contra h1
    refine hafter ?_
    unfold Frames.drop
    rw [he]
    simp only [if_neg h1]
    exact hit.used _ _ _ he

/-- The arguments of `Promised`, whatever os_pfn_alloc returns. -/
def Documented (s : Sys) : Ev → Prop
  | .mmap _ addr length _ _ _ => 4096 ∣ addr ∧ Vm.Promised length
  | .munmap _ addr length | .mprotect _ addr length _ => 4096 ∣ addr ∧ Vm.Promised length
  | .cfork _ pgd _ => ∀ i, (s.ctxList i).pgd ≠ pgd
  | _ => True

/-- os_pfn_alloc(USER_REG) with nothing given back yet (`user_frames`): one call for each frame in use. -/
def userPick (u : Finset Nat) : Nat := userFrame u.card

/-- The same, while it returns frames that are not in use. -/
def bootPick (u : Finset Nat) : Nat := if userPick u ∈ u then nextFrame u else userPick u

theorem userPick_ne_zero (u : Finset Nat) : userPick u ≠ 0 := by
  unfold userPick userFrame
  split
  · exact Nat.ne_of_gt (Nat.lt_of_lt_of_le (by decide) (Nat.le_add_right 0x6404 _))
  · decide

theorem picks_bootPick : Picks bootPick := by
  intro u
  unfold bootPick
  split
  · exact picks_nextFrame u
  · exact ⟨by assumption, userPick_ne_zero u⟩

/-- The frames of the first `n` calls. -/
def userFrames (n : Nat) : Finset Nat := Finset.Ico 0x6404 (0x6404 + n)

/-- Pages that are filled take the next frames. -/
theorem freshAll_user {f : Frames Unit Nat Nat Nat UInt8} {n : Nat} {ks : List Nat} (hf : f.used = userFrames n)
    (hn : n + ks.length ≤ 13180) (w : Bool) : (f.freshAll userPick () w ks).used = userFrames (n + ks.length) := by
  induction ks generalizing f n with
  | nil => exact hf
  | cons k ks ih =>
    rw [List.length_cons] at hn ⊢
    have hpick : userPick f.used = 0x6404 + n := by
      rw [hf]
      unfold userPick userFrames userFrame
      rw [Nat.card_Ico, Nat.add_sub_cancel_left, if_pos (by omega)]
    have hused : (f.fresh () k (userPick f.used) w).used = userFrames (n + 1) := by
      show insert (userPick f.used) f.used = _
      rw [hpick, hf]
      exact (Nat.Ico_succ_right_eq_insert_Ico (Nat.le_add_right _ _)).symm
    rw [Frames.freshAll_cons, ih hused (by omega), Nat.add_right_comm, Nat.add_assoc]

/-- The fault on a page that is there, in memory that may be written, with a counter of 1. -/
theorem handleCowFault_inPlace {e : Pte} (hin : areaAt addr (s.ctxList pid).vmArea = true)
    (hwr : writableAt addr (s.ctxList pid).vmArea = true) (he : s.getUserPte pid addr = some e) (h1 : s.phys.refcount e.frame = 1) :
    (s.handleCowFault pick pid addr).2.getUserPte pid addr = some ⟨e.frame, true⟩ := by
  unfold handleCowFault
  simp only [hin, hwr, Bool.true_or, not_true_eq_false, if_false, he, if_pos h1]
  unfold getUserPte at he ⊢
  rw [PageTable.get_eq] at he ⊢
  unfold setTable table at *
  simp only [Function.update_self, PageTable.alter_pte, he]
  rfl

/-- The first process, with the frames the page list gives. -/
def ordered : Sys := execInit (fun _ _ => 0) bootPick 0x71

/-- 19 pages mapped, the last of them to frame 0x6420. -/
def mapped : Sys := (ordered.vmAreaMap userPick 1 0 77824 3 MAP_POPULATE).2

/-- And a child. -/
def forked : Sys := ((mapped.doCfork userPick 1 0x72).map Prod.snd).getD mapped

theorem run_pair {u : Sys} {e e' : Ev} {ok : Sys → Ev → Prop} (he : ok s e) (hs : s.step e = some t) (he' : ok t e')
    (ht : t.step e' = some u) : machine.Run ok s [e, e'] u := .cons he hs (.cons he' ht (.nil u))

theorem start_ordered : Start ordered := ⟨_, _, _, picks_bootPick, by decide, by decide, rfl⟩

/-- mmap leaves each process its page table. -/
theorem vmAreaMap_pgd (hp : ∀ u, pick u ≠ 0) (i : Nat) {length : Int} {prot flags : UInt32} :
    ((s.vmAreaMap pick pid addr length prot flags).2.ctxList i).pgd = (s.ctxList i).pgd := by
  have hset : ∀ areas nodes, ((s.setAreas pid areas nodes).ctxList i).pgd = (s.ctxList i).pgd := fun areas nodes =>
    (local_setAreas s pid areas nodes).pgd i
  unfold vmAreaMap
  simp only
  split
  · exact hset _ _
  split
  · rw [(allocPfn_loop hp pid prot _).2.1]
    exact hset _ _
  · exact hset _ _

theorem forked_run : machine.Run Documented ordered [.mmap 1 0 77824 3 MAP_POPULATE userPick, .cfork 1 0x72 userPick] forked := by
  have hlen : Vm.Promised 77824 := by decide
  have hl : ordered.Live 1 := by decide +kernel
  have hl' : mapped.Live 1 := by decide +kernel
  have hmap : ordered.step (.mmap 1 0 77824 3 MAP_POPULATE userPick) = some mapped := step_mmap hl
  have hfork : mapped.step (.cfork 1 0x72 userPick) = some forked := step_cfork_some hl' (by decide +kernel)
  have hp : ordered.Documented (.mmap 1 0 77824 3 MAP_POPULATE userPick) := ⟨by decide, hlen⟩
  refine run_pair hp hmap ?_ hfork
  -- frame 0x72 is no page table yet
  show ∀ i, (mapped.ctxList i).pgd ≠ 0x72
  intro i
  have hpgd : (mapped.ctxList i).pgd = (ordered.ctxList i).pgd := vmAreaMap_pgd userPick_ne_zero i
  rw [hpgd]
  exact execInit_pgd picks_bootPick i

/-! 13151 pages more, of which the last takes frame 0x6420 again -/

def twoAreas : List VmArea := [⟨0x180200000, 0x180213000, 3⟩, ⟨0x180213000, 0x183572000, 1⟩]

/-- What the first process has before that call, and the child. -/
structure Shared (s : Sys) : Prop where
  live : s.Live 1 ∧ s.Live 2
  ctx : s.ctxList 1 = { initCtx 0x71 with vmArea := [⟨0x180200000, 0x180213000, 3⟩] }
  child : (s.ctxList 2).pgd = 0x72
  used : s.phys.inUse = userFrames 30
  parent_pte : (s.tables 0x71).pte 0x180212 = some ⟨0x6420, false⟩
  child_pte : (s.tables 0x72).pte 0x180212 = some ⟨0x6420, false⟩

theorem forked_shared : forked.Shared :=
  ⟨by decide +kernel, by decide +kernel, by decide +kernel, by decide +kernel, by decide +kernel, by decide +kernel⟩

/-- The pages the call fills. -/
theorem reused_pages : (vaddrs 0x180213000 (plus 0x180213000 (pageRound 53866496))).map pageOf =
    ((List.range 13150).map fun i => pageOf (0x180213000 + 4096 * i)) ++ [0x183571] := by
  have hstop : plus 0x180213000 (pageRound 53866496) = 0x183572000 := by decide
  have hcount : (0x183572000 - 0x180213000 + 4095) / 4096 = 13150 + 1 := by decide
  rw [hstop]
  unfold vaddrs
  rw [hcount, List.range_succ, List.map_append, List.map_append, List.map_map]
  rfl

/-- All but the last take frames that are not in use. -/
theorem Shared.populate (h : s.Shared) (ht : (s.vmAreaMap userPick 1 0 53866496 1 MAP_POPULATE).2 = t) :
    t.Live 1 ∧ t.Live 2 ∧ t.phys.inUse = userFrames 13180 ∧ t.phys.refcount 0x6420 = 1 ∧ (t.ctxList 1).vmArea = twoAreas ∧
      t.getUserPte 1 0x180212000 = some ⟨0x6420, false⟩ ∧ t.getUserPte 2 0x180212000 = some ⟨0x6420, false⟩ := by
  have hareas : mapAreas (s.ctxList 1).vmArea 0 53866496 1 MAP_POPULATE = (((0x180213000 : Nat) : Int), twoAreas, 1) := by
    rw [h.ctx]
    decide
  obtain ⟨s', hs'⟩ : ∃ s', s' = s.setAreas 1 twoAreas 1 := ⟨_, rfl⟩
  have hother : s'.ctxList 2 = s.ctxList 2 := by
    rw [hs']
    exact (local_setAreas s 1 twoAreas 1).others 2 (by decide)
  have hself : s'.ctxList 1 = { s.ctxList 1 with vmArea := twoAreas } := by
    rw [hs', setAreas_ctx]
  have hpgd : (s'.ctxList 1).pgd = 0x71 := by rw [hself, h.ctx]; rfl
  have htab : s'.tables = s.tables := by rw [hs']; rfl
  -- the loop
  obtain ⟨hfill, hc, htables⟩ := allocPfn_loop (s := s') userPick_ne_zero 1 1
    (vaddrs 0x180213000 (plus 0x180213000 (pageRound 53866496)))
  have ht' : t = (vaddrs 0x180213000 (plus 0x180213000 (pageRound 53866496))).foldl
      (fun s i => s.allocPfn userPick 1 i 1) s' := by
    rw [← ht, vmAreaMap_eq (congrArg Prod.fst hareas), hs', hareas]
    dsimp only
    rw [if_pos (show MAP_POPULATE &&& MAP_POPULATE ≠ 0 by decide)]
  rw [← ht'] at hfill hc htables
  rw [hpgd] at hfill htables
  -- after 13150 pages every frame has been handed out, and 0x6420 comes again
  obtain ⟨f, hf⟩ : ∃ f, f = (s'.tableFrames 0x71).freshAll userPick () (decide ((1 : UInt32) &&& 2 ≠ 0))
      ((List.range 13150).map fun i => pageOf (0x180213000 + 4096 * i)) := ⟨_, rfl⟩
  have hused : f.used = userFrames 13180 := by
    have hfirst : (s'.tableFrames 0x71).used = userFrames 30 := by
      rw [hs']
      exact h.used
    rw [hf, freshAll_user hfirst (by rw [List.length_map, List.length_range]), List.length_map, List.length_range]
  have hpick : userPick f.used = 0x6420 := by
    rw [hused]
    unfold userPick userFrames userFrame
    rw [Nat.card_Ico]
    rfl
  have hend : t.tableFrames 0x71 = f.fresh () 0x183571 0x6420 (decide ((1 : UInt32) &&& 2 ≠ 0)) := by
    rw [hfill, reused_pages, Frames.freshAll_append, ← hf, Frames.freshAll_cons, hpick]
    rfl
  have hpte : (t.tables 0x71).pte 0x180212 = (s'.tables 0x71).pte 0x180212 := by
    have hno : ¬ (() = () ∧ 0x180212 ∈ (vaddrs 0x180213000 (plus 0x180213000 (pageRound 53866496))).map pageOf) := by
      rw [mem_pages (by decide) (by decide)]
      omega
    exact (congrFun (congrFun (congrArg Frames.map hfill) ()) 0x180212).trans (Frames.freshAll_others userPick _ hno)
  have hget : ∀ i pgd, (t.ctxList i).pgd = pgd → t.getUserPte i 0x180212000 = (t.tables pgd).pte 0x180212 := by
    intro i pgd hi
    unfold getUserPte table
    rw [hi, PageTable.get_eq]
    rfl
  have hlive : ∀ i, t.Live i ↔ s.Live i := by
    intro i
    rw [live_congr hc, hs']
    exact (local_setAreas s 1 twoAreas 1).live i
  refine ⟨(hlive 1).mpr h.live.1, (hlive 2).mpr h.live.2, ?_, ?_, ?_, ?_, ?_⟩
  · have hin : t.phys.inUse = insert 0x6420 f.used := congrArg Frames.used hend
    rw [hin, hused]
    exact Finset.insert_eq_of_mem (Finset.mem_Ico.mpr (by decide))
  · have hcount : t.phys.refcount 0x6420 = Function.update f.count 0x6420 1 0x6420 := congrFun (congrArg Frames.count hend) 0x6420
    rw [hcount, Function.update_self]
  · rw [hc, hself]
  · rw [hget 1 0x71 (by rw [hc]; exact hpgd), hpte, htab]
    exact h.parent_pte
  · rw [hget 2 0x72 (by rw [hc, hother]; exact h.child), htables 0x72 (by decide), htab]
    exact h.child_pte

end Sys

end Cs330.Mm
