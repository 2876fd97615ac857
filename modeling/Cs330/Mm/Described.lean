/-
  Cs330.Mm.Described — every mapped page of a process belongs to it.

  `Ctx.Sound W c k e`: an entry `e` for page `k` lies in a segment or an area of `c`, and if
  `W`, it is not writable where an area forbids it. Every step keeps that of all entries
  (`each_step`); for `W`, as long as an mprotect that takes the write flag away meets no
  writable PTE but one it changes (`Changes`).
-/
import Cs330.Mm.Mapped

namespace Cs330.Mm

open Lib Lib.Seg Vm

structure Ctx.Sound (W : Prop) (c : Ctx) (k : Nat) (e : Pte) : Prop where
  holds : c.Holds k
  writable : W → e.write = true → c.Writable k

/-- Every mapped page lies below the top of the stack. -/
theorem Ctx.Layout.page_lt {c : Ctx} (h : c.Layout) {k : Nat} (hk : c.Holds k) : 4096 * k < 2 ^ 47 := by
  obtain ⟨-, hc2⟩ := h.code
  obtain ⟨-, -, -, hr4, -⟩ := h.rodata
  obtain ⟨-, -, -, hd4, -⟩ := h.data
  obtain ⟨-, hs2, -⟩ := h.stack
  unfold CODE_START CODE_PAGES at hc2
  unfold DATA_START at hr4
  unfold MMAP_AREA_START at hd4
  unfold STACK_START at hs2
  rcases hk with hk | hk | hk | hk | hk
  · have := hk.2; omega
  · have := hk.2; omega
  · have := hk.2; omega
  · have := hk.high; omega
  · by_contra hge
    refine hk (h.areas.valueAt_above ?_)
    rw [end_eq]
    omega

theorem Ctx.Holds.areas {c : Ctx} {k : Nat} (h : c.Holds k) {areas : List VmArea}
    (ha : protAt c.vmArea (4096 * k) ≠ none → protAt areas (4096 * k) ≠ none) : Ctx.Holds { c with vmArea := areas } k := by
  rcases h with hk | hk | hk | hk | hk
  · exact Or.inl hk
  · exact Or.inr (Or.inl hk)
  · exact Or.inr (Or.inr (Or.inl hk))
  · exact Or.inr (Or.inr (Or.inr (Or.inl ⟨hk.low, hk.high⟩)))
  · exact Or.inr (Or.inr (Or.inr (Or.inr (ha hk))))

/-- The area over a page stays as it was, or comes to it. -/
theorem Ctx.Sound.areas {W : Prop} {c : Ctx} {k : Nat} {e : Pte} (h : c.Sound W k e) (hlay : c.Layout) {areas : List VmArea}
    (ha : protAt areas (4096 * k) = protAt c.vmArea (4096 * k) ∨
      (protAt c.vmArea (4096 * k) = none ∧ MMAP_AREA_START ≤ 4096 * k ∧ 4096 * k < MMAP_AREA_END)) :
    Ctx.Sound W { c with vmArea := areas } k e := by
  rcases ha with ha | ⟨hnone, h1, h2⟩
  · exact ⟨h.holds.areas fun hk => ha ▸ hk, fun hw he f hf => h.writable hw he f (ha ▸ hf)⟩
  · exact absurd hnone (hlay.region h.holds h1 h2)

namespace Sys

variable {W : Prop} {s t : Sys} {pid addr child : Nat} {pick : Finset Nat → Nat}

def Each (s : Sys) (Q : Ctx → Nat → Pte → Prop) : Prop := ∀ i k e, s.frames.map i k = some e → Q (s.ctxList i) k e

/-- If only one process changes, only its entries count. -/
theorem Local.each {Q : Ctx → Nat → Pte → Prop} (h : Local pid s t) (hs : s.Each Q)
    (hown : ∀ k e, t.frames.map pid k = some e → Q (t.ctxList pid) k e) : t.Each Q := by
  intro i k e he
  by_cases hi : i = pid
  · subst hi; exact hown k e he
  · rw [h.others i hi]
    rw [h.ops.others hi] at he
    exact hs i k e he

theorem each_doExit {Q : Ctx → Nat → Pte → Prop} (hd : s.Distinct) (hl : s.Live pid) (hs : s.Each Q) :
    (s.doExit pid).Each Q := by
  intro i k e he
  rw [frames_doExit hd hl] at he
  have he : Function.update s.frames.map pid (fun _ => none) i k = some e := he
  by_cases hi : i = pid
  · rw [hi, Function.update_self] at he; cases he
  · rw [Function.update_of_ne hi] at he
    rw [doExit_eq hd hl]
    show Q (Function.update s.ctxList pid _ i) k e
    rw [Function.update_of_ne hi]
    exact hs i k e he

theorem each_fault (hp : Picks pick) (hlay : (s.ctxList pid).Layout) (hs : s.Each (Ctx.Sound W)) (hl : Local pid s t)
    (h : Resolved s pick pid addr t) : t.Each (Ctx.Sound W) := by
  refine hl.each hs fun k e he => ?_
  cases h with
  | fresh w hnone hf hc hholds hw =>
    rw [hc]
    rw [hf, Frames.fresh_map] at he
    split at he
    · rename_i hk
      cases he
      rw [hk.2]
      exact ⟨hholds, fun _ => hw⟩
    · exact hs pid k e he
  | inPlace d hd h1 hf hc hw =>
    rw [hc]
    rw [hf, Frames.chmod_map] at he
    split at he
    · rename_i hk
      rw [hk.2]
      exact ⟨(hs pid _ d hd).holds, fun _ _ => hw⟩
    · exact hs pid k e he
  | copied d hd h1 hf hc hw =>
    rw [hc]
    rw [hf, Frames.copy_map] at he
    split at he
    · rename_i hk
      rw [hk.2]
      exact ⟨(hs pid _ d hd).holds, fun _ _ => hw⟩
    · exact hs pid k e he
  | stack w ks n hf hc hlow hn hks =>
    rw [hc]
    have hfill := Frames.freshAll_filled (s := s.frames) (fun u => (hp u).1) pid w ks
    rw [← hf] at hfill
    by_cases hk : k ∈ ks
    · obtain ⟨h1, h2⟩ := hks k hk
      refine ⟨Or.inr (Or.inr (Or.inr (Or.inl ⟨h1, ?_⟩))), fun _ _ => ?_⟩
      · exact Nat.lt_trans h2 (by rw [hlay.stack.2.1]; exact hlay.stack.2.2.2.1)
      · exact hlay.stack_writable (Nat.le_trans hlow h1)
    · rw [hfill.others pid k fun h => hk h.2] at he
      have h := hs pid k e he
      exact ⟨h.holds.mono rfl ⟨rfl, Nat.le_refl _⟩ ⟨rfl, Nat.le_refl _⟩ ⟨rfl, hn⟩ rfl, h.writable⟩

theorem each_cfork (hb : s.Base) (hl : s.Live pid) (hs : s.Each (Ctx.Sound W)) {pgd : Nat}
    (h : Cforked s pick pid pgd child t) : t.Each (Ctx.Sound W) := by
  have hne : pid ≠ child := fun he => h.dead (he ▸ hl)
  have hro : ∀ {k e}, (s.frames.map pid k).map Frames.readOnly = some e → (s.ctxList pid).Holds k ∧ e.write = false := by
    intro k e he
    obtain ⟨d, hd, rfl⟩ := Option.map_eq_some_iff.mp he
    exact ⟨(hs pid k d hd).holds, rfl⟩
  intro i k e he
  rw [h.frames] at he
  by_cases hip : i = pid
  · rw [hip] at he ⊢
    rw [h.others pid hne]
    rw [Frames.fork_owner hne] at he
    split at he
    · obtain ⟨h1, h2⟩ := hro he
      exact ⟨h1, fun _ hw => absurd hw (by rw [h2]; decide)⟩
    · exact hs pid k e he
  by_cases hic : i = child
  · rw [hic] at he ⊢
    have hnew : ∀ k, s.frames.map child k = none := fun k => if_neg h.dead
    obtain ⟨hsome, hor⟩ := Frames.fork_forked hne hnew he
    obtain ⟨d, hd⟩ := Option.isSome_iff_exists.mp hsome
    have hholds := (hs pid k d hd).holds
    rw [h.ctx]
    refine ⟨hholds.mono rfl ⟨rfl, Nat.le_refl _⟩ ⟨rfl, Nat.le_refl _⟩ ⟨rfl, Nat.le_refl _⟩ rfl, fun _ hw => ?_⟩
    rcases hor with ⟨hst, -⟩ | ⟨-, he⟩
    · -- only the pages of the stack are copied
      have hlay := hb.layout pid hl
      obtain ⟨s1, s2, s3, s4, s5, -⟩ := hlay.stack
      rw [Ctx.stackPages, mem_pagesDown s5 (by rw [s2]; decide) (by rw [s2]; decide)] at hst
      exact hlay.stack_writable (Nat.le_trans (by rw [s1]; exact s3) hst.1)
    · exact absurd hw (by rw [(hro he).2]; decide)
  · rw [h.others i hic]
    rw [Frames.fork_others hip hic] at he
    exact hs i k e he

theorem each_access (hp : Picks pick) (hb : s.Base) (hl : s.Live pid) (ha : addr < 2 ^ 47) (write : Bool)
    (hs : s.Each (Ctx.Sound W)) : (s.fault pick pid addr write).Each (Ctx.Sound W) := by
  have hlay := hb.layout pid hl
  rcases fault_cases hp hb.distinct hl hlay ha write with h | h
  · rw [h]; exact each_doExit hb.distinct hl hs
  · exact each_fault hp hlay hs h.1 h.2

/-- An mprotect that takes the write flag away meets no writable PTE but one it changes. -/
def Changes (s : Sys) : Ev → Prop
  | .mprotect pid addr length prot =>
    (protectAreas (s.ctxList pid).vmArea addr length prot).1 = 0 → prot &&& 2 = 0 →
      ∀ a e, addr ≤ a → a < addr + pageUp length → s.getUserPte pid a = some e → e.write = true →
        a < addr + 4096 ∧ s.phys.refcount e.frame = 1
  | _ => True

theorem each_mprotect (hd : s.Distinct) (hl : s.Live pid) (hlay : (s.ctxList pid).Layout) {length : Int} (ha : 4096 ∣ addr)
    (hlen : Vm.Promised length) {prot : UInt32} (hs : s.Each (Ctx.Sound W)) (hw : W → s.Changes (.mprotect pid addr length prot)) :
    (s.vmAreaMprotect pid addr length prot).2.Each (Ctx.Sound W) := by
  refine (local_vmAreaMprotect hd hl addr length prot).each hs fun k e he => ?_
  rcases vmAreaMprotect_cases hd hl hlay ha hlen prot with ⟨hf, hc, -⟩ | ⟨hret, areas, hf, hc, hv⟩
  · rw [hf] at he
    rw [hc]
    exact hs pid k e he
  rw [hc]
  rw [hf, Frames.chmod_map] at he
  have h0 := (vmAreaMprotect_ret s pid addr length prot).symm.trans hret
  have hwithin := (protectAreas_within hlay.areas hlen ha h0).2
  have hpos := (pageUp_spec hlen).1
  rw [end_eq] at hwithin
  -- the entry as it was before
  obtain ⟨d, hd, hor⟩ : ∃ d, s.frames.map pid k = some d ∧ (e = d ∨ (k = pageOf addr ∧ e.write = decide (prot &&& 2 ≠ 0))) ∧
      (k = pageOf addr → s.phys.refcount d.frame = 1 → e.write = decide (prot &&& 2 ≠ 0)) := by
    split at he
    · rename_i hk
      obtain ⟨d, hd, rfl⟩ := Option.map_eq_some_iff.mp he
      refine ⟨d, hk.2 ▸ hd, ?_, fun _ h1 => ?_⟩
      · split
        · exact Or.inr ⟨hk.2, rfl⟩
        · exact Or.inl rfl
      · rw [if_pos (show s.frames.count d.frame = 1 from h1)]
    · rename_i hk
      exact ⟨e, he, Or.inl rfl, fun h => absurd ⟨rfl, h⟩ hk⟩
  have hold := hs pid k d hd
  have hk48 := hlay.page_lt hold.holds
  have hpage : pageOf (4096 * k) = k := by rw [pageOf_eq (by omega)]; omega
  refine ⟨hold.holds.areas fun hk => ?_, fun hW hwrite f hf => ?_⟩
  · rw [hv]
    split
    · exact fun h => hk (by simpa using h)
    · exact hk
  rw [hv] at hf
  by_cases hin : addr ≤ 4096 * k ∧ 4096 * k < addr + pageUp length
  · rw [if_pos hin] at hf
    obtain ⟨f0, -, rfl⟩ := Option.map_eq_some_iff.mp hf
    intro hprot
    have hdw : d.write = true := by
      rcases hor.1 with rfl | ⟨-, hew⟩
      · exact hwrite
      · rw [hwrite] at hew; exact absurd hprot (of_decide_eq_true hew.symm)
    obtain ⟨hfirst, h1⟩ := hw hW h0 hprot (4096 * k) d hin.1 hin.2 (by rw [getUserPte_eq hl, hpage]; exact hd) hdw
    have hew := hor.2 (by rw [pageOf_eq (by omega)]; omega) h1
    rw [hwrite] at hew
    exact absurd hprot (of_decide_eq_true hew.symm)
  · rw [if_neg hin] at hf
    have hne : k ≠ pageOf addr := fun h => hin (by rw [h, pageOf_eq (by omega)]; omega)
    have he := hor.1.resolve_right fun h => hne h.1
    exact hold.writable hW (he ▸ hwrite) f hf

theorem each_mmap (hp : Picks pick) (hd : s.Distinct) (hl : s.Live pid) (hlay : (s.ctxList pid).Layout) {length : Int}
    (ha : 4096 ∣ addr) (hlen : Vm.Promised length) {prot flags : UInt32} (hs : s.Each (Ctx.Sound W)) :
    (s.vmAreaMap pick pid addr length prot flags).2.Each (Ctx.Sound W) := by
  obtain ⟨h1, h2⟩ := local_vmAreaMap hp hd hl addr length prot flags
  refine h1.each hs fun k e he => ?_
  have hold : ∀ d, s.frames.map pid k = some d → Ctx.Sound W
      { s.ctxList pid with vmArea := (mapAreas (s.ctxList pid).vmArea addr length prot flags).2.1 } k d := by
    intro d hd
    refine (hs pid k d hd).areas hlay ?_
    exact (mapAreas_keeps hlay.areas ha hlen prot flags (4096 * k)).imp id fun h => ⟨h.1, h.2.1, h.2.2.1⟩
  show Ctx.Sound W ((s.vmAreaMap pick pid addr length prot flags).2.ctxList pid) k e
  rw [h2]
  rcases frames_vmAreaMap hp hd hl hlay ha hlen prot flags with hf | ⟨-, ks, hf, hks⟩
  · exact hold e (by rw [← hf]; exact he)
  · have hfill := Frames.freshAll_filled (s := s.frames) (fun u => (hp u).1) pid (decide (prot &&& 2 ≠ 0)) ks
    rw [← hf] at hfill
    by_cases hk : k ∈ ks
    · obtain ⟨g, hg, -⟩ := hfill.new k hk
      have heg : some e = some (⟨g, decide (prot &&& 2 ≠ 0)⟩ : Pte) := he.symm.trans hg
      cases heg
      refine ⟨Or.inr (Or.inr (Or.inr (Or.inr ?_))), fun _ hwrite f hf => ?_⟩
      · rw [hks k hk]; exact Option.some_ne_none _
      · have hf := (hks k hk).symm.trans hf
        cases hf
        exact of_decide_eq_true hwrite
    · exact hold e ((hfill.others pid k fun h => hk h.2).symm.trans he)

theorem each_munmap (hd : s.Distinct) (hl : s.Live pid) (hlay : (s.ctxList pid).Layout) {length : Int} (ha : 4096 ∣ addr)
    (hlen : Vm.Promised length) (hs : s.Each (Ctx.Sound W)) : (s.vmAreaUnmap pid addr length).2.Each (Ctx.Sound W) := by
  refine (local_vmAreaUnmap hd hl addr length).each hs fun k e he => ?_
  rcases vmAreaUnmap_cases hd hl hlay ha hlen with ⟨hf, hc, -⟩ | ⟨-, ks, areas, hf, hc, hks, hv⟩
  · rw [hf] at he
    rw [hc]
    exact hs pid k e he
  · rw [hf, Frames.dropAll_map] at he
    rw [hc]
    split at he
    · cases he
    rename_i hk
    have hold := hs pid k e he
    have hlt := hlay.page_lt hold.holds
    refine hold.areas hlay (Or.inl ?_)
    rw [hv, if_neg fun h => hk ⟨rfl, (hks k (by omega)).mpr h⟩]

theorem frames_doExpand (s : Sys) (pid size : Nat) (segmentT : Int) : (s.doExpand pid size segmentT).2.frames = s.frames := by
  rcases doExpand_spec s pid size segmentT with h | ⟨n, -, -, h⟩ | ⟨n, -, -, h⟩
  · rw [h]
  · rw [h]; refine (frames_setCtx _ _ ?_ ?_).1 <;> rfl
  · rw [h]; refine (frames_setCtx _ _ ?_ ?_).1 <;> rfl

/-- Every step keeps the entries sound. -/
theorem each_step {e : Ev} (hb : s.Base) (ho : s.Promised e) (hs : s.Each (Ctx.Sound W)) (hw : W → s.Changes e)
    (h : s.step e = some t) : t.Each (Ctx.Sound W) := by
  unfold step at h
  split at h
  swap
  · cases h
  rename_i hl
  cases e with
  | mmap pid addr length prot flags pick => cases h; exact each_mmap ho.2.2 hb.distinct hl (hb.layout pid hl) ho.1 ho.2.1 hs
  | munmap pid addr length => cases h; exact each_munmap hb.distinct hl (hb.layout pid hl) ho.1 ho.2 hs
  | mprotect pid addr length prot => cases h; exact each_mprotect hb.distinct hl (hb.layout pid hl) ho.1 ho.2 hs hw
  | expand pid size segmentT =>
    cases h
    refine (local_doExpand s pid size segmentT).each hs fun k e he => ?_
    have hold := hs pid k e (by rw [← frames_doExpand s pid size segmentT]; exact he)
    rcases doExpand_spec s pid size segmentT with h | ⟨n, -, hn, h⟩ | ⟨n, -, hn, h⟩
    · rw [h]; exact hold
    · rw [h, setCtx_self]
      exact ⟨hold.holds.mono rfl ⟨rfl, by simp only; omega⟩ ⟨rfl, Nat.le_refl _⟩ ⟨rfl, Nat.le_refl _⟩ rfl, hold.writable⟩
    · rw [h, setCtx_self]
      exact ⟨hold.holds.mono rfl ⟨rfl, Nat.le_refl _⟩ ⟨rfl, by simp only; omega⟩ ⟨rfl, Nat.le_refl _⟩ rfl, hold.writable⟩
  | cfork pid pgd pick =>
    obtain ⟨r, hr, rfl⟩ := Option.map_eq_some_iff.mp h
    exact each_cfork hb hl hs (doCfork_spec ho.1 hb hl ho.2 hr)
  | exit pid => cases h; exact each_doExit hb.distinct hl hs
  | read pid addr pick =>
    simp only [call] at h
    split at h
    · cases h
    rename_i hlt
    split at h
    · cases h; exact hs
    · cases h; exact each_access ho hb hl (Nat.lt_of_not_le hlt) false hs
  | write pid addr byte pick =>
    simp only [call] at h
    split at h
    · cases h
    rename_i hlt
    split at h
    · rename_i ha
      cases h
      refine (local_store hl ha byte).each hs fun k e he => ?_
      obtain ⟨d, hd, hdw⟩ := PageTable.allows_write ha
      rw [frames_store hl ((frames_map hl _).trans hd) hdw, (Frames.store_eq ..).1] at he
      rw [store_ctxList]
      exact hs pid k e he
    · cases h; exact each_access ho hb hl (Nat.lt_of_not_le hlt) true hs

end Sys

end Cs330.Mm
