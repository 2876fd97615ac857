/-
  Cs330.Mm.VforkStack — the copy of the stack a vfork child runs on.

  The child has its parent's page table, so source and target of the copy are pages of one
  table. vfork_copy_mm moves every page of the stack down by the same offset, to a page of
  its own below the one that stays free (`vforkPage_copies`, one page; `vforkPages`, all),
  and rsp, rbp and `next_free` of the child with them.

  `vfork_copies_stack`: what the parent reads in its stack, the child reads at that offset,
  and every page outside the target keeps its PTE and its bytes, whichever of the target
  pages an earlier vfork has left, as long as no other page maps their frames.
-/
import Cs330.Lib.Relocate
import Cs330.Mm.Vfork
import Cs330.Mm.Pages

namespace Cs330.Mm

open Lib Vm

/-- `struct user_regs`, the two registers vfork_copy_mm moves. -/
structure UserRegs where
  entryRsp : Nat
  rbp : Nat
  deriving DecidableEq, Repr

/-- The system with the registers each context has saved. -/
structure Rsys where
  sys : Sys
  regs : Nat → UserRegs

namespace Rsys

/-- `*new_ctx = *ctx` in do_vfork. -/
def newCtx (r : Rsys) (child pid : Nat) : Rsys :=
  ⟨r.sys.setCtx child { r.sys.ctxList pid with ppid := pid }, Function.update r.regs child (r.regs pid)⟩

/-- `vfork_copy_mm`, registers included. -/
def vforkCopyMm (r : Rsys) (pick : Finset Nat → Nat) (child parent : Nat) : Rsys where
  sys := r.sys.vforkCopyMm pick child parent
  regs :=
    let offset := vforkOffset (r.sys.ctxList child).stack
    Function.update r.regs child
      ⟨minus (r.regs parent).entryRsp offset, minus (r.regs parent).rbp offset⟩

/-- `do_vfork` -/
def doVfork (r : Rsys) (pick : Finset Nat → Nat) (pid : Nat) : Option (Nat × Rsys) :=
  r.sys.getNewCtx.map fun child =>
    let r' := (r.newCtx child pid).vforkCopyMm pick child pid
    (child, { r' with sys := r'.sys.setCtx child { r'.sys.ctxList child with state := .running } })

theorem doVfork_sys (r : Rsys) (pick : Finset Nat → Nat) (pid : Nat) :
    (r.doVfork pick pid).map (fun x => (x.1, x.2.sys)) = r.sys.doVfork pick pid := Option.map_map ..

end Rsys

namespace Sys

/-- A page table as pages that read what is in their frames. -/
def space (s : Sys) (g : Nat) : Space Nat Nat (Nat → UInt8) := ⟨(s.tables g).pte, s.phys.mem⟩

/-- The frames of a table are in use. -/
def Uses (s : Sys) (g : Nat) : Prop := ∀ k e, (s.tables g).pte k = some e → e.frame ∈ s.phys.inUse

variable {s t : Sys} {pick : Finset Nat → Nat} {child parent g k m : Nat} {seg : MmSegment}

theorem load_space (s : Sys) (pid addr : Nat) :
    s.load pid addr = ((s.space (s.ctxList pid).pgd).read (pageOf addr)).map fun page => page (addr % 4096) := by
  unfold load Space.read
  rw [Option.map_map]
  rfl

theorem getUserPte_page (hg : (s.ctxList parent).pgd = g) (hk : k < 2 ^ 36) :
    s.getUserPte parent (4096 * k) = (s.tables g).pte k := by
  have hpage : pageOf (4096 * k) = k := by unfold pageOf; omega
  unfold getUserPte table
  rw [PageTable.get_eq, hpage, hg]

theorem installPtable_new (hp : Picks pick) (hg : (s.ctxList child).pgd = g) (hk : k < 2 ^ 36) (hstart : k = 0 → seg.start = 0) :
    (s.installPtable pick child seg (4096 * k) 0).1 = pick s.phys.inUse ∧
      (s.installPtable pick child seg (4096 * k) 0).2 = { s with
        tables := Function.update s.tables g
          ((s.tables g).install k ⟨pick s.phys.inUse, seg.accessFlags &&& MM_WR ≠ 0⟩ true)
        phys := { s.phys with
          refcount := Function.update s.phys.refcount (pick s.phys.inUse) 1
          inUse := insert (pick s.phys.inUse) s.phys.inUse
          userRegPages := s.phys.userRegPages + 1 } } := by
  have haddr : (if 4096 * k = 0 then seg.start else 4096 * k) = 4096 * k := by
    split
    · rename_i h
      rw [hstart (by omega), h]
    · rfl
  have hpage : pageOf (4096 * k) = k := by unfold pageOf; omega
  unfold installPtable
  rw [haddr, if_pos rfl, osPfnAlloc_eq hp]
  simp only [setTable, table, hg, hpage]
  exact ⟨trivial, trivial⟩

/-- One page of the stack, `m` pages down. -/
theorem vforkPage_copies (hp : Picks pick) (hchild : (s.ctxList child).pgd = g) (hparent : (s.ctxList parent).pgd = g)
    (hu : s.Uses g) (hk : k < 2 ^ 36) (hm : m ≤ k) (hstart : k = m → seg.start = 0)
    (hown : (s.space g).Private (k - m)) (ht : t = s.vforkPage pick child parent seg ((4096 * m : Nat)) (4096 * k)) :
    (s.space g).Copies k (k - m) (t.space g) ∧ t.Uses g ∧ t.ctxList = s.ctxList := by
  have htarget : minus (4096 * k) ((4096 * m : Nat) : Int) = 4096 * (k - m) := by
    rw [minus_nat (by omega) (by omega)]
    omega
  unfold vforkPage at ht
  rw [getUserPte_page hparent hk, htarget, getUserPte_page hchild (by omega)] at ht
  cases he : (s.tables g).pte k with
  | none =>
    rw [he] at ht
    rw [ht]
    exact ⟨.absent he, hu, rfl⟩
  | some e =>
    rw [he] at ht
    cases hc : (s.tables g).pte (k - m) with
    | some curr =>
      -- a page of an earlier vfork
      rw [hc] at ht
      have hspace : t.space g = (s.space g).write (k - m) curr (s.phys.mem e.frame) := by
        rw [ht]
        unfold space Space.write
        simp only
        rw [← hc, Function.update_eq_self]
        rfl
      rw [hspace]
      refine ⟨.copied he (hown curr hc), ?_, ?_⟩
      · rw [ht]; exact hu
      · rw [ht]; rfl
    | none =>
      -- a new one
      obtain ⟨hnew, hs⟩ := installPtable_new (k := k - m) hp hchild (by omega) (fun h => hstart (by omega))
      rw [hc] at ht
      simp only [hnew, hs] at ht
      have hspace : t.space g = (s.space g).write (k - m) ⟨pick s.phys.inUse, seg.accessFlags &&& MM_WR ≠ 0⟩
          (s.phys.mem e.frame) := by
        rw [ht]
        unfold space Space.write copyFrame
        simp only [Function.update_self]
        rfl
      have hfree : (s.space g).Apart (k - m) (pick s.phys.inUse) := fun i _ d hd he => (hp _).1 (he ▸ hu i d hd)
      rw [hspace]
      refine ⟨.copied he hfree, fun i d hd => ?_, ?_⟩
      · have hin : t.phys.inUse = insert (pick s.phys.inUse) s.phys.inUse := by rw [ht]; rfl
        have hmap : (t.tables g).pte i = ((s.space g).write (k - m) ⟨pick s.phys.inUse, seg.accessFlags &&& MM_WR ≠ 0⟩
            (s.phys.mem e.frame)).map i := by rw [← hspace]; rfl
        rw [hmap] at hd
        rw [hin]
        by_cases hi : i = k - m
        · rw [hi, Space.write_map] at hd
          cases hd
          exact Finset.mem_insert_self ..
        · rw [(Space.write_other hfree hi).1] at hd
          exact Finset.mem_insert_of_mem (hu i d hd)
      · rw [ht]; rfl

/-- The loop over the stack, the first `i` of its pages. -/
theorem vforkPages {n : Nat} (first : Nat) (hp : Picks pick) (hchild : (s.ctxList child).pgd = g) (hparent : (s.ctxList parent).pgd = g)
    (hu : s.Uses g) (hlast : first + n ≤ 2 ^ 36) (hroom : n + 1 ≤ first) (hstart : first = n + 1 → seg.start = 0)
    (hown : ∀ k, first ≤ k ∧ k < first + n → (s.space g).Private (k - (n + 1))) {i : Nat} (hi : i ≤ n)
    (ht : t = ((List.range i).map fun i => 4096 * (first + n) - 4096 * (i + 1)).foldl
      (fun s v => s.vforkPage pick child parent seg ((4096 * (n + 1) : Nat)) v) s) :
    Space.Relocated (fun k => first ≤ k ∧ k < first + n) (fun k => k - (n + 1)) (fun k => first + n - i ≤ k ∧ k < first + n)
      (s.space g) (t.space g) ∧ t.Uses g ∧ t.ctxList = s.ctxList := by
  induction i generalizing t with
  | zero =>
    rw [ht]
    refine ⟨?_, hu, rfl⟩
    have hno : (fun k => first + n - 0 ≤ k ∧ k < first + n) = fun _ => False := by
      funext k
      simp only [eq_iff_iff, iff_false]
      omega
    rw [hno]
    exact .start hown
  | succ i ih =>
    obtain ⟨u, hu'⟩ : ∃ u, u = ((List.range i).map fun i => 4096 * (first + n) - 4096 * (i + 1)).foldl
      (fun s v => s.vforkPage pick child parent seg ((4096 * (n + 1) : Nat)) v) s := ⟨_, rfl⟩
    obtain ⟨h1, h2, h3⟩ := ih (by omega) hu'
    rw [List.range_succ, List.map_append, List.foldl_append, ← hu'] at ht
    have ht : t = u.vforkPage pick child parent seg ((4096 * (n + 1) : Nat)) (4096 * (first + n - (i + 1))) := by
      rw [ht, Nat.mul_sub]
      rfl
    obtain ⟨h4, h5, h6⟩ := vforkPage_copies (k := first + n - (i + 1)) hp (h3 ▸ hchild) (h3 ▸ hparent) h2 (by omega) (by omega)
      (fun h => hstart (by omega)) (h1.own (first + n - (i + 1)) (by omega)) ht
    refine ⟨?_, h5, h6.trans h3⟩
    have hdone : (fun k => first + n - (i + 1) ≤ k ∧ k < first + n) =
        fun k => k = first + n - (i + 1) ∨ first + n - i ≤ k ∧ k < first + n := by
      funext k
      simp only [eq_iff_iff]
      omega
    rw [hdone]
    apply h1.step
    · intro a b ha hb hab
      omega
    · intro a b ha hb
      omega
    · intro a ha
      omega
    · omega
    · omega
    · exact h4

end Sys

/-! ## The call -/

/-- A parent with a stack of `n` pages and room for them and one more below. Any of the pages
    the stack is copied to may be there, with a frame that no other page maps. -/
structure Rsys.Liftable (r : Rsys) (parent n : Nat) : Prop where
  pages : (r.sys.ctxList parent).stack.nextFree + 4096 * n = (r.sys.ctxList parent).stack.stop ∧
    4096 ∣ (r.sys.ctxList parent).stack.stop ∧ (r.sys.ctxList parent).stack.stop ≤ 2 ^ 48
  room : (r.sys.ctxList parent).stack.start + 4096 * (2 * n + 1) ≤ (r.sys.ctxList parent).stack.stop
  rsp : (r.sys.ctxList parent).stack.nextFree ≤ (r.regs parent).entryRsp ∧
    (r.regs parent).entryRsp ≤ (r.sys.ctxList parent).stack.stop
  rbp : (r.sys.ctxList parent).stack.nextFree ≤ (r.regs parent).rbp ∧
    (r.regs parent).rbp ≤ (r.sys.ctxList parent).stack.stop
  own : ∀ k, (r.sys.ctxList parent).stack.nextFree ≤ 4096 * (k + (n + 1)) →
    4096 * (k + (n + 1)) < (r.sys.ctxList parent).stack.stop → (r.sys.space (r.sys.ctxList parent).pgd).Private k
  uses : r.sys.Uses (r.sys.ctxList parent).pgd

/-- `child` has a copy of the stack of `parent`, `offset` bytes down. -/
structure Rsys.Lifted (r r' : Rsys) (child parent offset : Nat) : Prop where
  rsp : (r'.regs child).entryRsp + offset = (r.regs parent).entryRsp
  rbp : (r'.regs child).rbp + offset = (r.regs parent).rbp
  copied : ∀ a, (r.sys.ctxList parent).stack.nextFree ≤ a → a < (r.sys.ctxList parent).stack.stop →
    ∀ b, r.sys.load parent a = some b → r'.sys.load child (a - offset) = some b
  /-- One page stays free between the copy and the stack. -/
  apart : (r.sys.ctxList parent).stack.stop + 4096 = (r.sys.ctxList parent).stack.nextFree + offset
  bounded : (r'.sys.ctxList child).stack.nextFree + offset = (r.sys.ctxList parent).stack.nextFree ∧
    (r.sys.ctxList parent).stack.start ≤ (r'.sys.ctxList child).stack.nextFree
  /-- Outside the pages of the copy nothing changes. -/
  kept : ∀ k, 4096 * k + offset < (r.sys.ctxList parent).stack.nextFree ∨
      (r.sys.ctxList parent).stack.stop ≤ 4096 * k + offset →
    (r'.sys.table parent).pte k = (r.sys.table parent).pte k ∧
      ∀ e, (r.sys.table parent).pte k = some e → r'.sys.phys.mem e.frame = r.sys.phys.mem e.frame

theorem vforkOffset_eq {seg : MmSegment} {n : Nat} (h : seg.nextFree + 4096 * n = seg.stop) :
    vforkOffset seg = 4096 * (n + 1) := by
  unfold vforkOffset
  omega

theorem minus_offset (v n : Nat) (h : 4096 * (n + 1) ≤ v) (hv : v ≤ 2 ^ 48) :
    minus v ((4096 * (n + 1) : Nat)) + 4096 * (n + 1) = v := by
  rw [minus_nat h (by omega)]
  exact Nat.sub_add_cancel h

theorem offset_fits {seg : MmSegment} {n : Nat} (h : seg.nextFree + 4096 * n = seg.stop)
    (hroom : seg.start + 4096 * (2 * n + 1) ≤ seg.stop) : seg.start + 4096 * (n + 1) ≤ seg.nextFree := by
  grind

namespace Rsys

/-- vfork_copy_mm copies every page of the stack, and moves the child's `next_free`. -/
theorem vforkCopyMm_relocates {r : Rsys} {pick : Finset Nat → Nat} {child parent n : Nat} (hne : child ≠ parent)
    (hl : r.Liftable parent n) (hp : Sys.Picks pick) {t : Sys} (ht : t = (r.newCtx child parent).sys.vforkCopyMm pick child parent) :
    Space.Relocated (fun k => (r.sys.ctxList parent).stack.nextFree ≤ 4096 * k ∧ 4096 * k < (r.sys.ctxList parent).stack.stop)
      (fun k => k - (n + 1))
      (fun k => (r.sys.ctxList parent).stack.nextFree ≤ 4096 * k ∧ 4096 * k < (r.sys.ctxList parent).stack.stop)
      (r.sys.space (r.sys.ctxList parent).pgd) (t.space (r.sys.ctxList parent).pgd) ∧
    (t.ctxList parent).pgd = (r.sys.ctxList parent).pgd ∧ (t.ctxList child).pgd = (r.sys.ctxList parent).pgd ∧
    (t.ctxList child).stack.nextFree + 4096 * (n + 1) = (r.sys.ctxList parent).stack.nextFree := by
  obtain ⟨hstop, hdvd, h48⟩ := hl.pages
  have hroom := hl.room
  obtain ⟨seg, hseg⟩ : ∃ seg, seg = (r.sys.ctxList parent).stack := ⟨_, rfl⟩
  obtain ⟨g, hg⟩ : ∃ g, g = (r.sys.ctxList parent).pgd := ⟨_, rfl⟩
  have hown := hl.own
  have huses := hl.uses
  rw [← hseg] at hstop hdvd h48 hroom hown ⊢
  rw [← hg] at hown huses ⊢
  -- the child is a copy of the parent, which now waits
  obtain ⟨s, hs⟩ : ∃ s, s = (r.newCtx child parent).sys.setCtx parent
    { (r.newCtx child parent).sys.ctxList parent with state := .waiting } := ⟨_, rfl⟩
  have hparent : s.ctxList parent = { r.sys.ctxList parent with state := .waiting } := by
    rw [hs, Sys.setCtx_self]
    show { Function.update r.sys.ctxList child _ parent with state := .waiting } = _
    rw [Function.update_of_ne hne.symm]
  have hchild : s.ctxList child = { r.sys.ctxList parent with ppid := parent } := by
    rw [hs]
    exact (Function.update_of_ne hne ..).trans (Function.update_self ..)
  have hspace : s.space g = r.sys.space g := by rw [hs]; rfl
  have hfits := offset_fits hstop hroom
  have hle : seg.nextFree ≤ 2 ^ 48 := by omega
  have hnext := minus_offset seg.nextFree n (Nat.le_of_add_left_le hfits) hle
  have hoffset := vforkOffset_eq hstop
  obtain ⟨first, hfirst⟩ : ∃ first, seg.nextFree = 4096 * first := ⟨seg.nextFree / 4096, by omega⟩
  have hlist : Sys.vaddrsDown seg.nextFree seg.stop = (List.range n).map fun i => 4096 * (first + n) - 4096 * (i + 1) := by
    unfold Sys.vaddrsDown
    have hn : (seg.stop - seg.nextFree) / 4096 = n := by omega
    rw [hn]
    apply List.map_congr_left
    intro i _
    omega
  obtain ⟨u, hu⟩ : ∃ u, u = ((List.range n).map fun i => 4096 * (first + n) - 4096 * (i + 1)).foldl
    (fun s v => s.vforkPage pick child parent seg ((4096 * (n + 1) : Nat)) v) s := ⟨_, rfl⟩
  obtain ⟨h1, -, h3⟩ := Sys.vforkPages (g := g) (n := n) (i := n) first hp (by rw [hchild, hg]) (by rw [hparent, hg])
    (by rw [hs]; exact huses) (by omega) (by omega) (fun h => by omega)
    (fun k hk => by rw [hspace]; exact hown _ (by omega) (by omega)) (Nat.le_refl n) hu
  have htu : t = u.setCtx child { u.ctxList child with
      stack := { seg with nextFree := minus seg.nextFree ((4096 * (n + 1) : Nat)) } } := by
    rw [ht]
    unfold Sys.vforkCopyMm
    simp only [← hs]
    rw [hchild, ← hseg, hlist, hoffset, ← hu]
  have hdone : (fun k => first + n - n ≤ k ∧ k < first + n) = fun k => seg.nextFree ≤ 4096 * k ∧ 4096 * k < seg.stop := by
    funext k
    simp only [eq_iff_iff]
    omega
  have hsource : (fun k => first ≤ k ∧ k < first + n) = fun k => seg.nextFree ≤ 4096 * k ∧ 4096 * k < seg.stop := by
    funext k
    simp only [eq_iff_iff]
    omega
  rw [hdone, hsource, hspace] at h1
  refine ⟨?_, ?_, ?_, ?_⟩
  · rw [htu]; exact h1
  · rw [htu]
    show (Function.update u.ctxList child _ parent).pgd = g
    rw [Function.update_of_ne hne.symm, h3, hparent, hg]
  · rw [htu, Sys.setCtx_self, h3, hchild, hg]
  · rw [htu, Sys.setCtx_self]
    exact hnext

theorem vfork_copies_stack (r : Rsys) (pick : Finset Nat → Nat) (child parent n : Nat) (hne : child ≠ parent)
    (hl : r.Liftable parent n) (hp : Sys.Picks pick) :
    r.Lifted ((r.newCtx child parent).vforkCopyMm pick child parent) child parent (4096 * (n + 1)) := by
  obtain ⟨t, ht⟩ : ∃ t, t = (r.newCtx child parent).sys.vforkCopyMm pick child parent := ⟨_, rfl⟩
  obtain ⟨hrel, hparent, hchild, hnext⟩ := vforkCopyMm_relocates hne hl hp ht
  have hsys : ((r.newCtx child parent).vforkCopyMm pick child parent).sys = t := ht.symm
  obtain ⟨hstop, hdvd, h48⟩ := hl.pages
  have hfits := offset_fits hstop hl.room
  have hmoved : ∀ v, (r.sys.ctxList parent).stack.nextFree ≤ v → v ≤ (r.sys.ctxList parent).stack.stop →
      minus v ((4096 * (n + 1) : Nat)) + 4096 * (n + 1) = v := by
    intro v h1 h2
    exact minus_offset v n ((Nat.le_of_add_left_le hfits).trans h1) (h2.trans h48)
  have hapart : (r.sys.ctxList parent).stack.stop + 4096 = (r.sys.ctxList parent).stack.nextFree + 4096 * (n + 1) := by
    rw [← hstop]
    exact Nat.add_assoc ..
  have hlow : (r.sys.ctxList parent).stack.start ≤ (t.ctxList child).stack.nextFree := by
    rw [← hnext] at hfits
    exact Nat.le_of_add_le_add_right hfits
  have hoffset : vforkOffset ((r.newCtx child parent).sys.ctxList child).stack = 4096 * (n + 1) := by
    have hstack : ((r.newCtx child parent).sys.ctxList child).stack = (r.sys.ctxList parent).stack := by
      unfold newCtx
      rw [Sys.setCtx_self]
    rw [hstack]
    exact vforkOffset_eq hstop
  have hregs : ((r.newCtx child parent).vforkCopyMm pick child parent).regs child =
      ⟨minus (r.regs parent).entryRsp ((4096 * (n + 1) : Nat)), minus (r.regs parent).rbp ((4096 * (n + 1) : Nat))⟩ := by
    have hcaller : (r.newCtx child parent).regs parent = r.regs parent := Function.update_of_ne hne.symm ..
    unfold vforkCopyMm
    simp only
    rw [Function.update_self, hcaller, hoffset]
  refine ⟨?_, ?_, fun a h1 h2 b hb => ?_, hapart, ?_, fun k hk => ?_⟩
  · rw [hregs]; exact hmoved _ hl.rsp.1 hl.rsp.2
  · rw [hregs]; exact hmoved _ hl.rbp.1 hl.rbp.2
  · rw [Sys.load_space] at hb ⊢
    obtain ⟨page, hread, hbyte⟩ := Option.map_eq_some_iff.mp hb
    have hpage : pageOf a = a / 4096 := pageOf_eq (by omega)
    have hpage' : pageOf (a - 4096 * (n + 1)) = a / 4096 - (n + 1) := by
      rw [pageOf_eq (by omega)]
      omega
    have hoff : (a - 4096 * (n + 1)) % 4096 = a % 4096 := by omega
    rw [hpage] at hread
    rw [hsys, hchild, hpage', hrel.copied (a / 4096) (by omega) page hread, hoff]
    exact congrArg some hbyte
  · rw [hsys]
    exact ⟨hnext, hlow⟩
  · obtain ⟨hmap, hread⟩ := hrel.same k fun i hi he => by omega
    have htable : t.table parent = t.tables (r.sys.ctxList parent).pgd := by unfold Sys.table; rw [hparent]
    rw [hsys, htable]
    refine ⟨hmap, fun e he => ?_⟩
    unfold Space.read at hread
    rw [hmap] at hread
    have he : (r.sys.space (r.sys.ctxList parent).pgd).map k = some e := he
    rw [he] at hread
    exact Option.some.inj hread

/-- A stack of one page, and the page below the one that stays free, from an earlier vfork. -/
def lifted : Rsys where
  sys := ((Sys.boot (fun _ _ => 0) 0x71).installPage Sys.nextFrame 1 (STACK_START - 4096) true true).installPage Sys.nextFrame 1
    (STACK_START - 3 * 4096) true true
  regs := fun _ => ⟨STACK_START - 64, STACK_START - 16⟩

theorem lifted_pte : (lifted.sys.tables 0x71).pte = Function.update (Function.update (fun _ => none) (pageOf (STACK_START - 4096))
    (some ⟨1, true⟩)) (pageOf (STACK_START - 3 * 4096)) (some ⟨2, true⟩) := rfl

theorem lifted_pages {k : Nat} {e : Pte} (he : (lifted.sys.tables 0x71).pte k = some e) :
    (k = pageOf (STACK_START - 3 * 4096) ∧ e.frame = 2) ∨ (k = pageOf (STACK_START - 4096) ∧ e.frame = 1) := by
  rw [lifted_pte] at he
  by_cases h2 : k = pageOf (STACK_START - 3 * 4096)
  · rw [h2, Function.update_self] at he
    cases he
    exact .inl ⟨h2, rfl⟩
  rw [Function.update_of_ne h2] at he
  by_cases h1 : k = pageOf (STACK_START - 4096)
  · rw [h1, Function.update_self] at he
    cases he
    exact .inr ⟨h1, rfl⟩
  · rw [Function.update_of_ne h1] at he
    cases he

theorem vfork_copies_stack_lifted :
    lifted.Lifted ((lifted.newCtx 2 1).vforkCopyMm Sys.nextFrame 2 1) 2 1 (4096 * (1 + 1)) := by
  refine vfork_copies_stack lifted Sys.nextFrame 2 1 1 (by decide) ⟨by decide, by decide, by decide, by decide, ?_, ?_⟩
    Sys.picks_nextFrame
  · intro k _ _ e he i hi d hd
    have he : (lifted.sys.tables 0x71).pte k = some e := he
    have hd : (lifted.sys.tables 0x71).pte i = some d := hd
    rcases lifted_pages he with ⟨h1, h2⟩ | ⟨h1, h2⟩ <;> rcases lifted_pages hd with ⟨h3, h4⟩ | ⟨h3, h4⟩
    · exact absurd (h3.trans h1.symm) hi
    · rw [h2, h4]; decide
    · rw [h2, h4]; decide
    · exact absurd (h3.trans h1.symm) hi
  · intro k e he
    have hused : lifted.sys.phys.inUse = {2, 1} := by decide
    rw [hused]
    rcases lifted_pages he with ⟨-, h⟩ | ⟨-, h⟩
    · rw [h]; decide
    · rw [h]; decide

end Rsys

end Cs330.Mm
