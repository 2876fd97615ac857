/-
  Cs330.Mm.Exhaustion — running out of frames.

  os_pfn_alloc returns 0 when a region has no page left, and nobody looks: a page table or a
  PTE that refers to frame 0 is written, and vm_area_pagefault and handle_cow_fault return 1
  all the same (`fault_maps_frame_zero`).

  `exhaustion_handled`: a call that has as many frames as it takes (`Enough`) leaves no entry
  that refers to frame 0 or to a frame that is not in use. A fault that has not is not
  handled, and neither is install_page_table, provided that what lies in frame 0 does not
  lead a walk back to the tables (`Ram.Sink`). After that a loop over pages goes where the
  words of frame 0 and of frames that were never zeroed send it.
-/
import Cs330.Mm.Psys

namespace Cs330.Mm

open Lib Vm

namespace Psys

/-! ## What is asked of a call -/

/-- No entry refers to frame 0 or to a frame that is not in use. -/
def Safe (k : Psys) : Prop :=
  ∀ g p f, k.root g → 0 < p.length → p.length ≤ 4 → k.ram.follow g p = some f → f ∈ k.ram.inUse ∧ f ≠ 0

/-- The PTE of an address. -/
def pte (k : Psys) (pid addr : Nat) : Option Word :=
  (k.ram.getUserPte (k.ctxList pid).pgd addr).map fun p => k.ram.mem p.1 p.2

def Call.IsFault : Call → Prop
  | .pagefault .. | .cow .. => True
  | _ => False

structure Handled (k : Psys) (pick : Region → Finset Nat → Nat) (c : Call) : Prop where
  safe : (k.run pick c).2.Safe
  /-- Out of memory in a fault: -1, and everything as it was. -/
  told : c.IsFault → k.ram.oops < (k.run pick c).2.ram.oops → (k.run pick c).1 = -1 ∧
    (k.run pick c).2.ram.refcount = k.ram.refcount ∧ ∀ pid addr, (k.run pick c).2.pte pid addr = k.pte pid addr

/-! ## The frames a call takes -/

/-- Frames for new pages at `addrs`, and for the tables above them. -/
def Fits (k : Psys) (pgd : Nat) (addrs : List Nat) : Prop :=
  (k.ram.missing pgd (topsOf addrs)).card ≤ k.ram.freePages .pt ∧ addrs.length ≤ k.ram.freePages .user

/-- The pages of a list that page table `pgd` maps. -/
def present (k : Psys) (pgd : Nat) (pages : List (MmSegment × Nat)) : List (MmSegment × Nat) :=
  pages.filter fun page => (k.ram.getUserPte pgd page.2).isSome

/-- The frames a call takes are there. -/
def Enough (k : Psys) : Call → Prop
  | .pagefault pid addr errorCode =>
    pagefaultRefused (k.ctxList pid).vmArea addr errorCode = true ∨ k.Fits (k.ctxList pid).pgd [addr]
  | .cow pid cr2 =>
    let c := k.ctxList pid
    let pte := (k.ram.getUserPte c.pgd cr2).getD Ram.null
    cowRefused c cr2 = true ∨ k.ram.refcount (k.ram.mem pte.1 pte.2).frame = 1 ∨ 0 < k.ram.freePages .user
  | .map pid addr length prot flags =>
    let c := k.ctxList pid
    let r := mapAreas c.vmArea addr length prot flags
    r.1 = -1 ∨ flags &&& MAP_POPULATE = 0 ∨ k.Fits c.pgd (Sys.vaddrs r.1.toNat (plus r.1.toNat (pageRound length)))
  | .install pid addr _ => k.Fits (k.ctxList pid).pgd [addr]
  | .cfork child parent =>
    let c := k.ctxList child
    let p := k.ctxList parent
    let copied := k.present p.pgd (copiedPages c)
    -- the child's own table, and the tables below it
    1 + (topsOf ((k.present p.pgd (sharedPages c p.vmArea) ++ copied).map target)).card ≤ k.ram.freePages .pt ∧
      copied.length ≤ k.ram.freePages .user

end Psys

namespace Ram

variable {r : Ram} {roots : Nat → Prop} {pick : Region → Finset Nat → Nat} {g base addr : Nat} {p : Path} {i : Fin 512} {w : Bool}

/-! ## A walk into frame 0 -/

/-- No entry of frame 0 leads anywhere else. -/
def Sink (r : Ram) : Prop := ∀ i, (r.mem 0 i).present = true → (r.mem 0 i).frame = 0

/-- The entry at path `p` refers to frame 0, and no table is left to replace it. -/
structure Lost (r : Ram) (g : Nat) (p : Path) : Prop where
  sink : r.Sink
  full : r.freePages .pt = 0
  there : r.follow g p = some 0
  above : ∀ x j, (x ++ [j]) <+: p → r.follow g x ≠ some 0

theorem Lost.follow_put (h : r.Lost g p) (i : Fin 512) (word : Word) {x : Path} (hx : x <+: p) :
    (r.put 0 i word).follow g x = r.follow g x := by
  apply Radix.follow_congr
  intro ks j f hk hf
  have hf0 : f ≠ 0 := fun h0 => h.above ks j (hk.trans hx) (h0 ▸ hf)
  have hmem : (r.put 0 i word).mem f j = r.mem f j := Radix.put_other fun hx => hf0 hx.1
  rw [hmem]

theorem Lost.put (h : r.Lost g p) {word : Word} (hword : word.frame = 0) : (r.put 0 i word).Lost g p := by
  refine ⟨fun j hj => ?_, h.full, (h.follow_put i word (List.prefix_refl _)).trans h.there, fun x j hx => ?_⟩
  · by_cases hji : j = i
    · have hmem : (r.put 0 i word).mem 0 j = word := by rw [hji, put_mem, Radix.put_self]
      rw [hmem]
      exact hword
    · have hmem : (r.put 0 i word).mem 0 j = r.mem 0 j := by rw [put_mem, Radix.put_other fun hx => hji hx.2]
      rw [hmem] at hj ⊢
      exact h.sink j hj
  · rw [h.follow_put i word ((List.prefix_append x [j]).trans hx)]
    exact h.above x j hx

/-- From frame 0 a walk goes to frame 0. -/
theorem Lost.next (h : r.Lost g p) (pick : Region → Finset Nat → Nat) (w : Bool) (i : Fin 512) :
    (nextTable pick w (0, r) i).1 = 0 ∧ (nextTable pick w (0, r) i).2.Lost g p := by
  unfold nextTable
  simp only
  split
  · rename_i hpresent
    exact ⟨h.sink i hpresent, h⟩
  · unfold osPfnAlloc
    rw [if_pos h.full]
    have h' : Lost { r with oops := r.oops + 1 } g p := ⟨h.sink, h.full, h.there, h.above⟩
    exact ⟨rfl, h'.put rfl⟩

theorem Lost.descend (h : r.Lost g p) (pick : Region → Finset Nat → Nat) (w : Bool) (is : Path) :
    (is.foldl (nextTable pick w) (0, r)).1 = 0 ∧ (is.foldl (nextTable pick w) (0, r)).2.Lost g p := by
  induction is generalizing r with
  | nil => exact ⟨rfl, h⟩
  | cons i is ih =>
    obtain ⟨h1, h2⟩ := h.next pick w i
    have hpair : nextTable pick w (0, r) i = (0, (nextTable pick w (0, r) i).2) := Prod.ext h1 rfl
    rw [List.foldl_cons, hpair]
    exact ih h2

theorem nextTable_sink (hpick : Picks pick) (hbase : base ≠ 0) (h : r.Sink) : (nextTable pick w (base, r) i).2.Sink := by
  have hmem : (nextTable pick w (base, r) i).2.mem 0 = r.mem 0 := by
    unfold nextTable osPfnAlloc
    simp only
    split
    · rfl
    · split
      · exact Function.update_of_ne hbase.symm ..
      · exact (Function.update_of_ne hbase.symm ..).trans (Function.update_of_ne (hpick .pt r.inUse).2.symm ..)
  unfold Sink
  rw [hmem]
  exact h

/-- The first table that cannot be had: its entry refers to frame 0. -/
theorem nextTable_lost (pick : Region → Finset Nat → Nat) (w : Bool) (hs : r.Sound roots) (hg : roots g) (hp : p.length < 3)
    (hf : r.follow g p = some base) (hsink : r.Sink) (hnone : r.follow g (p ++ [i]) = none) (hfull : r.freePages .pt = 0) :
    (nextTable pick w (base, r) i).1 = 0 ∧ (nextTable pick w (base, r) i).2.Lost g (p ++ [i]) := by
  have hbase : base ≠ 0 := (hs.within g p base hg (by omega) hf).2
  have hzero : r.mem base i = .zero := by
    rcases hs.word hg (by omega) hf i with ⟨-, -, h3⟩ | ⟨h1, -⟩
    · rw [hnone] at h3; cases h3
    · exact h1
  unfold nextTable osPfnAlloc
  simp only
  rw [hzero, if_neg (by decide), if_pos hfull]
  have hput : ∀ x, x.length ≤ 3 → ¬ (p ++ [i]) <+: x → ((Ram.put { r with oops := r.oops + 1 } base i ⟨0, true, w, true⟩).follow g x) =
      r.follow g x := fun x hx hn => Radix.follow_put hs.forest hg (by omega) hf hg (by omega) fun h => hn h.2
  refine ⟨rfl, ⟨fun j hj => ?_, hfull, ?_, fun x j hx => ?_⟩⟩
  · have hmem : (Ram.put { r with oops := r.oops + 1 } base i ⟨0, true, w, true⟩).mem 0 j = r.mem 0 j :=
      Radix.put_other fun h => hbase h.1.symm
    rw [hmem] at hj ⊢
    exact hsink j hj
  · exact Radix.follow_put_self hs.forest hg (by omega) hf
  · have hlen := hx.length_le
    simp only [List.length_append, List.length_singleton] at hlen
    rw [hput x (by omega) fun h => ?_]
    · exact fun h => (hs.within g x 0 hg (by omega) h).2 rfl
    · have hlen' := h.length_le
      simp only [List.length_append, List.length_singleton] at hlen'
      omega

theorem descend_lost (hpick : Picks pick) {is : Path} (hs : r.Sound roots) (hg : roots g) (hp : p.length + is.length ≤ 3)
    (hf : r.follow g p = some base) (hsink : r.Sink) {t : Nat × Ram} (ht : t = is.foldl (nextTable pick w) (base, r)) :
    t.2.oops = r.oops ∨ (t.1 = 0 ∧ ∃ x, 0 < x.length ∧ x.length ≤ 3 ∧ t.2.Lost g x) := by
  induction is generalizing r base p with
  | nil => rw [ht]; exact .inl rfl
  | cons i is ih =>
    rw [List.length_cons] at hp
    by_cases hlost : r.follow g (p ++ [i]) = none ∧ r.freePages .pt = 0
    · obtain ⟨h1, h2⟩ := nextTable_lost pick w hs hg (by omega) hf hsink hlost.1 hlost.2
      have hpair : nextTable pick w (base, r) i = (0, (nextTable pick w (base, r) i).2) := Prod.ext h1 rfl
      rw [List.foldl_cons, hpair] at ht
      obtain ⟨h3, h4⟩ := h2.descend pick w is
      rw [← ht] at h3 h4
      exact .inr ⟨h3, p ++ [i], by simp, by rw [List.length_append, List.length_singleton]; omega, h4⟩
    · rcases (nextTable_walks hpick w).next (q := {p ++ [i]}) (i := i) hs hg (by omega) hf (Finset.mem_singleton_self _)
        (fun x hx => by rw [Finset.mem_singleton.mp hx, List.length_append, List.length_singleton]; omega) with ⟨h1, h2, h3⟩ | ⟨h1, -⟩
      · have hbase : base ≠ 0 := (hs.within g p base hg (by omega) hf).2
        have hrest := ih (r := (nextTable pick w (base, r) i).2) (p := p ++ [i]) h1
          (by rw [List.length_append, List.length_singleton]; omega) h3 (nextTable_sink hpick hbase hsink) ht
        rw [h2.oops] at hrest
        exact hrest
      · -- a table is missing, and there is none
        have hone : (r.missing g {p ++ [i]}).card ≤ 1 := (Finset.card_filter_le ..).trans (Nat.le_of_eq (Finset.card_singleton _))
        have hmiss : r.follow g (p ++ [i]) = none := by
          by_contra hn
          have hempty : r.missing g {p ++ [i]} = ∅ := by
            unfold missing
            exact Finset.filter_eq_empty_iff.mpr fun x hx => by rw [Finset.mem_singleton.mp hx]; exact hn
          rw [hempty, Finset.card_empty] at h1
          omega
        exact absurd ⟨hmiss, by omega⟩ hlost

/-- Out of memory, a walk leaves an entry that refers to frame 0. -/
theorem mapUser_lost (upper write : Bool) (hpick : Picks pick) (hs : r.Sound roots) (hg : roots g) (hsink : r.Sink)
    (hfull : ¬ ((r.missing g (tops addr)).card ≤ r.freePages .pt ∧ 0 < r.freePages .user)) :
    ∃ x, 0 < x.length ∧ x.length ≤ 4 ∧ (r.mapUser pick g addr upper write).follow g x = some 0 := by
  obtain ⟨t, ht⟩ : ∃ t, t = [index addr 39, index addr 30, index addr 21].foldl (nextTable pick upper) (g, r) := ⟨_, rfl⟩
  have hcall : r.mapUser pick g addr upper write =
      (t.2.osPfnAlloc pick .user).2.put t.1 (index addr 12) ⟨(t.2.osPfnAlloc pick .user).1, true, write, true⟩ := by
    rw [ht]
    rfl
  have hmem : (t.2.osPfnAlloc pick .user).2.mem = t.2.mem := by
    unfold osPfnAlloc
    split <;> rfl
  rcases descend_lost (p := []) hpick hs hg (by simp) rfl hsink ht with hsame | ⟨h0, x, hx0, hx3, hlost⟩
  · -- the tables are there, and the page is not
    rcases mapUser_fits hpick hs hg addr upper write with ⟨-, -, h3⟩ | ⟨-, hoops⟩
    · exact absurd h3 hfull
    rcases (nextTable_walks hpick upper).walk hs hg (Finset.Subset.refl (tops addr)) (fun x hx => tops_length hx) ht with
      ⟨h1, h2, h3⟩ | ⟨-, h2⟩
    · rcases alloc_user (g := g) (q := tops addr) hpick h1 with ⟨-, h5, -⟩ | ⟨-, h5⟩
      · rw [hcall] at hoops
        have e := h5.oops
        have hput : ((t.2.osPfnAlloc pick .user).2.put t.1 (index addr 12) ⟨(t.2.osPfnAlloc pick .user).1, true, write, true⟩).oops =
            (t.2.osPfnAlloc pick .user).2.oops := rfl
        omega
      · refine ⟨pagePath addr, by simp [pagePath], by simp [pagePath], ?_⟩
        rw [hcall, h5]
        exact Radix.follow_put_self h1.forest hg (by simp) h3
    · omega
  · refine ⟨x, hx0, by omega, ?_⟩
    rw [hcall, h0]
    have hsame : ((t.2.osPfnAlloc pick .user).2.put 0 (index addr 12) ⟨(t.2.osPfnAlloc pick .user).1, true, write, true⟩).follow g x =
        (t.2.put 0 (index addr 12) ⟨(t.2.osPfnAlloc pick .user).1, true, write, true⟩).follow g x := by
      unfold follow put
      rw [hmem]
    rw [hsame, hlost.follow_put _ _ (List.prefix_refl x)]
    exact hlost.there

end Ram

/-! ## The calls -/

namespace Psys

open Ram (Picks)

variable {k : Psys} {pick : Region → Finset Nat → Nat}

/-- Page tables that are trees of frames in use. -/
def Sound (k : Psys) : Prop := k.ram.Sound k.root

theorem Sound.safe (h : k.Sound) : k.Safe := fun g p f hg _ hp hf => h.within g p f hg hp hf

/-- The process that a call is for is there. -/
def Acts (k : Psys) : Call → Prop
  | .pagefault pid _ _ | .cow pid _ | .map pid _ _ _ _ | .install pid _ _ | .cfork _ pid => (k.ctxList pid).state ≠ .unused

theorem topsOf_one (addr : Nat) : topsOf [addr] = Ram.tops addr := by
  unfold topsOf
  simp

theorem fits_one (k : Psys) (pgd addr : Nat) : k.Fits pgd [addr] ↔
    (k.ram.missing pgd (Ram.tops addr)).card ≤ k.ram.freePages .pt ∧ 0 < k.ram.freePages .user := by
  unfold Fits
  rw [topsOf_one]
  exact Iff.rfl

/-- Not handled: an answer other than -1. -/
theorem not_handled {c : Call} (hc : c.IsFault) (hret : (k.run pick c).1 = 1) (hoops : k.ram.oops < (k.run pick c).2.ram.oops) :
    ¬ k.Handled pick c := by
  intro h
  have hneg := (h.told hc hoops).1
  rw [hret] at hneg
  exact absurd hneg (by decide)

/-- Nothing printed: only safety is asked. -/
theorem handled_of_sound {c : Call} (hs : (k.run pick c).2.Sound) (hoops : (k.run pick c).2.ram.oops = k.ram.oops) :
    k.Handled pick c := ⟨hs.safe, fun _ h => absurd h (by omega)⟩

theorem pagefault_iff (hk : k.Sound) (hpick : Picks pick) {pid addr : Nat} {errorCode : UInt64}
    (ha : k.Acts (.pagefault pid addr errorCode)) :
    k.Handled pick (.pagefault pid addr errorCode) ↔ k.Enough (.pagefault pid addr errorCode) := by
  have hg : k.root (k.ctxList pid).pgd := ⟨pid, ha, rfl⟩
  show _ ↔ _ ∨ _
  rw [fits_one]
  by_cases href : pagefaultRefused (k.ctxList pid).vmArea addr errorCode = true
  · have hrun : k.run pick (.pagefault pid addr errorCode) = (-1, k) := if_pos href
    refine ⟨fun _ => .inl href, fun _ => handled_of_sound ?_ ?_⟩
    · rw [hrun]; exact hk
    · rw [hrun]
  · have hrun : k.run pick (.pagefault pid addr errorCode) =
        (1, { k with ram := k.ram.mapUser pick (k.ctxList pid).pgd addr true (errorCode &&& 2 ≠ 0) }) := if_neg href
    rcases Ram.mapUser_fits hpick hk hg addr true (errorCode &&& 2 ≠ 0) with ⟨h1, h2, h3⟩ | ⟨h1, h2⟩
    · refine ⟨fun _ => .inr h3, fun _ => handled_of_sound ?_ ?_⟩
      · rw [hrun]; exact h1
      · rw [hrun]; exact h2
    · refine ⟨fun h => absurd h (not_handled trivial ?_ ?_), fun h => absurd (h.resolve_left href) h1⟩
      · rw [hrun]
      · rw [hrun]; exact h2

/-- In place: only the write bit changes. -/
theorem cow_inPlace (hk : k.Sound) {pid cr2 : Nat} (hg : k.root (k.ctxList pid).pgd) {pte : Nat × Fin 512}
    (hpte : pte = (k.ram.getUserPte (k.ctxList pid).pgd cr2).getD Ram.null) :
    (k.ram.put pte.1 pte.2 { k.ram.mem pte.1 pte.2 with present := true, write := true }).Sound k.root := by
  rcases Ram.getUserPte_spec hk hg cr2 with ⟨h1, -⟩ | ⟨base, h1, h2, h3, h4, h5⟩
  · rw [h1] at hpte
    have hpte : pte = (0, 0) := hpte
    subst hpte
    exact (Ram.Sound.put_null hk 0 _).1
  · rw [h1] at hpte
    have hpte : pte = (base, index cr2 12) := hpte
    subst hpte
    obtain ⟨word, hword⟩ : ∃ word, word = { k.ram.mem base (index cr2 12) with present := true, write := true } := ⟨_, rfl⟩
    have hin := hk.within _ (Ram.pagePath cr2) _ hg (by simp [Ram.pagePath]) h3
    have hframe : word.frame = (k.ram.mem base (index cr2 12)).frame := by rw [hword]
    have hbits : word.present = true ∧ word.user = true := by rw [hword]; exact ⟨rfl, h5⟩
    rw [← hframe] at hin
    show (k.ram.put base (index cr2 12) _).Sound k.root
    rw [← hword]
    exact (Ram.Sound.page (q := ∅) hk _ hg h2 hbits hin fun x hx => absurd hx (Finset.notMem_empty x)).1

/-- By a copy in a new frame, which is no table. -/
theorem cow_copied {r : Ram} {roots : Nat → Prop} {g cr2 : Nat} (src : Nat) (hpick : Picks pick) (hs : r.Sound roots) (hg : roots g)
    {pte : Nat × Fin 512} (hpte : pte = (r.getUserPte g cr2).getD Ram.null) {a : Nat × Ram} (ha : a = r.osPfnAlloc pick .user)
    (hfree : 0 < r.freePages .user) :
    ((a.2.copyFrame a.1 src).put pte.1 pte.2 ⟨a.1, true, true, true⟩).Sound roots ∧ a.2.oops = r.oops := by
  rcases Ram.alloc_user (g := g) (q := ∅) hpick hs with ⟨h1, h2, h3, h4, h5, h6⟩ | ⟨h1, -⟩
  · rw [← ha] at h1 h2 h3 h4 h5 h6
    have hfollow : ∀ h p, a.2.follow h p = r.follow h p := fun h p => by unfold Ram.follow; rw [h3]
    have hno : a.2.NoTable roots a.1 := by
      intro h p hh hp he
      rw [hfollow] at he
      exact h6 (hs.within h p _ hh (by omega) he).1
    obtain ⟨h7, h8⟩ := h1.copyFrame src hno
    refine ⟨?_, h2.oops⟩
    rcases Ram.getUserPte_spec hs hg cr2 with ⟨e1, -⟩ | ⟨base, e1, e2, -⟩
    · rw [e1] at hpte
      have hpte : pte = (0, 0) := hpte
      subst hpte
      exact (h7.put_null 0 _).1
    · rw [e1] at hpte
      have hpte : pte = (base, index cr2 12) := hpte
      subst hpte
      rw [← hfollow, ← h8 g _ hg (by simp)] at e2
      exact (h7.page (q := ∅) ⟨a.1, true, true, true⟩ hg e2 ⟨rfl, rfl⟩ ⟨h4, h5⟩ fun x hx =>
        absurd hx (Finset.notMem_empty x)).1
  · omega

theorem cow_iff (hk : k.Sound) (hpick : Picks pick) {pid cr2 : Nat} (ha : k.Acts (.cow pid cr2)) :
    k.Handled pick (.cow pid cr2) ↔ k.Enough (.cow pid cr2) := by
  have hg : k.root (k.ctxList pid).pgd := ⟨pid, ha, rfl⟩
  obtain ⟨pte, hpte⟩ : ∃ pte, pte = (k.ram.getUserPte (k.ctxList pid).pgd cr2).getD Ram.null := ⟨_, rfl⟩
  have henough : k.Enough (.cow pid cr2) ↔ cowRefused (k.ctxList pid) cr2 = true ∨
      k.ram.refcount (k.ram.mem pte.1 pte.2).frame = 1 ∨ 0 < k.ram.freePages .user := by rw [hpte]; exact Iff.rfl
  rw [henough]
  by_cases href : cowRefused (k.ctxList pid) cr2 = true
  · have hrun : k.run pick (.cow pid cr2) = (-1, k) := if_pos href
    refine ⟨fun _ => .inl href, fun _ => handled_of_sound ?_ ?_⟩
    · rw [hrun]; exact hk
    · rw [hrun]
  by_cases hone : k.ram.refcount (k.ram.mem pte.1 pte.2).frame = 1
  · have hrun : k.run pick (.cow pid cr2) = (1, { k with
        ram := (k.ram.put pte.1 pte.2 { k.ram.mem pte.1 pte.2 with present := true, write := true }) }) := by
      rw [hpte] at hone ⊢
      exact (if_neg href).trans (if_pos hone)
    refine ⟨fun _ => .inr (.inl hone), fun _ => handled_of_sound ?_ ?_⟩
    · rw [hrun]; exact cow_inPlace hk hg hpte
    · rw [hrun]; rfl
  -- the counter goes down, and a frame is taken
  obtain ⟨r, hr⟩ : ∃ r : Ram, r = { k.ram with
      refcount := Function.update k.ram.refcount (k.ram.mem pte.1 pte.2).frame
        (k.ram.refcount (k.ram.mem pte.1 pte.2).frame - 1) } := ⟨_, rfl⟩
  obtain ⟨a, ha'⟩ : ∃ a, a = r.osPfnAlloc pick .user := ⟨_, rfl⟩
  have hrun : k.run pick (.cow pid cr2) = (1, { k with
      ram := (a.2.copyFrame a.1 (a.2.mem pte.1 pte.2).frame).put pte.1 pte.2 ⟨a.1, true, true, true⟩ }) := by
    rw [hpte] at hone hr ⊢
    rw [ha', hr]
    exact (if_neg href).trans (if_neg hone)
  have hs : r.Sound k.root := by
    rw [hr]
    exact Ram.Sound.mono hk rfl (Finset.Subset.refl _)
  have hpte' : pte = (r.getUserPte (k.ctxList pid).pgd cr2).getD Ram.null := by rw [hpte, hr]; rfl
  have hfree : r.freePages = k.ram.freePages := by rw [hr]
  have hoops : r.oops = k.ram.oops := by rw [hr]
  by_cases huser : 0 < k.ram.freePages .user
  · obtain ⟨h1, h2⟩ := cow_copied (a.2.mem pte.1 pte.2).frame hpick hs hg hpte' ha' (hfree ▸ huser)
    refine ⟨fun _ => .inr (.inr huser), fun _ => handled_of_sound ?_ ?_⟩
    · rw [hrun]; exact h1
    · rw [hrun]; exact h2.trans hoops
  · have hzero : r.freePages .user = 0 := by rw [hfree]; omega
    have hfail : a.2.oops = r.oops + 1 := by
      rw [ha']
      unfold Ram.osPfnAlloc
      rw [if_pos hzero]
    refine ⟨fun h => absurd h (not_handled trivial ?_ ?_), fun h => absurd h (by simp [href, hone, huser])⟩
    · rw [hrun]
    · rw [hrun]
      show k.ram.oops < a.2.oops
      omega

/-! ## Mapping, and cfork -/

/-- Another list of areas, and the same page tables. -/
theorem root_setCtx (r : Ram) {pid : Nat} {c : Ctx} (hpgd : c.pgd = (k.ctxList pid).pgd) (hstate : c.state = (k.ctxList pid).state)
    (g : Nat) : Psys.root { k.setCtx pid c with ram := r } g ↔ k.root g := by
  have hsame : ∀ i, ((k.setCtx pid c).ctxList i).pgd = (k.ctxList i).pgd ∧
      ((k.setCtx pid c).ctxList i).state = (k.ctxList i).state := by
    intro i
    by_cases hi : i = pid
    · rw [hi]
      simp [setCtx, hpgd, hstate]
    · simp [setCtx, hi]
  apply exists_congr
  intro i
  rw [(hsame i).1, (hsame i).2]

theorem sound_setCtx {r : Ram} {pid : Nat} {c : Ctx} (hpgd : c.pgd = (k.ctxList pid).pgd) (hstate : c.state = (k.ctxList pid).state)
    (hr : r.Sound k.root) : Psys.Sound { k.setCtx pid c with ram := r } := by
  have hsame : Psys.root { k.setCtx pid c with ram := r } = k.root := funext fun g => propext (root_setCtx r hpgd hstate g)
  unfold Psys.Sound
  rw [hsame]
  exact hr

/-- A context with page table `g` in place of another. -/
theorem sound_child {r : Ram} {child g : Nat} {c : Ctx} (hpgd : c.pgd = g) (hr : r.Sound fun f => f = g ∨ k.root f) :
    Psys.Sound { k.setCtx child c with ram := r } := by
  apply hr.fewer
  intro f h
  obtain ⟨i, h1, h2⟩ := h
  by_cases hi : i = child
  · subst hi
    refine .inl (h2.symm.trans ?_)
    show (Function.update k.ctxList i c i).pgd = g
    rw [Function.update_self, hpgd]
  · refine .inr ⟨i, ?_, ?_⟩
    · simpa [setCtx, hi] using h1
    · simpa [setCtx, hi] using h2

theorem map_handled (hk : k.Sound) (hpick : Picks pick) {pid addr : Nat} {length : Int} {prot flags : UInt32}
    (ha : k.Acts (.map pid addr length prot flags)) (h : k.Enough (.map pid addr length prot flags)) :
    k.Handled pick (.map pid addr length prot flags) := by
  have hg : k.root (k.ctxList pid).pgd := ⟨pid, ha, rfl⟩
  obtain ⟨m, hm⟩ : ∃ m, m = mapAreas (k.ctxList pid).vmArea addr length prot flags := ⟨_, rfl⟩
  obtain ⟨k', hk'⟩ : ∃ k', k' = k.setCtx pid { k.ctxList pid with vmArea := m.2.1 } := ⟨_, rfl⟩
  have hsound : ∀ r : Ram, r.Sound k.root → Psys.Sound { k' with ram := r } := by
    intro r hr
    rw [hk']
    exact sound_setCtx rfl rfl hr
  have hram : k'.ram = k.ram := by rw [hk']; rfl
  have hself : Psys.Sound k' := by have h := hsound k'.ram (by rw [hram]; exact hk); exact h
  have hrun : k.run pick (.map pid addr length prot flags) = if m.1 = -1 then (-1, k')
      else if flags &&& MAP_POPULATE ≠ 0 then
        ((m.1.toNat : Int), { k' with
          ram := ((Sys.vaddrs m.1.toNat (plus m.1.toNat (pageRound length))).foldl (allocPfn pick (k.ctxList pid).pgd prot) k'.ram) })
      else (m.1, k') := by rw [hk', hm]; rfl
  by_cases h1 : m.1 = -1
  · rw [if_pos h1] at hrun
    refine handled_of_sound ?_ ?_
    · rw [hrun]; exact hself
    · rw [hrun]; exact congrArg Ram.oops hram
  rw [if_neg h1] at hrun
  by_cases h2 : flags &&& MAP_POPULATE ≠ 0
  · rw [if_pos h2] at hrun
    have hfits : k.Fits (k.ctxList pid).pgd (Sys.vaddrs m.1.toNat (plus m.1.toNat (pageRound length))) := by
      rw [hm] at h1 ⊢
      exact (h.resolve_left h1).resolve_left h2
    obtain ⟨s1, e1⟩ := Ram.populate_spec (q := topsOf (Sys.vaddrs m.1.toNat (plus m.1.toNat (pageRound length)))) hpick prot hk hg
      (fun v hv => Ram.tops_subset hv) (fun x hx => Ram.topsOf_short hx) hfits.1 hfits.2
    refine handled_of_sound ?_ ?_
    · rw [hrun, hram]; exact hsound _ s1
    · rw [hrun, hram]; exact e1.oops
  · rw [if_neg h2] at hrun
    refine handled_of_sound ?_ ?_
    · rw [hrun]; exact hself
    · rw [hrun]; exact congrArg Ram.oops hram

theorem install_handled (hk : k.Sound) (hpick : Picks pick) {pid addr : Nat} {errorCode : UInt64}
    (ha : k.Acts (.install pid addr errorCode)) (h : k.Enough (.install pid addr errorCode)) :
    k.Handled pick (.install pid addr errorCode) := by
  have hg : k.root (k.ctxList pid).pgd := ⟨pid, ha, rfl⟩
  have hfits := (fits_one k (k.ctxList pid).pgd addr).mp h
  rcases Ram.mapUser_fits hpick hk hg addr (errorCode &&& 2 ≠ 0) (errorCode &&& 2 ≠ 0) with ⟨h1, h2, -⟩ | ⟨h1, -⟩
  · exact handled_of_sound h1 h2
  · exact absurd hfits h1

theorem cfork_handled (hk : k.Sound) (hpick : Picks pick) {child parent : Nat} (ha : k.Acts (.cfork child parent))
    (h : k.Enough (.cfork child parent)) : k.Handled pick (.cfork child parent) := by
  have hg : k.root (k.ctxList parent).pgd := ⟨parent, ha, rfl⟩
  obtain ⟨hpt, huser⟩ := h
  obtain ⟨a, ha'⟩ : ∃ a, a = k.ram.osPfnAlloc pick .pt := ⟨_, rfl⟩
  obtain ⟨s1, hnew, hpt1, huser1, hoops1, hfollow⟩ := Ram.alloc_root hpick hk (by omega) ha'
  obtain ⟨c, hc⟩ : ∃ c : Ctx, c = { k.ctxList child with vmArea := (k.ctxList parent).vmArea, pgd := a.1 } := ⟨_, rfl⟩
  obtain ⟨q, hq⟩ : ∃ q, q = topsOf ((k.present (k.ctxList parent).pgd (sharedPages (k.ctxList child) (k.ctxList parent).vmArea) ++
    k.present (k.ctxList parent).pgd (copiedPages (k.ctxList child))).map target) := ⟨_, rfl⟩
  rw [← hq] at hpt
  have hpages : sharedPages c (k.ctxList parent).vmArea = sharedPages (k.ctxList child) (k.ctxList parent).vmArea ∧
      copiedPages c = copiedPages (k.ctxList child) := by
    rw [hc]
    exact ⟨rfl, rfl⟩
  have hne : (k.ctxList parent).pgd ≠ a.1 := fun he => hnew (he ▸ (hk.within _ [] _ hg (by simp) rfl).1)
  have hmissing : ((a.2.bzero a.1).missing a.1 q).card ≤ q.card := Finset.card_filter_le ..
  obtain ⟨s2, e2⟩ := Ram.forkPages_spec (q := q) c (k.ctxList parent).vmArea
    (fun page => (k.ram.getUserPte (k.ctxList parent).pgd page.2).isSome) hpick (.inr hg) (.inl rfl) hne
    (fun x hx => Ram.topsOf_short (hq ▸ hx)) s1
    (fun page => by rw [hfollow _ _ hg (by simp [Ram.pagePath])]; exact Ram.Sound.isSome hk hg)
    (fun page hpage hthere => by
      rw [hq]
      apply Ram.tops_subset
      rw [hpages.1, hpages.2] at hpage
      unfold present
      rw [← List.filter_append]
      exact List.mem_map_of_mem (List.mem_filter.mpr ⟨hpage, hthere⟩))
    (by omega) (by rw [hpages.2, huser1]; exact huser)
  have hrun : k.run pick (.cfork child parent) = (0, { k.setCtx child c with
      ram := forkPages pick c (k.ctxList parent).vmArea a.1 (k.ctxList parent).pgd (a.2.bzero a.1) }) := by
    rw [hc, ha']
    rfl
  have hoops := e2.oops.trans hoops1
  refine handled_of_sound ?_ ?_
  · rw [hrun]; exact sound_child (by rw [hc]) s2
  · rw [hrun]; exact hoops

/-! ## Enough frames, or not -/

/-- Where too few frames are certain to show. -/
def Shows (k : Psys) : Call → Prop
  | .pagefault .. | .cow .. => True
  | .install .. => k.ram.Sink
  | .map .. | .cfork .. => False

theorem install_enough (hk : k.Sound) (hpick : Picks pick) {pid addr : Nat} {errorCode : UInt64}
    (ha : k.Acts (.install pid addr errorCode)) (hsink : k.ram.Sink) (h : k.Handled pick (.install pid addr errorCode)) :
    k.Enough (.install pid addr errorCode) := by
  have hg : k.root (k.ctxList pid).pgd := ⟨pid, ha, rfl⟩
  apply (fits_one k (k.ctxList pid).pgd addr).mpr
  by_contra hfull
  obtain ⟨x, hx0, hx4, hx⟩ := Ram.mapUser_lost (errorCode &&& 2 ≠ 0) (errorCode &&& 2 ≠ 0) hpick hk hg hsink hfull
  exact (h.safe _ x 0 hg hx0 hx4 hx).2 rfl

theorem exhaustion_handled (k : Psys) (pick : Region → Finset Nat → Nat) (c : Call) (hk : k.Sound) (hpick : Picks pick)
    (ha : k.Acts c) : (k.Enough c → k.Handled pick c) ∧ (k.Shows c → k.Handled pick c → k.Enough c) := by
  cases c with
  | pagefault pid addr errorCode =>
    have h := pagefault_iff hk hpick ha
    exact ⟨h.mpr, fun _ => h.mp⟩
  | cow pid cr2 =>
    have h := cow_iff hk hpick ha
    exact ⟨h.mpr, fun _ => h.mp⟩
  | map pid addr length prot flags => exact ⟨map_handled hk hpick ha, False.elim⟩
  | install pid addr errorCode => exact ⟨install_handled hk hpick ha, install_enough hk hpick ha⟩
  | cfork child parent => exact ⟨cfork_handled hk hpick ha, False.elim⟩

/-- The frame behind the highest one in use. -/
def lowest (_ : Region) (u : Finset Nat) : Nat := Sys.nextFrame u

theorem picks_lowest : Picks lowest := fun _ u => Sys.picks_nextFrame u

/-- No frame in use, and room for 8 tables and `n` pages. -/
def unused (n : Nat) : Ram := ⟨fun _ _ => .zero, fun _ => 0, ∅, fun region => if region = .pt then 8 else n, 0⟩

/-- One process with one area and an empty page table. -/
def single (n : Nat) : Psys where
  ctxList := fun pid =>
    if pid = 1 then { Sys.initCtx 1 with vmArea := [⟨MMAP_AREA_START, MMAP_AREA_START + 4096, 3⟩] }
    else ⟨0, .unused, 0, Sys.noSegment, Sys.noSegment, Sys.noSegment, Sys.noSegment, []⟩
  ram := ((unused n).osPfnAlloc lowest .pt).2.bzero ((unused n).osPfnAlloc lowest .pt).1

theorem single_sound (n : Nat) : (single n).Sound := by
  have hempty : (unused n).Sound fun _ => False := ⟨fun _ _ _ _ _ h => h.elim, fun _ _ _ h => h.elim, fun _ _ _ h => h.elim⟩
  have hfree : (unused n).freePages .pt ≠ 0 := by
    unfold unused
    simp
  refine (Ram.alloc_root picks_lowest hempty hfree rfl).1.fewer fun g hg => ?_
  obtain ⟨i, h1, rfl⟩ := hg
  refine .inl ?_
  by_cases hi : i = 1
  · subst hi
    rfl
  · exact absurd (by unfold single; simp [hi]) h1

/-- A first access with frames left. -/
theorem exhaustion_handled_single : (single 1).Handled lowest (.pagefault 1 MMAP_AREA_START 4) := by
  have hacts : (single 1).Acts (.pagefault 1 MMAP_AREA_START 4) := fun h => by cases h
  refine (exhaustion_handled (single 1) lowest (.pagefault 1 MMAP_AREA_START 4) (single_sound 1) picks_lowest hacts).1 ?_
  exact .inr ((fits_one _ _ _).mpr (by decide +kernel))

/-- And with none: the PTE refers to frame 0, and the fault counts as resolved. -/
theorem fault_maps_frame_zero : (single 0).Sound ∧ (single 0).Acts (.pagefault 1 MMAP_AREA_START 4) ∧
    ((single 0).run lowest (.pagefault 1 MMAP_AREA_START 4)).1 = 1 ∧
    (single 0).ram.oops < ((single 0).run lowest (.pagefault 1 MMAP_AREA_START 4)).2.ram.oops ∧
    ((single 0).run lowest (.pagefault 1 MMAP_AREA_START 4)).2.pte 1 MMAP_AREA_START = some ⟨0, true, false, true⟩ ∧
    ¬ (single 0).Handled lowest (.pagefault 1 MMAP_AREA_START 4) := by
  have hret : ((single 0).run lowest (.pagefault 1 MMAP_AREA_START 4)).1 = 1 := by decide +kernel
  have hoops : (single 0).ram.oops < ((single 0).run lowest (.pagefault 1 MMAP_AREA_START 4)).2.ram.oops := by decide +kernel
  have hacts : (single 0).Acts (.pagefault 1 MMAP_AREA_START 4) := fun h => by cases h
  exact ⟨single_sound 0, hacts, hret, hoops, by decide +kernel, not_handled trivial hret hoops⟩

end Psys

end Cs330.Mm
