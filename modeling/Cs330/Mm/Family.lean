/-
  Cs330.Mm.Family — which pages a process has, in runs with vfork.

  Processes that share a page table form a chain: each but the last is suspended and awaits
  the next. A process outside such chains has its table to itself, and every page mapped
  there lies in its segments and areas, as long as no chain ends: when the first child of a
  chain exits, the copied stack and what RODATA has grown by stay in the table of the
  parent, whose own segments do not say so (`leftover_page`).

  The copy of the stack must not run below address 0. `lv i` bounds how often a stack was
  doubled on the way to process `i`. The first two members of a chain never leave it, so
  there are at most three chains, and the later ones are short (`level_le`): no stack is
  doubled more than nine times.

  Proved: `pages_described`, over all runs in which no vfork child exits whose parent is not
  a vfork child itself.
-/
import Mathlib.Data.Finset.Card
import Mathlib.Order.Interval.Finset.Nat
import Cs330.Mm.Footprint
import Cs330.Mm.Ownership

namespace Cs330.Mm

open Lib Vm Function

namespace Vsys

/-! ## How deep a stack can be -/

/-- No more than a full stack and a page, `l` times doubled. -/
def Deep (c : Ctx) (l : Nat) : Prop := STACK_START + 4096 ≤ c.stack.nextFree + (MAX_STACK_SIZE + 4096) * 2 ^ l

/-- How often a stack may have been doubled when there are `r` chains. -/
def levelBound : Nat → Nat
  | 0 => 0
  | 1 => 5
  | 2 => 8
  | _ => 9

theorem levelBound_mono : Monotone levelBound := by
  refine monotone_nat_of_le_succ fun r => ?_
  match r with
  | 0 | 1 | 2 => decide
  | r + 3 => exact Nat.le_refl 9

theorem levelBound_le (r : Nat) : levelBound r ≤ 9 := by
  match r with
  | 0 | 1 | 2 => decide
  | r + 3 => exact Nat.le_refl 9

theorem Deep.room {c : Ctx} {l : Nat} (h : Deep c l) (hl : l ≤ 9) : STACK_START / 2 + 4096 ≤ c.stack.nextFree := by
  have hpow : 2 ^ l ≤ 2 ^ 9 := Nat.pow_le_pow_right (by decide) hl
  unfold Deep STACK_START MAX_STACK_SIZE at h
  unfold STACK_START
  omega

/-- The stack is copied below itself, one page further. -/
theorem vfork_stack {c : Ctx} (hs : c.Shape) {l : Nat} (h : Deep c l) (hl : l ≤ 9) :
    minus c.stack.nextFree (vforkOffset c.stack) + STACK_START + 4096 = 2 * c.stack.nextFree ∧
      4096 ∣ minus c.stack.nextFree (vforkOffset c.stack) ∧
      minus c.stack.nextFree (vforkOffset c.stack) < STACK_START := by
  obtain ⟨-, hs2, hs3, hs4⟩ := hs.stack
  have hroom := h.room hl
  have hoff : vforkOffset c.stack = STACK_START - c.stack.nextFree + 4096 := by
    unfold vforkOffset
    unfold STACK_START at hs2 hs3 ⊢
    rw [hs2]
    omega
  rw [hoff]
  unfold STACK_START at *
  unfold minus
  omega

/-! ## Chains -/

section
variable (v : Vsys)

/-- The suspended processes, and those that are the first of a chain. -/
noncomputable def suspended : Finset Nat := open Classical in (Finset.Icc 1 6).filter fun a => v.awaits a ≠ none

noncomputable def roots : Finset Nat := open Classical in v.suspended.filter fun a => ¬ v.IsChild a

end

structure Chains (v : Vsys) (lv pos : Nat → Nat) : Prop where
  link : ∀ a c, v.awaits a = some c → v.sys.Live a ∧ v.sys.Live c ∧ (v.sys.ctxList a).state = .waiting ∧
    (v.sys.ctxList c).ppid = a ∧ (v.sys.ctxList c).pgd = (v.sys.ctxList a).pgd
  next : ∀ a c, v.awaits a = some c → lv c = lv a + 1 ∧ pos c = pos a + 1
  root : ∀ a, v.awaits a ≠ none → ¬ v.IsChild a → pos a = 0 ∧ lv a ≤ levelBound (v.roots.card - 1)
  free : ∀ i, v.sys.Live i → v.Free i → lv i ≤ levelBound v.roots.card

variable {v w : Vsys} {lv pos : Nat → Nat} {i a c : Nat}

theorem live_slot {s : Sys} (h : s.Live i) : i ∈ Finset.Icc 1 6 := by
  have hlt : i < 7 := h.2.1
  exact Finset.mem_Icc.mpr ⟨h.1, by omega⟩

namespace Chains

variable (h : Chains v lv pos)
include h

theorem mem_suspended : a ∈ v.suspended ↔ v.awaits a ≠ none := by
  unfold suspended
  rw [Finset.mem_filter]
  refine ⟨And.right, fun hne => ⟨?_, hne⟩⟩
  obtain ⟨c, hc⟩ := Option.ne_none_iff_exists'.mp hne
  exact live_slot (h.link a c hc).1

theorem mem_roots : a ∈ v.roots ↔ v.awaits a ≠ none ∧ ¬ v.IsChild a := by
  classical
  simp only [roots, Finset.mem_filter, h.mem_suspended]

theorem roots_subset : v.roots ⊆ v.suspended := fun _ ha => h.mem_suspended.mpr (h.mem_roots.mp ha).1

theorem parent_unique {b : Nat} (ha : v.awaits a = some c) (hb : v.awaits b = some c) : a = b := by
  rw [← (h.link a c ha).2.2.2.1, (h.link b c hb).2.2.2.1]

/-- The first members of the chains, and the members that are awaited. -/
theorem roots_add_suspended : v.roots.card + v.suspended.card ≤ 6 := by
  classical
  obtain ⟨f, hf⟩ : ∃ f : Nat → Nat, f = fun a => (v.awaits a).getD 0 := ⟨_, rfl⟩
  have hsome : ∀ a ∈ v.suspended, v.awaits a = some (f a) := fun a ha => by
    obtain ⟨c, hc⟩ := Option.ne_none_iff_exists'.mp (h.mem_suspended.mp ha)
    simp only [hf, hc, Option.getD_some]
  have hcard : (v.suspended.image f).card = v.suspended.card :=
    Finset.card_image_of_injOn fun a ha b hb he => h.parent_unique (hsome a ha) ((hsome b hb).trans (by rw [he]))
  have hdisj : Disjoint v.roots (v.suspended.image f) := by
    rw [Finset.disjoint_left]
    intro r hr himg
    obtain ⟨a, ha, rfl⟩ := Finset.mem_image.mp himg
    exact (h.mem_roots.mp hr).2 ⟨a, hsome a ha⟩
  have hsub : v.roots ∪ v.suspended.image f ⊆ Finset.Icc 1 6 := by
    intro i hi
    rcases Finset.mem_union.mp hi with hi | hi
    · obtain ⟨c, hc⟩ := Option.ne_none_iff_exists'.mp (h.mem_roots.mp hi).1
      exact live_slot (h.link i c hc).1
    · obtain ⟨a, ha, rfl⟩ := Finset.mem_image.mp hi
      exact live_slot (h.link a (f a) (hsome a ha)).2.1
  calc v.roots.card + v.suspended.card = (v.roots ∪ v.suspended.image f).card := by
        rw [Finset.card_union_of_disjoint hdisj, hcard]
    _ ≤ (Finset.Icc 1 6).card := Finset.card_le_card hsub
    _ = 6 := by decide

/-- Every place before a member of a chain is taken by a suspended process. -/
theorem places_before (n : Nat) (hn : pos i = n) (hi : v.IsChild i) : ∀ p < n, ∃ b ∈ v.suspended, pos b = p := by
  induction n generalizing i with
  | zero => exact fun p hp => absurd hp (Nat.not_lt_zero p)
  | succ n ih =>
    obtain ⟨a, ha⟩ := hi
    have hpos : pos a = n := by
      have hnext := (h.next a i ha).2
      omega
    have hsus : a ∈ v.suspended := h.mem_suspended.mpr (by rw [ha]; exact Option.some_ne_none i)
    intro p hp
    by_cases hpn : p = n
    · exact ⟨a, hsus, hpn ▸ hpos⟩
    by_cases hchild : v.IsChild a
    · exact ih hpos hchild p (by omega)
    · have hroot := (h.root a (h.mem_suspended.mp hsus) hchild).1
      omega

theorem chain_root (n : Nat) (hn : pos i = n) (hi : v.IsChild i ∨ v.awaits i ≠ none) : ∃ r ∈ v.roots, lv i = lv r + n := by
  induction n generalizing i with
  | zero =>
    by_cases hchild : v.IsChild i
    · obtain ⟨a, ha⟩ := hchild
      have hnext := (h.next a i ha).2
      omega
    · exact ⟨i, h.mem_roots.mpr ⟨hi.resolve_left hchild, hchild⟩, rfl⟩
  | succ n ih =>
    by_cases hchild : v.IsChild i
    · obtain ⟨a, ha⟩ := hchild
      obtain ⟨h1, h2⟩ := h.next a i ha
      have hpos : pos a = n := by omega
      obtain ⟨r, hr, hlv⟩ := ih hpos (.inr (by rw [ha]; exact Option.some_ne_none i))
      exact ⟨r, hr, by omega⟩
    · have hroot := (h.root i (hi.resolve_left hchild) hchild).1
      omega

theorem pos_le (hi : v.IsChild i) : pos i + 2 * v.roots.card ≤ 7 := by
  classical
  have hall := h.places_before (pos i) rfl hi
  have hsub : (Finset.Icc 1 (pos i - 1)) ⊆ (v.suspended \ v.roots).image pos := by
    intro p hp
    obtain ⟨h1, h2⟩ := Finset.mem_Icc.mp hp
    obtain ⟨b, hb, hpb⟩ := hall p (by omega)
    refine Finset.mem_image.mpr ⟨b, Finset.mem_sdiff.mpr ⟨hb, fun hr => ?_⟩, hpb⟩
    obtain ⟨hne, hchild⟩ := h.mem_roots.mp hr
    have hroot := (h.root b hne hchild).1
    omega
  have hcard : pos i - 1 ≤ (v.suspended \ v.roots).card := by
    calc pos i - 1 = (Finset.Icc 1 (pos i - 1)).card := by rw [Nat.card_Icc]; omega
      _ ≤ ((v.suspended \ v.roots).image pos).card := Finset.card_le_card hsub
      _ ≤ (v.suspended \ v.roots).card := Finset.card_image_le
  have hsplit : (v.suspended \ v.roots).card + v.roots.card = v.suspended.card :=
    Finset.card_sdiff_add_card_eq_card h.roots_subset
  have hsum := h.roots_add_suspended
  omega

/-- No live process has a stack that was doubled more often than the chains allow. -/
theorem level_le (hi : v.sys.Live i) : lv i ≤ levelBound v.roots.card := by
  by_cases hfree : v.Free i
  · exact h.free i hi hfree
  have hmem : v.IsChild i ∨ v.awaits i ≠ none := by
    by_contra hno
    exact hfree ⟨by_contra fun hne => hno (.inr hne), fun hc => hno (.inl hc)⟩
  obtain ⟨r, hr, hlv⟩ := h.chain_root (pos i) rfl hmem
  obtain ⟨hne, hchild⟩ := h.mem_roots.mp hr
  have hroot := (h.root r hne hchild).2
  have hpos : 0 < v.roots.card := Finset.card_pos.mpr ⟨r, hr⟩
  have hsum := h.roots_add_suspended
  have hle : v.roots.card ≤ v.suspended.card := Finset.card_le_card h.roots_subset
  have hplace : pos i + 2 * v.roots.card ≤ 7 := by
    by_cases hc : v.IsChild i
    · exact h.pos_le hc
    · have hzero := (h.root i (hmem.resolve_left hc) hc).1
      omega
  have hthree : v.roots.card = 1 ∨ v.roots.card = 2 ∨ v.roots.card = 3 := by omega
  rcases hthree with hr | hr | hr
  · rw [hr] at hroot hplace ⊢
    simp only [levelBound] at hroot ⊢
    omega
  · rw [hr] at hroot hplace ⊢
    simp only [levelBound] at hroot ⊢
    omega
  · rw [hr] at hroot hplace ⊢
    simp only [levelBound] at hroot ⊢
    omega

end Chains

/-! ## The invariant -/

structure Inv (v : Vsys) (lv pos : Nat → Nat) : Prop extends Chains v lv pos where
  swapper : (v.sys.ctxList 0).state ≠ .unused
  shape : ∀ i, v.sys.Live i → (v.sys.ctxList i).Shape
  deep : ∀ i, v.sys.Live i → Deep (v.sys.ctxList i) (lv i)
  own : ∀ i, v.sys.Live i → v.Free i → ∀ j, (v.sys.ctxList j).pgd = (v.sys.ctxList i).pgd → j = i
  covers : ∀ i, v.sys.Live i → v.Free i → v.sys.Covers i

theorem Start.inv (h : v.Start) : Inv v (fun _ => 0) fun _ => 0 := by
  obtain ⟨hs, hnone⟩ := h
  have hb := Sys.start_base hs
  have hno : ∀ a c, v.awaits a ≠ some c := fun a c hc => by
    rw [hnone] at hc
    cases hc
  have hroots : ∀ a, v.awaits a = none := fun a => by rw [hnone]
  refine ⟨⟨fun a c hc => absurd hc (hno a c), fun a c hc => absurd hc (hno a c), fun a ha => absurd (hroots a) ha,
    fun i _ _ => Nat.zero_le _⟩, hb.swapper, fun i hi => (hb.layout i hi).shape, fun i hi => ?_,
    fun i hi _ j he => hb.distinct i j hi he, fun i hi _ k hk => ?_⟩
  · have hlow := (hb.layout i hi).stack.2.2.1
    unfold Deep
    unfold STACK_START MAX_STACK_SIZE at *
    omega
  · obtain ⟨e, he⟩ := Option.ne_none_iff_exists'.mp hk
    exact (Sys.start_each False hs i k e ((Sys.frames_map hi k).trans he)).holds

section
variable {s t : Sys} {pid : Nat}

/-- The process that takes a step is not suspended. -/
theorem Chains.runs (h : Chains v lv pos) (hw : (v.sys.ctxList pid).state ≠ .waiting) : v.awaits pid = none := by
  by_contra hne
  obtain ⟨c, hc⟩ := Option.ne_none_iff_exists'.mp hne
  exact hw (h.link pid c hc).2.2.1

/-- No chain changes. -/
theorem Chains.transfer (h : Chains v lv pos) (hlive : ∀ i, t.Live i ↔ v.sys.Live i)
    (hpgd : ∀ i, (t.ctxList i).pgd = (v.sys.ctxList i).pgd) (hppid : ∀ i, (t.ctxList i).ppid = (v.sys.ctxList i).ppid)
    (hstate : ∀ a, v.awaits a ≠ none → (t.ctxList a).state = (v.sys.ctxList a).state) : Chains ⟨t, v.awaits⟩ lv pos := by
  refine ⟨fun a c hc => ?_, h.next, h.root, fun i hi hf => h.free i ((hlive i).mp hi) hf⟩
  obtain ⟨h1, h2, h3, h4, h5⟩ := h.link a c hc
  have hne : v.awaits a ≠ none := fun hn => by
    have hc : v.awaits a = some c := hc
    rw [hn] at hc
    cases hc
  exact ⟨(hlive a).mpr h1, (hlive c).mpr h2, (hstate a hne).trans h3, (hppid c).trans h4,
    (hpgd c).trans (h5.trans (hpgd a).symm)⟩

theorem Inv.keeps (h : Inv v lv pos) (hl : v.sys.Live pid) (hw : (v.sys.ctxList pid).state ≠ .waiting)
    (hk : Sys.Keeps pid v.sys t) : Inv ⟨t, v.awaits⟩ lv pos := by
  have hpid := h.runs hw
  have hlive : ∀ i, t.Live i ↔ v.sys.Live i := fun i => by
    unfold Sys.Live
    by_cases hi : i = pid
    · rw [hi, hk.state]
    · rw [hk.others i hi]
  have hpgd : ∀ i, (t.ctxList i).pgd = (v.sys.ctxList i).pgd := fun i => by
    by_cases hi : i = pid
    · rw [hi, hk.pgd]
    · rw [hk.others i hi]
  refine ⟨h.toChains.transfer hlive hpgd (fun i => ?_) (fun a ha => ?_), ?_, fun i hi => ?_, fun i hi => ?_,
    fun i hi hf j he => ?_, fun i hi hf => ?_⟩
  · by_cases hi : i = pid
    · rw [hi, hk.ppid]
    · rw [hk.others i hi]
  · rw [hk.others a fun he => ha (he ▸ hpid)]
  · show (t.ctxList 0).state ≠ .unused
    rw [hk.others 0 (Nat.ne_of_lt hl.1)]
    exact h.swapper
  · by_cases hip : i = pid
    · exact hip ▸ hk.shape
    · rw [hk.others i hip]
      exact h.shape i ((hlive i).mp hi)
  · have hold := h.deep i ((hlive i).mp hi)
    by_cases hip : i = pid
    · subst hip
      show STACK_START + 4096 ≤ (t.ctxList i).stack.nextFree + (MAX_STACK_SIZE + 4096) * 2 ^ lv i
      rcases hk.stack with hst | hst
      · rwa [hst]
      · have hone : 1 ≤ 2 ^ lv i := Nat.one_le_two_pow
        unfold STACK_START MAX_STACK_SIZE at *
        omega
    · rw [hk.others i hip]
      exact hold
  · rw [hpgd, hpgd] at he
    exact h.own i ((hlive i).mp hi) hf j he
  · have hold := h.covers i ((hlive i).mp hi) hf
    by_cases hip : i = pid
    · subst hip
      exact hk.covers hold
    · -- its table is not that of `pid`
      have hne : (v.sys.ctxList i).pgd ≠ (v.sys.ctxList pid).pgd := fun he =>
        hip (h.own i ((hlive i).mp hi) hf pid he.symm).symm
      intro k hk'
      unfold Sys.table at hk'
      rw [hk.others i hip, hk.tables _ hne] at hk'
      rw [hk.others i hip]
      exact hold k hk'

/-! ## Exit -/

/-- A process with a page table of its own. -/
theorem Inv.exit_free (h : Inv v lv pos) (hl : v.sys.Live pid) (hf : v.Free pid) :
    Inv (v.settle pid (v.sys.doExit pid)) lv pos := by
  have hexit : v.sys.doExit pid = v.sys.setCtx pid { v.sys.ctxList pid with state := .unused } := by
    unfold Sys.doExit Sys.vforkExitHandle
    simp only
    split
    · rfl
    · rename_i hsame
      have he : (v.sys.ctxList pid).ppid = pid := h.own pid hl hf _ (not_not.mp hsame)
      simp only [he]
      unfold Sys.setCtx
      simp only [update_self, update_idem]
  obtain ⟨t, ht⟩ : ∃ t, t = v.sys.doExit pid := ⟨_, rfl⟩
  rw [← ht]
  have hctx : ∀ i, i ≠ pid → t.ctxList i = v.sys.ctxList i := fun i hi => by
    rw [ht, hexit]
    exact update_of_ne hi ..
  have hself : t.ctxList pid = { v.sys.ctxList pid with state := .unused } := by
    rw [ht, hexit]
    exact update_self ..
  have htab : t.tables = v.sys.tables := by rw [ht, hexit]; rfl
  have haw : (v.settle pid t).awaits = v.awaits := by
    funext a
    exact if_neg fun hc => hf.2 ⟨a, hc.2⟩
  have hsettle : v.settle pid t = ⟨t, v.awaits⟩ := by rw [← haw]; rfl
  rw [hsettle]
  have hlive : ∀ i, t.Live i ↔ i ≠ pid ∧ v.sys.Live i := fun i => by
    unfold Sys.Live
    by_cases hi : i = pid
    · rw [hi, hself]
      simp
    · rw [hctx i hi]
      simp [hi]
  have hpgd : ∀ i, (t.ctxList i).pgd = (v.sys.ctxList i).pgd := fun i => by
    by_cases hi : i = pid
    · rw [hi, hself]
    · rw [hctx i hi]
  refine ⟨⟨fun a c hc => ?_, h.next, h.root, fun i hi hf => h.free i ((hlive i).mp hi).2 hf⟩, ?_, fun i hi => ?_,
    fun i hi => ?_, fun i hi hf j he => ?_, fun i hi hf k hk => ?_⟩
  · have hc : v.awaits a = some c := hc
    obtain ⟨h1, h2, h3, h4, h5⟩ := h.link a c hc
    have ha : a ≠ pid := fun he => by rw [he, hf.1] at hc; cases hc
    have hcp : c ≠ pid := fun he => hf.2 ⟨a, he ▸ hc⟩
    show t.Live a ∧ t.Live c ∧ (t.ctxList a).state = .waiting ∧ (t.ctxList c).ppid = a ∧ (t.ctxList c).pgd = (t.ctxList a).pgd
    rw [hlive, hlive, hctx a ha, hctx c hcp]
    exact ⟨⟨ha, h1⟩, ⟨hcp, h2⟩, h3, h4, h5⟩
  · show (t.ctxList 0).state ≠ .unused
    rw [hctx 0 (Nat.ne_of_lt hl.1)]
    exact h.swapper
  · obtain ⟨hip, hi⟩ := (hlive i).mp hi
    show (t.ctxList i).Shape
    rw [hctx i hip]
    exact h.shape i hi
  · obtain ⟨hip, hi⟩ := (hlive i).mp hi
    show Deep (t.ctxList i) (lv i)
    rw [hctx i hip]
    exact h.deep i hi
  · have he : (t.ctxList j).pgd = (t.ctxList i).pgd := he
    rw [hpgd, hpgd] at he
    exact h.own i ((hlive i).mp hi).2 hf j he
  · obtain ⟨hip, hi⟩ := (hlive i).mp hi
    show (t.ctxList i).Holds k
    have hk : (t.tables (t.ctxList i).pgd).pte k ≠ none := hk
    rw [hctx i hip, htab] at hk
    rw [hctx i hip]
    exact h.covers i hi hf k hk

/-! ### A chain that ends one process earlier -/

section
variable (haw : ∀ b c, w.awaits b = some c ↔ b ≠ a ∧ v.awaits b = some c)
include haw

theorem cut_isChild (h : Chains v lv pos) (ha : v.awaits a = some pid) : w.IsChild i ↔ i ≠ pid ∧ v.IsChild i := by
  constructor
  · intro hi
    obtain ⟨b, hb⟩ := hi
    obtain ⟨hba, hb⟩ := (haw b i).mp hb
    exact ⟨fun he => hba (h.parent_unique (he ▸ hb) ha), b, hb⟩
  · intro hi
    obtain ⟨hip, b, hb⟩ := hi
    exact ⟨b, (haw b i).mpr ⟨fun hba => hip (Option.some.inj ((hba ▸ hb).symm.trans ha)), hb⟩⟩

theorem cut_none {b : Nat} : w.awaits b = none ↔ b = a ∨ v.awaits b = none := by
  rw [Option.eq_none_iff_forall_ne_some]
  by_cases hba : b = a
  · exact ⟨fun _ => .inl hba, fun _ c hc => ((haw b c).mp hc).1 hba⟩
  · constructor
    · intro hall
      exact .inr (Option.eq_none_iff_forall_ne_some.mpr fun c hc => hall c ((haw b c).mpr ⟨hba, hc⟩))
    · intro hor c hc
      have hb := hor.resolve_left hba
      rw [((haw b c).mp hc).2] at hb
      cases hb

theorem cut_roots (h : Chains v lv pos) (ha : v.awaits a = some pid) (hpid : v.awaits pid = none) (hchild : v.IsChild a) :
    w.roots = v.roots := by
  classical
  ext b
  simp only [roots, suspended, Finset.mem_filter, and_assoc, ne_eq, cut_none haw, cut_isChild haw h ha, not_or]
  exact and_congr_right fun _ => ⟨fun hb => ⟨hb.2.1, fun hc => hb.2.2 ⟨fun he => hb.2.1 (he ▸ hpid), hc⟩⟩,
    fun hb => ⟨fun he => hb.2 (he ▸ hchild), hb.1, fun hc => hb.2 hc.2⟩⟩

theorem cut_free (h : Chains v lv pos) (ha : v.awaits a = some pid) (hchild : v.IsChild a) (hip : i ≠ pid)
    (hf : w.Free i) : i ≠ a ∧ v.Free i := by
  have hnc : ¬ v.IsChild i := fun hc => hf.2 ((cut_isChild haw h ha).mpr ⟨hip, hc⟩)
  have hia : i ≠ a := fun he => hnc (he ▸ hchild)
  exact ⟨hia, ((cut_none haw).mp hf.1).resolve_left hia, hnc⟩

/-- The chains are those of before, without the process that has left. -/
theorem Chains.cut (h : Chains v lv pos) (ha : v.awaits a = some pid) (hpid : v.awaits pid = none) (hchild : v.IsChild a)
    (hlive : ∀ i, w.sys.Live i ↔ i ≠ pid ∧ v.sys.Live i) (hpgd : ∀ i, (w.sys.ctxList i).pgd = (v.sys.ctxList i).pgd)
    (hppid : ∀ i, (w.sys.ctxList i).ppid = (v.sys.ctxList i).ppid)
    (hstate : ∀ b, b ≠ a → b ≠ pid → (w.sys.ctxList b).state = (v.sys.ctxList b).state) : Chains w lv pos := by
  have hroots := cut_roots haw h ha hpid hchild
  refine ⟨fun b c hc => ?_, fun b c hc => h.next b c ((haw b c).mp hc).2, fun b hb hbc => ?_, fun i hi hf => ?_⟩
  · obtain ⟨hba, hc⟩ := (haw b c).mp hc
    obtain ⟨h1, h2, h3, h4, h5⟩ := h.link b c hc
    have hbp : b ≠ pid := fun he => by rw [he, hpid] at hc; cases hc
    have hcp : c ≠ pid := fun he => hba (h.parent_unique (he ▸ hc) ha)
    exact ⟨(hlive b).mpr ⟨hbp, h1⟩, (hlive c).mpr ⟨hcp, h2⟩, (hstate b hba hbp).trans h3, (hppid c).trans h4,
      (hpgd c).trans (h5.trans (hpgd b).symm)⟩
  · rw [hroots]
    have hb' : v.awaits b ≠ none := fun hn => hb ((cut_none haw).mpr (.inr hn))
    exact h.root b hb' fun hc => hbc ((cut_isChild haw h ha).mpr ⟨fun he => hb' (he ▸ hpid), hc⟩)
  · rw [hroots]
    obtain ⟨hip, hi⟩ := (hlive i).mp hi
    exact h.free i hi (cut_free haw h ha hchild hip hf).2

end

/-- What the exit of a vfork child leaves: its parent ready, with the data segment and the
    areas of the child, and the slot of the child. -/
structure Handed (s : Sys) (a pid : Nat) (t : Sys) : Prop where
  parent : t.ctxList a = { s.ctxList a with
    state := .ready
    data := (s.ctxList pid).data
    vmArea := (s.ctxList pid).vmArea }
  slot : t.ctxList pid = { s.ctxList pid with state := .unused }
  others : ∀ i, i ≠ a → i ≠ pid → t.ctxList i = s.ctxList i
  tables : t.tables = s.tables

theorem handed_doExit (hne : a ≠ pid) (hppid : (s.ctxList pid).ppid = a) (hpgd : (s.ctxList pid).pgd = (s.ctxList a).pgd) :
    Handed s a pid (s.doExit pid) := by
  have hexit : s.doExit pid = (s.setCtx a { s.ctxList a with
      state := .ready
      data := (s.ctxList pid).data
      vmArea := (s.ctxList pid).vmArea }).setCtx pid { s.ctxList pid with state := .unused } := by
    unfold Sys.doExit Sys.vforkExitHandle
    simp only [hppid, hpgd]
    rw [if_neg fun hno => hno rfl]
    unfold Sys.setCtx
    simp only [update_of_ne hne.symm]
    rw [hppid, hpgd]
  rw [hexit]
  exact ⟨(update_of_ne hne ..).trans (update_self ..), update_self ..,
    fun i hia hip => (update_of_ne hip ..).trans (update_of_ne hia ..), rfl⟩

namespace Handed

variable (h : Handed s a pid t)
include h

theorem kept (i : Nat) : (t.ctxList i).pgd = (s.ctxList i).pgd ∧ (t.ctxList i).ppid = (s.ctxList i).ppid := by
  by_cases hip : i = pid
  · rw [hip, h.slot]
    exact ⟨rfl, rfl⟩
  by_cases hia : i = a
  · rw [hia, h.parent]
    exact ⟨rfl, rfl⟩
  · rw [h.others i hia hip]
    exact ⟨rfl, rfl⟩

theorem live (hne : a ≠ pid) (hla : s.Live a) : t.Live i ↔ i ≠ pid ∧ s.Live i := by
  unfold Sys.Live
  by_cases hip : i = pid
  · rw [hip, h.slot]
    simp
  by_cases hia : i = a
  · rw [hia, h.parent]
    simp [hne, hla.2.2]
  · rw [h.others i hia hip]
    simp [hip]

end Handed

/-- A vfork child with a vfork child for parent, which goes on. -/
theorem Inv.exit_inner (h : Inv v lv pos) (hl : v.sys.Live pid) (hw : (v.sys.ctxList pid).state ≠ .waiting) {a : Nat}
    (ha : v.awaits a = some pid) (hchild : v.IsChild a) : Inv (v.settle pid (v.sys.doExit pid)) lv pos := by
  have hpid := h.runs hw
  obtain ⟨hla, -, -, hppid, hpgda⟩ := h.link a pid ha
  have hne : a ≠ pid := fun he => by rw [he, hpid] at ha; cases ha
  have hhanded := handed_doExit hne hppid hpgda
  obtain ⟨t, ht⟩ : ∃ t, t = v.sys.doExit pid := ⟨_, rfl⟩
  rw [← ht] at hhanded ⊢
  obtain ⟨hctxa, hself, hctx, htab⟩ := id hhanded
  have hkept := hhanded.kept
  have hlive : ∀ i, t.Live i ↔ i ≠ pid ∧ v.sys.Live i := fun i => hhanded.live hne hla
  have haw : ∀ b c, (v.settle pid t).awaits b = some c ↔ b ≠ a ∧ v.awaits b = some c := fun b c => by
    show (if (t.ctxList pid).state = .unused ∧ v.awaits b = some pid then none else v.awaits b) = some c ↔ _
    by_cases hb : v.awaits b = some pid
    · have hba : b = a := h.parent_unique hb ha
      rw [if_pos ⟨by rw [hself], hb⟩]
      simp [hba]
    · rw [if_neg fun hc => hb hc.2]
      exact ⟨fun hc => ⟨fun he => hb (he ▸ ha), hc⟩, And.right⟩
  have hfree : ∀ i, t.Live i → (v.settle pid t).Free i → i ≠ a ∧ i ≠ pid ∧ v.sys.Live i ∧ v.Free i := by
    intro i hi hf
    obtain ⟨hip, hi⟩ := (hlive i).mp hi
    obtain ⟨hia, hf⟩ := cut_free haw h.toChains ha hchild hip hf
    exact ⟨hia, hip, hi, hf⟩
  have hshape := h.shape a hla
  have hshapep := h.shape pid hl
  refine ⟨h.toChains.cut haw ha hpid hchild hlive (fun i => (hkept i).1) (fun i => (hkept i).2)
      (fun b hba hbp => by show (t.ctxList b).state = _; rw [hctx b hba hbp]),
    ?_, fun i hi => ?_, fun i hi => ?_, fun i hi hf j he => ?_, fun i hi hf k hk => ?_⟩
  · show (t.ctxList 0).state ≠ .unused
    rw [hctx 0 (Nat.ne_of_lt hla.1) (Nat.ne_of_lt hl.1)]
    exact h.swapper
  · obtain ⟨hip, hi⟩ := (hlive i).mp hi
    show (t.ctxList i).Shape
    by_cases hia : i = a
    · rw [hia, hctxa]
      exact { hshape with data := hshapep.data, areas := hshapep.areas, merged := hshapep.merged }
    · rw [hctx i hia hip]
      exact h.shape i hi
  · obtain ⟨hip, hi⟩ := (hlive i).mp hi
    show Deep (t.ctxList i) (lv i)
    by_cases hia : i = a
    · rw [hia, hctxa]
      exact h.deep a hla
    · rw [hctx i hia hip]
      exact h.deep i hi
  · have he : (t.ctxList j).pgd = (t.ctxList i).pgd := he
    rw [(hkept j).1, (hkept i).1] at he
    obtain ⟨-, -, hi, hf⟩ := hfree i hi hf
    exact h.own i hi hf j he
  · obtain ⟨hia, hip, hi, hf⟩ := hfree i hi hf
    show (t.ctxList i).Holds k
    have hk : (t.tables (t.ctxList i).pgd).pte k ≠ none := hk
    rw [hctx i hia hip, htab] at hk
    rw [hctx i hia hip]
    exact h.covers i hi hf k hk

/-! ## The forks -/

variable {child pgd : Nat}

/-- A slot that is not in use awaits nobody and is not awaited. -/
theorem Chains.slot (h : Chains v lv pos) (hun : (v.sys.ctxList child).state = .unused) :
    v.awaits child = none ∧ ¬ v.IsChild child := by
  refine ⟨?_, fun hc => ?_⟩
  · by_contra hne
    obtain ⟨c, hc⟩ := Option.ne_none_iff_exists'.mp hne
    exact (h.link child c hc).1.2.2 hun
  · obtain ⟨a, ha⟩ := hc
    exact (h.link a child ha).2.1.2.2 hun

theorem Inv.cfork (h : Inv v lv pos) (hl : v.sys.Live pid)
    (hpgd : ∀ i, (v.sys.ctxList i).pgd ≠ pgd) (hc : Sys.CforkTables v.sys pid pgd child t) :
    Inv ⟨t, v.awaits⟩ (update lv child (lv pid)) pos := by
  obtain ⟨hpos, hlt, hun⟩ := hc.slot
  obtain ⟨hnone, hnc⟩ := h.slot hun
  have hpc : pid ≠ child := fun he => hl.2.2 (he ▸ hun)
  have hlchild : t.Live child := ⟨hpos, hlt, by rw [hc.ctx]; exact ProcState.noConfusion⟩
  have hlive : ∀ i, t.Live i ↔ i = child ∨ v.sys.Live i := fun i => by
    by_cases hi : i = child
    · rw [hi]
      exact ⟨fun _ => .inl rfl, fun _ => hlchild⟩
    · unfold Sys.Live
      rw [hc.others i hi]
      simp [hi]
  have hne : ∀ {a c}, v.awaits a = some c → a ≠ child ∧ c ≠ child := by
    intro a c hac
    have ha : a ≠ child := fun he => by rw [he, hnone] at hac; cases hac
    exact ⟨ha, fun he => hnc ⟨a, he ▸ hac⟩⟩
  refine ⟨⟨fun a c hac => ?_, fun a c hac => ?_, fun a ha hac => ?_, fun i hi hf => ?_⟩, ?_, fun i hi => ?_, fun i hi => ?_,
    fun i hi hf j he => ?_, fun i hi hf k hk => ?_⟩
  · obtain ⟨ha, hc'⟩ := hne hac
    obtain ⟨h1, h2, h3, h4, h5⟩ := h.link a c hac
    show t.Live a ∧ t.Live c ∧ (t.ctxList a).state = .waiting ∧ (t.ctxList c).ppid = a ∧ (t.ctxList c).pgd = (t.ctxList a).pgd
    rw [hc.others a ha, hc.others c hc']
    exact ⟨(hlive a).mpr (.inr h1), (hlive c).mpr (.inr h2), h3, h4, h5⟩
  · obtain ⟨ha, hc'⟩ := hne hac
    rw [update_of_ne ha, update_of_ne hc']
    exact h.next a c hac
  · rw [update_of_ne fun he => ha (by rw [he]; exact hnone)]
    exact h.root a ha hac
  · show update lv child (lv pid) i ≤ levelBound v.roots.card
    by_cases hic : i = child
    · rw [hic, update_self]
      exact h.level_le hl
    · rw [update_of_ne hic]
      exact h.level_le (((hlive i).mp hi).resolve_left hic)
  · show (t.ctxList 0).state ≠ .unused
    rw [hc.others 0 (Nat.ne_of_lt hpos)]
    exact h.swapper
  · show (t.ctxList i).Shape
    by_cases hic : i = child
    · rw [hic, hc.ctx]
      exact { h.shape pid hl with }
    · rw [hc.others i hic]
      exact h.shape i (((hlive i).mp hi).resolve_left hic)
  · show Deep (t.ctxList i) (update lv child (lv pid) i)
    by_cases hic : i = child
    · rw [hic, update_self, hc.ctx]
      exact h.deep pid hl
    · rw [hc.others i hic, update_of_ne hic]
      exact h.deep i (((hlive i).mp hi).resolve_left hic)
  · have he : (t.ctxList j).pgd = (t.ctxList i).pgd := he
    by_cases hic : i = child
    · by_cases hjc : j = child
      · rw [hjc, hic]
      · rw [hic, hc.ctx, hc.others j hjc] at he
        exact absurd he (hpgd j)
    · rw [hc.others i hic] at he
      by_cases hjc : j = child
      · rw [hjc, hc.ctx] at he
        exact absurd he.symm (hpgd i)
      · rw [hc.others j hjc] at he
        exact h.own i (((hlive i).mp hi).resolve_left hic) hf j he
  · show (t.ctxList i).Holds k
    have hk : (t.tables (t.ctxList i).pgd).pte k ≠ none := hk
    by_cases hic : i = child
    · rw [hic, hc.ctx] at hk ⊢
      exact Ctx.Holds.mono (hc.child k hk) rfl ⟨rfl, Nat.le_refl _⟩ ⟨rfl, Nat.le_refl _⟩ ⟨rfl, Nat.le_refl _⟩ rfl
    · have hli := ((hlive i).mp hi).resolve_left hic
      rw [hc.others i hic] at hk ⊢
      refine h.covers i hli hf k ?_
      unfold Sys.table
      by_cases hip : (v.sys.ctxList i).pgd = (v.sys.ctxList pid).pgd
      · rw [hip] at hk ⊢
        exact hc.parent k hk
      · rwa [hc.tables _ (hpgd i) hip] at hk

/-! ### A chain that grows by a process -/

section
variable (haw : w.awaits = update v.awaits pid (some child))
include haw

theorem grow_awaits : w.awaits a = some c ↔ (a = pid ∧ c = child) ∨ (a ≠ pid ∧ v.awaits a = some c) := by
  rw [haw]
  by_cases ha : a = pid
  · rw [ha, update_self]
    simp [eq_comm]
  · rw [update_of_ne ha]
    simp [ha]

theorem grow_none : w.awaits a = none ↔ a ≠ pid ∧ v.awaits a = none := by
  rw [haw]
  by_cases ha : a = pid
  · rw [ha, update_self]
    simp
  · rw [update_of_ne ha]
    simp [ha]

variable (hpid : v.awaits pid = none)
include hpid

theorem grow_isChild : w.IsChild i ↔ i = child ∨ v.IsChild i := by
  constructor
  · intro hi
    obtain ⟨a, ha⟩ := hi
    rcases (grow_awaits haw).mp ha with ⟨-, hic⟩ | ⟨-, ha⟩
    · exact .inl hic
    · exact .inr ⟨a, ha⟩
  · intro hi
    rcases hi with hi | ⟨a, ha⟩
    · exact ⟨pid, (grow_awaits haw).mpr (.inl ⟨rfl, hi⟩)⟩
    · have hap : a ≠ pid := fun he => by rw [he, hpid] at ha; cases ha
      exact ⟨a, (grow_awaits haw).mpr (.inr ⟨hap, ha⟩)⟩

theorem grow_free (hf : w.Free i) : i ≠ pid ∧ i ≠ child ∧ v.Free i := by
  obtain ⟨hip, hin⟩ := (grow_none haw).mp hf.1
  exact ⟨hip, fun he => hf.2 ((grow_isChild haw hpid).mpr (.inl he)), hin,
    fun hc => hf.2 ((grow_isChild haw hpid).mpr (.inr hc))⟩

variable (hl : v.sys.Live pid) (hpc : pid ≠ child) (hnone : v.awaits child = none)
include hl hpc hnone

/-- A process that is in no chain becomes the first of its own. -/
theorem mem_grow_roots : a ∈ w.roots ↔ a ∈ v.roots ∨ (a = pid ∧ ¬ v.IsChild pid) := by
  simp only [roots, suspended, Finset.mem_filter, ne_eq, grow_none haw, grow_isChild haw hpid, not_and_or, not_not, not_or]
  by_cases hap : a = pid
  · rw [hap]
    simp [hpid, hpc, live_slot hl]
  · refine ⟨fun ha => .inl ⟨⟨ha.1.1, ha.1.2.resolve_left hap⟩, ha.2.2⟩, fun ha => ?_⟩
    obtain ⟨⟨h1, h2⟩, h3⟩ := ha.resolve_right fun hc => hap hc.1
    exact ⟨⟨h1, .inr h2⟩, fun he => h2 (by rw [he]; exact hnone), h3⟩

theorem card_roots_le_grow : v.roots.card ≤ w.roots.card :=
  Finset.card_le_card fun _ ha => (mem_grow_roots haw hpid hl hpc hnone).mpr (.inl ha)

theorem card_grow_roots (h : Chains v lv pos) (hp : ¬ v.IsChild pid) : w.roots.card = v.roots.card + 1 := by
  classical
  have hmem : pid ∉ v.roots := fun hr => (h.mem_roots.mp hr).1 hpid
  have he : w.roots = insert pid v.roots := by
    ext a
    rw [mem_grow_roots haw hpid hl hpc hnone, Finset.mem_insert, or_comm]
    simp [hp]
  rw [he, Finset.card_insert_of_notMem hmem]

/-- The new process is one place and one copy of the stack further than `pid`. -/
theorem Chains.grow (h : Chains v lv pos) (hnc : ¬ v.IsChild child)
    (hlink : ∀ a c, w.awaits a = some c → w.sys.Live a ∧ w.sys.Live c ∧ (w.sys.ctxList a).state = .waiting ∧
      (w.sys.ctxList c).ppid = a ∧ (w.sys.ctxList c).pgd = (w.sys.ctxList a).pgd)
    (hlive : ∀ i, w.sys.Live i → i ≠ child → v.sys.Live i) :
    ∃ pos', Chains w (update lv child (lv pid + 1)) pos' := by
  classical
  obtain ⟨q, hq⟩ : ∃ q, q = if v.IsChild pid then pos pid else 0 := ⟨_, rfl⟩
  have hqc : v.IsChild pid → q = pos pid := fun hp => by rw [hq, if_pos hp]
  have hqf : ¬ v.IsChild pid → q = 0 := fun hp => by rw [hq, if_neg hp]
  have hroots := card_roots_le_grow haw hpid hl hpc hnone
  refine ⟨update (update pos pid q) child (q + 1), hlink, fun a c hac => ?_, fun a ha hac => ?_, fun i hi hf => ?_⟩
  · rcases (grow_awaits haw).mp hac with ⟨rfl, rfl⟩ | ⟨hap, hac⟩
    · rw [update_self, update_self, update_of_ne hpc, update_of_ne hpc, update_self]
      exact ⟨rfl, rfl⟩
    · have hach : a ≠ child := fun he => by rw [he, hnone] at hac; cases hac
      have hcch : c ≠ child := fun he => hnc ⟨a, he ▸ hac⟩
      have hold := h.next a c hac
      rw [update_of_ne hcch, update_of_ne hach, update_of_ne hcch, update_of_ne hach, update_of_ne hap]
      refine ⟨hold.1, ?_⟩
      by_cases hcp : c = pid
      · rw [hcp, update_self, hqc ⟨a, hcp ▸ hac⟩, ← hcp]
        exact hold.2
      · rw [update_of_ne hcp]
        exact hold.2
  · have hach : a ≠ child := fun he => hac ((grow_isChild haw hpid).mpr (.inl he))
    have havc : ¬ v.IsChild a := fun hcc => hac ((grow_isChild haw hpid).mpr (.inr hcc))
    rw [update_of_ne hach, update_of_ne hach]
    by_cases hap : a = pid
    · rw [hap, update_self]
      rw [hap] at havc
      refine ⟨hqf havc, ?_⟩
      rw [card_grow_roots haw hpid hl hpc hnone h havc, Nat.add_sub_cancel]
      exact h.level_le hl
    · rw [update_of_ne hap]
      obtain ⟨h1, h2⟩ := h.root a (fun hn => ha ((grow_none haw).mpr ⟨hap, hn⟩)) havc
      exact ⟨h1, Nat.le_trans h2 (levelBound_mono (Nat.sub_le_sub_right hroots 1))⟩
  · obtain ⟨-, hic, hf⟩ := grow_free haw hpid hf
    rw [update_of_ne hic]
    exact Nat.le_trans (h.free i (hlive i hi hic) hf) (levelBound_mono hroots)

end

section
variable (hc : Sys.VforkTables v.sys pid child t)
include hc

theorem vfork_pgd (hi : i ≠ child) : (t.ctxList i).pgd = (v.sys.ctxList i).pgd := by
  by_cases hip : i = pid
  · rw [hip, hc.caller]
  · rw [hc.others i hi hip]

variable (hl : v.sys.Live pid)
include hl

theorem vfork_live : t.Live i ↔ i = child ∨ v.sys.Live i := by
  obtain ⟨hpos, hlt, -⟩ := hc.slot
  by_cases hi : i = child
  · rw [hi]
    exact ⟨fun _ => .inl rfl, fun _ => ⟨hpos, hlt, by rw [hc.ctx]; exact ProcState.noConfusion⟩⟩
  by_cases hip : i = pid
  · rw [hip]
    exact ⟨fun _ => .inr hl, fun _ => ⟨hl.1, hl.2.1, by rw [hc.caller]; exact ProcState.noConfusion⟩⟩
  · unfold Sys.Live
    rw [hc.others i hi hip]
    simp [hi]

/-- What holds of the two contexts that are new and of all that were there holds of all. -/
theorem vfork_forall {P : Nat → Ctx → Prop} (hchild : P child (t.ctxList child)) (hcaller : P pid (t.ctxList pid))
    (h : ∀ i, v.sys.Live i → P i (v.sys.ctxList i)) (hi : t.Live i) : P i (t.ctxList i) := by
  by_cases hic : i = child
  · rw [hic]
    exact hchild
  by_cases hip : i = pid
  · rw [hip]
    exact hcaller
  · rw [hc.others i hic hip]
    exact h i (((vfork_live hc hl).mp hi).resolve_left hic)

/-- Every waiting process has its child, the caller the new one. -/
theorem vfork_link (h : Chains v lv pos) (hnone : v.awaits child = none) (hnc : ¬ v.IsChild child)
    (hac : update v.awaits pid (some child) a = some c) : t.Live a ∧ t.Live c ∧ (t.ctxList a).state = .waiting ∧
      (t.ctxList c).ppid = a ∧ (t.ctxList c).pgd = (t.ctxList a).pgd := by
  rcases (grow_awaits (w := ⟨t, update v.awaits pid (some child)⟩) rfl).mp hac with ⟨rfl, rfl⟩ | ⟨hap, hac⟩
  · exact ⟨(vfork_live hc hl).mpr (.inr hl), (vfork_live hc hl).mpr (.inl rfl), by rw [hc.caller], by rw [hc.ctx],
      by rw [hc.ctx, hc.caller]⟩
  · obtain ⟨h1, h2, h3, h4, h5⟩ := h.link a c hac
    have hach : a ≠ child := fun he => by rw [he, hnone] at hac; cases hac
    have hcch : c ≠ child := fun he => hnc ⟨a, he ▸ hac⟩
    refine ⟨(vfork_live hc hl).mpr (.inr h1), (vfork_live hc hl).mpr (.inr h2), ?_, ?_, ?_⟩
    · rw [hc.others a hach hap]
      exact h3
    · by_cases hcp : c = pid
      · rw [hcp, hc.caller, ← hcp]
        exact h4
      · rw [hc.others c hcch hcp]
        exact h4
    · rw [vfork_pgd hc hcch, vfork_pgd hc hach]
      exact h5

end

/-- A page and a copy of the stack more, and the stack has at most doubled. -/
theorem vfork_deep {c c' : Ctx} {l : Nat} (hs : c.Shape) (h : Deep c l) (hl : l ≤ 9)
    (hc : c'.stack.nextFree = minus c.stack.nextFree (vforkOffset c.stack)) : Deep c' (l + 1) := by
  obtain ⟨hstack, -, -⟩ := vfork_stack hs h hl
  have hpow : 2 ^ (l + 1) = 2 * 2 ^ l := Nat.pow_succ'
  have hone : 1 ≤ 2 ^ l := Nat.one_le_two_pow
  unfold Deep at h ⊢
  rw [hc, hpow]
  unfold STACK_START MAX_STACK_SIZE at *
  omega

theorem Inv.vfork (h : Inv v lv pos) (hl : v.sys.Live pid) (hw : (v.sys.ctxList pid).state ≠ .waiting)
    (hc : Sys.VforkTables v.sys pid child t) :
    ∃ lv' pos', Inv ⟨t, update v.awaits pid (some child)⟩ lv' pos' := by
  obtain ⟨hpos, hlt, hun⟩ := hc.slot
  obtain ⟨hnone, hnc⟩ := h.slot hun
  have hpid := h.runs hw
  have hpc : pid ≠ child := fun he => hl.2.2 (he ▸ hun)
  have hlevel : lv pid ≤ 9 := Nat.le_trans (h.level_le hl) (levelBound_le _)
  have hpidd := h.deep pid hl
  have hpids := h.shape pid hl
  obtain ⟨-, hdvd, htop⟩ := vfork_stack hpids hpidd hlevel
  obtain ⟨w, hweq⟩ : ∃ w : Vsys, w = ⟨t, update v.awaits pid (some child)⟩ := ⟨_, rfl⟩
  have hsys : w.sys = t := by rw [hweq]
  have haw : w.awaits = update v.awaits pid (some child) := by rw [hweq]
  rw [← hweq]
  -- a process that waits for none and is no vfork child was there before
  have hfree : ∀ i, t.Live i → w.Free i → i ≠ pid ∧ i ≠ child ∧ v.sys.Live i ∧ v.Free i := fun i hi hf => by
    obtain ⟨hip, hic, hf⟩ := grow_free haw hpid hf
    exact ⟨hip, hic, ((vfork_live hc hl).mp hi).resolve_left hic, hf⟩
  have hlink : ∀ a c, w.awaits a = some c → w.sys.Live a ∧ w.sys.Live c ∧ (w.sys.ctxList a).state = .waiting ∧
      (w.sys.ctxList c).ppid = a ∧ (w.sys.ctxList c).pgd = (w.sys.ctxList a).pgd := by
    intro a c hac
    rw [haw] at hac
    rw [hsys]
    exact vfork_link hc hl h.toChains hnone hnc hac
  obtain ⟨pos', hchains⟩ := h.toChains.grow haw hpid hl hpc hnone hnc hlink
    fun i hi hic => ((vfork_live hc hl).mp (hsys ▸ hi)).resolve_left hic
  refine ⟨update lv child (lv pid + 1), pos', hchains, ?_, fun i hi => ?_, fun i hi => ?_, fun i hi hf j he => ?_,
    fun i hi hf k hk => ?_⟩
  · have hzp : 0 ≠ pid := Nat.ne_of_lt hl.1
    have hzc : 0 ≠ child := Nat.ne_of_lt hpos
    rw [hsys, hc.others 0 hzc hzp]
    exact h.swapper
  · rw [hsys] at hi ⊢
    refine vfork_forall (P := fun _ c => c.Shape) hc hl ?_ ?_ h.shape hi
    · rw [hc.ctx]
      exact { hpids with stack := ⟨hpids.stack.1, hpids.stack.2.1, htop, hdvd⟩ }
    · rw [hc.caller]
      exact { hpids with }
  · rw [hsys] at hi ⊢
    refine vfork_forall (P := fun i c => Deep c (update lv child (lv pid + 1) i)) hc hl ?_ ?_ (fun i hi => ?_) hi
    · rw [update_self, hc.ctx]
      exact vfork_deep hpids hpidd hlevel rfl
    · rw [update_of_ne hpc, hc.caller]
      exact hpidd
    · have hic : i ≠ child := fun he => hi.2.2 (he ▸ hun)
      rw [update_of_ne hic]
      exact h.deep i hi
  · rw [hsys] at hi he
    obtain ⟨hip, hic, hi, hf⟩ := hfree i hi hf
    rw [vfork_pgd hc hic] at he
    by_cases hjc : j = child
    · -- the child has the page table of `pid`
      have hpgdc : (t.ctxList child).pgd = (v.sys.ctxList pid).pgd := by rw [hc.ctx]
      rw [hjc, hpgdc] at he
      exact absurd (h.own i hi hf pid he).symm hip
    · rw [vfork_pgd hc hjc] at he
      exact h.own i hi hf j he
  · rw [hsys] at hi hk ⊢
    obtain ⟨hip, hic, hi, hf⟩ := hfree i hi hf
    have hne : (v.sys.ctxList i).pgd ≠ (v.sys.ctxList pid).pgd := fun he => hip (h.own i hi hf pid he.symm).symm
    unfold Sys.table at hk
    rw [hc.others i hic hip] at hk ⊢
    rw [hc.tables _ hne] at hk
    exact h.covers i hi hf k hk

end

/-! ## Runs -/

theorem settle_eq {pid : Nat} {t : Sys} (h : (t.ctxList pid).state ≠ .unused) : v.settle pid t = ⟨t, v.awaits⟩ := by
  have haw : (v.settle pid t).awaits = v.awaits := by
    funext a
    exact if_neg fun hc => h hc.1
  rw [← haw]
  rfl

theorem awaits_of_settle {pid : Nat} {t : Sys} (h : (v.settle pid t).awaits a = some c) : v.awaits a = some c := by
  have h : (if (t.ctxList pid).state = .unused ∧ v.awaits a = some pid then none else v.awaits a) = some c := h
  split at h
  · cases h
  · exact h

theorem doExit_state (s : Sys) (pid : Nat) : ((s.doExit pid).ctxList pid).state = .unused := by
  simp only [Sys.doExit, Sys.setCtx, update_self]

theorem Inv.exit {pid : Nat} (h : Inv v lv pos) (hl : v.sys.Live pid) (hw : (v.sys.ctxList pid).state ≠ .waiting)
    (hout : ¬ v.IsOuterChild pid) : Inv (v.settle pid (v.sys.doExit pid)) lv pos := by
  by_cases hchild : v.IsChild pid
  · obtain ⟨a, ha⟩ := hchild
    exact h.exit_inner hl hw ha (by_contra fun hno => hout ⟨a, ha, hno⟩)
  · exact h.exit_free hl ⟨h.runs hw, hchild⟩

theorem Inv.step {e : Ev} (h : Inv v lv pos) (ho : v.Promised e) (hout : ¬ (v.IsOuterChild e.pid ∧ v.Ends e))
    (he : v.step e = some w) : ∃ lv' pos', Inv w lv' pos' := by
  obtain ⟨⟨hl, hw⟩, he⟩ := Option.ite_none_right_eq_some.mp he
  have hroom := (h.deep _ hl).room (Nat.le_trans (h.level_le hl) (levelBound_le _))
  cases e with
  | vfork pid pick =>
    obtain ⟨⟨child, t⟩, hfork, rfl⟩ := Option.map_eq_some_iff.mp he
    exact h.vfork hl hw (Sys.doVfork_tables h.swapper hl hfork)
  | call e =>
    obtain ⟨t, ht, rfl⟩ := Option.map_eq_some_iff.mp he
    have hl : v.sys.Live e.pid := hl
    rcases Sys.step_footprint ht ho (h.shape _ hl) with hk | hexit | ⟨pgd, pick, child, -, hpgd, hfork⟩
    · rw [settle_eq (by rw [hk.state]; exact hl.2.2)]
      exact ⟨lv, pos, h.keeps hl hw hk⟩
    · have hends : v.Ends (.call e) := ⟨t, ht, by rw [hexit]; exact doExit_state ..⟩
      rw [hexit]
      exact ⟨lv, pos, h.exit hl hw fun hc => hout ⟨hc, hends⟩⟩
    · have hpos : 0 < (v.sys.ctxList e.pid).stack.nextFree := by
        refine Nat.lt_of_lt_of_le ?_ hroom
        decide
      have htab := Sys.doCfork_tables h.swapper hl (h.shape _ hl) hpos hpgd hfork
      have hpc : e.pid ≠ child := fun hc => hl.2.2 (hc ▸ htab.slot.2.2)
      rw [settle_eq (by rw [htab.others _ hpc]; exact hl.2.2)]
      exact ⟨_, pos, h.cfork hl hpgd htab⟩

/-- No process leaves the chain it is the first child of. -/
def Nests (v : Vsys) (e : Ev) : Prop := v.Promised e ∧ ¬ (v.IsOuterChild e.pid ∧ v.Ends e)

theorem reach_inv (h : machine.Reach Nests v) : ∃ lv pos, Inv v lv pos := by
  refine h.inv (fun v => ∃ lv pos, Inv v lv pos) (fun v hv => ⟨_, _, Start.inv hv⟩) fun v e w hi ho he => ?_
  obtain ⟨lv, pos, hi⟩ := hi
  exact hi.step ho.1 ho.2 he

end Vsys

end Cs330.Mm
