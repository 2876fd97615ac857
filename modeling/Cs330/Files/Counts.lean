/-
  Cs330.Files.Counts — every reference count is the number of slots.

  `Refs s hand` counts: a page is a file object exactly while a slot points to it or it is
  the one in `hand`, and its ref_count is their number. A call takes a slot's reference
  into the hand (`Refs.take`), makes another (`Refs.addRef`, `Refs.alloc`), puts it into a
  slot (`Refs.put`) or drops it (`Refs.free`, `Refs.release`).
-/
import Cs330.Files.Calls
import Cs330.Lib.Total

namespace Cs330.Files

open Lib Lib.CInt Function

/-- The slots of one table that point to `a`. -/
def refs (files : Nat → Option Nat) (a : Nat) : Nat := total MAX_OPEN_FILES fun fd => if files fd = some a then 1 else 0

namespace Kernel

/-- The slots that point to `a`. -/
def slots (s : Kernel) (a : Nat) : Nat := total MAX_PROCESSES fun pid => refs (s.ctx pid).files a

/-- `a` is an end of pipe `p`: the pipe field of an object of another type is not read. -/
def End (s : Kernel) (a p : Nat) : Prop := s.use a = .file ∧ (s.file a).type = .PIPE ∧ (s.file a).pipe = p

end Kernel

def held (hand : Option Nat) (a : Nat) : Nat := if hand = some a then 1 else 0

@[simp] theorem held_none (a : Nat) : held none a = 0 := rfl
@[simp] theorem held_some (a : Nat) : held (some a) a = 1 := if_pos rfl
theorem held_ne {a b : Nat} (h : b ≠ a) : held (some a) b = 0 := if_neg fun e => h (Option.some.inj e).symm

theorem refs_le (files : Nat → Option Nat) (a : Nat) : refs files a ≤ 32 := by
  have h := total_le (n := MAX_OPEN_FILES) (f := fun fd => if files fd = some a then 1 else 0) (g := fun _ => 1)
    fun fd _ => by split <;> omega
  rw [total_one] at h
  exact h

theorem slots_le (s : Kernel) (a : Nat) : s.slots a ≤ 224 := by
  have h := total_le (n := MAX_PROCESSES) (f := fun pid => refs (s.ctx pid).files a) (g := fun _ => 32)
    fun pid _ => refs_le _ a
  exact Nat.le_trans h (by decide)

theorem refs_pos {files : Nat → Option Nat} {fd a : Nat} (hfd : fd < MAX_OPEN_FILES) (h : files fd = some a) :
    0 < refs files a := by
  have hle := le_total hfd fun fd => if files fd = some a then 1 else 0
  rw [if_pos h] at hle
  exact hle

theorem slots_pos {s : Kernel} {pid fd a : Nat} (hpid : pid < MAX_PROCESSES) (hfd : fd < MAX_OPEN_FILES)
    (h : (s.ctx pid).files fd = some a) : 0 < s.slots a :=
  Nat.lt_of_lt_of_le (refs_pos hfd h) (le_total hpid fun pid => refs (s.ctx pid).files a)

theorem exists_slot {s : Kernel} {a : Nat} (h : 0 < s.slots a) :
    ∃ pid < MAX_PROCESSES, ∃ fd < MAX_OPEN_FILES, (s.ctx pid).files fd = some a := by
  obtain ⟨pid, hpid, h⟩ := exists_of_total_pos h
  obtain ⟨fd, hfd, h⟩ := exists_of_total_pos h
  refine ⟨pid, hpid, fd, hfd, ?_⟩
  by_contra hne
  rw [if_neg hne] at h
  exact Nat.lt_irrefl 0 h

theorem refs_update (files : Nat → Option Nat) {fd : Nat} (hfd : fd < MAX_OPEN_FILES) (v : Option Nat) (a : Nat) :
    refs (update files fd v) a + held (files fd) a = refs files a + held v a :=
  total_update hfd (fun o => if o = some a then 1 else 0) files v

theorem slots_setSlot {s : Kernel} {pid fd : Nat} (hpid : pid < MAX_PROCESSES) (hfd : fd < MAX_OPEN_FILES) (v : Option Nat)
    (a : Nat) : (s.setSlot pid fd v).slots a + held ((s.ctx pid).files fd) a = s.slots a + held v a := by
  have h1 : (s.setSlot pid fd v).slots a + refs (s.ctx pid).files a = s.slots a + refs (update (s.ctx pid).files fd v) a :=
    total_update hpid (fun c : Ctx => refs c.files a) s.ctx _
  have h2 := refs_update (s.ctx pid).files hfd v a
  omega

namespace Kernel

/-! ## Reference counts -/

structure Refs (s : Kernel) (hand : Option Nat) : Prop where
  count : ∀ a, s.use a = .file → (s.file a).refCount = s.slots a + held hand a
  live : ∀ a, s.use a = .file ↔ 0 < s.slots a + held hand a
  frees : ∀ a, s.count.fileAllocs a = s.count.fileFrees a + if s.use a = .file then 1 else 0
  empty : ∀ pid, (s.ctx pid).used = false → ∀ fd < MAX_OPEN_FILES, (s.ctx pid).files fd = none
  objects : ∃ F : Finset Nat, (∀ a, a ∈ F ↔ s.use a = .file) ∧ s.fileObjects = F.card

section
variable {s t : Kernel} {hand : Option Nat} {a pid fd : Nat}

/-- Only what a count depends on matters. -/
theorem Refs.congr (h : s.Refs hand) (hslots : ∀ b, t.slots b = s.slots b)
    (hempty : ∀ i, (t.ctx i).used = false → ∀ d < MAX_OPEN_FILES, (t.ctx i).files d = none)
    (huse : ∀ b, t.use b = .file ↔ s.use b = .file)
    (hfile : ∀ b, s.use b = .file → (t.file b).refCount = (s.file b).refCount) (hallocs : t.count.fileAllocs = s.count.fileAllocs)
    (hfrees : t.count.fileFrees = s.count.fileFrees) (hobj : t.fileObjects = s.fileObjects) : t.Refs hand := by
  refine ⟨fun b hb => ?_, fun b => ?_, fun b => ?_, hempty, ?_⟩
  · rw [hslots, hfile b ((huse b).mp hb)]
    exact h.count b ((huse b).mp hb)
  · rw [hslots, huse]
    exact h.live b
  · rw [hallocs, hfrees]
    simp only [huse]
    exact h.frees b
  · obtain ⟨F, hF, hc⟩ := h.objects
    exact ⟨F, fun b => (hF b).trans (huse b).symm, hobj.trans hc⟩

/-- There are no more file objects than slots and the one in hand. -/
theorem Refs.card_le (h : s.Refs hand) {F : Finset Nat} (hF : ∀ a, a ∈ F ↔ s.use a = .file) : F.card ≤ 225 := by
  have hsub : F ⊆ insert (hand.getD 0) ((Finset.range MAX_PROCESSES ×ˢ Finset.range MAX_OPEN_FILES).image fun x =>
      ((s.ctx x.1).files x.2).getD 0) := by
    intro a ha
    have hpos := (h.live a).mp ((hF a).mp ha)
    by_cases e : hand = some a
    · rw [e]
      exact Finset.mem_insert_self ..
    · unfold held at hpos
      rw [if_neg e, Nat.add_zero] at hpos
      obtain ⟨pid, hpid, fd, hfd, hs⟩ := exists_slot hpos
      refine Finset.mem_insert_of_mem (Finset.mem_image.mpr ⟨(pid, fd), ?_, ?_⟩)
      · exact Finset.mem_product.mpr ⟨Finset.mem_range.mpr hpid, Finset.mem_range.mpr hfd⟩
      · simp only [hs, Option.getD_some]
  have himage := Finset.card_image_le (s := Finset.range MAX_PROCESSES ×ˢ Finset.range MAX_OPEN_FILES)
    (f := fun x => ((s.ctx x.1).files x.2).getD 0)
  rw [Finset.card_product, Finset.card_range, Finset.card_range] at himage
  calc F.card ≤ _ := Finset.card_le_card hsub
    _ ≤ _ + 1 := Finset.card_insert_le _ _
    _ ≤ MAX_PROCESSES * MAX_OPEN_FILES + 1 := Nat.add_le_add_right himage 1
    _ = 225 := rfl

/-- A slot's reference is taken out. -/
theorem Refs.take (h : s.Refs none) (hpid : pid < MAX_PROCESSES) (hfd : fd < MAX_OPEN_FILES)
    (ha : (s.ctx pid).files fd = some a) : (s.setSlot pid fd none).Refs (some a) := by
  have hslots : ∀ b, (s.setSlot pid fd none).slots b + held (some a) b = s.slots b := fun b => by
    have := slots_setSlot hpid hfd none b (s := s)
    rw [ha, held_none, Nat.add_zero] at this
    exact this
  refine ⟨fun b hb => ?_, fun b => ?_, h.frees, fun i hi d hd => ?_, h.objects⟩
  · rw [hslots]
    exact (h.count b hb).trans (by rw [held_none, Nat.add_zero])
  · have hl := h.live b
    rw [held_none, Nat.add_zero] at hl
    rw [hslots]
    exact hl
  · unfold setSlot setFiles at hi ⊢
    by_cases e : i = pid
    · subst e
      simp only [update_self] at hi ⊢
      rw [h.empty i hi fd hfd] at ha
      cases ha
    · simp only [update_of_ne e] at hi ⊢
      exact h.empty i hi d hd

/-- The reference in hand is put into a slot. -/
theorem Refs.put (h : s.Refs (some a)) (hpid : pid < MAX_PROCESSES) (hfd : fd < MAX_OPEN_FILES)
    (hu : (s.ctx pid).used = true) (ha : (s.ctx pid).files fd = none) : (s.setSlot pid fd (some a)).Refs none := by
  have hslots : ∀ b, (s.setSlot pid fd (some a)).slots b = s.slots b + held (some a) b := fun b => by
    have := slots_setSlot hpid hfd (some a) b (s := s)
    rw [ha, held_none, Nat.add_zero] at this
    exact this
  refine ⟨fun b hb => ?_, fun b => ?_, h.frees, fun i hi d hd => ?_, h.objects⟩
  · rw [hslots, held_none, Nat.add_zero]
    exact h.count b hb
  · rw [hslots, held_none, Nat.add_zero]
    exact h.live b
  · unfold setSlot setFiles at hi ⊢
    by_cases e : i = pid
    · subst e
      simp only [update_self] at hi
      rw [hu] at hi
      cases hi
    · simp only [update_of_ne e] at hi ⊢
      exact h.empty i hi d hd

theorem Refs.addRef (h : s.Refs none) (ha : s.use a = .file) : (s.addRef a).Refs (some a) := by
  refine ⟨fun b hb => ?_, fun b => ?_, h.frees, h.empty, h.objects⟩
  · have hc := h.count b hb
    have hle := slots_le s b
    rw [held_none, Nat.add_zero] at hc
    show (update s.file a _ b).refCount = s.slots b + _
    by_cases e : b = a
    · subst e
      rw [update_self, held_some]
      have hu : u32 ((s.slots b : Int) + 1) = s.slots b + 1 := by unfold u32; omega
      simp only [hc, hu]
    · rw [update_of_ne e, held_ne e, Nat.add_zero]
      exact hc
  · have hl := h.live b
    rw [held_none, Nat.add_zero] at hl
    show s.use b = .file ↔ 0 < s.slots b + _
    by_cases e : b = a
    · subst e
      rw [held_some]
      exact iff_of_true ha (Nat.succ_pos _)
    · rw [held_ne e, Nat.add_zero]
      exact hl

/-- The last reference is dropped: the object is gone. -/
theorem Refs.free (h : s.Refs (some a)) (h1 : (s.file a).refCount = 1) : (s.freeFileObject a).Refs none := by
  have hlive : s.use a = .file := (h.live a).mpr (by rw [held_some]; exact Nat.succ_pos _)
  have hzero : s.slots a = 0 := by
    have hc := h.count a hlive
    rw [held_some] at hc
    omega
  have huse : ∀ b, (s.freeFileObject a).use b = .file ↔ b ≠ a ∧ s.use b = .file := by
    intro b
    show update s.use a .free b = .file ↔ _
    by_cases e : b = a
    · rw [e, update_self]
      exact iff_of_false nofun fun hne => hne.1 rfl
    · rw [update_of_ne e]
      exact (and_iff_right e).symm
  refine ⟨fun b hb => ?_, fun b => ?_, fun b => ?_, h.empty, ?_⟩
  · obtain ⟨e, hb⟩ := (huse b).mp hb
    have hc := h.count b hb
    rw [held_ne e] at hc
    exact hc
  · have hl := h.live b
    rw [huse, held_none, Nat.add_zero]
    show _ ↔ 0 < s.slots b
    by_cases e : b = a
    · rw [e, hzero]
      exact iff_of_false (fun hne => hne.1 rfl) (Nat.lt_irrefl 0)
    · rw [held_ne e, Nat.add_zero] at hl
      exact (and_iff_right e).trans hl
  · have hf := h.frees b
    show s.count.fileAllocs b = bump s.count.fileFrees a b + _
    unfold bump
    by_cases e : b = a
    · subst e
      rw [if_pos hlive] at hf
      rw [update_self, if_neg fun hu => ((huse b).mp hu).1 rfl]
      exact hf
    · rw [update_of_ne e]
      simp only [huse, and_iff_right e]
      exact hf
  · obtain ⟨F, hF, hc⟩ := h.objects
    refine ⟨F.erase a, fun b => ?_, ?_⟩
    · rw [Finset.mem_erase, huse, hF]
    · have hcard := Finset.card_erase_add_one ((hF a).mpr hlive)
      have hle := h.card_le hF
      show u64 (s.fileObjects - 1) = _
      rw [hc]
      unfold u64
      omega

/-- A page becomes a file object with one reference. -/
theorem Refs.alloc (h : s.Refs none) {page : Nat} (hfree : s.use page = .free) (junk : File) {f : File} (hf : f.refCount = 1) :
    ((s.allocFile page junk).setFile page f).Refs (some page) := by
  have hzero : s.slots page = 0 := by
    have hl := h.live page
    rw [hfree, held_none, Nat.add_zero] at hl
    exact Nat.eq_zero_of_not_pos fun hp => absurd (hl.mpr hp) nofun
  have huse : ∀ b, ((s.allocFile page junk).setFile page f).use b = .file ↔ b = page ∨ s.use b = .file := by
    intro b
    show update s.use page .file b = .file ↔ _
    by_cases e : b = page
    · rw [e, update_self]
      exact iff_of_true rfl (Or.inl rfl)
    · rw [update_of_ne e]
      exact (or_iff_right e).symm
  refine ⟨fun b hb => ?_, fun b => ?_, fun b => ?_, h.empty, ?_⟩
  · show (update (s.allocFile page junk).file page f b).refCount = s.slots b + _
    by_cases e : b = page
    · rw [e, update_self, hf, hzero, held_some]
    · rw [update_of_ne e, held_ne e]
      show (update s.file page _ b).refCount = _
      rw [update_of_ne e]
      exact h.count b (((huse b).mp hb).resolve_left e)
  · have hl := h.live b
    rw [huse]
    show _ ↔ 0 < s.slots b + _
    by_cases e : b = page
    · rw [e, held_some]
      exact iff_of_true (Or.inl rfl) (Nat.succ_pos _)
    · rw [held_ne e]
      exact (or_iff_right e).trans hl
  · have hf := h.frees b
    show bump s.count.fileAllocs page b = s.count.fileFrees b + _
    unfold bump
    by_cases e : b = page
    · subst e
      rw [if_neg (by rw [hfree]; exact nofun)] at hf
      rw [update_self, if_pos ((huse b).mpr (Or.inl rfl)), hf]
    · rw [update_of_ne e]
      simp only [huse, or_iff_right e]
      exact hf
  · obtain ⟨F, hF, hc⟩ := h.objects
    have hnot : page ∉ F := fun hm => by
      rw [hF, hfree] at hm
      cases hm
    refine ⟨insert page F, fun b => ?_, ?_⟩
    · rw [Finset.mem_insert, huse, hF]
    · have hle := h.card_le hF
      rw [Finset.card_insert_of_notMem hnot]
      show u64 (s.fileObjects + 1) = _
      rw [hc]
      unfold u64
      omega

theorem Refs.release (h : s.Refs (some a)) (h1 : (s.file a).refCount ≠ 1) :
    (s.setFile a { s.file a with refCount := u32 ((s.file a).refCount - 1) }).Refs none := by
  have hlive : s.use a = .file := (h.live a).mpr (by rw [held_some]; exact Nat.succ_pos _)
  have hca := h.count a hlive
  rw [held_some] at hca
  refine ⟨fun b hb => ?_, fun b => ?_, h.frees, h.empty, h.objects⟩
  · have hc := h.count b hb
    rw [held_none, Nat.add_zero]
    show (update s.file a _ b).refCount = s.slots b
    by_cases e : b = a
    · subst e
      have hle := slots_le s b
      have hu : u32 (((s.slots b + 1 : Nat) : Int) - 1) = s.slots b := by unfold u32; omega
      rw [update_self]
      simp only [hca, hu]
    · rw [held_ne e, Nat.add_zero] at hc
      rw [update_of_ne e]
      exact hc
  · have hl := h.live b
    rw [held_none, Nat.add_zero]
    show s.use b = .file ↔ 0 < s.slots b
    by_cases e : b = a
    · subst e
      exact iff_of_true hlive (by omega)
    · rw [held_ne e, Nat.add_zero] at hl
      exact hl

end

end Kernel

end Cs330.Files
