/-
  Cs330.Vm.Unmap — what vm_area_unmap does to the list of areas.

  `unmapFrom` is its walk before the range has started (`flag = 0`), `unmapIn` after. An
  area is trimmed at either end, deleted, or split in two; the split is refused when there
  are 128 areas. Proved: a call that returns 0 leaves a list with nothing mapped in the
  range and everything else as it was, well-formed and merged as before
  (`unmapAreas_clears`). An address so high that the range wraps meets no area.
-/
import Cs330.Vm.Area

namespace Cs330.Vm

open Lib Lib.Seg

/-- The walk once the range has started; `stop` is `addr + length`. -/
def unmapIn (stop : Nat) : List VmArea → List VmArea
  | [] => []
  | curr :: rest =>
    if stop ≤ curr.vmStart then curr :: rest
    else if stop < curr.vmEnd then { curr with vmStart := stop } :: rest
    else if curr.vmEnd = stop then rest
    else unmapIn stop rest

/-- The walk from the head of the list; `none` is `return -1`. -/
def unmapFrom (cnt addr stop : Nat) : List VmArea → Option (List VmArea)
  | [] => some []
  | curr :: rest =>
    if addr ≤ curr.vmStart then
      if stop ≤ curr.vmStart then some (curr :: rest)
      else if stop < curr.vmEnd then some ({ curr with vmStart := stop } :: rest)
      else some (unmapIn stop rest)
    else if curr.vmStart < addr ∧ addr < curr.vmEnd then
      if stop < curr.vmEnd then
        if cnt = 128 then none
        else some ({ curr with vmEnd := addr } :: ⟨stop, curr.vmEnd, curr.accessFlags⟩ :: rest)
      else some ({ curr with vmEnd := addr } :: unmapIn stop rest)
    else (unmapFrom cnt addr stop rest).map (curr :: ·)

/-- vm_area_unmap up to its loop over the pages: the return value, the list, and the change
    of `stats->num_vm_area` (a node is allocated or freed for each one more or less). -/
def unmapAreas (areas : List VmArea) (addr : Nat) (length : Int) : Int × List VmArea × Int :=
  if addr ≠ 0 ∧ ¬ (MMAP_AREA_START ≤ addr ∧ plus addr length ≤ MMAP_AREA_END) then (-1, areas, 0)
  else
    match unmapFrom areas.length addr (plus addr (pageRound length)) areas with
    | none => (-1, areas, 0)
    | some areas' => (0, areas', areas'.length - areas.length)

/-! ## The walk -/

abbrev Unmaps (b : Nat) (areas areas' : List VmArea) (addr stop : Nat) : Prop :=
  Clears (4096 ∣ ·) MMAP_AREA_END b areas areas' addr stop

section
variable {b addr stop : Nat} {areas : List VmArea}

theorem unmapIn_apart {f : UInt32} (hc : Areas b areas) {h : Nat} (hh : h < stop) : Apart h f (unmapIn stop areas) := by
  induction areas generalizing b with
  | nil => trivial
  | cons curr rest ih =>
    unfold unmapIn
    split
    · rename_i h1; exact .of_lt (hc.raise (Nat.le_refl _)) (Nat.lt_of_lt_of_le hh h1)
    split
    · intro he
      have he : stop = h := he
      omega
    split
    · rename_i h3; exact .of_lt hc.tail (by simp only [hi_eq]; omega)
    · exact ih hc.tail

theorem unmapIn_clears (hc : Areas b areas) (hs : 4096 ∣ stop) (hlt : addr < stop) (hb : addr ≤ b) :
    Unmaps b areas (unmapIn stop areas) addr stop := by
  induction areas generalizing b with
  | nil => exact .refl hc fun x _ _ => rfl
  | cons curr rest ih =>
    obtain ⟨c1, c2, c3, c4, c5⟩ := id hc
    simp only [lo_eq, hi_eq] at c1 c2 c3 c4 c5
    have hap := fun h f (hh : h ≤ addr) => unmapIn_apart (f := f) hc (Nat.lt_of_le_of_lt hh hlt)
    unfold unmapIn at hap ⊢
    by_cases h1 : stop ≤ curr.vmStart
    · rw [if_pos h1]
      exact .refl hc fun x _ hx => (hc.raise (Nat.le_refl _)).valueAt_below (by simp only [lo_eq]; omega)
    rw [if_neg h1] at hap ⊢
    by_cases h2 : stop < curr.vmEnd
    · rw [if_pos h2] at hap ⊢
      have hc' : Areas b ({ curr with vmStart := stop } :: rest) := ⟨by simp only [lo_eq]; omega, h2, hs, c4, c5⟩
      refine ⟨hc', fun x => ?_, id, fun h f hh _ => hap h f hh⟩
      by_cases hx : addr ≤ x ∧ x < stop
      · rw [if_pos hx]; exact (hc'.raise (Nat.le_refl _)).valueAt_below hx.2
      · rw [if_neg hx]
        simp only [valueAt, lo_eq, hi_eq]
        by_cases hx' : stop ≤ x ∧ x < curr.vmEnd
        · rw [if_pos hx', if_pos (by omega)]; rfl
        · rw [if_neg hx', if_neg (by omega)]
    rw [if_neg h2] at hap ⊢
    -- the area is deleted: the rest is at or above its end
    have hrest : Unmaps curr.vmEnd rest (if curr.vmEnd = stop then rest else unmapIn stop rest) addr stop := by
      split
      · rename_i h3; exact .refl c5 fun x _ hx => c5.valueAt_below (by omega)
      · exact ih c5 (by omega)
    refine ⟨hrest.chain.lower (by omega), fun x => ?_, fun hm => hrest.merged hm.2, fun h f hh _ => hap h f hh⟩
    rw [hrest.value]
    by_cases hx : addr ≤ x ∧ x < stop
    · rw [if_pos hx, if_pos hx]
    · rw [if_neg hx, if_neg hx, valueAt_tail (by simp only [lo_eq, hi_eq]; omega)]

theorem unmapIn_above (hc : Areas b areas) (hb : stop ≤ b) : unmapIn stop areas = areas := by
  cases areas with
  | nil => rfl
  | cons curr rest =>
    have h1 : b ≤ curr.vmStart := hc.1
    unfold unmapIn
    rw [if_pos (by omega)]

theorem unmapFrom_clears {cnt : Nat} {areas' : List VmArea} (hc : Areas b areas) (ha : 4096 ∣ addr) (hs : 4096 ∣ stop)
    (hlt : addr < stop) (h : unmapFrom cnt addr stop areas = some areas') : Unmaps b areas areas' addr stop := by
  induction areas generalizing b areas' with
  | nil => cases h; exact .refl hc fun x _ _ => rfl
  | cons curr rest ih =>
    obtain ⟨c1, c2, c3, c4, c5⟩ := id hc
    simp only [lo_eq, hi_eq] at c1 c2 c3 c4 c5
    unfold unmapFrom at h
    by_cases h1 : addr ≤ curr.vmStart
    · rw [if_pos h1] at h
      -- what is left to do is the walk inside the range
      have he : areas' = unmapIn stop (curr :: rest) := by
        unfold unmapIn
        split at h
        · rename_i h2; cases h; rw [if_pos h2]
        rename_i h2
        split at h
        · rename_i h3; cases h; rw [if_neg h2, if_pos h3]
        rename_i h3
        cases h
        rw [if_neg h2, if_neg h3]
        split
        · rename_i h4; exact unmapIn_above c5 (by omega)
        · rfl
      have hin := unmapIn_clears (hc.raise (Nat.le_refl _)) hs hlt h1
      rw [he]
      exact { hin with chain := hin.chain.lower c1 }
    rw [if_neg h1] at h
    by_cases h2 : curr.vmStart < addr ∧ addr < curr.vmEnd
    · rw [if_pos h2] at h
      by_cases h3 : stop < curr.vmEnd
      · -- split in two
        rw [if_pos h3] at h
        split at h
        · cases h
        cases h
        refine ⟨⟨c1, h2.1, c3, ha, Nat.le_of_lt hlt, h3, hs, c4, c5⟩, fun x => ?_, fun hm => ⟨fun he => ?_, hm⟩,
          fun _ _ _ hap => hap⟩
        · simp only [valueAt, lo_eq, hi_eq, val_eq]
          by_cases hx : addr ≤ x ∧ x < stop
          · rw [if_pos hx, if_neg (by omega), if_neg (by omega)]
            exact c5.valueAt_below (by omega)
          · rw [if_neg hx]
            by_cases hx1 : curr.vmStart ≤ x ∧ x < addr
            · rw [if_pos hx1, if_pos (by omega)]
            · rw [if_neg hx1]
              by_cases hx2 : stop ≤ x ∧ x < curr.vmEnd
              · rw [if_pos hx2, if_pos (by omega)]
              · rw [if_neg hx2, if_neg (by omega)]
        · have he : stop = addr := he
          omega
      · -- trimmed at its upper end
        rw [if_neg h3] at h
        cases h
        have hin := unmapIn_clears c5 hs hlt (by omega)
        have hc' : Areas addr (unmapIn stop rest) := hin.chain.lower (by omega)
        refine ⟨⟨c1, h2.1, c3, ha, hc'⟩, fun x => ?_, fun hm => ⟨unmapIn_apart c5 hlt, hin.merged hm.2⟩, fun _ _ _ hap => hap⟩
        simp only [valueAt, lo_eq, hi_eq, val_eq]
        by_cases hx1 : curr.vmStart ≤ x ∧ x < addr
        · rw [if_pos hx1, if_neg (by omega), if_pos (by omega)]
        · rw [if_neg hx1, hin.value]
          by_cases hx : addr ≤ x ∧ x < stop
          · rw [if_pos hx, if_pos hx]
          · rw [if_neg hx, if_neg hx, if_neg (by omega)]
    · rw [if_neg h2] at h
      obtain ⟨l', hl', he⟩ := Option.map_eq_some_iff.mp h
      subst he
      exact .cons hc (ih c5 hl') (by simp only [hi_eq]; omega)

/-- Above every area the walk changes nothing. -/
theorem unmapFrom_above (cnt : Nat) (hc : Areas b areas) (ha : MMAP_AREA_END ≤ addr) :
    unmapFrom cnt addr stop areas = some areas := by
  induction areas generalizing b with
  | nil => rfl
  | cons curr rest ih =>
    have hlt : curr.vmStart < curr.vmEnd := hc.2.1
    have htop : curr.vmEnd ≤ MMAP_AREA_END := hc.tail.le_top
    unfold unmapFrom
    rw [if_neg (by omega), if_neg (by omega), ih hc.tail]
    rfl

end

/-! ## vm_area_unmap -/

section
variable {areas : List VmArea} {addr : Nat} {length : Int} (hw : Areas MMAP_AREA_START areas) (hl : Promised length)
  (ha : 4096 ∣ addr)
include hw hl ha

theorem unmapAreas_clears (hret : (unmapAreas areas addr length).1 = 0) :
    Unmaps MMAP_AREA_START areas (unmapAreas areas addr length).2.1 addr (addr + pageUp length) := by
  obtain ⟨hn, hn31, hnp, -, -⟩ := pageUp_spec hl
  unfold unmapAreas at hret ⊢
  by_cases hout : addr ≠ 0 ∧ ¬ (MMAP_AREA_START ≤ addr ∧ plus addr length ≤ MMAP_AREA_END)
  · rw [if_pos hout] at hret; exact absurd hret (by simp)
  rw [if_neg hout, pageRound_eq hl] at hret ⊢
  by_cases hhigh : MMAP_AREA_END ≤ addr
  · rw [unmapFrom_above _ hw hhigh]
    exact .refl hw fun x hx _ => hw.valueAt_above (Nat.le_trans hhigh hx)
  · have hlow : addr < 0x7FE000000 := Nat.lt_of_not_le hhigh
    have hp : plus addr (pageUp length) = addr + pageUp length := plus_nat (by omega)
    rw [hp] at hret ⊢
    cases hu : unmapFrom areas.length addr (addr + pageUp length) areas with
    | none => rw [hu] at hret; exact absurd hret (by simp)
    | some areas' => exact unmapFrom_clears hw ha (by omega) (by omega) hu

end

theorem unmapAreas_fails {areas : List VmArea} {addr : Nat} {length : Int} (hret : (unmapAreas areas addr length).1 ≠ 0) :
    unmapAreas areas addr length = (-1, areas, 0) := by
  unfold unmapAreas at hret ⊢
  split
  · rfl
  · rename_i hout
    rw [if_neg hout] at hret
    split
    · rfl
    · rename_i areas' hu; rw [hu] at hret; exact absurd rfl hret

end Cs330.Vm
