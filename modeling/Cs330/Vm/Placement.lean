/-
  Cs330.Vm.Placement — where vm_area_map puts a new mapping, and when it finds no place.

  `search_pass`: a search that passes on has left no free range behind the areas it walked.
  The walk to the hint (`hintFrom_pass`) leaves none from the hint on, the restart
  (`restart`) none in front of it: together they miss no gap. `hintFrom_vacant`: a hint at
  a free range is taken.

  Proved: `placement`, for lists of fewer than 128 areas. Without a hint the range is the
  lowest one that is free, a free range at the hint is taken, MAP_FIXED takes no other,
  and without MAP_FIXED only a region with no free range of the length makes the call fail.
-/
import Mathlib.Order.Interval.Set.Defs
import Cs330.Vm.Map

namespace Cs330.Vm

open Lib Lib.Seg

/-- `[a, a + n)` is free and inside the region. -/
abbrev Free (areas : List VmArea) (a n : Nat) : Prop := Vacant MMAP_AREA_END MMAP_AREA_START areas a n

/-- What is mapped after a call and was not before. -/
def Added (areas areas' : List VmArea) : Set Nat := {x | protAt areas x = none ∧ protAt areas' x ≠ none}

theorem Added.of_maps {b : Nat} {areas areas' : List VmArea} {r n : Nat} {prot : UInt32} (h : Maps b areas areas' r n prot) :
    Added areas areas' = Set.Ico r (r + n) := by
  ext x
  show protAt areas x = none ∧ protAt areas' x ≠ none ↔ r ≤ x ∧ x < r + n
  have hvalue := h.value x
  constructor
  · intro hx
    by_contra hno
    rw [if_neg hno] at hvalue
    exact hx.2 (hvalue.trans hx.1)
  · intro hx
    rw [if_pos hx] at hvalue
    refine ⟨h.free x hx.1 hx.2, ?_⟩
    rw [protAt, hvalue]
    exact Option.some_ne_none prot

variable {cnt n b r addr start : Nat} {curr next a : VmArea} {rest areas : List VmArea} {prot : UInt32} {go : VmArea → Bool}
  {fixed : Bool}

/-! ## With fewer than 128 areas nothing is refused for their number -/

theorem Try.orElse_ne_refuse {t u : Try} (ht : t ≠ .refuse) (hu : u ≠ .refuse) : t.orElse u ≠ .refuse := by
  cases t with
  | pass => exact hu
  | refuse => exact absurd rfl ht
  | placed ret areas k => exact ht

theorem Try.behind_ne_refuse {t : Try} (ht : t ≠ .refuse) : t.behind a ≠ .refuse := by
  cases t with
  | pass => exact Try.noConfusion
  | refuse => exact absurd rfl ht
  | placed ret areas k => exact Try.noConfusion

theorem Try.exists_placed {t : Try} (h1 : t ≠ .pass) (h2 : t ≠ .refuse) : ∃ ret l k, t = .placed ret l k := by
  cases t with
  | pass => exact absurd rfl h1
  | refuse => exact absurd rfl h2
  | placed ret l k => exact ⟨ret, l, k, rfl⟩

theorem Try.orElse_pass {t u : Try} (h : t.orElse u = .pass) : t = .pass ∧ u = .pass := by
  cases t with
  | pass => exact ⟨rfl, h⟩
  | refuse => cases h
  | placed ret areas k => cases h

theorem Try.behind_pass {t : Try} (h : t.behind a = .pass) : t = .pass := by
  cases t with
  | pass => rfl
  | refuse => cases h
  | placed ret areas k => cases h

section
variable (hcnt : cnt < 128) (length : Int)
include hcnt

theorem frontAt_ne_refuse (start : Nat) (areas : List VmArea) : frontAt cnt length prot start areas ≠ .refuse := by
  cases areas with
  | nil => exact Try.noConfusion
  | cons curr rest =>
    unfold frontAt
    simp only [if_neg (Nat.not_le.mpr hcnt)]
    split_ifs <;> exact Try.noConfusion

theorem gapAfter_ne_refuse (curr next : VmArea) (rest : List VmArea) : gapAfter cnt length prot curr next rest ≠ .refuse := by
  unfold gapAfter
  simp only [if_neg (Nat.not_le.mpr hcnt)]
  split_ifs <;> exact Try.noConfusion

theorem search_ne_refuse (go : VmArea → Bool) (areas : List VmArea) : search cnt length prot go areas ≠ .refuse := by
  induction areas with
  | nil => exact Try.noConfusion
  | cons curr rest ih =>
    cases rest with
    | nil =>
      unfold search appendLast
      simp only [if_neg (Nat.not_le.mpr hcnt)]
      split_ifs <;> exact Try.noConfusion
    | cons next rest =>
      unfold search
      split
      · exact Try.orElse_ne_refuse (gapAfter_ne_refuse hcnt length curr next rest) (Try.behind_ne_refuse ih)
      · exact Try.noConfusion

theorem conflict_ne_refuse (areas : List VmArea) : conflict cnt length prot false areas ≠ .refuse :=
  search_ne_refuse hcnt length _ areas

theorem hintFrom_ne_refuse (areas : List VmArea) : hintFrom cnt length prot addr false areas ≠ .refuse := by
  have hconf : ∀ areas, conflict cnt length prot false areas ≠ .refuse := conflict_ne_refuse hcnt length
  induction areas with
  | nil => exact Try.noConfusion
  | cons curr rest ih =>
    cases rest with
    | nil =>
      unfold hintFrom hintLast
      simp only [if_neg (Nat.not_le.mpr hcnt)]
      split_ifs
      · exact hconf []
      · exact hconf [curr]
      all_goals exact Try.noConfusion
    | cons next rest =>
      unfold hintFrom
      split
      · exact hconf _
      split
      · exact Try.orElse_ne_refuse (gapAfter_ne_refuse hcnt length curr next rest) (hconf _)
      split
      · unfold hintGap
        simp only [if_neg (Nat.not_le.mpr hcnt)]
        split_ifs
        iterate 3 exact Try.noConfusion
        exact Try.behind_ne_refuse (hconf _)
      · exact Try.behind_ne_refuse ih

end

/-! ## What has been looked at when a search passes on -/

theorem appendLast_ne_pass : appendLast cnt n prot curr ≠ .pass := by
  unfold appendLast
  split_ifs <;> exact Try.noConfusion

section
variable (hn : 0 < n) (hn31 : n < 2 ^ 31)
include hn31

theorem frontAt_pass (hst : start < 2 ^ 63) (h : frontAt cnt n prot start (curr :: rest) = .pass) :
    curr.vmStart < start + n := by
  have hp : plus start n = start + n := plus_nat (by omega)
  simp only [frontAt, hp] at h
  split at h
  · split at h <;> cases h
  split at h
  · split at h
    · cases h
    · split at h <;> cases h
  · omega

theorem gapAfter_pass (hc : Areas b (curr :: next :: rest)) (h : gapAfter cnt n prot curr next rest = .pass) :
    next.vmStart < curr.vmEnd + n := by
  have htop := hc.tail.le_top
  rw [hi_eq, end_eq] at htop
  have hp : plus curr.vmEnd n = curr.vmEnd + n := plus_nat (by omega)
  unfold gapAfter at h
  simp only [hp] at h
  split at h
  · split at h
    · cases h
    · split at h <;> cases h
  split at h
  · split at h
    · cases h
    split at h
    · cases h
    split at h
    · cases h
    · split at h <;> cases h
  · omega

include hn

/-- The areas behind which a search does not look lie at `addr` or above. -/
theorem search_pass (hgo : ∀ a, go a = false → addr ≤ a.vmEnd) (hc : Areas b (curr :: rest))
    (h : search cnt n prot go (curr :: rest) = .pass) (hv : Vacant MMAP_AREA_END curr.vmEnd rest r n) : addr ≤ r := by
  induction rest generalizing b curr with
  | nil =>
    obtain ⟨hr, hfit⟩ := vacant_nil.mp hv
    unfold search at h
    split at h
    · rename_i hover
      rw [plus_nat (by rw [end_eq] at hfit; omega)] at hover
      omega
    · exact absurd h appendLast_ne_pass
  | cons next rest ih =>
    unfold search at h
    split at h
    · obtain ⟨hgap, hrest⟩ := Try.orElse_pass h
      have hover := gapAfter_pass hn31 hc hgap
      rcases (vacant_cons hc.tail hn).mp hv with ⟨hr, hle⟩ | hv
      · simp only [hi_eq, lo_eq] at hr hle
        omega
      · exact ih hc.tail (Try.behind_pass hrest) hv
    · rename_i hstop
      have hlow := hgo curr (Bool.not_eq_true _ ▸ hstop)
      exact Nat.le_trans hlow hv.1

/-- A search of all gaps that passes on: none fits. -/
theorem conflict_pass (hc : Areas b (curr :: rest)) (h : conflict cnt n prot false (curr :: rest) = .pass) :
    ¬ Vacant MMAP_AREA_END curr.vmEnd rest r n := by
  intro hv
  have hle : r + 1 ≤ r := search_pass hn hn31 (fun a ha => by cases ha) hc h hv
  omega

/-- A search of all gaps takes the lowest. -/
theorem search_lowest (hc : Areas b (curr :: rest)) {ret : Nat} {k : Int} {l : List VmArea} (hnp : 4096 ∣ n)
    (h : search cnt n prot (fun _ => true) (curr :: rest) = .placed ret l k)
    (hv : Vacant MMAP_AREA_END curr.vmEnd rest r n) : ret ≤ r := by
  induction rest generalizing b curr l with
  | nil =>
    obtain ⟨hr, hfit⟩ := vacant_nil.mp hv
    unfold search at h
    rw [plus_nat (by rw [end_eq] at hfit; omega), if_neg (by omega)] at h
    rw [(appendLast_maps hn hn31 hnp hc (by omega) h).1]
    exact hr
  | cons next rest ih =>
    unfold search at h
    rw [if_pos rfl] at h
    rcases Try.orElse_placed h with h | ⟨hgap, h⟩
    · rw [(gapAfter_maps hn hn31 hnp hc h).1]
      exact hv.1
    · have hover := gapAfter_pass hn31 hc hgap
      obtain ⟨l', -, ht⟩ := Try.behind_placed h
      rcases (vacant_cons hc.tail hn).mp hv with ⟨hr, hle⟩ | hv
      · simp only [hi_eq, lo_eq] at hr hle
        omega
      · exact ih hc.tail ht hv

/-- The walk to the hint leaves no free range from the hint on. -/
theorem hintFrom_pass (hend : addr ≤ MMAP_AREA_END) (hc : Areas b (curr :: rest)) (hle : curr.vmStart ≤ addr)
    (h : hintFrom cnt n prot addr false (curr :: rest) = .pass) (hv : Vacant MMAP_AREA_END curr.vmEnd rest r n) : r < addr := by
  rw [end_eq] at hend
  have hp : plus addr n = addr + n := plus_nat (by omega)
  induction rest generalizing b curr with
  | nil =>
    obtain ⟨hr, hfit⟩ := vacant_nil.mp hv
    unfold hintFrom hintLast at h
    rw [hp] at h
    split at h
    · omega
    split at h
    · exact absurd hv (conflict_pass hn hn31 hc h)
    split at h
    · split at h
      · cases h
      · split at h <;> cases h
    · split at h <;> cases h
  | cons next rest ih =>
    have hcase := (vacant_cons hc.tail hn).mp hv
    simp only [hi_eq, lo_eq] at hcase
    unfold hintFrom at h
    split at h
    · exact absurd hv (conflict_pass hn hn31 hc h)
    split at h
    · exact absurd hv (conflict_pass hn hn31 hc (Try.orElse_pass h).2)
    split at h
    · -- the gap with the hint is left for the restart
      rename_i hgap
      unfold hintGap at h
      rw [hp] at h
      split at h
      · split at h <;> cases h
      split at h
      · split at h
        · cases h
        · split at h <;> cases h
      · rcases hcase with ⟨hr, hfit⟩ | hv
        · omega
        · exact absurd hv (conflict_pass hn hn31 hc.tail (Try.behind_pass h))
    · have hnext : curr.vmEnd ≤ next.vmStart ∧ next.vmStart < next.vmEnd := ⟨hc.tail.1, hc.tail.2.1⟩
      rcases hcase with ⟨hr, hfit⟩ | hv
      · omega
      · exact ih hc.tail (by omega) (Try.behind_pass h) hv

/-! ## A free range at the hint -/

omit hn in
theorem frontAt_vacant (hcnt : cnt < 128) (hst : start < 2 ^ 63) (hle : start + n ≤ curr.vmStart) :
    ∃ ret l k, frontAt cnt n prot start (curr :: rest) = .placed ret l k := by
  refine Try.exists_placed (fun h => ?_) (frontAt_ne_refuse hcnt n start _)
  have hover := frontAt_pass hn31 hst h
  omega

/-- It is taken, with MAP_FIXED or without. -/
theorem hintFrom_vacant (hcnt : cnt < 128) (hc : Areas b (curr :: rest)) (hle : curr.vmStart ≤ addr)
    (hv : Vacant MMAP_AREA_END curr.vmEnd rest addr n) :
    ∃ ret l k, ∀ fixed, hintFrom cnt n prot addr fixed (curr :: rest) = .placed ret l k := by
  have hend := hv.2.1
  rw [end_eq] at hend
  have hp : plus addr n = addr + n := plus_nat (by omega)
  have hlow := hv.1
  induction rest generalizing b curr with
  | nil =>
    unfold hintFrom hintLast
    simp only [hp, end_eq, if_neg (Nat.not_lt.mpr hend), if_neg (fun h : curr.vmStart ≤ addr ∧ addr < curr.vmEnd =>
      Nat.not_lt.mpr hlow h.2), if_neg (Nat.not_le.mpr hcnt)]
    split_ifs
    · exact ⟨_, _, _, fun _ => rfl⟩
    · exact ⟨_, _, _, fun _ => rfl⟩
    · exact ⟨_, _, _, fun _ => rfl⟩
  | cons next rest ih =>
    have hcase := (vacant_cons hc.tail hn).mp hv
    simp only [hi_eq, lo_eq] at hcase
    have hnext : curr.vmEnd ≤ next.vmStart ∧ next.vmStart < next.vmEnd := ⟨hc.tail.1, hc.tail.2.1⟩
    unfold hintFrom
    simp only [if_neg (fun h : curr.vmStart ≤ addr ∧ addr < curr.vmEnd => Nat.not_lt.mpr hlow h.2)]
    rcases hcase with ⟨-, hfit⟩ | hv
    · by_cases he : addr = curr.vmEnd
      · have hgap : gapAfter cnt n prot curr next rest ≠ .pass := fun h => by
          have hover := gapAfter_pass hn31 hc h
          omega
        obtain ⟨ret, l, k, hgap⟩ := Try.exists_placed hgap (gapAfter_ne_refuse hcnt n curr next rest)
        simp only [if_pos he, hgap]
        exact ⟨ret, l, k, fun _ => rfl⟩
      · simp only [if_neg he, if_pos (show curr.vmEnd < addr ∧ addr < next.vmStart by omega)]
        unfold hintGap
        simp only [hp, if_neg (Nat.not_le.mpr hcnt)]
        by_cases hlt : addr + n < next.vmStart
        · simp only [if_pos hlt]
          exact ⟨_, _, _, fun _ => rfl⟩
        · simp only [if_neg hlt, if_pos (show addr + n = next.vmStart by omega)]
          split_ifs
          · exact ⟨_, _, _, fun _ => rfl⟩
          · exact ⟨_, _, _, fun _ => rfl⟩
    · have hge : next.vmEnd ≤ addr := hv.1
      simp only [if_neg (show ¬ addr = curr.vmEnd by omega), if_neg (show ¬ (curr.vmEnd < addr ∧ addr < next.vmStart) by omega)]
      obtain ⟨ret, l, k, hplaced⟩ := ih hc.tail (by omega) hv hge
      refine ⟨ret, curr :: l, k, fun fixed => ?_⟩
      rw [hplaced]
      rfl

/-! ## The whole search -/

variable (hnp : 4096 ∣ n) (hcnt : cnt < 128) (hc : Areas MMAP_AREA_START areas)
include hcnt hc

theorem mapAnywhere_ne_placed (prot : UInt32) (h : ∀ ret l k, mapAnywhere cnt n prot areas ≠ .placed ret l k) : ¬ Free areas r n := by
  intro hv
  cases areas with
  | nil =>
    obtain ⟨hr, hfit⟩ := vacant_nil.mp hv
    have hp : plus MMAP_AREA_START n = MMAP_AREA_START + n := plus_nat (by unfold MMAP_AREA_START; omega)
    refine h MMAP_AREA_START [⟨MMAP_AREA_START, plus MMAP_AREA_START n, prot⟩] 1 ?_
    unfold mapAnywhere
    rw [if_neg (by rw [hp]; omega)]
  | cons curr rest =>
    by_cases hpass : mapAnywhere cnt n prot (curr :: rest) = .pass
    · obtain ⟨hfront, hsearch⟩ := Try.orElse_pass hpass
      have hover := frontAt_pass hn31 (by decide) hfront
      rcases (vacant_cons hc hn).mp hv with ⟨hr, hle⟩ | hv
      · simp only [lo_eq] at hle
        omega
      · have hconf : conflict cnt n prot false (curr :: rest) = .pass := hsearch
        exact conflict_pass hn hn31 hc hconf hv
    · obtain ⟨ret, l, k, hplaced⟩ := Try.exists_placed hpass
        (Try.orElse_ne_refuse (frontAt_ne_refuse hcnt n _ _) (search_ne_refuse hcnt n _ _))
      exact h ret l k hplaced

theorem mapHint_ne_placed (prot : UInt32) (hend : addr ≤ MMAP_AREA_END)
    (h : ∀ ret l k, mapHint cnt n prot addr false areas ≠ .placed ret l k) :
    ¬ Free areas r n := by
  intro hv
  rw [end_eq] at hend
  cases areas with
  | nil =>
    obtain ⟨hr, hfit⟩ := vacant_nil.mp hv
    have hp : plus MMAP_AREA_START n = MMAP_AREA_START + n := plus_nat (by unfold MMAP_AREA_START; omega)
    have hroom : ¬ MMAP_AREA_END < MMAP_AREA_START + n := by omega
    simp only [mapHint, hp, if_neg hroom] at h
    by_cases hover : MMAP_AREA_END < plus addr n
    · exact h _ _ _ (if_pos hover)
    · exact h _ _ _ (if_neg hover)
  | cons curr rest =>
    have hhint : mapHint cnt n prot addr false (curr :: rest) ≠ .refuse := by
      unfold mapHint
      refine Try.orElse_ne_refuse ?_ (Try.orElse_ne_refuse (frontAt_ne_refuse hcnt n _ _) (search_ne_refuse hcnt n _ _))
      split
      · exact Try.orElse_ne_refuse (frontAt_ne_refuse hcnt n _ _) (conflict_ne_refuse hcnt n _)
      · exact hintFrom_ne_refuse hcnt n _
    by_cases hpass : mapHint cnt n prot addr false (curr :: rest) = .pass
    swap
    · obtain ⟨ret, l, k, hplaced⟩ := Try.exists_placed hpass hhint
      exact h ret l k hplaced
    obtain ⟨hfirst, hrestart⟩ := Try.orElse_pass hpass
    obtain ⟨hfront, hsearch⟩ := Try.orElse_pass hrestart
    have hover := frontAt_pass hn31 (by decide) hfront
    rcases (vacant_cons hc hn).mp hv with ⟨hr, hle⟩ | hv
    · simp only [lo_eq] at hle
      omega
    -- what the restart did not look at lies at the hint or above, and there the walk to the hint has looked
    have hge : addr ≤ r := search_pass hn hn31 (fun a ha => by simpa using ha) hc hsearch hv
    by_cases hlt : addr < curr.vmStart
    · rw [if_pos hlt] at hfirst
      exact conflict_pass hn hn31 hc (Try.orElse_pass hfirst).2 hv
    · rw [if_neg hlt] at hfirst
      have hless := hintFrom_pass hn hn31 hend hc (Nat.le_of_not_lt hlt) hfirst hv
      omega

theorem mapHint_vacant (hv : Free areas addr n) :
    ∃ ret l k, ∀ fixed, mapHint cnt n prot addr fixed areas = .placed ret l k := by
  have hend := hv.2.1
  rw [end_eq] at hend
  cases areas with
  | nil =>
    unfold mapHint
    rw [plus_nat (by omega), if_neg (by rw [end_eq]; omega)]
    exact ⟨_, _, _, fun _ => rfl⟩
  | cons curr rest =>
    unfold mapHint
    have hlt : curr.vmStart < curr.vmEnd := hc.2.1
    rcases (vacant_cons hc hn).mp hv with ⟨-, hle⟩ | hv
    · simp only [lo_eq] at hle
      obtain ⟨ret, l, k, hplaced⟩ : ∃ ret l k, frontAt cnt n prot addr (curr :: rest) = .placed ret l k :=
        frontAt_vacant hn31 hcnt (by omega) hle
      simp only [if_pos (show addr < curr.vmStart by omega), hplaced]
      exact ⟨ret, l, k, fun _ => rfl⟩
    · have hge : curr.vmEnd ≤ addr := hv.1
      obtain ⟨ret, l, k, hplaced⟩ : ∃ ret l k, ∀ fixed, hintFrom cnt n prot addr fixed (curr :: rest) = .placed ret l k :=
        hintFrom_vacant hn hn31 hcnt hc (by omega) hv
      simp only [if_neg (show ¬ addr < curr.vmStart by omega), hplaced]
      exact ⟨ret, l, k, fun _ => rfl⟩

include hnp in
omit hcnt in
theorem mapAnywhere_lowest {ret : Nat} {k : Int} {l : List VmArea} (h : mapAnywhere cnt n prot areas = .placed ret l k)
    (hv : Free areas r n) : ret ≤ r := by
  cases areas with
  | nil =>
    simp only [mapAnywhere] at h
    split at h
    · cases h
    · cases h
      exact hv.1
  | cons curr rest =>
    rcases Try.orElse_placed h with h | ⟨hfront, h⟩
    · rw [(frontAt_maps hn hn31 hnp hc (Nat.le_refl _) (by decide) (by decide) h).1]
      exact hv.1
    · have hover := frontAt_pass hn31 (by decide) hfront
      rcases (vacant_cons hc hn).mp hv with ⟨hr, hle⟩ | hv
      · simp only [lo_eq] at hle
        omega
      · exact search_lowest hn hn31 hc hnp h hv

end

section
variable {length : Int} {flags : UInt32} (hl : Promised length)
include hl

theorem mapAreas_zero : mapAreas areas 0 length prot flags = (mapAnywhere areas.length (pageUp length) prot areas).result areas := by
  unfold mapAreas
  rw [if_neg fun h => h.1 rfl, if_neg fun h => h.1 rfl]
  simp only [pageRound_eq hl, if_true]

theorem mapAreas_hint (ha : 4096 ∣ addr) (hstart : MMAP_AREA_START ≤ addr) (hend : addr ≤ MMAP_AREA_END)
    (hfix : flags &&& MAP_FIXED ≠ 0 → addr + pageUp length ≤ MMAP_AREA_END) :
    mapAreas areas addr length prot flags =
      (mapHint areas.length (pageUp length) prot addr (flags &&& MAP_FIXED ≠ 0) areas).result areas := by
  have h0 : addr ≠ 0 := by unfold MMAP_AREA_START at hstart; omega
  have hlt : addr < 2 ^ 63 := by rw [end_eq] at hend; omega
  unfold mapAreas
  rw [if_neg fun h => h.2 ⟨hstart, hend⟩, if_neg fun h => h.2.2 ⟨hstart, (fits_iff hl ha (by decide) hlt).mpr (hfix h.2.1)⟩]
  simp only [pageRound_eq hl, if_neg h0]

end

/-- Without a hint the lowest free range, at the hint if that is free, with MAP_FIXED nothing else; and a failure
    without MAP_FIXED only where no range of the length is free. -/
theorem placement {areas : List VmArea} {addr : Nat} {length : Int} (prot flags : UInt32) (hw : WellFormed areas)
    (hcnt : areas.length < 128) (hl : Promised length)
    (ha : addr = 0 ∨ (4096 ∣ addr ∧ MMAP_AREA_START ≤ addr ∧ addr ≤ MMAP_AREA_END)) :
    (addr = 0 → ∀ a, IsLeast {a | Free areas a (pageUp length)} a →
      Added areas (mapAreas areas addr length prot flags).2.1 = Set.Ico a (a + pageUp length)) ∧
    (addr ≠ 0 → Free areas addr (pageUp length) →
      Added areas (mapAreas areas addr length prot flags).2.1 = Set.Ico addr (addr + pageUp length)) ∧
    (addr ≠ 0 → flags &&& MAP_FIXED ≠ 0 → ¬ Free areas addr (pageUp length) →
      (mapAreas areas addr length prot flags).1 = -1) ∧
    (flags &&& MAP_FIXED = 0 →
      ((mapAreas areas addr length prot flags).1 = -1 ↔ ∀ a, ¬ Free areas a (pageUp length))) := by
  obtain ⟨hn, hn31, hnp, -, -⟩ := pageUp_spec hl
  have hc := wellFormed_iff.mp hw
  have hdvd : 4096 ∣ addr := by
    rcases ha with rfl | ha
    · exact Nat.dvd_zero _
    · exact ha.1
  -- a call that does not fail
  have hmaps : (mapAreas areas addr length prot flags).1 ≠ -1 → _ := mapAreas_maps hc hl hdvd
  have hfree : ∀ {r l}, Maps MMAP_AREA_START areas l r (pageUp length) prot → Free areas r (pageUp length) :=
    fun h => ⟨h.low, h.high, h.free⟩
  refine ⟨fun h0 a hleast => ?_, fun h0 hv => ?_, fun h0 hfix hno => ?_, fun hfix => ⟨fun hret a hv => ?_, fun hno => ?_⟩⟩
  · subst h0
    obtain ⟨ret, l, k, hplaced⟩ : ∃ ret l k, mapAnywhere areas.length (pageUp length) prot areas = .placed ret l k := by
      by_contra hno
      exact mapAnywhere_ne_placed hn hn31 hcnt hc prot (fun ret l k h => hno ⟨ret, l, k, h⟩) hleast.1
    have hm := mapAnywhere_maps hn hn31 hnp hc hplaced
    have heq : ret = a := Nat.le_antisymm (mapAnywhere_lowest hn hn31 hnp hc hplaced hleast.1) (hleast.2 (hfree hm))
    rw [mapAreas_zero hl, hplaced]
    exact heq ▸ Added.of_maps hm
  · obtain ⟨-, hstart, hend⟩ := ha.resolve_left h0
    obtain ⟨ret, l, k, hplaced⟩ : ∃ ret l k, ∀ fixed, mapHint areas.length (pageUp length) prot addr fixed areas = .placed ret l k :=
      mapHint_vacant hn hn31 hcnt hc hv
    obtain ⟨r, hm, -, hr⟩ := mapHint_maps hn hn31 hnp hdvd hend hc hstart (fun _ => hv.2.1) (hplaced true)
    rw [mapAreas_hint hl hdvd hstart hend fun _ => hv.2.1, hplaced]
    exact hr rfl ▸ Added.of_maps hm
  · by_contra hret
    obtain ⟨r, hm, -, hr⟩ := hmaps hret
    exact hno (hr h0 hfix ▸ hfree hm)
  · have hnat : ∀ ret : Nat, (ret : Int) ≠ -1 := fun ret => by omega
    by_cases h0 : addr = 0
    · subst h0
      rw [mapAreas_zero hl] at hret
      refine mapAnywhere_ne_placed hn hn31 hcnt hc prot (fun ret l k h => ?_) hv
      rw [h] at hret
      exact hnat ret hret
    · obtain ⟨-, hstart, hend⟩ := ha.resolve_left h0
      rw [mapAreas_hint hl hdvd hstart hend fun h => absurd hfix h, decide_eq_false (not_not_intro hfix)] at hret
      refine mapHint_ne_placed hn hn31 hcnt hc prot hend (fun ret l k h => ?_) hv
      rw [h] at hret
      exact hnat ret hret
  · by_contra hret
    obtain ⟨r, hm, -, -⟩ := hmaps hret
    exact hno r (hfree hm)

/-- A mapped page, and a request at its address: with MAP_FIXED it fails, without it is placed behind. -/
theorem placement_taken : ∃ areas : List VmArea, areas = [⟨0x180200000, 0x180201000, 1⟩] ∧
    (mapAreas areas 0x180200000 1 3 MAP_FIXED).1 = -1 ∧ (mapAreas areas 0x180200000 1 3 0).1 ≠ -1 := by
  have hw : WellFormed [⟨0x180200000, 0x180201000, 1⟩] := wellFormed_iff.mpr (by decide)
  have hfree : Free [⟨0x180200000, 0x180201000, 1⟩] 0x180201000 (pageUp 1) :=
    ⟨by decide, by decide, fun x hx _ => valueAt_tail (by simp only [lo_eq, hi_eq]; omega)⟩
  refine ⟨_, rfl, ?_, fun hret => ?_⟩
  · refine (placement 3 MAP_FIXED hw (by decide) (by decide) (.inr (by decide))).2.2.1 (by decide) (by decide) fun hv => ?_
    exact absurd (hv.2.2 0x180200000 (by decide) (by decide)) (by decide)
  · exact ((placement 3 0 hw (by decide) (by decide) (.inr (by decide))).2.2.2 rfl).mp hret _ hfree

end Cs330.Vm
