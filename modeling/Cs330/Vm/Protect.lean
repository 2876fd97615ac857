/-
  Cs330.Vm.Protect — what vm_area_mprotect does to the list of areas.

  The source checks that the range is mapped without a gap (`checkFrom`, `checkIn`) and
  that the result keeps to 128 areas (`limit`), then splits the areas at the ends of the
  range and changes the flags in between (`protectFrom`, `protectIn`), and last merges the
  whole list (`mergeFrom`).

  Proved: a call that returns 0 gives the protection to what was mapped in the range and
  to nothing else, and leaves a well-formed, maximally merged list (`protectAreas_paints`).
  `checkFrom` does not look behind the end of the last area when the range starts in it:
  that part of the range is unmapped and stays so.
-/
import Cs330.Vm.Area

namespace Cs330.Vm

open Lib Lib.Seg

/-- The range has started in or before `prev`: the areas must follow each other up to `stop`. -/
def checkIn (prev : VmArea) (stop : Nat) : List VmArea → Bool
  | [] => true
  | curr :: rest =>
    if curr.vmStart ≠ prev.vmEnd then false
    else if stop ≤ curr.vmEnd then true
    else if rest = [] then false
    else checkIn curr stop rest

def checkFrom (addr stop : Nat) : List VmArea → Bool
  | [] => true
  | curr :: rest =>
    if curr.vmStart ≤ addr ∧ addr < curr.vmEnd then
      if stop ≤ curr.vmEnd then true else checkIn curr stop rest
    else
      match rest with
      | [] => false
      | next :: _ => if addr < next.vmStart then false else checkFrom addr stop rest

/-- The number of areas the range meets. -/
def span (addr stop : Nat) : List VmArea → Nat
  | [] => 0
  | curr :: rest =>
    if addr < curr.vmStart then
      if curr.vmStart < stop ∧ stop ≤ curr.vmEnd then 1
      else if curr.vmEnd ≤ stop then span addr stop rest + 1
      else span addr stop rest
    else if curr.vmStart ≤ addr ∧ addr < curr.vmEnd then
      if stop ≤ curr.vmEnd then 1 else span addr stop rest + 1
    else span addr stop rest

section
variable (cnt addr stop : Nat) (prot : UInt32)

/-- One area meets the range: refuse (`true`) if the split would exceed 128. -/
def limit1 : Option VmArea → List VmArea → Bool
  | _, [] => false
  | prev, curr :: rest =>
    if addr = curr.vmStart then
      if stop = curr.vmEnd then false
      else if curr.accessFlags = prot ∨ prev.any (fun p => prot = p.accessFlags) then false
      else if 128 ≤ cnt then true
      else limit1 (some curr) rest
    else if curr.vmStart < addr ∧ addr < curr.vmEnd then
      if stop = curr.vmEnd then
        if curr.accessFlags = prot ∨ rest.head?.any (fun n => prot = n.accessFlags) then false
        else if 128 ≤ cnt then true
        else limit1 (some curr) rest
      else if curr.accessFlags = prot then false
      else if 127 ≤ cnt then true
      else limit1 (some curr) rest
    else limit1 (some curr) rest

/-- Two areas meet the range. -/
def limit2 : List VmArea → Bool
  | [] => false
  | curr :: rest =>
    if addr = curr.vmStart then false
    else if curr.vmStart < addr ∧ addr < curr.vmEnd then
      if rest.head?.any (fun n => stop = n.vmEnd) then false
      else if curr.accessFlags = prot ∨ rest.head?.any (fun n => n.accessFlags = prot) then false
      else if 128 ≤ cnt then true
      else limit2 rest
    else limit2 rest

def limit (areas : List VmArea) : Bool :=
  if span addr stop areas = 1 then limit1 cnt addr stop prot none areas
  else if span addr stop areas = 2 then limit2 cnt addr stop prot areas
  else false

end

/-- Split and change flags once the range has started (`flag = 1`). -/
def protectIn (stop : Nat) (prot : UInt32) : List VmArea → List VmArea
  | [] => []
  | curr :: rest =>
    if stop < curr.vmEnd then
      if curr.accessFlags ≠ prot then ⟨curr.vmStart, stop, prot⟩ :: { curr with vmStart := stop } :: rest
      else curr :: rest
    else if stop = curr.vmEnd then { curr with accessFlags := prot } :: rest
    else { curr with accessFlags := prot } :: protectIn stop prot rest

def protectFrom (addr stop : Nat) (prot : UInt32) : List VmArea → List VmArea
  | [] => []
  | curr :: rest =>
    if addr = curr.vmStart then
      if stop < curr.vmEnd then
        if curr.accessFlags ≠ prot then ⟨addr, stop, prot⟩ :: { curr with vmStart := stop } :: rest
        else curr :: rest
      else if stop = curr.vmEnd then { curr with accessFlags := prot } :: rest
      else { curr with accessFlags := prot } :: protectIn stop prot rest
    else if curr.vmStart < addr ∧ addr < curr.vmEnd then
      if stop < curr.vmEnd then
        if curr.accessFlags ≠ prot then
          { curr with vmEnd := addr } :: ⟨addr, stop, prot⟩ :: ⟨stop, curr.vmEnd, curr.accessFlags⟩ :: rest
        else curr :: rest
      else if stop = curr.vmEnd then
        if curr.accessFlags ≠ prot then { curr with vmEnd := addr } :: ⟨addr, curr.vmEnd, prot⟩ :: rest
        else curr :: rest
      else if curr.accessFlags ≠ prot then
        -- the walk goes on with the area just split off
        { curr with vmEnd := addr } :: protectIn stop prot (⟨addr, curr.vmEnd, prot⟩ :: rest)
      else curr :: protectIn stop prot rest
    else curr :: protectFrom addr stop prot rest

/-- The merging pass, with `prev` the area before the list. -/
def mergeFrom (prev : VmArea) : List VmArea → List VmArea
  | [] => [prev]
  | curr :: rest =>
    if prev.vmEnd = curr.vmStart ∧ prev.accessFlags = curr.accessFlags then
      mergeFrom { prev with vmEnd := curr.vmEnd } rest
    else prev :: mergeFrom curr rest

def mergeAll : List VmArea → List VmArea
  | [] => []
  | prev :: rest => mergeFrom prev rest

/-- vm_area_mprotect up to its loop over the pages: the return value, the list, and the
    change of `stats->num_vm_area` (a node is allocated or freed for each one more or less). -/
def protectAreas (areas : List VmArea) (addr : Nat) (length : Int) (prot : UInt32) : Int × List VmArea × Int :=
  if ¬ (MMAP_AREA_START ≤ addr ∧ plus addr length ≤ MMAP_AREA_END) then (-1, areas, 0)
  else
    let stop := plus addr (pageRound length)
    if pageRound length = 0 then (0, areas, 0)
    else
      match areas with
      | [] => (-1, areas, 0)
      | first :: _ =>
        if addr < first.vmStart then (-1, areas, 0)
        else if ¬ checkFrom addr stop areas then (-1, areas, 0)
        else if limit areas.length addr stop prot areas then (-1, areas, 0)
        else
          let areas' := mergeAll (protectFrom addr stop prot areas)
          (0, areas', areas'.length - areas.length)

/-! ## The merging pass -/

section
variable {b : Nat}

theorem mergeFrom_spec {prev : VmArea} {areas : List VmArea} (hc : Areas b (prev :: areas)) :
    Areas b (mergeFrom prev areas) ∧ (∀ x, protAt (mergeFrom prev areas) x = protAt (prev :: areas) x) ∧
      Merged (mergeFrom prev areas) ∧ ∀ e f, Apart e f (prev :: areas) → Apart e f (mergeFrom prev areas) := by
  induction areas generalizing b prev with
  | nil => exact ⟨hc, fun _ => rfl, ⟨trivial, trivial⟩, fun _ _ h => h⟩
  | cons curr rest ih =>
    obtain ⟨c1, c2, c3, c4, d1, d2, d3, d4, d5⟩ := id hc
    simp only [lo_eq, hi_eq] at c1 c2 c3 c4 d1 d2 d3 d4 d5
    unfold mergeFrom
    by_cases h : prev.vmEnd = curr.vmStart ∧ prev.accessFlags = curr.accessFlags
    · rw [if_pos h]
      have hc' : Areas b ({ prev with vmEnd := curr.vmEnd } :: rest) :=
        ⟨c1, by simp only [lo_eq, hi_eq]; omega, c3, d4, d5⟩
      obtain ⟨h1, h2, h3, h4⟩ := ih hc'
      refine ⟨h1, fun x => ?_, h3, fun e f hap => h4 e f hap⟩
      rw [h2]
      simp only [protAt, valueAt, lo_eq, hi_eq, val_eq]
      by_cases hx : prev.vmStart ≤ x ∧ x < prev.vmEnd
      · rw [if_pos hx, if_pos (by omega)]
      · rw [if_neg hx]
        by_cases hx' : curr.vmStart ≤ x ∧ x < curr.vmEnd
        · rw [if_pos hx', if_pos (by omega), h.2]
        · rw [if_neg hx', if_neg (by omega)]
    · rw [if_neg h]
      obtain ⟨h1, h2, h3, h4⟩ := ih hc.tail
      refine ⟨⟨c1, c2, c3, c4, h1⟩, fun x => ?_, ⟨h4 _ _ fun he hf => h ⟨he.symm, hf.symm⟩, h3⟩, fun _ _ hap => hap⟩
      have := h2 x
      unfold protAt at this ⊢
      simp only [valueAt, this]

/-! ## Changing the flags of a range -/

/-- `areas'` is `areas` with protection `prot` for what is mapped in `[addr, stop)`. -/
structure Paints (b : Nat) (areas areas' : List VmArea) (addr stop : Nat) (prot : UInt32) : Prop where
  chain : Areas b areas'
  value : ∀ x, protAt areas' x = if addr ≤ x ∧ x < stop then (protAt areas x).map fun _ => prot else protAt areas x

variable {addr stop : Nat} {prot : UInt32}

variable (prot) in
/-- Past the end of the range nothing changes. -/
theorem Paints.above {areas : List VmArea} (hc : Areas b areas) (hb : stop ≤ b) :
    ∀ x, protAt areas x = if x < stop then (protAt areas x).map fun _ => prot else protAt areas x := by
  intro x
  split
  · rw [show protAt areas x = none from hc.valueAt_below (by omega)]; rfl
  · rfl

variable (prot) in
/-- Inside the range every area has been checked to begin where the last one ended. -/
theorem protectIn_paints {prev : VmArea} {areas : List VmArea} (hc : Areas b areas) (hs : 4096 ∣ stop)
    (hlt : prev.vmEnd < stop) (hcheck : checkIn prev stop areas = true) :
    Areas b (protectIn stop prot areas) ∧
      ∀ x, protAt (protectIn stop prot areas) x = if x < stop then (protAt areas x).map fun _ => prot else protAt areas x := by
  induction areas generalizing b prev with
  | nil => exact ⟨hc, fun x => by split <;> rfl⟩
  | cons curr rest ih =>
    obtain ⟨c1, c2, c3, c4, c5⟩ := id hc
    simp only [lo_eq, hi_eq] at c1 c2 c3 c4 c5
    unfold checkIn at hcheck
    split at hcheck
    · cases hcheck
    rename_i hadj
    unfold protectIn
    by_cases h1 : stop < curr.vmEnd
    · have hafter := Paints.above prot c5 (Nat.le_of_lt h1)
      rw [if_pos h1]
      by_cases hf : curr.accessFlags = prot
      · rw [if_neg (not_not_intro hf)]
        refine ⟨hc, fun x => ?_⟩
        have := hafter x
        simp only [protAt, valueAt, lo_eq, hi_eq, val_eq] at this ⊢
        grind
      · rw [if_pos hf]
        refine ⟨⟨c1, by simp only [lo_eq, hi_eq]; omega, c3, hs, Nat.le_refl _, h1, hs, c4, c5⟩, fun x => ?_⟩
        have := hafter x
        simp only [protAt, valueAt, lo_eq, hi_eq, val_eq] at this ⊢
        grind
    rw [if_neg h1]
    by_cases h2 : stop = curr.vmEnd
    · rw [if_pos h2]
      have hafter := Paints.above prot c5 (Nat.le_of_eq h2)
      refine ⟨⟨c1, c2, c3, c4, c5⟩, fun x => ?_⟩
      have := hafter x
      simp only [protAt, valueAt, lo_eq, hi_eq, val_eq] at this ⊢
      grind
    rw [if_neg h2]
    rw [if_neg (by omega)] at hcheck
    split at hcheck
    · cases hcheck
    obtain ⟨h3, h4⟩ := ih c5 (by omega) hcheck
    refine ⟨⟨c1, c2, c3, c4, h3⟩, fun x => ?_⟩
    have := h4 x
    simp only [protAt, valueAt, lo_eq, hi_eq, val_eq] at this ⊢
    grind

/-! ### The area the range starts in -/

section
variable {curr : VmArea} {rest rest' : List VmArea} (hc : Areas b (curr :: rest)) (hin : curr.vmStart ≤ addr ∧ addr < curr.vmEnd)
include hc hin

/-- The range ends in the area, which has the protection already. -/
theorem paints_kept (hlt : stop < curr.vmEnd) (hf : curr.accessFlags = prot) : Paints b (curr :: rest) (curr :: rest) addr stop prot := by
  refine ⟨hc, fun x => ?_⟩
  have hafter := Paints.above prot hc.tail (Nat.le_of_lt hlt) x
  simp only [protAt, valueAt, lo_eq, hi_eq, val_eq] at hafter ⊢
  grind

/-- It ends in the area: the area is cut in two, or in three. -/
theorem paints_lower (hst : addr = curr.vmStart) (hs : 4096 ∣ stop) (hlt : addr < stop) (hend : stop < curr.vmEnd) :
    Paints b (curr :: rest) (⟨addr, stop, prot⟩ :: { curr with vmStart := stop } :: rest) addr stop prot := by
  obtain ⟨c1, c2, c3, c4, c5⟩ := id hc
  simp only [lo_eq] at c1 c3
  refine ⟨⟨by simp only [lo_eq]; omega, hlt, by simp only [lo_eq]; omega, hs, Nat.le_refl _, hend, hs, c4, c5⟩, fun x => ?_⟩
  have hafter := Paints.above prot c5 (Nat.le_of_lt hend) x
  simp only [protAt, valueAt, lo_eq, hi_eq, val_eq] at hafter ⊢
  grind

omit hin in
theorem paints_middle (hst : curr.vmStart < addr) (ha : 4096 ∣ addr) (hs : 4096 ∣ stop) (hlt : addr < stop) (hend : stop < curr.vmEnd) :
    Paints b (curr :: rest) ({ curr with vmEnd := addr } :: ⟨addr, stop, prot⟩ :: ⟨stop, curr.vmEnd, curr.accessFlags⟩ :: rest)
      addr stop prot := by
  obtain ⟨c1, c2, c3, c4, c5⟩ := id hc
  refine ⟨⟨c1, hst, c3, ha, Nat.le_refl _, hlt, ha, hs, Nat.le_refl _, hend, hs, c4, c5⟩, fun x => ?_⟩
  have hafter := Paints.above prot c5 (Nat.le_of_lt hend) x
  simp only [protAt, valueAt, lo_eq, hi_eq, val_eq] at hafter ⊢
  grind

/- The range goes on to the end of the area or behind it; `rest'` is what becomes of the others. -/
variable (hend : curr.vmEnd ≤ stop) (hc' : Areas curr.vmEnd rest')
  (hv' : ∀ x, protAt rest' x = if x < stop then (protAt rest x).map fun _ => prot else protAt rest x)
include hend hc' hv'

theorem paints_whole (hst : addr = curr.vmStart) :
    Paints b (curr :: rest) ({ curr with accessFlags := prot } :: rest') addr stop prot := by
  obtain ⟨c1, c2, c3, c4, c5⟩ := id hc
  refine ⟨⟨c1, c2, c3, c4, hc'⟩, fun x => ?_⟩
  have hbelow : x < curr.vmEnd → valueAt rest x = none := fun hx => c5.valueAt_below hx
  have hx := hv' x
  simp only [protAt, valueAt, lo_eq, hi_eq, val_eq] at hx ⊢
  grind

theorem paints_upper (hst : curr.vmStart < addr) (ha : 4096 ∣ addr) :
    Paints b (curr :: rest) ({ curr with vmEnd := addr } :: ⟨addr, curr.vmEnd, prot⟩ :: rest') addr stop prot := by
  obtain ⟨c1, c2, c3, c4, c5⟩ := id hc
  refine ⟨⟨c1, hst, c3, ha, Nat.le_refl _, hin.2, ha, c4, hc'⟩, fun x => ?_⟩
  have hbelow : x < curr.vmEnd → valueAt rest x = none := fun hx => c5.valueAt_below hx
  have hx := hv' x
  simp only [protAt, valueAt, lo_eq, hi_eq, val_eq] at hx ⊢
  grind

theorem paints_past (hf : curr.accessFlags = prot) : Paints b (curr :: rest) (curr :: rest') addr stop prot := by
  obtain ⟨c1, c2, c3, c4, c5⟩ := id hc
  refine ⟨⟨c1, c2, c3, c4, hc'⟩, fun x => ?_⟩
  have hbelow : x < curr.vmEnd → valueAt rest x = none := fun hx => c5.valueAt_below hx
  have hx := hv' x
  simp only [protAt, valueAt, lo_eq, hi_eq, val_eq] at hx ⊢
  grind

end

section
variable {curr : VmArea} {rest : List VmArea} (hc : Areas b (curr :: rest)) (hin : curr.vmStart ≤ addr ∧ addr < curr.vmEnd)
  (ha : 4096 ∣ addr) (hs : 4096 ∣ stop)
include hc hin ha hs

theorem protectFrom_within (hlt : addr < stop) (hend : stop < curr.vmEnd) :
    Paints b (curr :: rest) (protectFrom addr stop prot (curr :: rest)) addr stop prot := by
  unfold protectFrom
  simp only [if_pos hend]
  by_cases hf : curr.accessFlags = prot
  · simp only [if_neg (not_not_intro hf)]
    have hkept := paints_kept hc hin hend hf
    split
    · exact hkept
    · rw [if_pos (by omega)]
      exact hkept
  · simp only [if_pos hf]
    split
    · rename_i hst
      exact paints_lower hc hin hst hs hlt hend
    · rw [if_pos (by omega)]
      exact paints_middle hc (by omega) ha hs hlt hend

theorem protectFrom_through (hend : curr.vmEnd ≤ stop) (hcheck : stop ≤ curr.vmEnd ∨ checkIn curr stop rest = true) :
    Paints b (curr :: rest) (protectFrom addr stop prot (curr :: rest)) addr stop prot := by
  unfold protectFrom
  simp only [if_neg (Nat.not_lt.mpr hend)]
  by_cases h : stop = curr.vmEnd
  · have hv' := Paints.above prot hc.tail (Nat.le_of_eq h)
    simp only [if_pos h]
    split
    · rename_i hst
      exact paints_whole hc hin hend hc.tail hv' hst
    rw [if_pos (by omega)]
    split
    · exact paints_upper hc hin hend hc.tail hv' (by omega) ha
    · rename_i hf
      exact paints_past hc hin hend hc.tail hv' (not_not.mp hf)
  · obtain ⟨hc', hv'⟩ := protectIn_paints prot hc.tail hs (by omega) (hcheck.resolve_left (by omega))
    simp only [if_neg h]
    split
    · rename_i hst
      exact paints_whole hc hin hend hc' hv' hst
    rw [if_pos (by omega)]
    split
    · -- the area split off is passed over by the rest of the walk
      simp only [protectIn, if_neg (Nat.not_lt.mpr hend), if_neg h]
      exact paints_upper hc hin hend hc' hv' (by omega) ha
    · rename_i hf
      exact paints_past hc hin hend hc' hv' (not_not.mp hf)

end

/-- The range starts behind this area. -/
theorem Paints.cons {curr : VmArea} {rest rest' : List VmArea} (hc : Areas b (curr :: rest))
    (h : Paints curr.vmEnd rest rest' addr stop prot) (hle : curr.vmEnd ≤ addr) :
    Paints b (curr :: rest) (curr :: rest') addr stop prot := by
  obtain ⟨c1, c2, c3, c4, -⟩ := hc
  refine ⟨⟨c1, c2, c3, c4, h.chain⟩, fun x => ?_⟩
  have hx := h.value x
  unfold protAt at hx ⊢
  by_cases hhead : lo curr ≤ x ∧ x < hi curr
  · rw [valueAt_head hhead, valueAt_head hhead, if_neg (by simp only [hi_eq] at hhead; omega)]
  · rw [valueAt_tail hhead, valueAt_tail hhead, hx]

theorem protectFrom_paints {areas : List VmArea} (hc : Areas b areas) (ha : 4096 ∣ addr) (hs : 4096 ∣ stop)
    (hlt : addr < stop) (hcheck : checkFrom addr stop areas = true) :
    Paints b areas (protectFrom addr stop prot areas) addr stop prot := by
  induction areas generalizing b with
  | nil => exact ⟨hc, fun x => by split <;> rfl⟩
  | cons curr rest ih =>
    have hne : curr.vmStart < curr.vmEnd := hc.2.1
    unfold checkFrom at hcheck
    by_cases hin : curr.vmStart ≤ addr ∧ addr < curr.vmEnd
    · rw [if_pos hin] at hcheck
      by_cases hend : stop < curr.vmEnd
      · exact protectFrom_within hc hin ha hs hlt hend
      · refine protectFrom_through hc hin ha hs (Nat.le_of_not_lt hend) ?_
        split at hcheck
        · rename_i h
          exact .inl h
        · exact .inr hcheck
    · rw [if_neg hin] at hcheck
      cases rest with
      | nil => cases hcheck
      | cons next rest =>
        have hnext : curr.vmEnd ≤ next.vmStart := hc.tail.1
        simp only at hcheck
        split at hcheck
        · cases hcheck
        have hpaints := ih hc.tail hcheck
        rw [protectFrom, if_neg (by omega), if_neg (by omega)]
        exact .cons hc hpaints (by omega)

end

/-! ## vm_area_mprotect -/

/-- A range that passes the check starts in an area. -/
theorem checkFrom_mem {addr stop : Nat} {areas : List VmArea} (hne : areas ≠ [])
    (h : checkFrom addr stop areas = true) : ∃ a ∈ areas, a.vmStart ≤ addr ∧ addr < a.vmEnd := by
  induction areas with
  | nil => exact absurd rfl hne
  | cons curr rest ih =>
    unfold checkFrom at h
    by_cases hin : curr.vmStart ≤ addr ∧ addr < curr.vmEnd
    · exact ⟨curr, List.mem_cons_self, hin⟩
    rw [if_neg hin] at h
    cases rest with
    | nil => cases h
    | cons next rest =>
      simp only at h
      split at h
      · cases h
      obtain ⟨a, hmem, ha⟩ := ih (by simp) h
      exact ⟨a, List.mem_cons_of_mem _ hmem, ha⟩

theorem mergeAll_spec {b : Nat} {areas : List VmArea} (hc : Areas b areas) :
    Areas b (mergeAll areas) ∧ (∀ x, protAt (mergeAll areas) x = protAt areas x) ∧ Merged (mergeAll areas) := by
  cases areas with
  | nil => exact ⟨hc, fun _ => rfl, trivial⟩
  | cons prev rest =>
    obtain ⟨h1, h2, h3, -⟩ := mergeFrom_spec hc
    exact ⟨h1, h2, h3⟩

section
variable {areas : List VmArea} {addr : Nat} {length : Int} {prot : UInt32} (hw : Areas MMAP_AREA_START areas)
  (hl : Promised length) (ha : 4096 ∣ addr)
include hw hl ha

theorem protectAreas_paints (hret : (protectAreas areas addr length prot).1 = 0) :
    Paints MMAP_AREA_START areas (protectAreas areas addr length prot).2.1 addr (addr + pageUp length) prot ∧
      Merged (protectAreas areas addr length prot).2.1 := by
  obtain ⟨hn, hn31, hnp, -, -⟩ := pageUp_spec hl
  unfold protectAreas at hret ⊢
  by_cases hout : ¬ (MMAP_AREA_START ≤ addr ∧ plus addr length ≤ MMAP_AREA_END)
  · rw [if_pos hout] at hret; exact absurd hret (by simp)
  rw [if_neg hout] at hret ⊢
  simp only [pageRound_eq hl] at hret ⊢
  rw [if_neg (by omega)] at hret ⊢
  cases areas with
  | nil => exact absurd hret (by simp)
  | cons first rest =>
    simp only at hret ⊢
    by_cases hlow : addr < first.vmStart
    · rw [if_pos hlow] at hret; exact absurd hret (by simp)
    rw [if_neg hlow] at hret ⊢
    by_cases hcheck : checkFrom addr (plus addr (pageUp length)) (first :: rest) = true
    swap
    · rw [if_pos hcheck] at hret; exact absurd hret (by simp)
    rw [if_neg (not_not_intro hcheck)] at hret ⊢
    by_cases hlim : limit (first :: rest).length addr (plus addr (pageUp length)) prot (first :: rest) = true
    · rw [if_pos hlim] at hret; exact absurd hret (by simp)
    rw [if_neg hlim]
    obtain ⟨a, hmem, -, hlt⟩ := checkFrom_mem (by simp) hcheck
    have htop : a.vmEnd ≤ 0x7FE000000 := (hw.forall_mem a hmem).2.2.1
    have hp : plus addr (pageUp length) = addr + pageUp length := plus_nat (by omega)
    rw [hp] at hcheck ⊢
    have hpaint : Paints _ _ (protectFrom addr (addr + pageUp length) prot _) _ _ _ :=
      protectFrom_paints hw ha (by omega) (by omega) hcheck
    obtain ⟨h1, h2, h3⟩ := mergeAll_spec hpaint.chain
    exact ⟨⟨h1, fun x => by rw [h2, hpaint.value]⟩, h3⟩

/-- The range of a call that returns 0 begins in an area and ends in the region. -/
theorem protectAreas_within (hret : (protectAreas areas addr length prot).1 = 0) :
    MMAP_AREA_START ≤ addr ∧ addr + pageUp length ≤ MMAP_AREA_END := by
  unfold protectAreas at hret
  simp only [pageRound_eq hl] at hret
  have hpos := (pageUp_spec hl).1
  split at hret
  · cases hret
  rename_i hin
  rw [if_neg (by omega)] at hret
  cases areas with
  | nil => cases hret
  | cons first rest =>
    simp only at hret
    split at hret
    · cases hret
    split at hret
    · cases hret
    rename_i hcheck
    obtain ⟨a, hmem, -, hlt⟩ := checkFrom_mem (by simp) (not_not.mp hcheck)
    have htop : a.vmEnd ≤ 0x7FE000000 := (hw.forall_mem a hmem).2.2.1
    obtain ⟨hlow, hhigh⟩ := not_not.mp hin
    exact ⟨hlow, (fits_iff hl ha (by decide) (by omega)).mp hhigh⟩

omit hw hl ha in
theorem protectAreas_fails (hret : (protectAreas areas addr length prot).1 ≠ 0) :
    protectAreas areas addr length prot = (-1, areas, 0) := by
  unfold protectAreas at hret ⊢
  split
  · rfl
  rename_i hout
  simp only [if_neg hout] at hret ⊢
  split
  · rename_i h; rw [if_pos h] at hret; exact absurd rfl hret
  rename_i h0
  rw [if_neg h0] at hret
  cases areas with
  | nil => rfl
  | cons first rest =>
    simp only at hret ⊢
    split
    · rfl
    rename_i h1
    rw [if_neg h1] at hret
    split
    · rfl
    rename_i h2
    rw [if_neg h2] at hret
    split
    · rfl
    rename_i h3
    rw [if_neg h3] at hret
    exact absurd rfl hret

end

end Cs330.Vm
