/-
  Cs330.Vm.Map — what vm_area_map does to the list of areas.

  The source places a request in one of four ways: in front of the first area (`frontAt`),
  in the gap behind an area (`gapAfter`), at the hint inside a gap (`hintGap`), or behind
  the last area (`appendLast`, `hintLast`). Its loops walk the list until one of them
  takes the request (`placed`), finds the 128 areas used up (`refuse`), or passes on.

  Proved of each: if it places the request, the new list is the old one with one free range
  of that length mapped (`Maps`), still well-formed, and maximally merged if it was. The
  returned address is the start of the range, except behind the last area at a hint that
  is its very end (`hintLast`): there it is the start of the area that grew.
-/
import Cs330.Vm.Area

namespace Cs330.Vm

open Lib Lib.Seg

/-- One attempt: keep looking, `return -1`, or the address, the list, and the nodes
    allocated less the nodes freed. -/
inductive Try where
  | pass
  | refuse
  | placed (ret : Nat) (areas : List VmArea) (nodes : Int)
  deriving DecidableEq, Repr

/-- The outcome of a walk over the rest of the list, behind `curr`. -/
def Try.behind (curr : VmArea) : Try → Try
  | .placed ret areas nodes => .placed ret (curr :: areas) nodes
  | t => t

/-- Go on with another attempt. -/
def Try.orElse (t next : Try) : Try :=
  match t with
  | .pass => next
  | t => t

/-- What the call then returns, leaves as the list, and adds to the count of nodes. -/
def Try.result (areas : List VmArea) : Try → Int × List VmArea × Int
  | .placed ret areas' nodes => (ret, areas', nodes)
  | .pass | .refuse => (-1, areas, 0)

section
variable (cnt : Nat) (length : Int) (prot : UInt32)

/-- In front of the first area: at `start` without a usable hint, else at the hint. -/
def frontAt (start : Nat) : List VmArea → Try
  | [] => .pass
  | curr :: rest =>
    if plus start length < curr.vmStart then
      if 128 ≤ cnt then .refuse
      else .placed start (⟨start, plus start length, prot⟩ :: curr :: rest) 1
    else if curr.vmStart = plus start length then
      if curr.accessFlags = prot then .placed start ({ curr with vmStart := minus curr.vmStart length } :: rest) 0
      else if 128 ≤ cnt then .refuse
      else .placed start (⟨start, plus start length, prot⟩ :: curr :: rest) 1
    else .pass

/-- The gap between `curr` and the area after it, from its lower end. The source has this
    block four times. -/
def gapAfter (curr next : VmArea) (rest : List VmArea) : Try :=
  if plus curr.vmEnd length < next.vmStart then
    if curr.accessFlags = prot then
      .placed (minus (plus curr.vmEnd length) length) ({ curr with vmEnd := plus curr.vmEnd length } :: next :: rest) 0
    else if 128 ≤ cnt then .refuse
    else .placed curr.vmEnd (curr :: ⟨curr.vmEnd, plus curr.vmEnd length, prot⟩ :: next :: rest) 1
  else if plus curr.vmEnd length = next.vmStart then
    if prot = curr.accessFlags ∧ prot = next.accessFlags then
      .placed curr.vmEnd ({ curr with vmEnd := next.vmEnd } :: rest) (-1)
    else if prot = curr.accessFlags then
      .placed (minus next.vmStart length) ({ curr with vmEnd := next.vmStart } :: next :: rest) 0
    else if prot = next.accessFlags then
      .placed curr.vmEnd (curr :: { next with vmStart := curr.vmEnd } :: rest) 0
    else if 128 ≤ cnt then .refuse
    else .placed curr.vmEnd (curr :: ⟨curr.vmEnd, plus curr.vmEnd length, prot⟩ :: next :: rest) 1
  else .pass

/-- Behind the last area. -/
def appendLast (curr : VmArea) : Try :=
  if curr.accessFlags = prot then
    .placed (minus (plus curr.vmEnd length) length) [{ curr with vmEnd := plus curr.vmEnd length }] 0
  else if 128 ≤ cnt then .refuse
  else .placed curr.vmEnd [curr, ⟨curr.vmEnd, plus curr.vmEnd length, prot⟩] 1

/-- The search loops: the gaps as long as `go` holds of the area before, then the end. -/
def search (go : VmArea → Bool) : List VmArea → Try
  | [] => .pass
  | [curr] => if MMAP_AREA_END < plus curr.vmEnd length then .pass else appendLast cnt length prot curr
  | curr :: next :: rest =>
    if go curr then (gapAfter cnt length prot curr next rest).orElse ((search go (next :: rest)).behind curr)
    else .pass

/-- No hint address is provided. -/
def mapAnywhere : List VmArea → Try
  | [] =>
    if MMAP_AREA_END < plus MMAP_AREA_START length then .refuse
    else .placed MMAP_AREA_START [⟨MMAP_AREA_START, plus MMAP_AREA_START length, prot⟩] 1
  | areas => (frontAt cnt length prot MMAP_AREA_START areas).orElse (search cnt length prot (fun _ => true) areas)

variable (addr : Nat) (fixed : Bool)

/-- `flag = 1`, with `curr` the head of the list: the hint is taken. MAP_FIXED gives up,
    otherwise the gaps from `curr` on are searched. -/
def conflict (areas : List VmArea) : Try :=
  if fixed then .refuse else search cnt length prot (fun _ => true) areas

/-- The hint lies in the gap between two areas, above its lower end. -/
def hintGap (curr next : VmArea) (rest : List VmArea) : Try :=
  if plus addr length < next.vmStart then
    if 128 ≤ cnt then .refuse
    else .placed addr (curr :: ⟨addr, plus addr length, prot⟩ :: next :: rest) 1
  else if plus addr length = next.vmStart then
    if next.accessFlags = prot then
      .placed (minus next.vmStart length) (curr :: { next with vmStart := minus next.vmStart length } :: rest) 0
    else if 128 ≤ cnt then .refuse
    else .placed addr (curr :: ⟨addr, plus addr length, prot⟩ :: next :: rest) 1
  else (conflict cnt length prot fixed (next :: rest)).behind curr

/-- The hint lies in the last area or behind it. -/
def hintLast (curr : VmArea) : Try :=
  if MMAP_AREA_END < plus addr length then conflict cnt length prot fixed []
  else if curr.vmStart ≤ addr ∧ addr < curr.vmEnd then conflict cnt length prot fixed [curr]
  else if addr = curr.vmEnd then
    if curr.accessFlags = prot then .placed curr.vmStart [{ curr with vmEnd := plus curr.vmEnd length }] 0
    else if 128 ≤ cnt then .refuse
    else .placed curr.vmEnd [curr, ⟨curr.vmEnd, plus curr.vmEnd length, prot⟩] 1
  else if 128 ≤ cnt then .refuse
  else .placed addr [curr, ⟨addr, plus addr length, prot⟩] 1

/-- The loop over the areas the hint may lie in or behind. -/
def hintFrom : List VmArea → Try
  | [] => .pass
  | [curr] => hintLast cnt length prot addr fixed curr
  | curr :: next :: rest =>
    if curr.vmStart ≤ addr ∧ addr < curr.vmEnd then conflict cnt length prot fixed (curr :: next :: rest)
    else if addr = curr.vmEnd then
      (gapAfter cnt length prot curr next rest).orElse (conflict cnt length prot fixed (curr :: next :: rest))
    else if curr.vmEnd < addr ∧ addr < next.vmStart then hintGap cnt length prot addr fixed curr next rest
    else (hintFrom (next :: rest)).behind curr

/-- Start from the beginning to search for blank space, up to the hint. -/
def restart (areas : List VmArea) : Try :=
  (frontAt cnt length prot MMAP_AREA_START areas).orElse
    (search cnt length prot (fun curr => decide (curr.vmEnd < addr)) areas)

/-- A hint address is provided. -/
def mapHint : List VmArea → Try
  | [] =>
    if MMAP_AREA_END < plus addr length then
      if MMAP_AREA_END < plus MMAP_AREA_START length then .refuse
      else .placed MMAP_AREA_START [⟨MMAP_AREA_START, plus MMAP_AREA_START length, prot⟩] 1
    else .placed addr [⟨addr, plus addr length, prot⟩] 1
  | curr :: rest =>
    let t :=
      if addr < curr.vmStart then
        (frontAt cnt length prot addr (curr :: rest)).orElse (conflict cnt length prot fixed (curr :: rest))
      else hintFrom cnt length prot addr fixed (curr :: rest)
    t.orElse (restart cnt length prot addr (curr :: rest))

end

/-- vm_area_map up to MAP_POPULATE: the return value, the list, and the change of
    `stats->num_vm_area`. -/
def mapAreas (areas : List VmArea) (addr : Nat) (length : Int) (prot flags : UInt32) : Int × List VmArea × Int :=
  if addr ≠ 0 ∧ ¬ (MMAP_AREA_START ≤ addr ∧ addr ≤ MMAP_AREA_END) then (-1, areas, 0)
  else if addr ≠ 0 ∧ flags &&& MAP_FIXED ≠ 0 ∧ ¬ (MMAP_AREA_START ≤ addr ∧ plus addr length ≤ MMAP_AREA_END) then
    (-1, areas, 0)
  else
    let len := pageRound length
    if addr = 0 then (mapAnywhere areas.length len prot areas).result areas
    else (mapHint areas.length len prot addr (flags &&& MAP_FIXED ≠ 0) areas).result areas

/-- The hint is the very end of the last area, which has the flags asked for and room behind
    it. -/
def LastGrows (areas : List VmArea) (addr n : Nat) (prot : UInt32) : Prop :=
  ∃ a, areas.getLast? = some a ∧ addr = a.vmEnd ∧ a.accessFlags = prot ∧ addr + n ≤ MMAP_AREA_END

theorem Try.behind_placed {curr : VmArea} {t : Try} {ret : Nat} {areas : List VmArea} {k : Int}
    (h : t.behind curr = .placed ret areas k) : ∃ rest, areas = curr :: rest ∧ t = .placed ret rest k := by
  cases t with
  | placed r l m => cases h; exact ⟨l, rfl, rfl⟩
  | pass => cases h
  | refuse => cases h

theorem Try.orElse_placed {t u : Try} {ret : Nat} {areas : List VmArea} {k : Int}
    (h : t.orElse u = .placed ret areas k) : t = .placed ret areas k ∨ (t = .pass ∧ u = .placed ret areas k) := by
  cases t with
  | placed r l m => exact Or.inl h
  | pass => exact Or.inr ⟨rfl, h⟩
  | refuse => cases h

theorem Try.result_placed {t : Try} {areas : List VmArea} (h : (t.result areas).1 ≠ -1) :
    ∃ ret areas' k, t = .placed ret areas' k ∧ t.result areas = ((ret : Int), areas', k) := by
  cases t with
  | placed r l k => exact ⟨r, l, k, rfl, rfl⟩
  | pass => exact absurd rfl h
  | refuse => exact absurd rfl h

theorem Try.result_fails {t : Try} {areas : List VmArea} (h : (t.result areas).1 = -1) :
    (t.result areas).2 = (areas, 0) := by
  cases t with
  | placed r l k =>
    have hr : (r : Int) = -1 := h
    omega
  | pass => rfl
  | refuse => rfl

/-! ## Each way of placing a request fills a free range -/

section
variable {cnt n b : Nat} {prot : UInt32} (hn : 0 < n) (hn31 : n < 2 ^ 31) (hnp : 4096 ∣ n)

theorem end_eq : MMAP_AREA_END = 0x7FE000000 := rfl

include hn hn31 hnp

/-- A new area over `[r, r + n)`, below everything in the list. -/
theorem maps_new {areas : List VmArea} {r : Nat} (hb : b ≤ r) (hr : 4096 ∣ r) (hc : Areas (r + n) areas)
    (ha : Apart (r + n) prot areas) : Maps b areas (⟨r, plus r n, prot⟩ :: areas) r n prot := by
  have htop := hc.le_top
  rw [end_eq] at htop
  rw [plus_nat (by omega)]
  exact .new hb (by omega) hr (by omega) hc ha rfl rfl rfl

omit hn31 hnp in
theorem maps_down {curr : VmArea} {rest : List VmArea} {r : Nat} (hc : Areas b (curr :: rest)) (hb : b ≤ r) (hr : 4096 ∣ r)
    (hs : curr.vmStart = r + n) (hf : curr.accessFlags = prot) :
    Maps b (curr :: rest) ({ curr with vmStart := r } :: rest) r n prot := by
  subst hf
  have h : Fills _ _ b (curr :: rest) ({ curr with vmStart := r } :: rest) r curr.vmStart curr.accessFlags :=
    .down hc hb (by simp only [lo_eq]; omega) hr rfl rfl rfl
  rwa [hs] at h

theorem maps_up {curr : VmArea} {rest : List VmArea} (hc : Areas b (curr :: rest)) (hl : Areas (curr.vmEnd + n) rest)
    (ha : Apart (curr.vmEnd + n) prot rest) (hf : curr.accessFlags = prot) :
    Maps b (curr :: rest) ({ curr with vmEnd := plus curr.vmEnd n } :: rest) curr.vmEnd n prot := by
  have htop := hl.le_top
  have hp := hc.2.2.2.1
  rw [end_eq] at htop
  simp only [hi_eq] at hp
  rw [plus_nat (by omega)]
  subst hf
  exact .up hc (by simp only [hi_eq]; omega) (by omega) hl ha rfl rfl rfl

omit hn31 hnp in
theorem maps_join {curr next : VmArea} {rest : List VmArea} (hc : Areas b (curr :: next :: rest))
    (hs : curr.vmEnd + n = next.vmStart) (hf : curr.accessFlags = prot) (hf' : next.accessFlags = prot) :
    Maps b (curr :: next :: rest) ({ curr with vmEnd := next.vmEnd } :: rest) curr.vmEnd n prot := by
  subst hf
  have h : Fills _ _ b (curr :: next :: rest) ({ curr with vmEnd := next.vmEnd } :: rest) curr.vmEnd next.vmStart
      curr.accessFlags := .join hc (by simp only [lo_eq, hi_eq]; omega) hf' rfl rfl rfl
  rwa [← hs] at h

theorem frontAt_maps {start : Nat} {areas areas' : List VmArea} {ret : Nat} {k : Int} (hc : Areas b areas) (hb : b ≤ start)
    (hs : 4096 ∣ start) (hst : start < 2 ^ 63) (h : frontAt cnt n prot start areas = .placed ret areas' k) :
    ret = start ∧ Maps b areas areas' start n prot := by
  cases areas with
  | nil => cases h
  | cons curr rest =>
    have hp : plus start n = start + n := plus_nat (by omega)
    simp only [frontAt, hp] at h
    by_cases hlt : start + n < curr.vmStart
    · have hc' : Areas (start + n) (curr :: rest) := hc.raise (by simp only [lo_eq]; omega)
      have hnew : Maps b (curr :: rest) (⟨start, plus start n, prot⟩ :: curr :: rest) start n prot :=
        maps_new hn hn31 hnp hb hs hc' (.of_lt (hc.raise (Nat.le_refl _)) hlt)
      rw [if_pos hlt] at h
      split at h
      · cases h
      · cases h; exact ⟨rfl, hp ▸ hnew⟩
    rw [if_neg hlt] at h
    by_cases he : curr.vmStart = start + n
    · rw [if_pos he] at h
      have hc' : Areas (start + n) (curr :: rest) := hc.raise (by simp only [lo_eq]; omega)
      by_cases hf : curr.accessFlags = prot
      · rw [if_pos hf, minus_nat (by omega) (by omega), he, Nat.add_sub_cancel] at h
        cases h
        exact ⟨rfl, maps_down hn hc hb hs he hf⟩
      · rw [if_neg hf] at h
        have hnew := maps_new hn hn31 hnp hb hs hc' fun _ => hf
        split at h
        · cases h
        · cases h; exact ⟨rfl, hp ▸ hnew⟩
    · rw [if_neg he] at h; cases h

theorem gapAfter_maps {curr next : VmArea} {rest areas' : List VmArea} {ret : Nat} {k : Int}
    (hc : Areas b (curr :: next :: rest)) (h : gapAfter cnt n prot curr next rest = .placed ret areas' k) :
    ret = curr.vmEnd ∧ Maps b (curr :: next :: rest) areas' curr.vmEnd n prot := by
  have hc1 : Areas curr.vmEnd (next :: rest) := hc.tail
  have htop := hc1.le_top
  have hdvd : 4096 ∣ curr.vmEnd := hc.2.2.2.1
  rw [end_eq] at htop
  have hp : plus curr.vmEnd n = curr.vmEnd + n := plus_nat (by omega)
  have hm : minus (curr.vmEnd + n) n = curr.vmEnd := by rw [minus_nat (by omega) (by omega)]; omega
  unfold gapAfter at h
  -- a new area fits behind `curr` unless one of its neighbours has its flags and touches it
  have hnew : curr.vmEnd + n ≤ next.vmStart → curr.accessFlags ≠ prot →
      (curr.vmEnd + n = next.vmStart → next.accessFlags ≠ prot) →
      Maps b (curr :: next :: rest) (curr :: ⟨curr.vmEnd, plus curr.vmEnd n, prot⟩ :: next :: rest) curr.vmEnd n prot :=
    fun hle hf hf' => .cons hc (maps_new hn hn31 hnp (Nat.le_refl _) hdvd (hc1.raise hle) fun e => hf' e.symm) (Or.inr hf)
  by_cases hlt : curr.vmEnd + n < next.vmStart
  · rw [if_pos (hp ▸ hlt)] at h
    by_cases hf : curr.accessFlags = prot
    · rw [if_pos hf] at h
      cases h
      exact ⟨by rw [hp, hm], maps_up hn hn31 hnp hc (hc1.raise (Nat.le_of_lt hlt)) (.of_lt (hc1.raise (Nat.le_refl _)) hlt) hf⟩
    · rw [if_neg hf] at h
      split at h
      · cases h
      · cases h; exact ⟨rfl, hnew (Nat.le_of_lt hlt) hf fun e => absurd e (Nat.ne_of_lt hlt)⟩
  rw [if_neg (hp ▸ hlt)] at h
  by_cases he : curr.vmEnd + n = next.vmStart
  swap
  · rw [if_neg (hp ▸ he)] at h; cases h
  rw [if_pos (hp ▸ he)] at h
  by_cases hf : prot = curr.accessFlags
  · by_cases hf' : prot = next.accessFlags
    · rw [if_pos ⟨hf, hf'⟩] at h
      cases h
      exact ⟨rfl, maps_join hn hc he hf.symm hf'.symm⟩
    · rw [if_neg (fun hb => hf' hb.2), if_pos hf] at h
      cases h
      have hup := maps_up hn hn31 hnp hc (hc1.raise (Nat.le_of_eq he)) (fun _ => Ne.symm hf') hf.symm
      rw [hp, he] at hup
      exact ⟨by rw [← he, hm], hup⟩
  · rw [if_neg (fun hb => hf hb.1), if_neg hf] at h
    by_cases hf' : prot = next.accessFlags
    · rw [if_pos hf'] at h
      cases h
      exact ⟨rfl, .cons hc (maps_down hn hc1 (Nat.le_refl _) hdvd he.symm hf'.symm) (Or.inr (Ne.symm hf))⟩
    · rw [if_neg hf'] at h
      split at h
      · cases h
      · cases h; exact ⟨rfl, hnew (Nat.le_of_eq he) (Ne.symm hf) fun _ => Ne.symm hf'⟩

theorem appendLast_maps {curr : VmArea} {areas' : List VmArea} {ret : Nat} {k : Int} (hc : Areas b [curr])
    (hfit : curr.vmEnd + n ≤ MMAP_AREA_END) (h : appendLast cnt n prot curr = .placed ret areas' k) :
    ret = curr.vmEnd ∧ Maps b [curr] areas' curr.vmEnd n prot := by
  have hdvd : 4096 ∣ curr.vmEnd := hc.2.2.2.1
  have hp : plus curr.vmEnd n = curr.vmEnd + n := plus_nat (by rw [end_eq] at hfit; omega)
  unfold appendLast at h
  by_cases hf : curr.accessFlags = prot
  · rw [if_pos hf] at h
    cases h
    refine ⟨?_, maps_up hn hn31 hnp hc hfit trivial hf⟩
    rw [end_eq] at hfit
    rw [hp, minus_nat (by omega) (by omega)]; omega
  · rw [if_neg hf] at h
    split at h
    · cases h
    · cases h; exact ⟨rfl, .cons hc (maps_new hn hn31 hnp (Nat.le_refl _) hdvd hfit trivial) (Or.inr hf)⟩

/-- A search places the request behind one of the areas it walks. -/
theorem search_maps {go : VmArea → Bool} {areas areas' : List VmArea} {ret : Nat} {k : Int} (hc : Areas b areas)
    (h : search cnt n prot go areas = .placed ret areas' k) :
    (∀ a ∈ areas.head?, a.vmEnd ≤ ret) ∧ Maps b areas areas' ret n prot := by
  induction areas generalizing b areas' with
  | nil => cases h
  | cons curr rest ih =>
    cases rest with
    | nil =>
      have htop : curr.vmEnd ≤ MMAP_AREA_END := hc.tail
      rw [end_eq] at htop
      unfold search at h
      split at h
      · cases h
      · rename_i hfit
        rw [plus_nat (by omega)] at hfit
        obtain ⟨hr, hm⟩ := appendLast_maps hn hn31 hnp hc (by omega) h
        subst hr
        exact ⟨fun a ha => by cases ha; exact Nat.le_refl _, hm⟩
    | cons next rest =>
      unfold search at h
      split at h
      swap
      · cases h
      rcases Try.orElse_placed h with h | ⟨-, h⟩
      · obtain ⟨hr, hm⟩ := gapAfter_maps hn hn31 hnp hc h
        subst hr
        exact ⟨fun a ha => by cases ha; exact Nat.le_refl _, hm⟩
      · obtain ⟨l', he, ht⟩ := Try.behind_placed h
        subst he
        obtain ⟨hle, hm⟩ := ih hc.tail ht
        have hle := hle next rfl
        have hnext : curr.vmEnd ≤ next.vmStart ∧ next.vmStart < next.vmEnd := ⟨hc.tail.1, hc.tail.2.1⟩
        exact ⟨fun a ha => by cases ha; omega, .cons hc hm (Or.inl (by simp only [hi_eq]; omega))⟩

theorem conflict_maps {fixed : Bool} {areas areas' : List VmArea} {ret : Nat} {k : Int} (hc : Areas b areas)
    (h : conflict cnt n prot fixed areas = .placed ret areas' k) :
    fixed = false ∧ (∀ a ∈ areas.head?, a.vmEnd ≤ ret) ∧ Maps b areas areas' ret n prot := by
  unfold conflict at h
  split at h
  · cases h
  · rename_i hf
    exact ⟨by simpa using hf, search_maps hn hn31 hnp hc h⟩

theorem mapAnywhere_maps {areas areas' : List VmArea} {ret : Nat} {k : Int} (hc : Areas MMAP_AREA_START areas)
    (h : mapAnywhere cnt n prot areas = .placed ret areas' k) : Maps MMAP_AREA_START areas areas' ret n prot := by
  have hs : 4096 ∣ MMAP_AREA_START := by decide
  cases areas with
  | nil =>
    simp only [mapAnywhere] at h
    split at h
    · cases h
    · rename_i hfit
      cases h
      rw [plus_nat (by unfold MMAP_AREA_START; omega)] at hfit
      exact maps_new hn hn31 hnp (Nat.le_refl _) hs (Nat.le_of_not_lt hfit) trivial
  | cons curr rest =>
    unfold mapAnywhere at h
    rcases Try.orElse_placed h with h | ⟨-, h⟩
    · obtain ⟨hr, hm⟩ := frontAt_maps hn hn31 hnp hc (Nat.le_refl _) hs (by decide) h
      exact hr ▸ hm
    · exact (search_maps hn hn31 hnp hc h).2

/-! ## The hint -/

section
variable {addr : Nat} {fixed : Bool} (ha : 4096 ∣ addr) (hend : addr ≤ MMAP_AREA_END)
include ha hend

theorem hintGap_maps {curr next : VmArea} {rest areas' : List VmArea} {ret : Nat} {k : Int}
    (hc : Areas b (curr :: next :: rest)) (h1 : curr.vmEnd < addr)
    (h : hintGap cnt n prot addr fixed curr next rest = .placed ret areas' k) :
    curr.vmEnd ≤ ret ∧ Maps b (curr :: next :: rest) areas' ret n prot ∧ (fixed = true → ret = addr) := by
  have hc1 : Areas curr.vmEnd (next :: rest) := hc.tail
  rw [end_eq] at hend
  have hp : plus addr n = addr + n := plus_nat (by omega)
  have hnew : addr + n ≤ next.vmStart → (addr + n = next.vmStart → next.accessFlags ≠ prot) →
      Maps b (curr :: next :: rest) (curr :: ⟨addr, plus addr n, prot⟩ :: next :: rest) addr n prot :=
    fun hle hf => .cons hc (maps_new hn hn31 hnp (Nat.le_of_lt h1) ha (hc1.raise hle) fun e => hf e.symm) (Or.inl h1)
  unfold hintGap at h
  by_cases hlt : addr + n < next.vmStart
  · rw [if_pos (hp ▸ hlt)] at h
    split at h
    · cases h
    · cases h
      exact ⟨Nat.le_of_lt h1, hnew (Nat.le_of_lt hlt) fun e => absurd e (Nat.ne_of_lt hlt), fun _ => rfl⟩
  rw [if_neg (hp ▸ hlt)] at h
  by_cases he : addr + n = next.vmStart
  · rw [if_pos (hp ▸ he)] at h
    by_cases hf : next.accessFlags = prot
    · have hm : minus next.vmStart n = addr := by rw [minus_nat (by omega) (by omega)]; omega
      rw [if_pos hf, hm] at h
      cases h
      exact ⟨Nat.le_of_lt h1, .cons hc (maps_down hn hc1 (Nat.le_of_lt h1) ha he.symm hf) (Or.inl h1), fun _ => rfl⟩
    · rw [if_neg hf] at h
      split at h
      · cases h
      · cases h; exact ⟨Nat.le_of_lt h1, hnew (Nat.le_of_eq he) fun _ => hf, fun _ => rfl⟩
  · rw [if_neg (hp ▸ he)] at h
    obtain ⟨l', heq, ht⟩ := Try.behind_placed h
    subst heq
    obtain ⟨hfix, hle, hm⟩ := conflict_maps hn hn31 hnp hc1 ht
    have hle := hle next rfl
    have hnext : curr.vmEnd ≤ next.vmStart ∧ next.vmStart < next.vmEnd := ⟨hc1.1, hc1.2.1⟩
    refine ⟨by omega, .cons hc hm (Or.inl (by simp only [hi_eq]; omega)), fun hf => ?_⟩
    rw [hfix] at hf; cases hf

/-- Only behind the last area can the returned address differ from the start of the range. -/
theorem hintLast_maps {curr : VmArea} {areas' : List VmArea} {ret : Nat} {k : Int} (hc : Areas b [curr])
    (h1 : curr.vmStart ≤ addr) (h : hintLast cnt n prot addr fixed curr = .placed ret areas' k) :
    ∃ r, curr.vmEnd ≤ r ∧ Maps b [curr] areas' r n prot ∧ (ret = r ∨ (LastGrows [curr] addr n prot ∧ r = addr)) ∧
      (fixed = true → r = addr) := by
  have hdvd : 4096 ∣ curr.vmEnd := hc.2.2.2.1
  rw [end_eq] at hend
  have hp : plus addr n = addr + n := plus_nat (by omega)
  have hno : fixed = false → fixed = true → ret = addr := by intro h0 h1; rw [h0] at h1; cases h1
  unfold hintLast at h
  rw [hp] at h
  by_cases hfit : MMAP_AREA_END < addr + n
  · rw [if_pos hfit] at h
    unfold conflict search at h
    split at h <;> cases h
  rw [if_neg hfit] at h
  by_cases hin : curr.vmStart ≤ addr ∧ addr < curr.vmEnd
  · rw [if_pos hin] at h
    obtain ⟨hfix, hle, hm⟩ := conflict_maps hn hn31 hnp hc h
    exact ⟨ret, hle curr rfl, hm, Or.inl rfl, hno hfix⟩
  rw [if_neg hin] at h
  have hge : curr.vmEnd ≤ addr := by omega
  have hnew : curr.vmEnd < addr ∨ curr.accessFlags ≠ prot →
      Maps b [curr] [curr, ⟨addr, plus addr n, prot⟩] addr n prot :=
    fun hor => .cons hc (maps_new hn hn31 hnp hge ha (Nat.le_of_not_lt hfit) trivial) hor
  by_cases he : addr = curr.vmEnd
  · rw [if_pos he] at h
    by_cases hf : curr.accessFlags = prot
    · rw [if_pos hf] at h
      cases h
      refine ⟨curr.vmEnd, Nat.le_refl _, maps_up hn hn31 hnp hc ?_ trivial hf, Or.inr ?_, fun _ => he.symm⟩
      · exact he ▸ Nat.le_of_not_lt hfit
      · exact ⟨⟨curr, rfl, he, hf, Nat.le_of_not_lt hfit⟩, he.symm⟩
    · rw [if_neg hf, ← he, hp] at h
      split at h
      · cases h
      · cases h; exact ⟨addr, hge, hp ▸ hnew (Or.inr hf), Or.inl rfl, fun _ => rfl⟩
  · rw [if_neg he] at h
    split at h
    · cases h
    · cases h; exact ⟨addr, hge, hp ▸ hnew (Or.inl (by omega)), Or.inl rfl, fun _ => rfl⟩

theorem hintFrom_maps {curr : VmArea} {rest areas' : List VmArea} {ret : Nat} {k : Int} (hc : Areas b (curr :: rest))
    (h1 : curr.vmStart ≤ addr) (h : hintFrom cnt n prot addr fixed (curr :: rest) = .placed ret areas' k) :
    ∃ r, curr.vmEnd ≤ r ∧ Maps b (curr :: rest) areas' r n prot ∧
      (ret = r ∨ (LastGrows (curr :: rest) addr n prot ∧ r = addr)) ∧ (fixed = true → r = addr) := by
  induction rest generalizing b curr areas' with
  | nil => exact hintLast_maps hn hn31 hnp ha hend hc h1 h
  | cons next rest ih =>
    have hno : fixed = false → fixed = true → ret = addr := by intro h0 h1; rw [h0] at h1; cases h1
    unfold hintFrom at h
    by_cases hin : curr.vmStart ≤ addr ∧ addr < curr.vmEnd
    · rw [if_pos hin] at h
      obtain ⟨hfix, hle, hm⟩ := conflict_maps hn hn31 hnp hc h
      exact ⟨ret, hle curr rfl, hm, Or.inl rfl, hno hfix⟩
    rw [if_neg hin] at h
    by_cases he : addr = curr.vmEnd
    · rw [if_pos he] at h
      rcases Try.orElse_placed h with h | ⟨-, h⟩
      · obtain ⟨hr, hm⟩ := gapAfter_maps hn hn31 hnp hc h
        exact ⟨ret, Nat.le_of_eq hr.symm, hr ▸ hm, Or.inl rfl, fun _ => by rw [hr, he]⟩
      · obtain ⟨hfix, hle, hm⟩ := conflict_maps hn hn31 hnp hc h
        exact ⟨ret, hle curr rfl, hm, Or.inl rfl, hno hfix⟩
    rw [if_neg he] at h
    by_cases hgap : curr.vmEnd < addr ∧ addr < next.vmStart
    · rw [if_pos hgap] at h
      obtain ⟨hle, hm, hfix⟩ := hintGap_maps hn hn31 hnp ha hend hc hgap.1 h
      exact ⟨ret, hle, hm, Or.inl rfl, hfix⟩
    · rw [if_neg hgap] at h
      obtain ⟨l', heq, ht⟩ := Try.behind_placed h
      subst heq
      have hnext : curr.vmEnd ≤ next.vmStart ∧ next.vmStart < next.vmEnd := ⟨hc.tail.1, hc.tail.2.1⟩
      obtain ⟨r, hle, hm, hor, hfix⟩ := ih hc.tail (by omega) ht
      exact ⟨r, by omega, .cons hc hm (Or.inl (by simp only [hi_eq]; omega)), hor, hfix⟩

omit hn hn31 hnp ha hend in
/-- MAP_FIXED never leads to a search from the beginning. -/
theorem hintFrom_fixed (curr : VmArea) (rest : List VmArea) (length : Int) :
    hintFrom cnt length prot addr true (curr :: rest) ≠ .pass := by
  have hconf : ∀ areas, conflict cnt length prot true areas = .refuse := fun _ => rfl
  induction rest generalizing curr with
  | nil =>
    unfold hintFrom hintLast
    rw [hconf, hconf]
    repeat' split
    all_goals simp
  | cons next rest ih =>
    unfold hintFrom
    rw [hconf]
    split
    · simp
    split
    · cases gapAfter cnt length prot curr next rest <;> simp [Try.orElse]
    split
    · unfold hintGap
      rw [hconf]
      repeat' split
      all_goals simp [Try.behind]
    · have := ih next
      cases ht : hintFrom cnt length prot addr true (next :: rest) with
      | pass => exact absurd ht this
      | refuse => simp [Try.behind]
      | placed r l m => simp [Try.behind]

theorem mapHint_maps {areas areas' : List VmArea} {ret : Nat} {k : Int} (hc : Areas MMAP_AREA_START areas)
    (hstart : MMAP_AREA_START ≤ addr) (hfix : fixed = true → addr + n ≤ MMAP_AREA_END)
    (h : mapHint cnt n prot addr fixed areas = .placed ret areas' k) :
    ∃ r, Maps MMAP_AREA_START areas areas' r n prot ∧ (ret = r ∨ (LastGrows areas addr n prot ∧ r = addr)) ∧
      (fixed = true → r = addr) := by
  have hs : 4096 ∣ MMAP_AREA_START := by decide
  have hend' : addr ≤ 0x7FE000000 := hend
  have hp : plus addr n = addr + n := plus_nat (by omega)
  cases areas with
  | nil =>
    simp only [mapHint, hp] at h
    by_cases hfit : MMAP_AREA_END < addr + n
    · rw [if_pos hfit] at h
      have hno : fixed = true → MMAP_AREA_START = addr := fun hf => absurd (hfix hf) (by omega)
      split at h
      · cases h
      · rename_i hfit'
        cases h
        rw [plus_nat (by unfold MMAP_AREA_START; omega)] at hfit'
        exact ⟨_, maps_new hn hn31 hnp (Nat.le_refl _) hs (Nat.le_of_not_lt hfit') trivial, Or.inl rfl, hno⟩
    · rw [if_neg hfit] at h
      cases h
      exact ⟨_, hp ▸ maps_new hn hn31 hnp hstart ha (Nat.le_of_not_lt hfit) trivial, Or.inl rfl, fun _ => rfl⟩
  | cons curr rest =>
    simp only [mapHint] at h
    rcases Try.orElse_placed h with h | ⟨hpass, h⟩
    · by_cases hlt : addr < curr.vmStart
      · rw [if_pos hlt] at h
        rcases Try.orElse_placed h with h | ⟨-, h⟩
        · obtain ⟨hr, hm⟩ := frontAt_maps hn hn31 hnp hc hstart ha (by omega) h
          exact ⟨addr, hm, Or.inl hr, fun _ => rfl⟩
        · obtain ⟨hf, -, hm⟩ := conflict_maps hn hn31 hnp hc h
          exact ⟨ret, hm, Or.inl rfl, fun hf' => by rw [hf] at hf'; cases hf'⟩
      · rw [if_neg hlt] at h
        obtain ⟨r, -, hm, hor, hr⟩ := hintFrom_maps hn hn31 hnp ha hend hc (by omega) h
        exact ⟨r, hm, hor, hr⟩
    · have hno : fixed = true → ret = addr := by
        intro hf
        subst hf
        exfalso
        by_cases hlt : addr < curr.vmStart
        · rw [if_pos hlt] at hpass
          cases hfr : frontAt cnt n prot addr (curr :: rest) <;> rw [hfr] at hpass <;> cases hpass
        · rw [if_neg hlt] at hpass
          exact hintFrom_fixed curr rest n hpass
      unfold restart at h
      rcases Try.orElse_placed h with h | ⟨-, h⟩
      · obtain ⟨hr, hm⟩ := frontAt_maps hn hn31 hnp hc (Nat.le_refl _) hs (by decide) h
        exact ⟨ret, hr ▸ hm, Or.inl rfl, hno⟩
      · exact ⟨ret, (search_maps hn hn31 hnp hc h).2, Or.inl rfl, hno⟩

end

omit hn hn31 in
/-- Behind the last area, at its very end and with its flags, the returned address is the
    start of that area. -/
theorem hintFrom_grows (cnt : Nat) (fixed : Bool) {addr : Nat} {curr : VmArea} {rest : List VmArea} (hc : Areas b (curr :: rest))
    (h : LastGrows (curr :: rest) addr n prot) :
    ∃ a, (curr :: rest).getLast? = some a ∧ a.vmEnd = addr ∧ curr.vmStart ≤ addr ∧ ∃ areas',
      hintFrom cnt n prot addr fixed (curr :: rest) = .placed a.vmStart areas' 0 := by
  induction rest generalizing b curr with
  | nil =>
    obtain ⟨a, hl, he, hf, hfit⟩ := h
    obtain rfl : curr = a := Option.some.inj hl
    have hlt : curr.vmStart < curr.vmEnd := hc.2.1
    refine ⟨curr, rfl, he.symm, by omega, [{ curr with vmEnd := plus curr.vmEnd n }], ?_⟩
    rw [end_eq] at hfit
    unfold hintFrom hintLast
    rw [plus_nat (by omega), if_neg (by rw [end_eq]; omega), if_neg (by omega), if_pos he, if_pos hf]
  | cons next rest ih =>
    have hlt : curr.vmStart < curr.vmEnd := hc.2.1
    have hnext : curr.vmEnd ≤ next.vmStart ∧ next.vmStart < next.vmEnd := ⟨hc.tail.1, hc.tail.2.1⟩
    obtain ⟨a, ha, he, hle, areas', hplaced⟩ := ih hc.tail (by simpa [LastGrows] using h)
    have hafter : next.vmEnd ≤ addr := by
      rcases List.mem_cons.mp (List.mem_of_getLast? ha) with hae | har
      · rw [← he, hae]
      · have := hc.tail.tail.forall_mem a har
        simp only [lo_eq, hi_eq] at this
        omega
    refine ⟨a, by rw [List.getLast?_cons_cons]; exact ha, he, by omega, curr :: areas', ?_⟩
    unfold hintFrom
    rw [if_neg (by omega), if_neg (by omega), if_neg (by omega), hplaced]
    rfl

end

/-! ## vm_area_map -/

section
variable {areas : List VmArea} {addr : Nat} {length : Int} {prot flags : UInt32} (hw : Areas MMAP_AREA_START areas)
  (hl : Promised length) (ha : 4096 ∣ addr)
include hw hl ha

/-- A call that does not return -1 maps one free range of the rounded length. -/
theorem mapAreas_maps (hret : (mapAreas areas addr length prot flags).1 ≠ -1) :
    ∃ r, Maps MMAP_AREA_START areas (mapAreas areas addr length prot flags).2.1 r (pageUp length) prot ∧
      ((mapAreas areas addr length prot flags).1 = r ∨ (LastGrows areas addr (pageUp length) prot ∧ r = addr)) ∧
      (addr ≠ 0 → flags &&& MAP_FIXED ≠ 0 → r = addr) := by
  obtain ⟨hn, hn31, hnp, -, -⟩ := pageUp_spec hl
  unfold mapAreas at hret ⊢
  by_cases hout : addr ≠ 0 ∧ ¬ (MMAP_AREA_START ≤ addr ∧ addr ≤ MMAP_AREA_END)
  · rw [if_pos hout] at hret; exact absurd rfl hret
  rw [if_neg hout] at hret ⊢
  by_cases hfix : addr ≠ 0 ∧ flags &&& MAP_FIXED ≠ 0 ∧ ¬ (MMAP_AREA_START ≤ addr ∧ plus addr length ≤ MMAP_AREA_END)
  · rw [if_pos hfix] at hret; exact absurd rfl hret
  rw [if_neg hfix] at hret ⊢
  simp only [pageRound_eq hl] at hret ⊢
  by_cases h0 : addr = 0
  · simp only [if_pos h0] at hret ⊢
    obtain ⟨r, l, k, ht, hres⟩ := Try.result_placed hret
    rw [hres]
    exact ⟨r, mapAnywhere_maps hn hn31 hnp hw ht, Or.inl rfl, fun hne => absurd h0 hne⟩
  · simp only [if_neg h0] at hret ⊢
    have hin : MMAP_AREA_START ≤ addr ∧ addr ≤ MMAP_AREA_END := by
      apply Classical.byContradiction
      intro hno
      exact hout ⟨h0, hno⟩
    have hroom : decide (flags &&& MAP_FIXED ≠ 0) = true → addr + pageUp length ≤ MMAP_AREA_END := by
      intro hf
      have hend := hin.2
      rw [end_eq] at hend
      apply (fits_iff hl ha (by decide) (by omega)).mp
      apply Classical.byContradiction
      intro hno
      exact hfix ⟨h0, of_decide_eq_true hf, fun hb => hno hb.2⟩
    obtain ⟨r, l, k, ht, hres⟩ := Try.result_placed hret
    obtain ⟨r', hm, hor, hr⟩ := mapHint_maps hn hn31 hnp ha hin.2 hw hin.1 hroom ht
    rw [hres]
    refine ⟨r', hm, ?_, fun _ hf => hr (decide_eq_true hf)⟩
    rcases hor with he | hg
    · exact Or.inl (by rw [he])
    · exact Or.inr hg

/-- If the last area grows, the call returns its start. -/
theorem mapAreas_grows (h : LastGrows areas addr (pageUp length) prot) (flags : UInt32) :
    ∃ a, areas.getLast? = some a ∧ a.vmEnd = addr ∧ (mapAreas areas addr length prot flags).1 = a.vmStart := by
  obtain ⟨hn, hn31, hnp, -, -⟩ := pageUp_spec hl
  cases areas with
  | nil => obtain ⟨a, hl, -⟩ := h; cases hl
  | cons curr rest =>
    have hfit : addr + pageUp length ≤ MMAP_AREA_END := by obtain ⟨-, -, -, -, hfit⟩ := h; exact hfit
    obtain ⟨a, hmem, he, hle, areas', hplaced⟩ :=
      hintFrom_grows hnp (curr :: rest).length (flags &&& MAP_FIXED ≠ 0) hw h
    have hstart : MMAP_AREA_START ≤ curr.vmStart := hw.1
    rw [end_eq] at hfit
    have h0 : addr ≠ 0 := by unfold MMAP_AREA_START at hstart; omega
    refine ⟨a, hmem, he, ?_⟩
    unfold mapAreas
    rw [if_neg fun hb => hb.2 ⟨by omega, by rw [end_eq]; omega⟩,
      if_neg fun hb => hb.2.2 ⟨by omega, (fits_iff hl ha (by decide) (by omega)).mpr (by rw [end_eq]; omega)⟩]
    simp only [pageRound_eq hl, if_neg h0, mapHint, if_neg (Nat.not_lt.mpr hle), hplaced, Try.orElse, Try.result]

/-- Wherever the range lies, what the returned address is the start of is mapped as asked for. -/
theorem mapAreas_covers (hret : (mapAreas areas addr length prot flags).1 ≠ -1) :
    ∃ ret : Nat, (mapAreas areas addr length prot flags).1 = ret ∧ 4096 ∣ ret ∧ MMAP_AREA_START ≤ ret ∧
      ret + pageUp length ≤ MMAP_AREA_END ∧
      ∀ x, ret ≤ x → x < ret + pageUp length → protAt (mapAreas areas addr length prot flags).2.1 x = some prot := by
  obtain ⟨r, hm, hor, -⟩ := mapAreas_maps hw hl ha hret
  have hvalue := hm.value
  rcases hor with he | ⟨hg, hr⟩
  · exact ⟨r, he, hm.bounds.1, hm.low, hm.high, fun x h1 h2 => (hvalue x).trans (if_pos ⟨h1, h2⟩)⟩
  · obtain ⟨a, ha', he, hret'⟩ := mapAreas_grows hw hl ha hg flags
    obtain ⟨c, hlast, hce, hf, hfit⟩ := hg
    obtain rfl : c = a := Option.some.inj (hlast.symm.trans ha')
    have hmem := List.mem_of_getLast? hlast
    obtain ⟨h1, h2, h3, h4, h5⟩ := hw.forall_mem c hmem
    simp only [lo_eq, hi_eq] at h1 h2 h3 h4
    refine ⟨c.vmStart, hret', h4, h1, by omega, fun x hx1 hx2 => (hvalue x).trans ?_⟩
    split
    · rfl
    · rename_i hx
      have hin : c.vmStart ≤ x ∧ x < c.vmEnd := by omega
      exact (hw.valueAt_mem hmem hin).trans (congrArg some hf)

omit hw hl ha in
theorem mapAreas_fails (hret : (mapAreas areas addr length prot flags).1 = -1) :
    (mapAreas areas addr length prot flags).2 = (areas, 0) := by
  unfold mapAreas at hret ⊢
  split
  · rfl
  split
  · rfl
  · rename_i h1 h2
    rw [if_neg h1, if_neg h2] at hret
    simp only at hret ⊢
    split at hret
    · rename_i h0; rw [if_pos h0]; exact Try.result_fails hret
    · rename_i h0; rw [if_neg h0]; exact Try.result_fails hret

end

end Cs330.Vm
