/-
  Cs330.Vm.Landing — vm_area_map with a length that rounds to 0 or below.

  Such a request fits wherever the search first looks (`landing`). There a new area would
  end at or below its start, and an area that is to take the request in shrinks, so the
  call does no harm only if there are too many areas, or for no bytes at all an area with
  the right flags (`Absorbed`, `mmap_harmless`).
-/
import Cs330.Vm.Harmless

namespace Cs330.Vm

open Lib Lib.Seg

/-! ## mmap -/

/-- What gives the new list away: an area that is empty or reversed, or an address that is
    no longer mapped. -/
def Harmed (areas areas' : List VmArea) : Prop :=
  (∃ a ∈ areas', a.vmEnd ≤ a.vmStart) ∨ ∃ x, protAt areas x ≠ none ∧ protAt areas' x = none

/-- An attempt that ends the search, and does no harm when `ok`. -/
structure Judged (b : Nat) (areas : List VmArea) (ok : Prop) (t : Try) : Prop where
  spared : ok → t = .refuse ∨ ∃ ret areas' k, t = .placed ret areas' k ∧ Same b areas areas'
  harmed : ¬ ok → ∃ ret areas' k, t = .placed ret areas' k ∧ Harmed areas areas'

namespace Judged

variable {b n cnt q ret : Nat} {k : Int} {prot : UInt32} {ok ok' : Prop} {t : Try} {curr : VmArea} {rest areas areas' : List VmArea}

theorem congr (h : Judged b areas ok t) (he : ok' ↔ ok) : Judged b areas ok' t :=
  ⟨fun h' => h.spared (he.mp h'), fun h' => h.harmed fun h'' => h' (he.mpr h'')⟩

theorem refuse (hok : ok) : Judged b areas ok .refuse := ⟨fun _ => .inl rfl, fun h => absurd hok h⟩

theorem same (hok : ok) (h : Same b areas areas') : Judged b areas ok (.placed ret areas' k) :=
  ⟨fun _ => .inr ⟨ret, areas', k, rfl, h⟩, fun h' => absurd hok h'⟩

theorem harm (hok : ¬ ok) (h : Harmed areas areas') : Judged b areas ok (.placed ret areas' k) :=
  ⟨fun h' => absurd h' hok, fun _ => ⟨ret, areas', k, rfl, h⟩⟩

theorem orElse (h : Judged b areas ok t) (u : Try) : Judged b areas ok (t.orElse u) := by
  by_cases hok : ok
  · rcases h.spared hok with rfl | ⟨ret, areas', k, rfl, hs⟩
    · exact refuse hok
    · exact same hok hs
  · obtain ⟨ret, areas', k, rfl, hh⟩ := h.harmed hok
    exact harm hok hh

theorem behind (hc : Areas b (curr :: areas)) (h : Judged curr.vmEnd areas ok t) :
    Judged b (curr :: areas) ok (t.behind curr) := by
  by_cases hok : ok
  · rcases h.spared hok with rfl | ⟨ret, areas', k, rfl, hs⟩
    · exact refuse hok
    · exact same hok (.cons hc hs)
  · obtain ⟨ret, areas', k, rfl, hh⟩ := h.harmed hok
    apply harm hok
    rcases hh with ⟨a, hmem, hle⟩ | ⟨x, hx, hnone⟩
    · exact .inl ⟨a, List.mem_cons_of_mem _ hmem, hle⟩
    · refine .inr ⟨x, ?_, ?_⟩
      all_goals
        have hout : ¬ (lo curr ≤ x ∧ x < hi curr) := fun h => hx (hc.tail.valueAt_below h.2)
        unfold protAt
        rw [valueAt_tail hout]
        assumption

theorem absorbed_iff : Absorbed cnt prot (-(n : Int)) areas q ↔
    if n = 0 then 128 ≤ cnt ∨ ∃ a ∈ areas, a.accessFlags = prot ∧ (a.vmEnd = q ∨ a.vmStart = q)
    else 128 ≤ cnt ∧ ∀ a ∈ areas, a.vmEnd = q → a.accessFlags ≠ prot := by
  unfold Absorbed
  simp only [Int.neg_eq_zero, Int.natCast_eq_zero]

/-- A new area ends where it starts, or below. -/
theorem insert (hno : ∀ a ∈ areas, a.vmEnd = q ∨ (n = 0 ∧ a.vmStart = q) → a.accessFlags ≠ prot)
    (hmem : ⟨q, q - n, prot⟩ ∈ areas') :
    Judged b areas (Absorbed cnt prot (-(n : Int)) areas q) (if 128 ≤ cnt then .refuse else .placed ret areas' k) := by
  rw [absorbed_iff]
  by_cases hcnt : 128 ≤ cnt
  · rw [if_pos hcnt]
    apply refuse
    split
    · exact .inl hcnt
    · exact ⟨hcnt, fun a ha he => hno a ha (.inl he)⟩
  · rw [if_neg hcnt]
    apply harm
    · split
      · rename_i hn
        rintro (h | ⟨a, ha, hf, h⟩)
        · exact hcnt h
        · exact hno a ha (h.imp_right fun h => ⟨hn, h⟩) hf
      · exact fun h => hcnt h.1
    · exact .inl ⟨_, hmem, Nat.sub_le q n⟩

/-- The area that ends there grows by less than nothing. -/
theorem shrink (hc : Areas b (curr :: rest)) (hf : curr.accessFlags = prot) :
    Judged b (curr :: rest) (Absorbed cnt prot (-(n : Int)) (curr :: rest) curr.vmEnd)
      (.placed ret ({ curr with vmEnd := curr.vmEnd - n } :: rest) k) := by
  have hlt : curr.vmStart < curr.vmEnd := hc.2.1
  rw [absorbed_iff]
  by_cases hn : n = 0
  · subst hn
    rw [if_pos rfl]
    exact same (.inr ⟨curr, List.mem_cons_self, hf, .inl rfl⟩) (.refl hc)
  · rw [if_neg hn]
    refine harm (fun h => h.2 curr List.mem_cons_self rfl hf) ?_
    by_cases hle : curr.vmEnd - n ≤ curr.vmStart
    · exact .inl ⟨_, List.mem_cons_self, hle⟩
    · refine .inr ⟨curr.vmEnd - 1, ?_, ?_⟩
      · unfold protAt
        rw [valueAt_head (by simp only [lo_eq, hi_eq]; omega)]
        exact Option.some_ne_none _
      · unfold protAt
        rw [valueAt_tail (by simp only [lo_eq, hi_eq]; omega)]
        exact hc.tail.valueAt_below (by simp only [hi_eq]; omega)

end Judged

/-! ### Where the search ends -/

section
variable {b n cnt addr start : Nat} {prot : UInt32} {fixed : Bool} {go : VmArea → Bool} {curr next : VmArea}
  {rest areas : List VmArea}

theorem minus_neg {addr n : Nat} (h : addr + n < 2 ^ 64) : minus addr (-(n : Int)) = addr + n := by
  unfold minus
  omega

/-- The areas behind the first one start at its end or above. -/
theorem behind_first (hc : Areas b (curr :: rest)) : ∀ a ∈ rest, curr.vmEnd ≤ a.vmStart ∧ a.vmStart < a.vmEnd :=
  fun a ha => ⟨(hc.tail.forall_mem a ha).1, (hc.tail.forall_mem a ha).2.1⟩

/-- Of an area and what follows, only that area ends where it does, and only the next one
    starts there. -/
theorem ends_at {a : VmArea} (hc : Areas b (curr :: rest)) (ha : a ∈ curr :: rest) (he : a.vmEnd = curr.vmEnd) : a = curr := by
  rcases List.mem_cons.mp ha with h | ha
  · exact h
  · have hb := behind_first hc a ha
    omega

theorem starts_at {a : VmArea} (hc : Areas b (curr :: rest)) (ha : a ∈ curr :: rest) (he : a.vmStart ≤ curr.vmStart) : a = curr := by
  have hlt : curr.vmStart < curr.vmEnd := hc.2.1
  rcases List.mem_cons.mp ha with h | ha
  · exact h
  · have hb := behind_first hc a ha
    omega

theorem starts_behind {a : VmArea} (hc : Areas b (curr :: next :: rest)) (ha : a ∈ curr :: next :: rest) (he : a.vmStart = curr.vmEnd) :
    a = next := by
  have hlt : curr.vmStart < curr.vmEnd := hc.2.1
  have hgap : curr.vmEnd ≤ next.vmStart := hc.tail.1
  rcases List.mem_cons.mp ha with rfl | ha
  · omega
  · exact starts_at hc.tail ha (by omega)

theorem absorbed_of_mem {a : VmArea} {q : Nat} (ha : a ∈ areas) (hf : a.accessFlags = prot) (hq : a.vmEnd = q ∨ a.vmStart = q) :
    Absorbed cnt prot (-((0 : Nat) : Int)) areas q := by
  rw [Judged.absorbed_iff, if_pos rfl]
  exact .inr ⟨a, ha, hf, hq⟩

theorem frontAt_judged (hc : Areas b (curr :: rest)) (hn : n ≤ start) (hle : start ≤ curr.vmStart) (htop : curr.vmStart < 2 ^ 63) :
    Judged b (curr :: rest) (Absorbed cnt prot (-(n : Int)) (curr :: rest) start)
      (frontAt cnt (-(n : Int)) prot start (curr :: rest)) := by
  have hlow : ∀ a ∈ curr :: rest, curr.vmStart ≤ a.vmStart ∧ a.vmStart < a.vmEnd := fun a ha =>
    ⟨((hc.raise (Nat.le_refl _)).forall_mem a ha).1, (hc.forall_mem a ha).2.1⟩
  rw [frontAt, plus_neg hn (by omega)]
  split
  · refine .insert (fun a ha h => ?_) List.mem_cons_self
    have ha' := hlow a ha
    omega
  have hn0 : n = 0 := by omega
  subst hn0
  have hstart : curr.vmStart = start := by omega
  rw [if_pos (by omega)]
  split
  · rename_i hf
    rw [minus_neg (by omega)]
    exact .same (absorbed_of_mem List.mem_cons_self hf (.inr hstart)) (.refl hc)
  · rename_i hf
    refine .insert (fun a ha h => ?_) List.mem_cons_self
    have ha' := hlow a ha
    rw [starts_at hc ha (by omega)]
    exact hf

/-- Two areas that touch and agree, as one. -/
theorem same_join (hc : Areas b (curr :: next :: rest)) (hadj : curr.vmEnd = next.vmStart) (hf : curr.accessFlags = next.accessFlags) :
    Same b (curr :: next :: rest) ({ curr with vmEnd := next.vmEnd } :: rest) := by
  obtain ⟨c1, c2, c3, c4, d1, d2, d3, d4, d5⟩ := hc
  simp only [lo_eq, hi_eq] at c1 c2 d1 d2
  refine ⟨⟨c1, by simp only [lo_eq, hi_eq]; omega, c3, d4, d5⟩, fun x => ?_⟩
  simp only [protAt, valueAt, lo_eq, hi_eq, val_eq]
  by_cases hx : curr.vmStart ≤ x ∧ x < curr.vmEnd
  · rw [if_pos hx, if_pos (by omega)]
  rw [if_neg hx]
  by_cases hx' : next.vmStart ≤ x ∧ x < next.vmEnd
  · rw [if_pos hx', if_pos (by omega), hf]
  · rw [if_neg hx', if_neg (by omega)]

theorem gapAfter_judged (hc : Areas b (curr :: next :: rest)) (hn : n ≤ curr.vmEnd) (htop : curr.vmEnd < 2 ^ 63) :
    Judged b (curr :: next :: rest) (Absorbed cnt prot (-(n : Int)) (curr :: next :: rest) curr.vmEnd)
      (gapAfter cnt (-(n : Int)) prot curr next rest) := by
  have hgap : curr.vmEnd ≤ next.vmStart := hc.tail.1
  unfold gapAfter
  rw [plus_neg hn (by omega)]
  split
  · rename_i h1
    split
    · rename_i hf
      exact .shrink hc hf
    · rename_i hf
      refine .insert (fun a ha h => ?_) (List.mem_cons_of_mem _ List.mem_cons_self)
      rcases h with h | ⟨h0, h⟩
      · rw [ends_at hc ha h]
        exact hf
      · have hnext := starts_behind hc ha h
        subst hnext
        omega
  -- no bytes, and no gap
  have hn0 : n = 0 := by omega
  subst hn0
  have hadj : curr.vmEnd = next.vmStart := by omega
  have hnext : next ∈ curr :: next :: rest := List.mem_cons_of_mem _ List.mem_cons_self
  rw [if_pos (by omega)]
  split
  · rename_i hf
    exact .same (absorbed_of_mem List.mem_cons_self hf.1.symm (.inl rfl)) (same_join hc hadj (hf.1.symm.trans hf.2))
  split
  · rename_i hf
    refine .same (absorbed_of_mem List.mem_cons_self hf.symm (.inl rfl)) ?_
    rw [← hadj]
    exact .refl hc
  split
  · rename_i hf
    refine .same (absorbed_of_mem hnext hf.symm (.inr hadj.symm)) ?_
    rw [hadj]
    exact .refl hc
  · rename_i hf hf'
    refine .insert (fun a ha h => ?_) (List.mem_cons_of_mem _ List.mem_cons_self)
    rcases h with h | ⟨-, h⟩
    · rw [ends_at hc ha h]
      exact Ne.symm hf
    · rw [starts_behind hc ha h]
      exact Ne.symm hf'

theorem appendLast_judged (hc : Areas b [curr]) (hn : n ≤ curr.vmEnd) (htop : curr.vmEnd < 2 ^ 63) :
    Judged b [curr] (Absorbed cnt prot (-(n : Int)) [curr] curr.vmEnd) (appendLast cnt (-(n : Int)) prot curr) := by
  have hlt : curr.vmStart < curr.vmEnd := hc.2.1
  unfold appendLast
  rw [plus_neg hn (by omega)]
  split
  · rename_i hf
    exact .shrink hc hf
  · rename_i hf
    refine .insert (fun a ha _ => ?_) (List.mem_cons_of_mem _ List.mem_cons_self)
    rw [List.mem_singleton.mp ha]
    exact hf

/-- A search ends in its first gap. -/
theorem search_judged (hc : Areas b (curr :: rest)) (hn : n ≤ curr.vmEnd) (hgo : go curr = true) :
    Judged b (curr :: rest) (Absorbed cnt prot (-(n : Int)) (curr :: rest) curr.vmEnd)
      (search cnt (-(n : Int)) prot go (curr :: rest)) := by
  have htop : curr.vmEnd ≤ 0x7FE000000 := hc.tail.le_top
  cases rest with
  | nil =>
    unfold search
    rw [plus_neg hn (by omega), end_eq, if_neg (by omega)]
    exact appendLast_judged hc hn (by omega)
  | cons next rest =>
    unfold search
    rw [if_pos hgo]
    exact (gapAfter_judged hc hn (by omega)).orElse _

end

/-! ### From a hint -/

section
variable {b n cnt addr : Nat} {prot : UInt32} {fixed : Bool} {curr : VmArea} {rest areas : List VmArea}

theorem le_landing (addr : Nat) (areas : List VmArea) : addr ≤ landing addr areas := by
  induction areas with
  | nil => exact Nat.le_refl addr
  | cons a rest ih =>
    unfold landing
    split
    · exact Nat.le_refl addr
    split
    · rename_i h
      exact Nat.le_of_lt h.2
    · exact ih

theorem landing_front (hc : Areas b areas) (h : addr < b) : landing addr areas = addr := by
  induction areas generalizing b with
  | nil => rfl
  | cons a rest ih =>
    have h1 : b ≤ a.vmStart := hc.1
    have h2 : a.vmStart < a.vmEnd := hc.2.1
    rw [landing, if_neg (by omega), if_neg (by omega)]
    exact ih hc.tail (by simp only [hi_eq]; omega)

theorem landing_in (h : curr.vmStart ≤ addr ∧ addr < curr.vmEnd) (rest : List VmArea) :
    landing addr (curr :: rest) = curr.vmEnd := by
  rw [landing, if_neg (Nat.ne_of_gt h.2), if_pos h]

theorem landing_behind (h : curr.vmEnd < addr) (rest : List VmArea) : landing addr (curr :: rest) = landing addr rest := by
  rw [landing, if_neg (Nat.ne_of_lt h), if_neg fun h' => Nat.lt_asymm h h'.2]

variable (cnt prot n fixed addr areas) in
/-- The request is refused for MAP_FIXED, or does no harm where it comes to lie. -/
def HintOk : Prop :=
  (fixed = true ∧ landing addr areas ≠ addr) ∨ Absorbed cnt prot (-(n : Int)) areas (landing addr areas)

/-- Where the hint lies in no area, MAP_FIXED makes no difference. -/
theorem hintOk_free (h : landing addr areas = addr) : HintOk n cnt addr prot fixed areas ↔ Absorbed cnt prot (-(n : Int)) areas addr := by
  unfold HintOk
  rw [h]
  exact or_iff_right fun h' => h'.2 rfl

theorem hintOk_behind (hc : Areas b (curr :: rest)) (h : curr.vmEnd < addr) :
    HintOk n cnt addr prot fixed (curr :: rest) ↔ HintOk n cnt addr prot fixed rest := by
  have hlt : curr.vmStart < curr.vmEnd := hc.2.1
  have hle := le_landing addr rest
  unfold HintOk
  rw [landing_behind h, Judged.absorbed_iff, Judged.absorbed_iff]
  apply or_congr_right
  split
  · apply or_congr_right
    constructor
    · rintro ⟨a, ha, hf, he⟩
      rcases List.mem_cons.mp ha with rfl | ha
      · omega
      · exact ⟨a, ha, hf, he⟩
    · rintro ⟨a, ha, hf, he⟩
      exact ⟨a, List.mem_cons_of_mem _ ha, hf, he⟩
  · apply and_congr_right
    intro _
    constructor
    · intro h' a ha
      exact h' a (List.mem_cons_of_mem _ ha)
    · intro h' a ha he
      rcases List.mem_cons.mp ha with rfl | ha
      · omega
      · exact h' a ha he

theorem conflict_judged (hc : Areas b (curr :: rest)) (hn : n ≤ curr.vmEnd) (hin : curr.vmStart ≤ addr ∧ addr < curr.vmEnd) :
    Judged b (curr :: rest) (HintOk n cnt addr prot fixed (curr :: rest)) (conflict cnt (-(n : Int)) prot fixed (curr :: rest)) := by
  have hland := landing_in hin rest
  unfold conflict HintOk
  rw [hland]
  cases fixed with
  | true => exact .refuse (.inl ⟨rfl, Nat.ne_of_gt hin.2⟩)
  | false => exact (search_judged hc hn rfl).congr (or_iff_right fun h => Bool.false_ne_true h.1)

/-- A new area at a hint that no area touches. -/
theorem judged_apart {areas' : List VmArea} {ret : Nat} {k : Int} (hland : landing addr areas = addr)
    (hno : ∀ a ∈ areas, a.vmEnd ≠ addr ∧ a.vmStart ≠ addr) (hmem : ⟨addr, addr - n, prot⟩ ∈ areas') :
    Judged b areas (HintOk n cnt addr prot fixed areas) (if 128 ≤ cnt then .refuse else .placed ret areas' k) := by
  refine (Judged.insert (fun a ha h => ?_) hmem).congr (hintOk_free hland)
  rcases h with h | ⟨-, h⟩
  · exact absurd h (hno a ha).1
  · exact absurd h (hno a ha).2

theorem hintLast_judged (hc : Areas b [curr]) (hn : n ≤ curr.vmEnd) (hle : curr.vmStart ≤ addr) (hna : n ≤ addr)
    (hend : addr ≤ MMAP_AREA_END) :
    Judged b [curr] (HintOk n cnt addr prot fixed [curr]) (hintLast cnt (-(n : Int)) prot addr fixed curr) := by
  have hlt : curr.vmStart < curr.vmEnd := hc.2.1
  have htop : curr.vmEnd ≤ 0x7FE000000 := hc.tail.le_top
  rw [end_eq] at hend
  unfold hintLast
  rw [plus_neg hna (by omega), plus_neg hn (by omega), end_eq, if_neg (by omega)]
  by_cases hin : curr.vmStart ≤ addr ∧ addr < curr.vmEnd
  · rw [if_pos hin]
    exact conflict_judged hc hn hin
  rw [if_neg hin]
  by_cases he : addr = curr.vmEnd
  · subst he
    rw [if_pos rfl]
    refine Judged.congr ?_ (hintOk_free (by rw [landing, if_pos rfl]))
    split
    · rename_i hf
      exact .shrink hc hf
    · rename_i hf
      refine .insert (fun a ha _ => ?_) (List.mem_cons_of_mem _ List.mem_cons_self)
      rw [List.mem_singleton.mp ha]
      exact hf
  · rw [if_neg he]
    refine judged_apart (landing_behind (by omega) []) (fun a ha => ?_) (List.mem_cons_of_mem _ List.mem_cons_self)
    rw [List.mem_singleton.mp ha]
    omega

theorem hintFrom_judged (hc : Areas b (curr :: rest)) (hn : n ≤ b) (hle : curr.vmStart ≤ addr) (hend : addr ≤ MMAP_AREA_END) :
    Judged b (curr :: rest) (HintOk n cnt addr prot fixed (curr :: rest)) (hintFrom cnt (-(n : Int)) prot addr fixed (curr :: rest)) := by
  induction rest generalizing b curr with
  | nil =>
    have h1 : b ≤ curr.vmStart := hc.1
    have h2 : curr.vmStart < curr.vmEnd := hc.2.1
    exact hintLast_judged hc (by omega) hle (by omega) hend
  | cons next rest ih =>
    have h1 : b ≤ curr.vmStart := hc.1
    have h2 : curr.vmStart < curr.vmEnd := hc.2.1
    have hnlt : next.vmStart < next.vmEnd := hc.tail.2.1
    have htop : curr.vmEnd ≤ 0x7FE000000 := hc.tail.le_top
    unfold hintFrom
    by_cases hin : curr.vmStart ≤ addr ∧ addr < curr.vmEnd
    · rw [if_pos hin]
      exact conflict_judged hc (by omega) hin
    rw [if_neg hin]
    by_cases he : addr = curr.vmEnd
    · rw [if_pos he]
      refine ((gapAfter_judged hc (by omega) (by omega)).orElse _).congr ?_
      rw [← he]
      exact hintOk_free (by rw [landing, if_pos he.symm])
    rw [if_neg he]
    by_cases hgap : curr.vmEnd < addr ∧ addr < next.vmStart
    · -- in a gap the request always fits
      rw [if_pos hgap]
      rw [end_eq] at hend
      unfold hintGap
      rw [plus_neg (by omega) (by omega), if_pos (by omega)]
      refine judged_apart ?_ (fun a ha => ?_) (List.mem_cons_of_mem _ List.mem_cons_self)
      · rw [landing_behind hgap.1]
        exact landing_front (hc.tail.raise (Nat.le_refl _)) hgap.2
      · rcases List.mem_cons.mp ha with rfl | ha
        · omega
        rcases List.mem_cons.mp ha with rfl | ha
        · omega
        · have := behind_first hc.tail a ha
          omega
    · rw [if_neg hgap]
      have hrest := ih hc.tail (by simp only [hi_eq]; omega) (by omega)
      exact (hrest.behind hc).congr (hintOk_behind hc (by omega))

end

/-! ### vm_area_map -/

section
variable {areas : List VmArea} {addr : Nat} {length : Int} {prot flags : UInt32} (hw : Areas MMAP_AREA_START areas)
include hw

theorem mapAnywhere_judged {n : Nat} (hn : n ≤ 2 ^ 31) :
    Judged MMAP_AREA_START areas (Absorbed areas.length prot (-(n : Int)) areas MMAP_AREA_START)
      (mapAnywhere areas.length (-(n : Int)) prot areas) := by
  have hstart : n ≤ MMAP_AREA_START := hn.trans (by decide)
  cases areas with
  | nil =>
    rw [mapAnywhere, plus_neg hstart (by decide), if_neg (Nat.not_lt.mpr ((Nat.sub_le _ _).trans (by decide)))]
    exact .insert (fun a ha => absurd ha List.not_mem_nil) List.mem_cons_self
  | cons curr rest =>
    have htop : curr.vmEnd ≤ 0x7FE000000 := hw.tail.le_top
    have hlt : curr.vmStart < curr.vmEnd := hw.2.1
    exact (frontAt_judged hw hstart hw.1 (by omega)).orElse _

theorem mapHint_judged {n : Nat} (hn : n ≤ 2 ^ 31) (hlow : MMAP_AREA_START ≤ addr) (hend : addr ≤ MMAP_AREA_END) (fixed : Bool) :
    Judged MMAP_AREA_START areas (HintOk n areas.length addr prot fixed areas)
      (mapHint areas.length (-(n : Int)) prot addr fixed areas) := by
  have hstart : n ≤ MMAP_AREA_START := hn.trans (by decide)
  have hend' : addr ≤ 0x7FE000000 := hend
  cases areas with
  | nil =>
    rw [mapHint, plus_neg (by omega) (by omega), if_neg (Nat.not_lt.mpr ((Nat.sub_le _ _).trans hend))]
    exact judged_apart rfl (fun a ha => absurd ha List.not_mem_nil) List.mem_cons_self
  | cons curr rest =>
    have htop : curr.vmEnd ≤ 0x7FE000000 := hw.tail.le_top
    have hlt : curr.vmStart < curr.vmEnd := hw.2.1
    unfold mapHint
    apply Judged.orElse
    split
    · rename_i hfront
      have hland := landing_front (hw.raise (Nat.le_refl _)) hfront
      exact ((frontAt_judged hw (by omega) (Nat.le_of_lt hfront) (by omega)).orElse _).congr (hintOk_free hland)
    · rename_i hfront
      exact hintFrom_judged hw hstart (Nat.le_of_not_lt hfront) hend

/-- What a search does to the list decides whether the call is harmless. -/
theorem Judged.harmless {ok : Prop} {t : Try} (h : Judged MMAP_AREA_START areas ok t)
    (hrun : mapAreas areas addr length prot flags = t.result areas) : (Call.mmap addr length prot flags).Harmless areas ↔ ok := by
  have hlist : ((Call.mmap addr length prot flags).run areas).2.1 = (t.result areas).2.1 := congrArg (·.2.1) hrun
  by_cases hok : ok
  · refine iff_of_true ?_ hok
    rcases h.spared hok with rfl | ⟨ret, areas', k, rfl, hs⟩
    · exact .of_eq hw hlist
    · exact .of_same (by rw [hlist]; exact hs)
  · refine iff_of_false (fun hh => ?_) hok
    obtain ⟨ret, areas', k, rfl, hharm⟩ := h.harmed hok
    obtain ⟨hord, hrange⟩ := hh
    rw [hlist] at hord hrange
    rcases hharm with ⟨a, hmem, hle⟩ | ⟨x, hmapped, hnone⟩
    · exact Nat.not_lt.mpr hle (hord.area a hmem)
    · rcases hrange with hsame | ⟨-, r, -, hacts⟩
      · exact hmapped ((hsame x).symm.trans hnone)
      · have hx := (hacts x).symm.trans hnone
        split at hx
        · cases hx
        · exact hmapped hx

theorem mmap_harmless {n : Nat} (hround : pageRound length = -(n : Int)) (hn : n ≤ 2 ^ 31) (hl : ¬ Promised length) :
    (Call.mmap addr length prot flags).Harmless areas ↔ (Call.mmap addr length prot flags).Spared areas := by
  refine Iff.trans ?_ (or_iff_right hl).symm
  rw [hround]
  by_cases h0 : addr = 0
  · rw [if_pos h0]
    apply (mapAnywhere_judged hw hn).harmless hw
    unfold mapAreas
    rw [if_neg fun h => h.1 h0, if_neg fun h => h.1 h0, hround]
    simp only [if_pos h0]
  rw [if_neg h0]
  by_cases hin : MMAP_AREA_START ≤ addr ∧ addr ≤ MMAP_AREA_END
  swap
  · refine iff_of_true (.of_eq hw ?_) (.inl hin)
    show (mapAreas areas addr length prot flags).2.1 = areas
    unfold mapAreas
    rw [if_pos ⟨h0, hin⟩]
  rw [or_iff_right (not_not_intro hin)]
  by_cases hfix : flags &&& MAP_FIXED ≠ 0 ∧ ¬ (MMAP_AREA_START ≤ addr ∧ plus addr length ≤ MMAP_AREA_END)
  · refine iff_of_true (.of_eq hw ?_) (.inl ⟨hfix.1, .inl (Nat.lt_of_not_le fun h => hfix.2 ⟨hin.1, h⟩)⟩)
    show (mapAreas areas addr length prot flags).2.1 = areas
    unfold mapAreas
    rw [if_neg fun h => h.2 hin, if_pos ⟨h0, hfix⟩]
  have hrun : mapAreas areas addr length prot flags =
      (mapHint areas.length (-(n : Int)) prot addr (flags &&& MAP_FIXED ≠ 0) areas).result areas := by
    unfold mapAreas
    rw [if_neg fun h => h.2 hin, if_neg fun h => hfix h.2, hround]
    simp only [if_neg h0]
  rw [(mapHint_judged hw hn hin.1 hin.2 _).harmless hw hrun]
  unfold HintOk
  rw [decide_eq_true_iff]
  refine or_congr_left (and_congr_right fun hf => (or_iff_right fun hgt => ?_).symm)
  exact hfix ⟨hf, fun h => Nat.not_le.mpr hgt h.2⟩

end

end Cs330.Vm
