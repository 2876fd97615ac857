/-
  Cs330.Vm.Hostile — vm_area_mprotect with a length that rounds to a negative int, and the
  three calls together.

  Past its check for 0, mprotect splits off an area that ends below its start. The merging
  pass leaves it (`reversed_middle`), or joins it to the area before, which loses what lies
  above that end (`reversed_lower`). `hostile_lengths`: a call is harmless exactly when it
  is spared.
-/
import Cs330.Vm.Landing

namespace Cs330.Vm

open Lib Lib.Seg

/-! ## mprotect -/

/-! ### What the merging pass makes of a reversed area -/

/-- The pass comes to the last area of the list in front with an area `last` that ends as it
    does and has its flags. -/
theorem mergeFrom_snoc (prev p : VmArea) (pre : List VmArea) :
    ∃ init last, mergeFrom prev (pre ++ [p]) = init ++ [last] ∧ last.accessFlags = p.accessFlags ∧
      ∀ l, mergeFrom prev (pre ++ p :: l) = init ++ mergeFrom last l := by
  induction pre generalizing prev with
  | nil =>
    by_cases h : prev.vmEnd = p.vmStart ∧ prev.accessFlags = p.accessFlags
    · refine ⟨[], { prev with vmEnd := p.vmEnd }, ?_, h.2, fun l => ?_⟩
      · rw [List.nil_append, mergeFrom, if_pos h]
        rfl
      · rw [List.nil_append, mergeFrom, if_pos h]
        rfl
    · refine ⟨[prev], p, ?_, rfl, fun l => ?_⟩
      · rw [List.nil_append, mergeFrom, if_neg h]
        rfl
      · rw [List.nil_append, mergeFrom, if_neg h]
        rfl
  | cons c pre ih =>
    by_cases h : prev.vmEnd = c.vmStart ∧ prev.accessFlags = c.accessFlags
    · obtain ⟨init, last, h1, h2, h3⟩ := ih { prev with vmEnd := c.vmEnd }
      refine ⟨init, last, ?_, h2, fun l => ?_⟩
      · rw [List.cons_append, mergeFrom, if_pos h, h1]
      · rw [List.cons_append, mergeFrom, if_pos h, h3]
    · obtain ⟨init, last, h1, h2, h3⟩ := ih c
      refine ⟨prev :: init, last, ?_, h2, fun l => ?_⟩
      · rw [List.cons_append, mergeFrom, if_neg h, h1]
        rfl
      · rw [List.cons_append, mergeFrom, if_neg h, h3]
        rfl

theorem mergeAll_snoc (p : VmArea) (pre : List VmArea) :
    ∃ init last, mergeAll (pre ++ [p]) = init ++ [last] ∧ last.accessFlags = p.accessFlags ∧
      ∀ l, mergeAll (pre ++ p :: l) = init ++ mergeFrom last l := by
  cases pre with
  | nil => exact ⟨[], p, rfl, rfl, fun l => rfl⟩
  | cons prev pre => exact mergeFrom_snoc prev p pre

theorem mergeFrom_apart {prev curr : VmArea} (h : prev.accessFlags ≠ curr.accessFlags) (rest : List VmArea) :
    mergeFrom prev (curr :: rest) = prev :: mergeFrom curr rest := by
  rw [mergeFrom, if_neg fun h' => h h'.2]

section
variable {b addr stop : Nat} {prot : UInt32} {a : VmArea} {pre rest : List VmArea}

/-- Between two parts of an area with other flags the reversed one stays. -/
theorem reversed_middle (hf : a.accessFlags ≠ prot) :
    ⟨addr, stop, prot⟩ ∈
      mergeAll (pre ++ { a with vmEnd := addr } :: ⟨addr, stop, prot⟩ :: ⟨stop, a.vmEnd, a.accessFlags⟩ :: rest) := by
  obtain ⟨init, last, -, hlast, hmerge⟩ := mergeAll_snoc { a with vmEnd := addr } pre
  rw [hmerge, mergeFrom_apart (hlast.trans_ne hf), mergeFrom_apart (Ne.symm hf)]
  exact List.mem_append_right _ (List.mem_cons_of_mem _ List.mem_cons_self)

/-- In front of what is left of an area it stays, or the area before it takes it in and
    loses what lies from its end up. -/
theorem reversed_lower (hc : Areas b (pre ++ a :: rest)) (h2 : stop < a.vmEnd) (hs : 4096 ∣ stop) (hlt : stop < a.vmStart)
    (hf : a.accessFlags ≠ prot) :
    (∃ c ∈ mergeAll (pre ++ ⟨a.vmStart, stop, prot⟩ :: { a with vmStart := stop } :: rest), c.vmEnd ≤ c.vmStart) ∨
      protAt (mergeAll (pre ++ ⟨a.vmStart, stop, prot⟩ :: { a with vmStart := stop } :: rest)) stop ≠
        protAt (pre ++ a :: rest) stop := by
  have hleft : mergeFrom ⟨a.vmStart, stop, prot⟩ ({ a with vmStart := stop } :: rest) =
      ⟨a.vmStart, stop, prot⟩ :: mergeFrom { a with vmStart := stop } rest := mergeFrom_apart (Ne.symm hf) rest
  rcases List.eq_nil_or_concat pre with rfl | ⟨pre', p, rfl⟩
  · refine .inl ⟨⟨a.vmStart, stop, prot⟩, ?_, Nat.le_of_lt hlt⟩
    rw [List.nil_append, mergeAll, hleft]
    exact List.mem_cons_self
  rw [List.concat_eq_append] at hc ⊢
  obtain ⟨init, last, hpre, -, hmerge⟩ := mergeAll_snoc p pre'
  rw [List.append_assoc, List.singleton_append, hmerge]
  by_cases hjoin : last.vmEnd = a.vmStart ∧ last.accessFlags = prot
  swap
  · refine .inl ⟨⟨a.vmStart, stop, prot⟩, ?_, Nat.le_of_lt hlt⟩
    rw [mergeFrom, if_neg hjoin, hleft]
    exact List.mem_append_right _ (List.mem_cons_of_mem _ List.mem_cons_self)
  have htaken : mergeFrom last (⟨a.vmStart, stop, prot⟩ :: { a with vmStart := stop } :: rest) =
      { last with vmEnd := stop } :: mergeFrom { a with vmStart := stop } rest := by
    rw [mergeFrom, if_pos hjoin, mergeFrom, if_neg fun h => hf (h.2.symm.trans hjoin.2)]
  rw [htaken]
  by_cases hrev : stop ≤ last.vmStart
  · exact .inl ⟨_, List.mem_append_right _ List.mem_cons_self, hrev⟩
  -- the start of what is left of `a` had the flags asked for
  right
  obtain ⟨hchain, hsame, -⟩ := mergeAll_spec hc.front
  rw [hpre] at hchain hsame
  have hwas : valueAt (pre' ++ [p]) stop = some prot := by
    have hin : valueAt (init ++ [last]) stop = some last.accessFlags :=
      hchain.valueAt_mem (List.mem_append_right _ List.mem_cons_self) (by simp only [lo_eq, hi_eq]; omega)
    rw [← hjoin.2, ← hin]
    exact (hsame stop).symm
  have hnow : valueAt (mergeFrom { a with vmStart := stop } rest) stop = some a.accessFlags := by
    have hend : 4096 ∣ a.vmEnd := (hc.forall_mem a (List.mem_append_right _ List.mem_cons_self)).2.2.2.2
    have hcut : Areas stop ({ a with vmStart := stop } :: rest) := ⟨Nat.le_refl stop, h2, hs, hend, hc.drop⟩
    refine ((mergeFrom_spec hcut).2.1 stop).trans (valueAt_head ⟨Nat.le_refl stop, h2⟩)
  unfold protAt
  rw [valueAt_append, hchain.valueAt_front (by simp only [lo_eq]; omega), Option.none_or,
    valueAt_tail (by simp only [lo_eq, hi_eq]; omega), hnow, valueAt_append, hwas]
  exact fun h => hf (Option.some.inj h)

end

/-! ### vm_area_mprotect -/

section
variable {areas pre rest : List VmArea} {a : VmArea} {addr stop b n : Nat} {length : Int} {prot : UInt32}

/-- The address lies in no area. -/
theorem protectAreas_missed (hout : ∀ a ∈ areas, ¬ (a.vmStart ≤ addr ∧ addr < a.vmEnd)) :
    (protectAreas areas addr length prot).2.1 = areas := by
  unfold protectAreas
  split
  · rfl
  simp only
  split
  · rfl
  cases areas with
  | nil => rfl
  | cons first more =>
    simp only
    split
    · rfl
    split
    · rfl
    rename_i hcheck
    obtain ⟨a, hmem, hin⟩ := checkFrom_mem (by simp) (not_not.mp hcheck)
    exact absurd hin (hout a hmem)

/-- The list goes on to the area the address lies in. -/
theorem first_le {next : VmArea} {more : List VmArea} (hc : Areas b (pre ++ a :: rest)) (h1 : a.vmStart ≤ addr)
    (he : pre ++ a :: rest = next :: more) : next.vmStart ≤ addr := by
  cases pre with
  | nil =>
    cases he
    exact h1
  | cons q pre =>
    have hq := before_of_areas hc h1 q List.mem_cons_self
    cases he
    exact Nat.le_of_lt (hq.1.trans_le hq.2)

/-- A range that ends in the area it starts in passes the check. -/
theorem checkFrom_inside (hc : Areas b (pre ++ a :: rest)) (h1 : a.vmStart ≤ addr) (h2 : addr < a.vmEnd) (hs : stop ≤ a.vmEnd) :
    checkFrom addr stop (pre ++ a :: rest) = true := by
  induction pre generalizing b with
  | nil =>
    unfold checkFrom
    simp only [List.nil_append]
    rw [if_pos ⟨h1, h2⟩, if_pos hs]
  | cons p pre ih =>
    have hp : p.vmEnd ≤ addr := (before_of_areas hc h1 p List.mem_cons_self).2
    have hrest := ih hc.tail
    obtain ⟨next, more, hnext⟩ := List.exists_cons_of_ne_nil (List.append_ne_nil_of_right_ne_nil pre (List.cons_ne_nil a rest))
    have hle := first_le hc.tail h1 hnext
    rw [hnext] at hrest
    rw [List.cons_append, hnext, checkFrom, if_neg (by omega), if_neg (Nat.not_lt.mpr hle)]
    exact hrest

theorem protectAreas_met (prot : UInt32) (hc : Areas b (pre ++ a :: rest)) (h1 : a.vmStart ≤ addr) (h2 : addr < a.vmEnd)
    (hin : MMAP_AREA_START ≤ addr ∧ plus addr length ≤ MMAP_AREA_END) (h0 : pageRound length ≠ 0)
    (hstop : plus addr (pageRound length) = stop) (hs : stop ≤ a.vmEnd) :
    (protectAreas (pre ++ a :: rest) addr length prot).2.1 =
      if limit (pre ++ a :: rest).length addr stop prot (pre ++ a :: rest) = true then pre ++ a :: rest
      else mergeAll (pre ++ protectFrom addr stop prot (a :: rest)) := by
  have hcheck := checkFrom_inside hc h1 h2 hs
  rw [← protectFrom_skip (before_of_areas hc h1)]
  obtain ⟨first, more, hcons⟩ := List.exists_cons_of_ne_nil (List.append_ne_nil_of_right_ne_nil pre (List.cons_ne_nil a rest))
  have hle := first_le hc h1 hcons
  rw [hcons] at hcheck ⊢
  unfold protectAreas
  simp only [if_neg (not_not_intro hin), if_neg h0, hstop, if_neg (Nat.not_lt.mpr hle), if_neg (not_not_intro hcheck)]
  split <;> rfl

/-- A list with a reversed area in it, or another protection below the range. -/
theorem not_harmless_protect (stop : Nat) (h : (∃ c ∈ (protectAreas areas addr length prot).2.1, c.vmEnd ≤ c.vmStart) ∨
    (stop < addr ∧ protAt (protectAreas areas addr length prot).2.1 stop ≠ protAt areas stop)) :
    ¬ (Call.mprotect addr length prot).Harmless areas := by
  intro hh
  obtain ⟨hord, hrange⟩ := hh
  rcases h with ⟨c, hmem, hle⟩ | ⟨hlt, hne⟩
  · exact Nat.not_lt.mpr hle (hord.area c hmem)
  · rcases hrange with hsame | ⟨-, hacts⟩
    · exact hne (hsame stop)
    · have hx := hacts stop
      rw [if_neg (by omega)] at hx
      exact hne hx

theorem protectFrom_kept (h1 : a.vmStart ≤ addr) (h2 : addr < a.vmEnd) (hs : stop < a.vmEnd) (hf : a.accessFlags = prot) :
    protectFrom addr stop prot (a :: rest) = a :: rest := by
  unfold protectFrom
  simp only [if_pos hs, if_neg (not_not_intro hf)]
  split
  · rfl
  · rw [if_pos (by omega)]

/-- The area the address lies in decides. -/
theorem protect_judged (hw : Areas MMAP_AREA_START (pre ++ a :: rest)) (ha : 4096 ∣ addr) (h1 : a.vmStart ≤ addr) (h2 : addr < a.vmEnd)
    (hin : MMAP_AREA_START ≤ addr ∧ plus addr length ≤ MMAP_AREA_END) (hround : pageRound length = -(n : Int))
    (hn0 : n ≠ 0) (hn : n ≤ 2 ^ 31) (hnp : 4096 ∣ n) :
    (Call.mprotect addr length prot).Harmless (pre ++ a :: rest) ↔ a.accessFlags = prot ∨
      if addr = a.vmStart then (¬ ∃ p ∈ pre.getLast?, p.accessFlags = prot) ∧ 128 ≤ (pre ++ a :: rest).length
      else 127 ≤ (pre ++ a :: rest).length := by
  have hlow : 0x180200000 ≤ addr := hin.1
  have htop : a.vmEnd ≤ 0x7FE000000 := (hw.forall_mem a (List.mem_append_right _ List.mem_cons_self)).2.2.1
  have hstop : plus addr (pageRound length) = addr - n := by
    rw [hround]
    exact plus_neg (by omega) (by omega)
  have hrun := protectAreas_met prot hw h1 h2 hin (by omega) hstop (by omega)
  have hlt : addr - n < a.vmEnd := by omega
  by_cases hf : a.accessFlags = prot
  · refine iff_of_true (.of_same (b := MMAP_AREA_START) ?_) (.inl hf)
    show Same _ _ (protectAreas (pre ++ a :: rest) addr length prot).2.1
    rw [hrun, protectFrom_kept h1 h2 hlt hf]
    split
    · exact .refl hw
    · obtain ⟨hchain, hsame, -⟩ := mergeAll_spec hw
      exact ⟨hchain, hsame⟩
  rw [or_iff_right hf]
  have hpre := before_of_areas hw h1
  have hpast : ∀ c ∈ rest, addr < c.vmStart := fun c hmem => h2.trans_le (hw.drop.forall_mem c hmem).1
  by_cases hst : addr = a.vmStart
  · have hlim := limit_lower hpre h1 h2 hpast hf hst hlt
    rw [if_pos hst, ← hlim]
    by_cases hfull : limit (pre ++ a :: rest).length addr (addr - n) prot (pre ++ a :: rest) = true
    · rw [if_pos hfull] at hrun
      exact iff_of_true (.of_eq hw hrun) hfull
    · rw [if_neg hfull, protectFrom_lower hst hlt hf, hst] at hrun
      refine iff_of_false (not_harmless_protect (a.vmStart - n) ?_) hfull
      subst hst
      rw [hrun]
      refine (reversed_lower hw (by omega) (Nat.dvd_sub ha hnp) (by omega) hf).imp_right fun h => ⟨by omega, h⟩
  · have hst' : a.vmStart < addr := by omega
    have hlim := limit_middle hpre h1 h2 hpast hf hst' hlt
    rw [if_neg hst, ← hlim]
    by_cases hfull : limit (pre ++ a :: rest).length addr (addr - n) prot (pre ++ a :: rest) = true
    · rw [if_pos hfull] at hrun
      exact iff_of_true (.of_eq hw hrun) hfull
    · rw [if_neg hfull, protectFrom_middle hst' h2 hlt hf] at hrun
      exact iff_of_false (not_harmless_protect addr (.inl ⟨_, hrun ▸ reversed_middle hf, Nat.sub_le addr n⟩)) hfull

end

section
variable {areas : List VmArea} {addr : Nat} {length : Int} {prot : UInt32} (hw : Areas MMAP_AREA_START areas) (ha : 4096 ∣ addr)
include hw ha

theorem mprotect_harmless {n : Nat} (hround : pageRound length = -(n : Int)) (hn : n ≤ 2 ^ 31) (hnp : 4096 ∣ n)
    (hl : ¬ Promised length) :
    (Call.mprotect addr length prot).Harmless areas ↔ (Call.mprotect addr length prot).Spared areas := by
  refine Iff.trans ?_ (or_iff_right hl).symm
  by_cases hn0 : pageRound length = 0
  · refine iff_of_true (.of_eq hw ?_) (.inl hn0)
    show (protectAreas areas addr length prot).2.1 = areas
    unfold protectAreas
    simp only [if_pos hn0]
    split <;> rfl
  rw [or_iff_right hn0]
  have hn0' : n ≠ 0 := by omega
  by_cases hin : MMAP_AREA_START ≤ addr ∧ plus addr length ≤ MMAP_AREA_END
  · rw [or_iff_right (Nat.not_lt.mpr hin.2)]
    constructor
    · rintro hh pre a rest rfl h1 h2
      exact (protect_judged hw ha h1 h2 hin hround hn0' hn hnp).mp hh
    · intro hall
      by_cases hmet : ∃ a ∈ areas, a.vmStart ≤ addr ∧ addr < a.vmEnd
      · obtain ⟨a, hmem, h1, h2⟩ := hmet
        obtain ⟨pre, rest, rfl⟩ := List.append_of_mem hmem
        exact (protect_judged hw ha h1 h2 hin hround hn0' hn hnp).mpr (hall pre a rest rfl h1 h2)
      · exact .of_eq hw (protectAreas_missed fun a hmem h => hmet ⟨a, hmem, h⟩)
  · refine iff_of_true (.of_eq hw ?_) ?_
    · show (protectAreas areas addr length prot).2.1 = areas
      unfold protectAreas
      rw [if_pos hin]
    · by_cases hlow : MMAP_AREA_START ≤ addr
      · exact .inl (Nat.lt_of_not_le fun h => hin ⟨hlow, h⟩)
      · right
        rintro pre a rest rfl h1 -
        have hstart : MMAP_AREA_START ≤ a.vmStart := (hw.forall_mem a (List.mem_append_right _ List.mem_cons_self)).1
        omega

end

/-! ## Any length -/

end Cs330.Vm
