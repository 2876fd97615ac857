/-
  Cs330.Vm.Limit — the limit of 128 areas.

  mmap and munmap look at the number of areas before they make one. mprotect foresees how many
  its two passes will leave: splitting makes up to two, and the merging pass joins those that
  touch and agree (`pieces`). Where it splits one area at the start or the end of the range and
  the neighbour there has the new protection, it reckons with a merge, though the neighbour may
  not touch (`Slips`): then 128 areas become 129 (`one_area_too_many`).

  Proved: `limit_kept`, over all runs in which no mprotect slips; there a refusal for the limit
  is never needless.
-/
import Cs330.Vm.Calls

namespace Cs330.Vm

open Lib Lib.Seg

variable {areas areas' pre rest more : List VmArea} {a c t prev : VmArea} {addr stop cnt b : Nat} {length : Int}
  {prot flags : UInt32}

/-! ## The merging pass -/

theorem mergeFrom_length (prev : VmArea) (areas : List VmArea) : (mergeFrom prev areas).length = pieces (prev :: areas) := by
  induction areas generalizing prev with
  | nil => rfl
  | cons curr rest ih =>
    unfold mergeFrom
    rw [pieces_cons]
    simp only [hi_eq, lo_eq, val_eq]
    split
    · rename_i h
      rw [ih, Nat.zero_add]
      exact pieces_congr rfl h.2
    · rw [List.length_cons, ih, Nat.add_comm]

theorem mergeAll_length (areas : List VmArea) : (mergeAll areas).length = pieces areas := by
  cases areas with
  | nil => rfl
  | cons prev rest => exact mergeFrom_length prev rest

/-! ## Where the range starts -/

/-- The areas in front of the range. -/
def Before (addr : Nat) (pre : List VmArea) : Prop := ∀ p ∈ pre, p.vmStart < p.vmEnd ∧ p.vmEnd ≤ addr

theorem Before.head (h : Before addr (a :: pre)) : ¬ addr = a.vmStart ∧ ¬ addr < a.vmStart ∧ ¬ addr < a.vmEnd := by
  have ha := h a List.mem_cons_self
  omega

theorem Before.tail (h : Before addr (a :: pre)) : Before addr pre := fun p hp => h p (List.mem_cons_of_mem a hp)

theorem checkFrom_locate (hc : Areas b (a :: rest)) (hfirst : a.vmStart ≤ addr) (h : checkFrom addr stop (a :: rest) = true) :
    ∃ pre c more, a :: rest = pre ++ c :: more ∧ Before addr pre ∧ c.vmStart ≤ addr ∧ addr < c.vmEnd ∧
      (stop ≤ c.vmEnd ∨ checkIn c stop more = true) := by
  induction rest generalizing a b with
  | nil =>
    unfold checkFrom at h
    split at h
    · rename_i hin
      refine ⟨[], a, [], rfl, fun p hp => absurd hp List.not_mem_nil, hin.1, hin.2, ?_⟩
      split at h
      · rename_i hs
        exact .inl hs
      · exact .inr h
    · cases h
  | cons next rest ih =>
    unfold checkFrom at h
    split at h
    · rename_i hin
      refine ⟨[], a, next :: rest, rfl, fun p hp => absurd hp List.not_mem_nil, hin.1, hin.2, ?_⟩
      split at h
      · rename_i hs
        exact .inl hs
      · exact .inr h
    · rename_i hin
      simp only at h
      split at h
      · cases h
      rename_i hnext
      obtain ⟨pre, c, more, heq, hpre, hmem⟩ := ih hc.tail (Nat.le_of_not_lt hnext) h
      refine ⟨a :: pre, c, more, by rw [heq]; rfl, fun p hp => ?_, hmem⟩
      rcases List.mem_cons.mp hp with rfl | hp
      · exact ⟨hc.2.1, by omega⟩
      · exact hpre p hp

theorem protectFrom_skip (h : Before addr pre) (l : List VmArea) :
    protectFrom addr stop prot (pre ++ l) = pre ++ protectFrom addr stop prot l := by
  induction pre with
  | nil => rfl
  | cons p pre ih =>
    obtain ⟨h1, -, h3⟩ := h.head
    rw [List.cons_append, List.cons_append, ← ih h.tail]
    conv_lhs => unfold protectFrom
    rw [if_neg h1, if_neg fun hc => h3 hc.2]

theorem span_skip (h : Before addr pre) (l : List VmArea) : span addr stop (pre ++ l) = span addr stop l := by
  induction pre with
  | nil => rfl
  | cons p pre ih =>
    obtain ⟨-, h2, h3⟩ := h.head
    rw [List.cons_append, ← ih h.tail]
    conv_lhs => unfold span
    rw [if_neg h2, if_neg fun hc => h3 hc.2]

theorem limit1_skip (h : Before addr pre) (l : List VmArea) (prev : Option VmArea) :
    limit1 cnt addr stop prot prev (pre ++ l) = limit1 cnt addr stop prot (pre.getLast?.or prev) l := by
  induction pre generalizing prev with
  | nil => rfl
  | cons p pre ih =>
    obtain ⟨h1, -, h3⟩ := h.head
    rw [List.cons_append]
    conv_lhs => unfold limit1
    rw [if_neg h1, if_neg fun hc => h3 hc.2, ih h.tail]
    cases pre with
    | nil => rfl
    | cons q pre =>
      obtain ⟨z, hz⟩ : ∃ z, (q :: pre).getLast? = some z := ⟨_, List.getLast?_eq_some_getLast (List.cons_ne_nil q pre)⟩
      rw [List.getLast?_cons_cons, hz]
      rfl

theorem limit2_skip (h : Before addr pre) (l : List VmArea) :
    limit2 cnt addr stop prot (pre ++ l) = limit2 cnt addr stop prot l := by
  induction pre with
  | nil => rfl
  | cons p pre ih =>
    obtain ⟨h1, -, h3⟩ := h.head
    rw [List.cons_append, ← ih h.tail]
    conv_lhs => unfold limit2
    rw [if_neg h1, if_neg fun hc => h3 hc.2]

/-- Nothing behind the start of the range counts. -/
theorem limit1_past (h : ∀ c ∈ rest, addr < c.vmStart) (prev : Option VmArea) :
    limit1 cnt addr stop prot prev rest = false := by
  induction rest generalizing prev with
  | nil => rfl
  | cons c rest ih =>
    have hc := h c List.mem_cons_self
    unfold limit1
    rw [if_neg (Nat.ne_of_lt hc), if_neg fun hin => Nat.lt_asymm hc hin.1]
    exact ih (fun d hd => h d (List.mem_cons_of_mem c hd)) _

theorem limit2_past (h : ∀ c ∈ rest, addr < c.vmStart) : limit2 cnt addr stop prot rest = false := by
  induction rest with
  | nil => rfl
  | cons c rest ih =>
    have hc := h c List.mem_cons_self
    unfold limit2
    rw [if_neg (Nat.ne_of_lt hc), if_neg fun hin => Nat.lt_asymm hc hin.1]
    exact ih fun d hd => h d (List.mem_cons_of_mem c hd)

theorem span_in (h1 : a.vmStart ≤ addr) (h2 : addr < a.vmEnd) :
    span addr stop (a :: rest) = if stop ≤ a.vmEnd then 1 else span addr stop rest + 1 := by
  conv_lhs => unfold span
  rw [if_neg (Nat.not_lt.mpr h1), if_pos ⟨h1, h2⟩]

theorem span_next (h1 : addr < c.vmStart) (h2 : c.vmStart < stop) :
    span addr stop (c :: rest) = if stop ≤ c.vmEnd then 1 else span addr stop rest + 1 := by
  conv_lhs => unfold span
  rw [if_pos h1]
  by_cases hs : stop ≤ c.vmEnd
  · rw [if_pos ⟨h2, hs⟩, if_pos hs]
  · rw [if_neg fun hc => hs hc.2, if_neg hs, if_pos (by omega)]

/-! ## How many areas the new flags leave -/

/-- The areas behind the first one of the range: its last one may be split. -/
theorem protectIn_pieces (ht : t.accessFlags = prot) (hc : checkIn t stop rest = true) :
    pieces (t :: protectIn stop prot rest) ≤ rest.length + 1 ∧
      ∀ c more, rest = c :: more → c.accessFlags = prot ∨ c.vmEnd ≤ stop →
        pieces (t :: protectIn stop prot rest) ≤ rest.length := by
  induction rest generalizing t with
  | nil => exact ⟨Nat.le_refl 1, fun c more he => by cases he⟩
  | cons c rest ih =>
    unfold checkIn at hc
    split at hc
    · cases hc
    rename_i hadj
    have hadj : t.vmEnd = c.vmStart := (not_not.mp hadj).symm
    have hjoin : ∀ (d : VmArea) l, d.vmStart = c.vmStart → d.accessFlags = prot → pieces (t :: d :: l) = pieces (d :: l) := by
      intro d l hd hf
      rw [pieces_cons]
      simp only [hi_eq, lo_eq, val_eq]
      rw [if_pos ⟨hadj.trans hd.symm, ht.trans hf.symm⟩, Nat.zero_add]
    unfold protectIn
    by_cases hlt : stop < c.vmEnd
    · rw [if_pos hlt]
      by_cases hf : c.accessFlags = prot
      · have hle : pieces (t :: c :: rest) ≤ rest.length + 1 := by
          rw [hjoin c rest rfl hf]
          exact pieces_le (c :: rest)
        rw [if_neg (not_not.mpr hf)]
        exact ⟨Nat.le_succ_of_le hle, fun _ _ _ _ => hle⟩
      · rw [if_pos hf, hjoin ⟨c.vmStart, stop, prot⟩ _ rfl rfl]
        refine ⟨pieces_le _, fun d more he hor => ?_⟩
        cases he
        exact absurd hor (not_or.mpr ⟨hf, Nat.not_le.mpr hlt⟩)
    · rw [if_neg hlt]
      have hle : pieces (t :: (if stop = c.vmEnd then { c with accessFlags := prot } :: rest
          else { c with accessFlags := prot } :: protectIn stop prot rest)) ≤ rest.length + 1 := by
        by_cases he : stop = c.vmEnd
        · rw [if_pos he, hjoin { c with accessFlags := prot } _ rfl rfl]
          exact pieces_le (_ :: rest)
        · rw [if_neg he, hjoin { c with accessFlags := prot } _ rfl rfl]
          rw [if_neg (by omega)] at hc
          split at hc
          · cases hc
          refine (ih rfl ?_).1
          cases rest with
          | nil => rfl
          | cons d rest => exact hc
      exact ⟨Nat.le_succ_of_le hle, fun _ _ _ _ => hle⟩

theorem pieces_apart {a c : VmArea} (h : ¬ (a.vmEnd = c.vmStart ∧ a.accessFlags = c.accessFlags)) :
    pieces (a :: c :: rest) = pieces (c :: rest) + 1 := by
  have hcons := pieces_cons a c rest
  simp only [hi_eq, lo_eq, val_eq] at hcons
  rw [hcons, if_neg h, Nat.add_comm]

theorem pieces_join {a c : VmArea} (h : a.vmEnd = c.vmStart ∧ a.accessFlags = c.accessFlags) :
    pieces (a :: c :: rest) = pieces (c :: rest) := by
  have hcons := pieces_cons a c rest
  simp only [hi_eq, lo_eq, val_eq] at hcons
  rw [hcons, if_pos h, Nat.zero_add]

/-- An area that is cut counts like the whole one: behind where its end stays, in front where its start does. -/
theorem pieces_cut (a : VmArea) (start : Nat) : pieces ({ a with vmStart := start } :: rest) = pieces (a :: rest) :=
  pieces_congr rfl rfl

theorem pieces_cut_last (a : VmArea) (stop : Nat) : pieces (pre ++ [{ a with vmEnd := stop }]) = pieces (pre ++ [a]) := by
  rw [pieces_snoc, pieces_snoc]
  rfl

section
variable (hm : Merged (pre ++ a :: rest)) (hf : a.accessFlags ≠ prot)
include hm hf

/-- An area whose lower part changes. -/
theorem pieces_lower (stop : Nat) (haddr : addr = a.vmStart) (P : Prop)
    (hP : P ↔ ∃ p ∈ pre.getLast?, p.vmEnd = a.vmStart ∧ p.accessFlags = prot) :
    (P → pieces (pre ++ ⟨addr, stop, prot⟩ :: { a with vmStart := stop } :: rest) = pre.length + rest.length + 1) ∧
      (¬ P → pieces (pre ++ ⟨addr, stop, prot⟩ :: { a with vmStart := stop } :: rest) = pre.length + rest.length + 2) := by
  obtain ⟨h0, -, h2⟩ := pieces_split hm
  have happ := pieces_append pre (⟨addr, stop, prot⟩ : VmArea) ({ a with vmStart := stop } :: rest)
  have hsnoc := pieces_snoc pre (⟨addr, stop, prot⟩ : VmArea)
  have hrest : pieces ((⟨addr, stop, prot⟩ : VmArea) :: { a with vmStart := stop } :: rest) = rest.length + 2 := by
    rw [pieces_apart fun ht => hf ht.2.symm, pieces_cut, h2]
  simp only [hi_eq, lo_eq, val_eq, haddr] at hsnoc happ hrest ⊢
  constructor
  · intro hp
    rw [if_pos (hP.mp hp)] at hsnoc
    omega
  · intro hp
    rw [if_neg fun hc => hp (hP.mpr hc)] at hsnoc
    omega

/-- An area whose upper part changes. -/
theorem pieces_upper (addr : Nat) (P : Prop) (hP : P ↔ ∃ n ∈ rest.head?, a.vmEnd = n.vmStart ∧ n.accessFlags = prot) :
    (P → pieces (pre ++ { a with vmEnd := addr } :: ⟨addr, a.vmEnd, prot⟩ :: rest) = pre.length + rest.length + 1) ∧
      (¬ P → pieces (pre ++ { a with vmEnd := addr } :: ⟨addr, a.vmEnd, prot⟩ :: rest) = pre.length + rest.length + 2) := by
  obtain ⟨-, h1, h2⟩ := pieces_split hm
  have happ := pieces_append pre { a with vmEnd := addr } ((⟨addr, a.vmEnd, prot⟩ : VmArea) :: rest)
  rw [pieces_cut_last, h1, pieces_apart fun ht => hf ht.2] at happ
  have hnext : (P → pieces ((⟨addr, a.vmEnd, prot⟩ : VmArea) :: rest) = rest.length) ∧
      (¬ P → pieces ((⟨addr, a.vmEnd, prot⟩ : VmArea) :: rest) = rest.length + 1) := by
    cases rest with
    | nil =>
      refine ⟨fun hp => ?_, fun _ => rfl⟩
      obtain ⟨n, hn, -⟩ := hP.mp hp
      cases hn
    | cons n rest =>
      have hrest := (pieces_split (l := pre ++ [a]) (by rw [List.append_assoc]; exact hm)).2.2
      refine ⟨fun hp => ?_, fun hp => ?_⟩
      · obtain ⟨m, hmem, ht⟩ := hP.mp hp
        cases hmem
        exact (pieces_join (a := ⟨addr, a.vmEnd, prot⟩) ⟨ht.1, ht.2.symm⟩).trans hrest
      · rw [pieces_apart (a := ⟨addr, a.vmEnd, prot⟩) fun ht => hp (hP.mpr ⟨n, rfl, ht.1, ht.2.symm⟩), hrest]
        rfl
  refine ⟨fun hp => ?_, fun hp => ?_⟩
  · have hr := hnext.1 hp
    omega
  · have hr := hnext.2 hp
    omega

/-- An area of which a part in the middle changes. -/
theorem pieces_middle : pieces (pre ++ { a with vmEnd := addr } :: ⟨addr, stop, prot⟩ :: ⟨stop, a.vmEnd, a.accessFlags⟩ :: rest) =
    pre.length + rest.length + 3 := by
  obtain ⟨-, h1, h2⟩ := pieces_split hm
  have happ := pieces_append pre { a with vmEnd := addr }
    ((⟨addr, stop, prot⟩ : VmArea) :: ⟨stop, a.vmEnd, a.accessFlags⟩ :: rest)
  rw [pieces_cut_last, h1, pieces_apart fun ht => hf ht.2, pieces_apart fun ht => hf ht.2.symm,
    pieces_cut a stop, h2] at happ
  omega

/-- The upper part of an area changes, and the lower part of the next. -/
theorem pieces_across (addr stop : Nat) (hrest : rest = c :: more) (hadj : a.vmEnd = c.vmStart) (hc : c.accessFlags ≠ prot) :
    pieces (pre ++ { a with vmEnd := addr } :: ⟨addr, a.vmEnd, prot⟩ :: ⟨c.vmStart, stop, prot⟩ :: { c with vmStart := stop } :: more) =
      pre.length + rest.length + 2 := by
  obtain ⟨-, h1, -⟩ := pieces_split hm
  have hm' : Merged ((pre ++ [a]) ++ c :: more) := by rw [List.append_assoc, ← hrest]; exact hm
  have hnext := (pieces_split hm').2.2
  have happ := pieces_append pre { a with vmEnd := addr }
    ((⟨addr, a.vmEnd, prot⟩ : VmArea) :: ⟨c.vmStart, stop, prot⟩ :: { c with vmStart := stop } :: more)
  rw [pieces_cut_last, h1, pieces_apart fun ht => hf ht.2, pieces_join (a := ⟨addr, a.vmEnd, prot⟩)
    (c := ⟨c.vmStart, stop, prot⟩) ⟨hadj, rfl⟩,
    pieces_apart fun ht => hc ht.2.symm, pieces_cut c stop, hnext] at happ
  rw [hrest, List.length_cons]
  omega

end

/-- With 128 areas, one area is split at an end of the range, and the neighbour there has the new protection but
    does not touch. -/
def Slips (areas : List VmArea) (addr stop : Nat) (prot : UInt32) : Prop :=
  128 ≤ areas.length ∧ ∃ pre a rest, areas = pre ++ a :: rest ∧ a.accessFlags ≠ prot ∧
    ((addr = a.vmStart ∧ stop < a.vmEnd ∧ ∃ p ∈ pre.getLast?, p.accessFlags = prot ∧ p.vmEnd ≠ a.vmStart) ∨
      (a.vmStart < addr ∧ stop = a.vmEnd ∧ ∃ n ∈ rest.head?, n.accessFlags = prot ∧ a.vmEnd ≠ n.vmStart))

section
variable (hpre : Before addr pre) (h1 : a.vmStart ≤ addr) (h2 : addr < a.vmEnd)
include hpre h1 h2

/-- The look at the limit, with one or more areas in the range. -/
theorem limit_one (h : stop ≤ a.vmEnd ∨ span addr stop rest = 0) : limit (pre ++ a :: rest).length addr stop prot (pre ++ a :: rest) =
    limit1 (pre ++ a :: rest).length addr stop prot pre.getLast? (a :: rest) := by
  have hspan : span addr stop (pre ++ a :: rest) = 1 := by
    rw [span_skip hpre, span_in h1 h2]
    split
    · rfl
    · rename_i hs
      rw [h.resolve_left hs]
  unfold limit
  rw [if_pos hspan, limit1_skip hpre, Option.or_none]

theorem limit_two (h : a.vmEnd < stop) (hone : span addr stop rest = 1) :
    limit (pre ++ a :: rest).length addr stop prot (pre ++ a :: rest) =
      limit2 (pre ++ a :: rest).length addr stop prot (a :: rest) := by
  have hspan : span addr stop (pre ++ a :: rest) = 2 := by
    rw [span_skip hpre, span_in h1 h2, if_neg (Nat.not_le.mpr h), hone]
  unfold limit
  rw [if_neg (by omega), if_pos hspan, limit2_skip hpre]

end

theorem any_flags {o : Option VmArea} : o.any (fun p => prot = p.accessFlags) = true ↔ ∃ p ∈ o, p.accessFlags = prot := by
  rw [Option.any_eq_true]
  exact exists_congr fun p => and_congr_right fun _ => decide_eq_true_iff.trans eq_comm

theorem refuses_iff {m n : Nat} : (if m ≤ n then true else false) = true ↔ m ≤ n := by simp

/-- Where the range ends, when it makes an area more of one with other flags: of the first one it meets, `a`, it
    takes a part that is not all of it, or it goes on into the next one. -/
inductive Splits (a : VmArea) (rest : List VmArea) (addr stop : Nat) (prot : UInt32) : Prop
  | lower : addr = a.vmStart → stop < a.vmEnd → Splits a rest addr stop prot
  | middle : a.vmStart < addr → stop < a.vmEnd → Splits a rest addr stop prot
  | upper : a.vmStart < addr → stop = a.vmEnd → Splits a rest addr stop prot
  | behind : a.vmStart < addr → a.vmEnd < stop → rest = [] → Splits a rest addr stop prot
  | across {c : VmArea} {more : List VmArea} : a.vmStart < addr → a.vmEnd < stop → rest = c :: more → a.vmEnd = c.vmStart →
      stop < c.vmEnd → c.accessFlags ≠ prot → Splits a rest addr stop prot

section
variable (hpre : Before addr pre) (h1 : a.vmStart ≤ addr) (h2 : addr < a.vmEnd) (hpast : ∀ c ∈ rest, addr < c.vmStart)
  (hf : a.accessFlags ≠ prot)
include hpre h1 h2 hpast hf

/-! ## What the look at the limit finds -/

theorem limit_lower (hst : addr = a.vmStart) (hlt : stop < a.vmEnd) :
    limit (pre ++ a :: rest).length addr stop prot (pre ++ a :: rest) = true ↔
      (¬ ∃ p ∈ pre.getLast?, p.accessFlags = prot) ∧ 128 ≤ (pre ++ a :: rest).length := by
  rw [limit_one hpre h1 h2 (.inl (Nat.le_of_lt hlt))]
  unfold limit1
  rw [if_pos hst, if_neg (Nat.ne_of_lt hlt), limit1_past hpast]
  by_cases hp : ∃ p ∈ pre.getLast?, p.accessFlags = prot
  · rw [if_pos (.inr (any_flags.mpr hp))]
    exact iff_of_false Bool.false_ne_true fun h => h.1 hp
  · rw [if_neg (not_or.mpr ⟨hf, fun h => hp (any_flags.mp h)⟩)]
    exact refuses_iff.trans (and_iff_right hp).symm

theorem limit_middle (hst : a.vmStart < addr) (hlt : stop < a.vmEnd) :
    limit (pre ++ a :: rest).length addr stop prot (pre ++ a :: rest) = true ↔ 127 ≤ (pre ++ a :: rest).length := by
  rw [limit_one hpre h1 h2 (.inl (Nat.le_of_lt hlt))]
  unfold limit1
  rw [if_neg (Nat.ne_of_gt hst), if_pos ⟨hst, h2⟩, if_neg (Nat.ne_of_lt hlt), if_neg hf, limit1_past hpast]
  exact refuses_iff

theorem limit_upper (hst : a.vmStart < addr) (he : stop = a.vmEnd) :
    limit (pre ++ a :: rest).length addr stop prot (pre ++ a :: rest) = true ↔
      (¬ ∃ n ∈ rest.head?, n.accessFlags = prot) ∧ 128 ≤ (pre ++ a :: rest).length := by
  rw [limit_one hpre h1 h2 (.inl (Nat.le_of_eq he))]
  unfold limit1
  rw [if_neg (Nat.ne_of_gt hst), if_pos ⟨hst, h2⟩, if_pos he, limit1_past hpast]
  by_cases hp : ∃ n ∈ rest.head?, n.accessFlags = prot
  · rw [if_pos (.inr (any_flags.mpr hp))]
    exact iff_of_false Bool.false_ne_true fun h => h.1 hp
  · rw [if_neg (not_or.mpr ⟨hf, fun h => hp (any_flags.mp h)⟩)]
    exact refuses_iff.trans (and_iff_right hp).symm

/-- The range goes on behind the last area. -/
theorem limit_behind (hst : a.vmStart < addr) (hlt : a.vmEnd < stop) (hnil : rest = []) :
    limit (pre ++ a :: rest).length addr stop prot (pre ++ a :: rest) = true ↔ 127 ≤ (pre ++ a :: rest).length := by
  rw [limit_one hpre h1 h2 (.inr (by rw [hnil]; rfl))]
  unfold limit1
  rw [if_neg (Nat.ne_of_gt hst), if_pos ⟨hst, h2⟩, if_neg (Nat.ne_of_gt hlt), if_neg hf, limit1_past hpast]
  exact refuses_iff

theorem limit_across (hst : a.vmStart < addr) (hlt : a.vmEnd < stop) (hrest : rest = c :: more) (hadj : a.vmEnd = c.vmStart)
    (hstop : stop < c.vmEnd) (hcf : c.accessFlags ≠ prot) :
    limit (pre ++ a :: rest).length addr stop prot (pre ++ a :: rest) = true ↔ 128 ≤ (pre ++ a :: rest).length := by
  have hspan : span addr stop rest = 1 := by
    rw [hrest, span_next (by omega) (by omega), if_pos (Nat.le_of_lt hstop)]
  have hend : stop ≠ c.vmEnd := Nat.ne_of_lt hstop
  rw [limit_two hpre h1 h2 hlt hspan]
  unfold limit2
  rw [if_neg (Nat.ne_of_gt hst), if_pos ⟨hst, h2⟩, limit2_past hpast]
  simp [hrest, hend, hf, hcf]

omit hf

/-- Only a range that splits an area is refused. -/
theorem splits_of_limit (hcheck : stop ≤ a.vmEnd ∨ checkIn a stop rest = true)
    (hfull : rest = [] → stop ≤ a.vmEnd) (hlim : limit (pre ++ a :: rest).length addr stop prot (pre ++ a :: rest) = true) :
    a.accessFlags ≠ prot ∧ Splits a rest addr stop prot := by
  by_cases hs : stop ≤ a.vmEnd
  · rw [limit_one hpre h1 h2 (.inl hs)] at hlim
    unfold limit1 at hlim
    rw [limit1_past hpast] at hlim
    by_cases hst : addr = a.vmStart
    · rw [if_pos hst] at hlim
      split at hlim
      · cases hlim
      rename_i hend
      split at hlim
      · cases hlim
      rename_i hor
      exact ⟨fun hf => hor (.inl hf), .lower hst (by omega)⟩
    · have hin : a.vmStart < addr := by omega
      rw [if_neg hst, if_pos ⟨hin, h2⟩] at hlim
      split at hlim
      · rename_i hend
        split at hlim
        · cases hlim
        rename_i hor
        exact ⟨fun hf => hor (.inl hf), .upper hin hend⟩
      · rename_i hend
        split at hlim
        · cases hlim
        rename_i hf
        exact ⟨hf, .middle hin (by omega)⟩
  have hlt : a.vmEnd < stop := Nat.lt_of_not_le hs
  have hck := hcheck.resolve_left hs
  cases rest with
  | nil => exact absurd (hfull rfl) hs
  | cons c more =>
    unfold checkIn at hck
    split at hck
    · cases hck
    rename_i hadj
    have hadj : a.vmEnd = c.vmStart := (not_not.mp hadj).symm
    have hspan : span addr stop (c :: more) = if stop ≤ c.vmEnd then 1 else span addr stop more + 1 :=
      span_next (by omega) (by omega)
    by_cases hcs : stop ≤ c.vmEnd
    · rw [if_pos hcs] at hspan
      rw [limit_two hpre h1 h2 hlt hspan] at hlim
      unfold limit2 at hlim
      rw [limit2_past hpast] at hlim
      split at hlim
      · cases hlim
      rename_i hst
      have hin : a.vmStart < addr := by omega
      simp only [if_pos (And.intro hin h2), List.head?_cons, Option.any_some, decide_eq_true_eq] at hlim
      split at hlim
      · cases hlim
      rename_i hend
      split at hlim
      · cases hlim
      rename_i hor
      obtain ⟨hf, hcf⟩ := not_or.mp hor
      exact ⟨hf, .across hin hlt rfl hadj (by omega) hcf⟩
    · -- a third area is met
      rw [if_neg hcs] at hck
      split at hck
      · cases hck
      rename_i hne
      obtain ⟨d, more, rfl⟩ := List.exists_cons_of_ne_nil hne
      unfold checkIn at hck
      split at hck
      · cases hck
      rename_i hadj2
      have hadj2 : c.vmEnd = d.vmStart := (not_not.mp hadj2).symm
      have hlow := hpast d (List.mem_cons_of_mem c List.mem_cons_self)
      have hspan2 : span addr stop (d :: more) = if stop ≤ d.vmEnd then 1 else span addr stop more + 1 :=
        span_next hlow (by omega)
      have hthree : 3 ≤ span addr stop (pre ++ a :: c :: d :: more) := by
        rw [span_skip hpre, span_in h1 h2, if_neg hs, hspan, if_neg hcs, hspan2]
        split <;> omega
      unfold limit at hlim
      rw [if_neg (by omega), if_neg (by omega)] at hlim
      cases hlim

end

/-! ## What the pass that splits makes -/

/-- The area just split off, where the walk goes on. -/
theorem protectIn_past (hlt : a.vmEnd < stop) :
    protectIn stop prot (⟨addr, a.vmEnd, prot⟩ :: rest) = ⟨addr, a.vmEnd, prot⟩ :: protectIn stop prot rest := by
  conv_lhs => unfold protectIn
  rw [if_neg (Nat.lt_asymm hlt), if_neg (Nat.ne_of_gt hlt)]

/-- Where the range splits no area with other flags, the first one it meets is followed by no more than before. -/
theorem protectFrom_same (h1 : a.vmStart ≤ addr) (h2 : addr < a.vmEnd) (hcheck : stop ≤ a.vmEnd ∨ checkIn a stop rest = true)
    (hno : a.accessFlags ≠ prot → ¬ Splits a rest addr stop prot) :
    ∃ x l, protectFrom addr stop prot (a :: rest) = x :: l ∧ pieces (x :: l) ≤ rest.length + 1 := by
  unfold protectFrom
  by_cases hst : addr = a.vmStart
  · rw [if_pos hst]
    by_cases hlt : stop < a.vmEnd
    · rw [if_pos hlt, if_neg fun hf => hno hf (.lower hst hlt)]
      exact ⟨_, _, rfl, pieces_le (a :: rest)⟩
    rw [if_neg hlt]
    by_cases he : stop = a.vmEnd
    · rw [if_pos he]
      exact ⟨_, _, rfl, pieces_le (_ :: rest)⟩
    · rw [if_neg he]
      refine ⟨_, _, rfl, (protectIn_pieces rfl ?_).1⟩
      have hck := hcheck.resolve_left (by omega)
      cases rest with
      | nil => rfl
      | cons d rest => exact hck
  have hin : a.vmStart < addr := by omega
  rw [if_neg hst, if_pos ⟨hin, h2⟩]
  by_cases hlt : stop < a.vmEnd
  · rw [if_pos hlt, if_neg fun hf => hno hf (.middle hin hlt)]
    exact ⟨_, _, rfl, pieces_le (a :: rest)⟩
  rw [if_neg hlt]
  by_cases he : stop = a.vmEnd
  · rw [if_pos he, if_neg fun hf => hno hf (.upper hin he)]
    exact ⟨_, _, rfl, pieces_le (a :: rest)⟩
  rw [if_neg he]
  have hgt : a.vmEnd < stop := by omega
  have hck := hcheck.resolve_left (by omega)
  by_cases hf : a.accessFlags = prot
  · rw [if_neg (not_not.mpr hf)]
    exact ⟨_, _, rfl, (protectIn_pieces hf hck).1⟩
  rw [if_pos hf]
  refine ⟨_, _, rfl, ?_⟩
  rw [protectIn_past hgt]
  cases rest with
  | nil => exact absurd (.behind hin hgt rfl) (hno hf)
  | cons c more =>
    have hck' : checkIn ⟨addr, a.vmEnd, prot⟩ stop (c :: more) = true := hck
    unfold checkIn at hck
    split at hck
    · cases hck
    rename_i hadj
    have hadj : a.vmEnd = c.vmStart := (not_not.mp hadj).symm
    have hor : c.accessFlags = prot ∨ c.vmEnd ≤ stop := by
      by_contra hno'
      obtain ⟨hcf, hcs⟩ := not_or.mp hno'
      exact hno hf (.across hin hgt rfl hadj (Nat.lt_of_not_le hcs) hcf)
    have hle : pieces ((⟨addr, a.vmEnd, prot⟩ : VmArea) :: protectIn stop prot (c :: more)) ≤ (c :: more).length :=
      (protectIn_pieces rfl hck').2 c more rfl hor
    have happ := pieces_append_le [{ a with vmEnd := addr }] ⟨addr, a.vmEnd, prot⟩ (protectIn stop prot (c :: more))
    simp only [List.length_singleton, List.singleton_append] at happ
    omega

/-- The upper part of the first area and what follows. -/
theorem protectFrom_in (hst : a.vmStart < addr) (h2 : addr < a.vmEnd) (hlt : a.vmEnd < stop) (hf : a.accessFlags ≠ prot) :
    protectFrom addr stop prot (a :: rest) = { a with vmEnd := addr } :: ⟨addr, a.vmEnd, prot⟩ :: protectIn stop prot rest := by
  unfold protectFrom
  rw [if_neg (Nat.ne_of_gt hst), if_pos ⟨hst, h2⟩, if_neg (Nat.lt_asymm hlt), if_neg (Nat.ne_of_gt hlt), if_pos hf, protectIn_past hlt]

theorem protectIn_cut (hlt : stop < c.vmEnd) (hf : c.accessFlags ≠ prot) :
    protectIn stop prot (c :: more) = ⟨c.vmStart, stop, prot⟩ :: { c with vmStart := stop } :: more := by
  conv_lhs => unfold protectIn
  rw [if_pos hlt, if_pos hf]

theorem protectFrom_lower (hst : addr = a.vmStart) (hlt : stop < a.vmEnd) (hf : a.accessFlags ≠ prot) :
    protectFrom addr stop prot (a :: rest) = ⟨addr, stop, prot⟩ :: { a with vmStart := stop } :: rest := by
  unfold protectFrom
  rw [if_pos hst, if_pos hlt, if_pos hf]

theorem protectFrom_middle (hst : a.vmStart < addr) (h2 : addr < a.vmEnd) (hlt : stop < a.vmEnd) (hf : a.accessFlags ≠ prot) :
    protectFrom addr stop prot (a :: rest) =
      { a with vmEnd := addr } :: ⟨addr, stop, prot⟩ :: ⟨stop, a.vmEnd, a.accessFlags⟩ :: rest := by
  unfold protectFrom
  rw [if_neg (Nat.ne_of_gt hst), if_pos ⟨hst, h2⟩, if_pos hlt, if_pos hf]

theorem protectFrom_upper (hst : a.vmStart < addr) (h2 : addr < a.vmEnd) (he : stop = a.vmEnd) (hf : a.accessFlags ≠ prot) :
    protectFrom addr stop prot (a :: rest) = { a with vmEnd := addr } :: ⟨addr, a.vmEnd, prot⟩ :: rest := by
  unfold protectFrom
  rw [if_neg (Nat.ne_of_gt hst), if_pos ⟨hst, h2⟩, if_neg (by omega), if_pos he, if_pos hf]

section
variable (hpre : Before addr pre) (h1 : a.vmStart ≤ addr) (h2 : addr < a.vmEnd) (hchain : Areas a.vmEnd rest)
  (hm : Merged (pre ++ a :: rest)) (hcheck : stop ≤ a.vmEnd ∨ checkIn a stop rest = true)
include hpre h1 h2 hchain hm hcheck

/-- No more than 128 areas are left. -/
theorem pieces_room (hlim : limit (pre ++ a :: rest).length addr stop prot (pre ++ a :: rest) = false)
    (hslip : ¬ Slips (pre ++ a :: rest) addr stop prot) (hlen : (pre ++ a :: rest).length ≤ 128) :
    pieces (protectFrom addr stop prot (pre ++ a :: rest)) ≤ 128 := by
  rw [protectFrom_skip hpre]
  have hn : (pre ++ a :: rest).length = pre.length + rest.length + 1 := by
    rw [List.length_append, List.length_cons]
    omega
  have hpast : ∀ c ∈ rest, addr < c.vmStart := fun c hc => Nat.lt_of_lt_of_le h2 (hchain.forall_mem c hc).1
  have hroom : ¬ limit (pre ++ a :: rest).length addr stop prot (pre ++ a :: rest) = true := Bool.eq_false_iff.mp hlim
  by_cases hsplit : a.accessFlags ≠ prot ∧ Splits a rest addr stop prot
  swap
  · -- as many areas as before
    obtain ⟨x, l, heq, hle⟩ := protectFrom_same h1 h2 hcheck fun hf hs => hsplit ⟨hf, hs⟩
    have happ := pieces_append_le pre x l
    rw [heq]
    omega
  obtain ⟨hf, hsplit⟩ := hsplit
  cases hsplit with
  | lower hst hlt =>
    rw [protectFrom_lower hst hlt hf]
    obtain ⟨hyes, hno⟩ := pieces_lower hm hf stop hst _ Iff.rfl
    by_cases hp : ∃ p ∈ pre.getLast?, p.vmEnd = a.vmStart ∧ p.accessFlags = prot
    · rw [hyes hp]
      omega
    rw [hno hp]
    by_contra hbig
    refine hroom ((limit_lower hpre h1 h2 hpast hf hst hlt).mpr ⟨fun hprev => ?_, by omega⟩)
    obtain ⟨p, hp1, hp2⟩ := hprev
    exact hslip ⟨by omega, pre, a, rest, rfl, hf, .inl ⟨hst, hlt, p, hp1, hp2, fun he => hp ⟨p, hp1, he, hp2⟩⟩⟩
  | middle hst hlt =>
    rw [protectFrom_middle hst h2 hlt hf, pieces_middle hm hf]
    rw [limit_middle hpre h1 h2 hpast hf hst hlt] at hroom
    omega
  | upper hst he =>
    rw [protectFrom_upper hst h2 he hf]
    obtain ⟨hyes, hno⟩ := pieces_upper hm hf addr _ Iff.rfl
    by_cases hp : ∃ n ∈ rest.head?, a.vmEnd = n.vmStart ∧ n.accessFlags = prot
    · rw [hyes hp]
      omega
    rw [hno hp]
    by_contra hbig
    refine hroom ((limit_upper hpre h1 h2 hpast hf hst he).mpr ⟨fun hnext => ?_, by omega⟩)
    obtain ⟨n, hn1, hn2⟩ := hnext
    exact hslip ⟨by omega, pre, a, rest, rfl, hf, .inr ⟨hst, he, n, hn1, hn2, fun ht => hp ⟨n, hn1, ht, hn2⟩⟩⟩
  | behind hst hlt hnil =>
    rw [limit_behind hpre h1 h2 hpast hf hst hlt hnil] at hroom
    rw [protectFrom_in hst h2 hlt hf, hnil]
    have hle := pieces_le (pre ++ { a with vmEnd := addr } :: ⟨addr, a.vmEnd, prot⟩ :: protectIn stop prot [])
    simp only [protectIn, List.length_append, List.length_cons, List.length_nil] at hle ⊢
    omega
  | across hst hlt hrest hadj hstop hcf =>
    rw [limit_across hpre h1 h2 hpast hf hst hlt hrest hadj hstop hcf] at hroom
    rw [protectFrom_in hst h2 hlt hf]
    have hacross := pieces_across hm hf addr stop hrest hadj hcf
    rw [hrest, protectIn_cut hstop hcf, hacross]
    omega

/-- A refusal for the limit of a range that is mapped throughout: more than 128 areas would be left. -/
theorem pieces_refused (hfull : rest = [] → stop ≤ a.vmEnd)
    (hlim : limit (pre ++ a :: rest).length addr stop prot (pre ++ a :: rest) = true) :
    128 < pieces (protectFrom addr stop prot (pre ++ a :: rest)) := by
  rw [protectFrom_skip hpre]
  have hn : (pre ++ a :: rest).length = pre.length + rest.length + 1 := by
    rw [List.length_append, List.length_cons]
    omega
  have hpast : ∀ c ∈ rest, addr < c.vmStart := fun c hc => Nat.lt_of_lt_of_le h2 (hchain.forall_mem c hc).1
  obtain ⟨hf, hsplit⟩ := splits_of_limit hpre h1 h2 hpast hcheck hfull hlim
  cases hsplit with
  | lower hst hlt =>
    obtain ⟨hprev, hcnt⟩ := (limit_lower hpre h1 h2 hpast hf hst hlt).mp hlim
    rw [protectFrom_lower hst hlt hf, (pieces_lower hm hf _ hst _ Iff.rfl).2 fun ⟨p, hp, _, hflags⟩ => hprev ⟨p, hp, hflags⟩]
    omega
  | middle hst hlt =>
    have hcnt := (limit_middle hpre h1 h2 hpast hf hst hlt).mp hlim
    rw [protectFrom_middle hst h2 hlt hf, pieces_middle hm hf]
    omega
  | upper hst he =>
    obtain ⟨hnext, hcnt⟩ := (limit_upper hpre h1 h2 hpast hf hst he).mp hlim
    rw [protectFrom_upper hst h2 he hf, (pieces_upper hm hf _ _ Iff.rfl).2 fun ⟨n, hn, _, hflags⟩ => hnext ⟨n, hn, hflags⟩]
    omega
  | behind hst hlt hnil => exact absurd (hfull hnil) (Nat.not_le.mpr hlt)
  | across hst hlt hrest hadj hstop hcf =>
    have hcnt := (limit_across hpre h1 h2 hpast hf hst hlt hrest hadj hstop hcf).mp hlim
    have hacross := pieces_across hm hf addr stop hrest hadj hcf
    rw [protectFrom_in hst h2 hlt hf, hrest, protectIn_cut hstop hcf, hacross]
    omega

end

/-! ## A range that is mapped throughout passes the checks -/

theorem checkIn_full (hc : Areas prev.vmEnd rest) (hs : prev.vmEnd < stop)
    (hfull : ∀ x, prev.vmEnd ≤ x → x < stop → protAt rest x ≠ none) : checkIn prev stop rest = true := by
  induction rest generalizing prev with
  | nil => rfl
  | cons c rest ih =>
    unfold checkIn
    have hadj : c.vmStart = prev.vmEnd := by
      by_contra hne
      have hlt : prev.vmEnd < c.vmStart := Nat.lt_of_le_of_ne hc.1 (Ne.symm hne)
      exact hfull prev.vmEnd (Nat.le_refl _) hs ((hc.raise (Nat.le_refl _)).valueAt_below hlt)
    rw [if_neg (not_not.mpr hadj)]
    by_cases hcs : stop ≤ c.vmEnd
    · rw [if_pos hcs]
    · have hlt : c.vmStart < c.vmEnd := hc.2.1
      have hrest : ∀ x, c.vmEnd ≤ x → x < stop → protAt rest x ≠ none := fun x h1 h2 => by
        have hx := hfull x (by omega) h2
        rwa [protAt, valueAt_tail (by simp only [lo_eq, hi_eq]; omega)] at hx
      have hne : rest ≠ [] := fun he => hrest c.vmEnd (Nat.le_refl _) (by omega) (by rw [he]; rfl)
      rw [if_neg hcs, if_neg hne]
      exact ih hc.tail (by omega) hrest

theorem checkFrom_full (hc : Areas b areas) (hs : addr < stop) (hfull : ∀ x, addr ≤ x → x < stop → protAt areas x ≠ none) :
    checkFrom addr stop areas = true := by
  induction areas generalizing b with
  | nil => rfl
  | cons c rest ih =>
    have hlt : c.vmStart < c.vmEnd := hc.2.1
    have hlow : c.vmStart ≤ addr := by
      by_contra hno
      exact hfull addr (Nat.le_refl _) hs ((hc.raise (Nat.le_refl _)).valueAt_below (Nat.lt_of_not_le hno))
    have htail : ∀ x, c.vmEnd ≤ x → addr ≤ x → x < stop → protAt rest x ≠ none := fun x h1 h2 h3 => by
      have hx := hfull x h2 h3
      rwa [protAt, valueAt_tail (by simp only [lo_eq, hi_eq]; omega)] at hx
    unfold checkFrom
    by_cases hin : c.vmStart ≤ addr ∧ addr < c.vmEnd
    · rw [if_pos hin]
      by_cases hcs : stop ≤ c.vmEnd
      · rw [if_pos hcs]
      · rw [if_neg hcs]
        exact checkIn_full hc.tail (by omega) fun x h1 h2 => htail x h1 (by omega) h2
    · rw [if_neg hin]
      have hx := htail addr (by omega) (Nat.le_refl _) hs
      cases rest with
      | nil => exact absurd rfl hx
      | cons next rest =>
        have hnext : next.vmStart ≤ addr := by
          by_contra hno
          exact hx ((hc.tail.raise (Nat.le_refl _)).valueAt_below (Nat.lt_of_not_le hno))
        simp only
        rw [if_neg (Nat.not_lt.mpr hnext)]
        exact ih hc.tail fun x h1 h2 => htail x (by omega) h1 h2

/-! ## mmap and munmap -/

/-- One more area than `n` only when there were fewer than 128. -/
def Try.Room (cnt n : Nat) : Try → Prop
  | .placed _ l _ => l.length ≤ n ∨ (cnt < 128 ∧ l.length ≤ n + 1)
  | _ => True

theorem Try.Room.behind {n : Nat} {u : Try} (h : u.Room cnt n) : (u.behind a).Room cnt (n + 1) := by
  cases u with
  | placed r l k =>
    have h : l.length ≤ n ∨ (cnt < 128 ∧ l.length ≤ n + 1) := h
    show (a :: l).length ≤ n + 1 ∨ (cnt < 128 ∧ (a :: l).length ≤ n + 1 + 1)
    rw [List.length_cons]
    omega
  | pass => trivial
  | refuse => trivial

theorem Try.Room.orElse {n : Nat} {u v : Try} (hu : u.Room cnt n) (hv : v.Room cnt n) : (u.orElse v).Room cnt n := by
  cases u with
  | placed r l k => exact hu
  | pass => exact hv
  | refuse => trivial

theorem room_frontAt (start : Nat) (areas : List VmArea) : (frontAt cnt length prot start areas).Room cnt areas.length := by
  unfold frontAt
  cases areas with
  | nil => trivial
  | cons curr rest => simp only; split_ifs <;> simp only [Try.Room, List.length_cons] <;> omega

theorem room_gapAfter (curr next : VmArea) (rest : List VmArea) :
    (gapAfter cnt length prot curr next rest).Room cnt (curr :: next :: rest).length := by
  unfold gapAfter
  split_ifs <;> simp only [Try.Room, List.length_cons] <;> omega

theorem room_appendLast (curr : VmArea) : (appendLast cnt length prot curr).Room cnt [curr].length := by
  unfold appendLast
  split_ifs <;> simp only [Try.Room, List.length_cons, List.length_nil] <;> omega

theorem room_search (go : VmArea → Bool) (areas : List VmArea) : (search cnt length prot go areas).Room cnt areas.length := by
  induction areas with
  | nil => trivial
  | cons curr rest ih =>
    cases rest with
    | nil =>
      unfold search
      split
      · trivial
      · exact room_appendLast curr
    | cons next rest =>
      unfold search
      split
      · exact (room_gapAfter curr next rest).orElse ih.behind
      · trivial

theorem room_conflict (fixed : Bool) (areas : List VmArea) : (conflict cnt length prot fixed areas).Room cnt areas.length := by
  unfold conflict
  split
  · trivial
  · exact room_search _ areas

theorem room_hintGap (fixed : Bool) (curr next : VmArea) (rest : List VmArea) :
    (hintGap cnt length prot addr fixed curr next rest).Room cnt (curr :: next :: rest).length := by
  have hconf : ((conflict cnt length prot fixed (next :: rest)).behind curr).Room cnt (curr :: next :: rest).length :=
    (room_conflict fixed (next :: rest)).behind
  unfold hintGap
  split_ifs <;> first | exact hconf | (simp only [Try.Room, List.length_cons] <;> omega)

theorem room_hintLast (fixed : Bool) (curr : VmArea) : (hintLast cnt length prot addr fixed curr).Room cnt [curr].length := by
  unfold hintLast
  split
  · -- nothing is left to search
    unfold conflict
    split <;> trivial
  split
  · exact room_conflict fixed [curr]
  split_ifs <;> simp only [Try.Room, List.length_cons, List.length_nil] <;> omega

theorem room_hintFrom (fixed : Bool) (areas : List VmArea) : (hintFrom cnt length prot addr fixed areas).Room cnt areas.length := by
  induction areas with
  | nil => trivial
  | cons curr rest ih =>
    cases rest with
    | nil => exact room_hintLast fixed curr
    | cons next rest =>
      unfold hintFrom
      split
      · exact room_conflict fixed _
      split
      · exact (room_gapAfter curr next rest).orElse (room_conflict fixed _)
      split
      · exact room_hintGap fixed curr next rest
      · exact ih.behind

theorem mapAreas_length (hlen : areas.length ≤ 128) : (mapAreas areas addr length prot flags).2.1.length ≤ 128 := by
  have hresult : ∀ u : Try, u.Room areas.length areas.length → (u.result areas).2.1.length ≤ 128 := by
    intro u hu
    cases u with
    | placed r l k =>
      have hu : l.length ≤ areas.length ∨ (areas.length < 128 ∧ l.length ≤ areas.length + 1) := hu
      show l.length ≤ 128
      omega
    | pass => exact hlen
    | refuse => exact hlen
  unfold mapAreas
  split
  · exact hlen
  split
  · exact hlen
  simp only
  split
  · refine hresult _ ?_
    unfold mapAnywhere
    cases areas with
    | nil => simp only; split <;> simp [Try.Room]
    | cons curr rest => exact (room_frontAt _ _).orElse (room_search _ _)
  · refine hresult _ ?_
    unfold mapHint
    cases areas with
    | nil => simp only; split_ifs <;> simp [Try.Room]
    | cons curr rest =>
      refine Try.Room.orElse ?_ ((room_frontAt _ _).orElse (room_search _ _))
      split
      · exact (room_frontAt _ _).orElse (room_conflict _ _)
      · exact room_hintFrom _ _

theorem unmapIn_length (stop : Nat) (areas : List VmArea) : (unmapIn stop areas).length ≤ areas.length := by
  induction areas with
  | nil => exact Nat.le_refl 0
  | cons curr rest ih =>
    unfold unmapIn
    split_ifs <;> simp only [List.length_cons] <;> omega

theorem unmapFrom_length (h : unmapFrom cnt addr stop areas = some areas') :
    areas'.length ≤ areas.length ∨ (cnt ≠ 128 ∧ areas'.length ≤ areas.length + 1) := by
  induction areas generalizing areas' with
  | nil => cases h; exact .inl (Nat.le_refl 0)
  | cons curr rest ih =>
    have hin := unmapIn_length stop rest
    unfold unmapFrom at h
    by_cases h1 : addr ≤ curr.vmStart
    · rw [if_pos h1] at h
      split_ifs at h <;> cases h <;> simp only [List.length_cons] <;> omega
    rw [if_neg h1] at h
    by_cases h2 : curr.vmStart < addr ∧ addr < curr.vmEnd
    · rw [if_pos h2] at h
      split_ifs at h <;> cases h <;> simp only [List.length_cons] <;> omega
    · rw [if_neg h2] at h
      obtain ⟨l, hl, rfl⟩ := Option.map_eq_some_iff.mp h
      have hle := ih hl
      simp only [List.length_cons]
      omega

theorem unmapAreas_length (hlen : areas.length ≤ 128) : (unmapAreas areas addr length).2.1.length ≤ 128 := by
  unfold unmapAreas
  split
  · exact hlen
  split
  · exact hlen
  · rename_i areas' hu
    have hle := unmapFrom_length hu
    show areas'.length ≤ 128
    omega

/-! ## The calls -/

section
variable (hw : Areas MMAP_AREA_START areas) (hl : Promised length)
include hw hl

/-- Past its checks, mprotect has found an area the range starts in, and room. -/
theorem protectAreas_cases : (protectAreas areas addr length prot).2.1 = areas ∨
    ∃ pre a rest, areas = pre ++ a :: rest ∧ Before addr pre ∧ a.vmStart ≤ addr ∧ addr < a.vmEnd ∧
      plus addr (pageRound length) = addr + pageUp length ∧
      (addr + pageUp length ≤ a.vmEnd ∨ checkIn a (addr + pageUp length) rest = true) ∧
      limit areas.length addr (addr + pageUp length) prot areas = false ∧
      (protectAreas areas addr length prot).2.1 = mergeAll (protectFrom addr (addr + pageUp length) prot areas) := by
  obtain ⟨hn, hn31, -⟩ := pageUp_spec hl
  unfold protectAreas
  by_cases hout : ¬ (MMAP_AREA_START ≤ addr ∧ plus addr length ≤ MMAP_AREA_END)
  · rw [if_pos hout]
    exact .inl rfl
  rw [if_neg hout]
  simp only [pageRound_eq hl]
  rw [if_neg (by omega)]
  cases areas with
  | nil => exact .inl rfl
  | cons first rest =>
    simp only
    by_cases hlow : addr < first.vmStart
    · rw [if_pos hlow]
      exact .inl rfl
    rw [if_neg hlow]
    by_cases hcheck : checkFrom addr (plus addr (pageUp length)) (first :: rest) = true
    swap
    · rw [if_pos hcheck]
      exact .inl rfl
    rw [if_neg (not_not_intro hcheck)]
    obtain ⟨pre, a, more, heq, hpre, h1, h2, hck⟩ := checkFrom_locate hw (Nat.le_of_not_lt hlow) hcheck
    have htop : a.vmEnd ≤ 0x7FE000000 := (hw.forall_mem a (by rw [heq]; simp)).2.2.1
    have hp : plus addr (pageUp length) = addr + pageUp length := plus_nat (by omega)
    rw [hp] at hck ⊢
    by_cases hlim : limit (first :: rest).length addr (addr + pageUp length) prot (first :: rest) = true
    · rw [if_pos hlim]
      exact .inl rfl
    · rw [if_neg hlim]
      exact .inr ⟨pre, a, more, heq, hpre, h1, h2, rfl, hck, Bool.not_eq_true _ ▸ hlim, rfl⟩

/-- A refusal of a range that is mapped throughout is for the limit. -/
theorem protectAreas_refused (ha : 4096 ∣ addr) (hfull : ∀ x, addr ≤ x → x < addr + pageUp length → protAt areas x ≠ none)
    (hret : (protectAreas areas addr length prot).1 = -1) :
    ∃ first rest, areas = first :: rest ∧ first.vmStart ≤ addr ∧ addr + pageUp length ≤ MMAP_AREA_END ∧
      checkFrom addr (addr + pageUp length) areas = true ∧ limit areas.length addr (addr + pageUp length) prot areas = true := by
  obtain ⟨hn, hn31, -⟩ := pageUp_spec hl
  have hfirst := hfull addr (Nat.le_refl _) (by omega)
  have hlast := hfull (addr + pageUp length - 1) (by omega) (by omega)
  have hlow : MMAP_AREA_START ≤ addr := by
    by_contra hno
    exact hfirst (hw.valueAt_below (Nat.lt_of_not_le hno))
  have hhigh : addr + pageUp length ≤ MMAP_AREA_END := by
    by_contra hno
    exact hlast (hw.valueAt_above (by omega))
  have hcheck := checkFrom_full hw (by omega) hfull
  have hp : plus addr (pageUp length) = addr + pageUp length := plus_nat (by unfold MMAP_AREA_END at hhigh; omega)
  unfold protectAreas at hret
  rw [if_neg (not_not_intro ⟨hlow, (fits_iff hl ha (by decide) (by unfold MMAP_AREA_END at hhigh; omega)).mpr hhigh⟩)] at hret
  simp only [pageRound_eq hl, hp] at hret
  rw [if_neg (by omega)] at hret
  cases areas with
  | nil => exact absurd rfl hfirst
  | cons first rest =>
    have hle : first.vmStart ≤ addr := by
      by_contra hno
      exact hfirst ((hw.raise (Nat.le_refl _)).valueAt_below (Nat.lt_of_not_le hno))
    simp only at hret
    rw [if_neg (Nat.not_lt.mpr hle), if_neg (not_not_intro hcheck)] at hret
    refine ⟨first, rest, rfl, hle, hhigh, hcheck, ?_⟩
    by_contra hlim
    rw [if_neg hlim] at hret
    cases hret

end

/-! ## Runs -/

/-- No mprotect splits an area at an end of its range and reckons with a neighbour that does not touch. -/
def Call.Fits (areas : List VmArea) : Call → Prop
  | .mprotect addr length prot => Call.Promised (.mprotect addr length prot) ∧ ¬ Slips areas addr (plus addr (pageRound length)) prot
  | c => c.Promised

theorem Call.Fits.promised {call : Call} (h : call.Fits areas) : call.Promised := by
  cases call with
  | mprotect addr length prot => exact h.1
  | mmap addr length prot flags => exact h
  | munmap addr length => exact h

theorem Call.run_length {call : Call} (h : call.Fits areas) (hw : Areas MMAP_AREA_START areas) (hm : Merged areas)
    (hlen : areas.length ≤ 128) : (call.run areas).2.1.length ≤ 128 := by
  cases call with
  | mmap addr length prot flags => exact mapAreas_length hlen
  | munmap addr length => exact unmapAreas_length hlen
  | mprotect addr length prot =>
    obtain ⟨hp, hslip⟩ := h
    show (protectAreas areas addr length prot).2.1.length ≤ 128
    rcases protectAreas_cases hw hp.2 with hsame | ⟨pre, a, rest, heq, hpre, h1, h2, hstop, hck, hlim, hnew⟩
    · rw [hsame]
      exact hlen
    · rw [hstop] at hslip
      rw [hnew, mergeAll_length]
      subst heq
      exact pieces_room hpre h1 h2 hw.drop hm hck hlim hslip hlen

theorem reach_length (h : calls.Reach (fun areas c => c.Fits areas) areas) :
    Areas MMAP_AREA_START areas ∧ Merged areas ∧ areas.length ≤ 128 := by
  refine h.inv (fun areas => Areas MMAP_AREA_START areas ∧ Merged areas ∧ areas.length ≤ 128) (fun areas hi => ?_)
    fun areas c areas' hI hc hs => ?_
  · rw [show areas = [] from hi]
    exact ⟨by decide, trivial, by decide⟩
  · cases hs
    obtain ⟨h1, h2⟩ := c.run_inv hc.promised hI.1 hI.2.1
    exact ⟨h1, h2, c.run_length hc hI.1 hI.2.1 hI.2.2⟩

/-- 128 areas with a gap behind the first, all others touching, and an mprotect that gives the first page of the
    second one the protection of the first. -/
def crowd : List Call :=
  [.mmap 0x180200000 0x1000 1 MAP_FIXED, .mmap 0x180202000 0x2000 3 MAP_FIXED] ++
    (List.range 126).map (fun i => .mmap (0x180204000 + 0x1000 * i) 0x1000 (if i % 2 = 0 then 1 else 3) MAP_FIXED) ++
    [.mprotect 0x180202000 0x1000 1]

end Cs330.Vm
