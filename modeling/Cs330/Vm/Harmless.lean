/-
  Cs330.Vm.Harmless — the three calls with any int for a length: what is asked for, and when
  it holds; munmap.

  None of the calls asks for a positive length. What is not promised rounds to 0 or to a
  negative int (`pageRound_cases`): 0 and the ints above -4096 to 0, and those above
  0x7FFFF000, where the rounding overflows, to -2^31.

  `Harmless`: the call leaves every address its protection, or, for a positive length, acts
  on the pages of the range, and the list stays sorted and disjoint with no empty area.
  `Spared` is when it does. munmap splits the area the address lies in, and for a length
  below 0 the halves overlap; from address 0 it then deletes every area
  (`munmap_harmless`).
-/
import Cs330.Vm.Limit

namespace Cs330.Vm

open Lib Lib.Seg

def IsInt (length : Int) : Prop := -2 ^ 31 ≤ length ∧ length < 2 ^ 31

theorem pageRound_cases {length : Int} (hi : IsInt length) :
    Promised length ∨ ∃ n : Nat, pageRound length = -(n : Int) ∧ n ≤ 2 ^ 31 ∧ 4096 ∣ n := by
  by_cases hl : Promised length
  · exact .inl hl
  · right
    unfold IsInt at hi
    unfold Promised at hl
    refine ⟨(-pageRound length).toNat, ?_⟩
    unfold pageRound int32
    split <;> omega

/-! ## What is asked for -/

/-- No area is empty or reversed, and they are sorted and disjoint. -/
structure Ordered (areas : List VmArea) : Prop where
  area : ∀ a ∈ areas, a.vmStart < a.vmEnd
  sorted : areas.Pairwise fun a c => a.vmEnd ≤ c.vmStart

def Call.addr : Call → Nat
  | .mmap addr _ _ _ | .munmap addr _ | .mprotect addr _ _ => addr

def Call.length : Call → Int
  | .mmap _ length _ _ | .munmap _ length | .mprotect _ length _ => length

/-- The call acts on a range of the least multiple of the page size that is at least
    `length`, and on nothing else. -/
def Call.Acts (areas areas' : List VmArea) : Call → Prop
  | .mmap _ length prot _ => ∃ r, (∀ x, r ≤ x → x < r + pageUp length → protAt areas x = none) ∧
      ∀ x, protAt areas' x = if r ≤ x ∧ x < r + pageUp length then some prot else protAt areas x
  | .munmap addr length => ∀ x, protAt areas' x = if addr ≤ x ∧ x < addr + pageUp length then none else protAt areas x
  | .mprotect addr length prot => ∀ x, protAt areas' x =
      if addr ≤ x ∧ x < addr + pageUp length then (protAt areas x).map fun _ => prot else protAt areas x

structure Call.Harmless (areas : List VmArea) (c : Call) : Prop where
  ordered : Ordered (c.run areas).2.1
  range : (∀ x, protAt (c.run areas).2.1 x = protAt areas x) ∨ (0 < c.length ∧ c.Acts areas (c.run areas).2.1)

/-! ## When the calls do it -/

/-- Where vm_area_map puts a request that takes no room, from a hint: behind the area the
    hint lies in, unless another area ends at the hint. -/
def landing (addr : Nat) : List VmArea → Nat
  | [] => addr
  | a :: rest =>
    if a.vmEnd = addr then addr
    else if a.vmStart ≤ addr ∧ addr < a.vmEnd then a.vmEnd
    else landing addr rest

/-- A request for `-n` bytes that comes to lie at `q` does no harm: one for none, if an area
    with its flags is there to take it; any, if there are too many areas and none to shrink. -/
def Absorbed (cnt : Nat) (prot : UInt32) (n : Int) (areas : List VmArea) (q : Nat) : Prop :=
  if n = 0 then 128 ≤ cnt ∨ ∃ a ∈ areas, a.accessFlags = prot ∧ (a.vmEnd = q ∨ a.vmStart = q)
  else 128 ≤ cnt ∧ ∀ a ∈ areas, a.vmEnd = q → a.accessFlags ≠ prot

/-- The length is promised, or the call does nothing with the one it gets. -/
def Call.Spared (areas : List VmArea) : Call → Prop
  | .mmap addr length prot flags => Vm.Promised length ∨
      if addr = 0 then Absorbed areas.length prot (pageRound length) areas MMAP_AREA_START
      else ¬ (MMAP_AREA_START ≤ addr ∧ addr ≤ MMAP_AREA_END) ∨
        (flags &&& MAP_FIXED ≠ 0 ∧ (MMAP_AREA_END < plus addr length ∨ landing addr areas ≠ addr)) ∨
        Absorbed areas.length prot (pageRound length) areas (landing addr areas)
  | .munmap addr length => Vm.Promised length ∨ pageRound length = 0 ∨
      if addr = 0 then areas = []
      else MMAP_AREA_END < plus addr length ∨ areas.length = 128 ∨ ∀ a ∈ areas, ¬ (a.vmStart < addr ∧ addr < a.vmEnd)
  | .mprotect addr length prot => Vm.Promised length ∨ pageRound length = 0 ∨ MMAP_AREA_END < plus addr length ∨
      ∀ pre a rest, areas = pre ++ a :: rest → a.vmStart ≤ addr → addr < a.vmEnd → a.accessFlags = prot ∨
        if addr = a.vmStart then (¬ ∃ p ∈ pre.getLast?, p.accessFlags = prot) ∧ 128 ≤ areas.length
        else 127 ≤ areas.length

/-! ## Lists with the same protections -/

structure Same (b : Nat) (areas areas' : List VmArea) : Prop where
  chain : Areas b areas'
  value : ∀ x, protAt areas' x = protAt areas x

section
variable {b : Nat} {a : VmArea} {areas areas' : List VmArea}

theorem Same.refl (hc : Areas b areas) : Same b areas areas := ⟨hc, fun _ => rfl⟩

theorem Same.cons (hc : Areas b (a :: areas)) (h : Same a.vmEnd areas areas') : Same b (a :: areas) (a :: areas') := by
  obtain ⟨c1, c2, c3, c4, -⟩ := hc
  refine ⟨⟨c1, c2, c3, c4, h.chain⟩, fun x => ?_⟩
  have hx := h.value x
  unfold protAt at hx ⊢
  simp only [valueAt, hx]

theorem ordered_of_chain (hc : Areas b areas) : Ordered areas := by
  obtain ⟨-, h1, h2⟩ := chain_iff.mp hc
  exact ⟨fun a ha => (h1 a ha).2.1, h2⟩

theorem Call.Harmless.of_same {c : Call} (h : Same b areas (c.run areas).2.1) : c.Harmless areas :=
  ⟨ordered_of_chain h.chain, .inl h.value⟩

/-- A call that leaves the list alone. -/
theorem Call.Harmless.of_eq {c : Call} (hw : Areas b areas) (h : (c.run areas).2.1 = areas) : c.Harmless areas :=
  .of_same (b := b) (by rw [h]; exact .refl hw)

theorem Call.harmless_of_promised {c : Call} (hw : Areas MMAP_AREA_START areas) (ha : 4096 ∣ c.addr)
    (hl : Vm.Promised c.length) : c.Harmless areas := by
  have hlen := hl.1
  cases c with
  | mmap addr length prot flags =>
    by_cases hret : (mapAreas areas addr length prot flags).1 = -1
    · exact .of_eq hw (congrArg Prod.fst (mapAreas_fails hret))
    · obtain ⟨r, hr, -, -⟩ := mapAreas_maps hw hl ha hret
      exact ⟨ordered_of_chain hr.chain, .inr ⟨hlen, r, hr.free, hr.value⟩⟩
  | munmap addr length =>
    by_cases hret : (unmapAreas areas addr length).1 = 0
    · have h := unmapAreas_clears hw hl ha hret
      exact ⟨ordered_of_chain h.chain, .inr ⟨hlen, h.value⟩⟩
    · exact .of_eq hw (congrArg (·.2.1) (unmapAreas_fails hret))
  | mprotect addr length prot =>
    by_cases hret : (protectAreas areas addr length prot).1 = 0
    · have h := (protectAreas_paints hw hl ha hret).1
      exact ⟨ordered_of_chain h.chain, .inr ⟨hlen, h.value⟩⟩
    · exact .of_eq hw (congrArg (·.2.1) (protectAreas_fails hret))

end

/-! ## munmap -/

section
variable {b cnt addr stop : Nat} {a : VmArea} {pre rest areas : List VmArea}

/-- The address lies in no area, or at the start of one. -/
theorem unmapFrom_outside (hc : Areas b areas) (hs : addr ≤ MMAP_AREA_END → stop ≤ addr)
    (hout : ∀ a ∈ areas, ¬ (a.vmStart < addr ∧ addr < a.vmEnd)) : unmapFrom cnt addr stop areas = some areas := by
  induction areas generalizing b with
  | nil => rfl
  | cons curr rest ih =>
    have hlt : curr.vmStart < curr.vmEnd := hc.2.1
    have htop : curr.vmEnd ≤ MMAP_AREA_END := hc.tail.le_top
    unfold unmapFrom
    by_cases h1 : addr ≤ curr.vmStart
    · have hstop := hs (by omega)
      rw [if_pos h1, if_pos (by omega)]
    · rw [if_neg h1, if_neg (hout curr List.mem_cons_self), ih hc.tail fun a ha => hout a (List.mem_cons_of_mem _ ha)]
      rfl

theorem unmapFrom_inside (hpre : Before addr pre) (h1 : a.vmStart < addr) (h2 : addr < a.vmEnd) (hs : stop < a.vmEnd) :
    unmapFrom cnt addr stop (pre ++ a :: rest) =
      if cnt = 128 then none
      else some (pre ++ { a with vmEnd := addr } :: ⟨stop, a.vmEnd, a.accessFlags⟩ :: rest) := by
  induction pre with
  | nil =>
    rw [List.nil_append, unmapFrom, if_neg (Nat.not_le.mpr h1), if_pos ⟨h1, h2⟩, if_pos hs]
    rfl
  | cons p pre ih =>
    obtain ⟨hp1, hp2⟩ := hpre p List.mem_cons_self
    rw [List.cons_append, unmapFrom, if_neg (by omega), if_neg (by omega), ih hpre.tail]
    split <;> rfl

/-- What ends at 2^64 or short of it takes the whole list with it. -/
theorem unmapIn_all (hc : Areas b areas) (hs : MMAP_AREA_END < stop) : unmapIn stop areas = [] := by
  induction areas generalizing b with
  | nil => rfl
  | cons curr rest ih =>
    have hlt : curr.vmStart < curr.vmEnd := hc.2.1
    have htop : curr.vmEnd ≤ MMAP_AREA_END := hc.tail.le_top
    rw [unmapIn, if_neg (by omega), if_neg (by omega), if_neg (by omega)]
    exact ih hc.tail

theorem unmapFrom_all (hc : Areas b areas) (hs : MMAP_AREA_END < stop) : unmapFrom cnt 0 stop areas = some [] := by
  cases areas with
  | nil => rfl
  | cons curr rest =>
    have hlt : curr.vmStart < curr.vmEnd := hc.2.1
    have htop : curr.vmEnd ≤ MMAP_AREA_END := hc.tail.le_top
    rw [unmapFrom, if_pos (Nat.zero_le _), if_neg (by omega), if_neg (by omega), unmapIn_all hc.tail hs]

/-- Two halves of an area: they touch, or overlap. -/
theorem same_halves (hc : Areas b (pre ++ a :: rest)) (h1 : a.vmStart < addr) (h2 : addr < a.vmEnd) (ha : 4096 ∣ addr) :
    Same b (pre ++ a :: rest) (pre ++ { a with vmEnd := addr } :: ⟨addr, a.vmEnd, a.accessFlags⟩ :: rest) := by
  induction pre generalizing b with
  | nil =>
    obtain ⟨c1, c2, c3, c4, c5⟩ := hc
    refine ⟨⟨c1, h1, c3, ha, Nat.le_refl addr, h2, ha, c4, c5⟩, fun x => ?_⟩
    simp only [List.nil_append, protAt, valueAt, lo_eq, hi_eq, val_eq]
    by_cases hx : a.vmStart ≤ x ∧ x < a.vmEnd
    · rw [if_pos hx]
      by_cases hlt : x < addr
      · rw [if_pos ⟨hx.1, hlt⟩]
      · rw [if_neg (by omega), if_pos (by omega)]
    · rw [if_neg hx, if_neg (by omega), if_neg (by omega)]
  | cons p pre ih => exact .cons hc (ih hc.tail)

theorem not_ordered_halves (hs : stop < addr) (f : UInt32) :
    ¬ Ordered (pre ++ { a with vmEnd := addr } :: ⟨stop, a.vmEnd, f⟩ :: rest) := by
  intro h
  have hpair := (List.pairwise_append.mp h.sorted).2.1
  have hle : addr ≤ stop := (List.pairwise_cons.mp hpair).1 _ List.mem_cons_self
  omega

/-- What stands in front of an area ends at or below its start. -/
theorem before_of_areas (hc : Areas b (pre ++ a :: rest)) (h1 : a.vmStart ≤ addr) : Before addr pre := by
  obtain ⟨-, hmem, hpair⟩ := chain_iff.mp hc
  intro p hp
  have hle : p.vmEnd ≤ a.vmStart := (List.pairwise_append.mp hpair).2.2 p hp a List.mem_cons_self
  exact ⟨(hmem p (List.mem_append_left _ hp)).2.1, hle.trans h1⟩

end

theorem unmapAreas_list (areas : List VmArea) (addr : Nat) (length : Int) : (unmapAreas areas addr length).2.1 =
    if addr ≠ 0 ∧ ¬ (MMAP_AREA_START ≤ addr ∧ plus addr length ≤ MMAP_AREA_END) then areas
    else (unmapFrom areas.length addr (plus addr (pageRound length)) areas).getD areas := by
  unfold unmapAreas
  split
  · rfl
  · split
    · rename_i h
      rw [h]
      rfl
    · rename_i h
      rw [h]
      rfl

theorem plus_neg {addr n : Nat} (hn : n ≤ addr) (h : addr < 2 ^ 64) : plus addr (-(n : Int)) = addr - n := by
  unfold plus
  omega

section
variable {areas : List VmArea} {length : Int} (hw : Areas MMAP_AREA_START areas) (hi : IsInt length)
include hw hi

/-- A list with an area in it is not to be emptied: no range that starts at 0 gets there. -/
theorem munmap_emptied (hne : areas ≠ []) (hrun : ((Call.munmap 0 length).run areas).2.1 = []) :
    ¬ (Call.munmap 0 length).Harmless areas := by
  intro h
  obtain ⟨-, hrange⟩ := h
  rw [hrun] at hrange
  obtain ⟨a, rest, rfl⟩ := List.exists_cons_of_ne_nil hne
  have hlow : MMAP_AREA_START ≤ a.vmStart := hw.1
  have hlt : a.vmStart < a.vmEnd := hw.2.1
  have hmapped : protAt (a :: rest) a.vmStart = some a.accessFlags := valueAt_head ⟨Nat.le_refl _, hlt⟩
  rcases hrange with hsame | ⟨-, hacts⟩
  · have hx := hsame a.vmStart
    rw [hmapped] at hx
    cases hx
  · have hx := hacts a.vmStart
    have hpage : pageUp length ≤ 2 ^ 31 := by
      unfold IsInt at hi
      unfold pageUp
      omega
    unfold MMAP_AREA_START at hlow
    rw [if_neg (by omega), hmapped] at hx
    cases hx

/-- From address 0 the range wraps, and everything lies in it. -/
theorem munmap_at_zero {n : Nat} (hround : pageRound length = -(n : Int)) (hn : n ≤ 2 ^ 31) :
    (Call.munmap 0 length).Harmless areas ↔ n = 0 ∨ areas = [] := by
  have hrun : ((Call.munmap 0 length).run areas).2.1 = _ := unmapAreas_list areas 0 length
  rw [hround, if_neg fun h => h.1 rfl] at hrun
  by_cases hn0 : n = 0
  · subst hn0
    rw [unmapFrom_outside hw (fun _ => by decide) fun a _ h => absurd h.1 (Nat.not_lt_zero _)] at hrun
    exact iff_of_true (.of_eq hw hrun) (.inl rfl)
  have hstop : MMAP_AREA_END < plus 0 (-(n : Int)) := by
    rw [end_eq]
    unfold plus
    omega
  rw [unmapFrom_all hw hstop] at hrun
  by_cases hnil : areas = []
  · exact iff_of_true (.of_eq hw (hrun.trans hnil.symm)) (.inr hnil)
  · exact iff_of_false (munmap_emptied hw hi hnil hrun) fun h => h.elim hn0 hnil

end

/-- The address lies in an area, behind its start. -/
theorem munmap_inside {pre rest : List VmArea} {a : VmArea} {addr n : Nat} {length : Int}
    (hw : Areas MMAP_AREA_START (pre ++ a :: rest)) (ha : 4096 ∣ addr) (h1 : a.vmStart < addr) (h2 : addr < a.vmEnd)
    (hin : MMAP_AREA_START ≤ addr ∧ plus addr length ≤ MMAP_AREA_END) (hround : pageRound length = -(n : Int)) (hn : n ≤ 2 ^ 31) :
    (Call.munmap addr length).Harmless (pre ++ a :: rest) ↔ n = 0 ∨ (pre ++ a :: rest).length = 128 := by
  have hlow : 0x180200000 ≤ addr := hin.1
  have htop : a.vmEnd ≤ 0x7FE000000 := (hw.forall_mem a (List.mem_append_right _ List.mem_cons_self)).2.2.1
  have hstop : plus addr (-(n : Int)) = addr - n := plus_neg (by omega) (by omega)
  have hrun : ((Call.munmap addr length).run (pre ++ a :: rest)).2.1 = _ := unmapAreas_list (pre ++ a :: rest) addr length
  rw [if_neg fun h => h.2 hin, hround, hstop,
    unmapFrom_inside (before_of_areas hw (Nat.le_of_lt h1)) h1 h2 (by omega)] at hrun
  by_cases hcnt : (pre ++ a :: rest).length = 128
  · rw [if_pos hcnt] at hrun
    exact iff_of_true (.of_eq hw hrun) (.inr hcnt)
  rw [if_neg hcnt] at hrun
  by_cases hn0 : n = 0
  · subst hn0
    refine iff_of_true (.of_same (b := MMAP_AREA_START) ?_) (.inl rfl)
    rw [hrun]
    exact same_halves hw h1 h2 ha
  · refine iff_of_false (fun h => ?_) fun h => h.elim hn0 hcnt
    have hord := h.ordered
    rw [hrun] at hord
    exact not_ordered_halves (by omega) _ hord

theorem munmap_harmless {areas : List VmArea} {addr n : Nat} {length : Int} (hw : Areas MMAP_AREA_START areas) (ha : 4096 ∣ addr)
    (hi : IsInt length) (hround : pageRound length = -(n : Int)) (hn : n ≤ 2 ^ 31) (hl : ¬ Promised length) :
    (Call.munmap addr length).Harmless areas ↔ (Call.munmap addr length).Spared areas := by
  have hn0 : pageRound length = 0 ↔ n = 0 := by omega
  refine Iff.trans ?_ (or_iff_right hl).symm
  rw [hn0]
  by_cases h0 : addr = 0
  · subst h0
    rw [if_pos rfl]
    exact munmap_at_zero hw hi hround hn
  rw [if_neg h0]
  have hrun : ((Call.munmap addr length).run areas).2.1 = _ := unmapAreas_list areas addr length
  by_cases hin : MMAP_AREA_START ≤ addr ∧ plus addr length ≤ MMAP_AREA_END
  swap
  · rw [if_pos ⟨h0, hin⟩] at hrun
    refine iff_of_true (.of_eq hw hrun) (.inr ?_)
    by_cases hlow : MMAP_AREA_START ≤ addr
    · exact .inl (Nat.lt_of_not_le fun h => hin ⟨hlow, h⟩)
    · refine .inr (.inr fun a hmem h => ?_)
      have hstart : MMAP_AREA_START ≤ a.vmStart := (hw.forall_mem a hmem).1
      omega
  rw [or_iff_right (Nat.not_lt.mpr hin.2)]
  by_cases hmet : ∃ a ∈ areas, a.vmStart < addr ∧ addr < a.vmEnd
  · obtain ⟨a, hmem, h1, h2⟩ := hmet
    obtain ⟨pre, rest, rfl⟩ := List.append_of_mem hmem
    rw [munmap_inside hw ha h1 h2 hin hround hn]
    exact or_congr_right (or_iff_left fun h => h a hmem ⟨h1, h2⟩).symm
  · have hout : ∀ a ∈ areas, ¬ (a.vmStart < addr ∧ addr < a.vmEnd) := fun a hmem h => hmet ⟨a, hmem, h⟩
    have hstop : addr ≤ MMAP_AREA_END → plus addr (-(n : Int)) ≤ addr := by
      have hlow : 0x180200000 ≤ addr := hin.1
      rw [end_eq]
      unfold plus
      omega
    rw [if_neg fun h => h.2 hin, hround, unmapFrom_outside hw hstop hout] at hrun
    exact iff_of_true (.of_eq hw hrun) (.inr (.inr hout))

end Cs330.Vm
