/-
  Cs330.Vm.Nodes — the three calls on the nodes of a list.

  Cs330.Vm.Map, Unmap and Protect say what vm_area_map, vm_area_unmap and vm_area_mprotect
  do to a list of areas. Here an area also has the address of its node: an assignment to a
  field of `curr` keeps the node, alloc_vm_area gives a new one (`new`, and `new'` for the
  second one of a call), dealloc_vm_area takes a node out.

  The nodes do not change what becomes of the areas (`run_areas`): it is the calls of
  Cs330.Vm.Calls. And a call puts no node in the list that it was not given (`run_kept`).
-/
import Cs330.Lib.Linked
import Cs330.Vm.Calls

namespace Cs330.Vm

open Lib Lib.Seg

/-- A `struct vm_area` and where it lies. -/
abbrev VmNode := Cell VmArea

namespace Nodes

/-- `Vm.Try`, with the nodes of the list. -/
inductive Try where
  | pass
  | refuse
  | placed (ret : Nat) (list : List VmNode) (nodes : Int)

def Try.behind (curr : VmNode) : Try → Try
  | .placed ret list nodes => .placed ret (curr :: list) nodes
  | t => t

def Try.orElse (t next : Try) : Try :=
  match t with
  | .pass => next
  | t => t

def Try.result (ns : List VmNode) : Try → Int × List VmNode × Int
  | .placed ret ns' nodes => (ret, ns', nodes)
  | .pass | .refuse => (-1, ns, 0)

/-! ## vm_area_map -/

section
variable (cnt : Nat) (length : Int) (prot : UInt32) (new : Nat)

def frontAt (start : Nat) : List VmNode → Try
  | [] => .pass
  | curr :: rest =>
    if plus start length < curr.val.vmStart then
      if 128 ≤ cnt then .refuse
      else .placed start (⟨⟨start, plus start length, prot⟩, new⟩ :: curr :: rest) 1
    else if curr.val.vmStart = plus start length then
      if curr.val.accessFlags = prot then .placed start ({ curr with val.vmStart := minus curr.val.vmStart length } :: rest) 0
      else if 128 ≤ cnt then .refuse
      else .placed start (⟨⟨start, plus start length, prot⟩, new⟩ :: curr :: rest) 1
    else .pass

def gapAfter (curr next : VmNode) (rest : List VmNode) : Try :=
  if plus curr.val.vmEnd length < next.val.vmStart then
    if curr.val.accessFlags = prot then
      .placed (minus (plus curr.val.vmEnd length) length) ({ curr with val.vmEnd := plus curr.val.vmEnd length } :: next :: rest) 0
    else if 128 ≤ cnt then .refuse
    else .placed curr.val.vmEnd (curr :: ⟨⟨curr.val.vmEnd, plus curr.val.vmEnd length, prot⟩, new⟩ :: next :: rest) 1
  else if plus curr.val.vmEnd length = next.val.vmStart then
    if prot = curr.val.accessFlags ∧ prot = next.val.accessFlags then
      .placed curr.val.vmEnd ({ curr with val.vmEnd := next.val.vmEnd } :: rest) (-1)
    else if prot = curr.val.accessFlags then
      .placed (minus next.val.vmStart length) ({ curr with val.vmEnd := next.val.vmStart } :: next :: rest) 0
    else if prot = next.val.accessFlags then
      .placed curr.val.vmEnd (curr :: { next with val.vmStart := curr.val.vmEnd } :: rest) 0
    else if 128 ≤ cnt then .refuse
    else .placed curr.val.vmEnd (curr :: ⟨⟨curr.val.vmEnd, plus curr.val.vmEnd length, prot⟩, new⟩ :: next :: rest) 1
  else .pass

def appendLast (curr : VmNode) : Try :=
  if curr.val.accessFlags = prot then
    .placed (minus (plus curr.val.vmEnd length) length) [{ curr with val.vmEnd := plus curr.val.vmEnd length }] 0
  else if 128 ≤ cnt then .refuse
  else .placed curr.val.vmEnd [curr, ⟨⟨curr.val.vmEnd, plus curr.val.vmEnd length, prot⟩, new⟩] 1

def search (go : VmArea → Bool) : List VmNode → Try
  | [] => .pass
  | [curr] => if MMAP_AREA_END < plus curr.val.vmEnd length then .pass else appendLast cnt length prot new curr
  | curr :: next :: rest =>
    if go curr.val then
      (gapAfter cnt length prot new curr next rest).orElse ((search go (next :: rest)).behind curr)
    else .pass

def mapAnywhere : List VmNode → Try
  | [] =>
    if MMAP_AREA_END < plus MMAP_AREA_START length then .refuse
    else .placed MMAP_AREA_START [⟨⟨MMAP_AREA_START, plus MMAP_AREA_START length, prot⟩, new⟩] 1
  | curr :: rest =>
    (frontAt cnt length prot new MMAP_AREA_START (curr :: rest)).orElse
      (search cnt length prot new (fun _ => true) (curr :: rest))

variable (addr : Nat) (fixed : Bool)

def conflict (ns : List VmNode) : Try := if fixed then .refuse else search cnt length prot new (fun _ => true) ns

def hintGap (curr next : VmNode) (rest : List VmNode) : Try :=
  if plus addr length < next.val.vmStart then
    if 128 ≤ cnt then .refuse
    else .placed addr (curr :: ⟨⟨addr, plus addr length, prot⟩, new⟩ :: next :: rest) 1
  else if plus addr length = next.val.vmStart then
    if next.val.accessFlags = prot then
      .placed (minus next.val.vmStart length) (curr :: { next with val.vmStart := minus next.val.vmStart length } :: rest) 0
    else if 128 ≤ cnt then .refuse
    else .placed addr (curr :: ⟨⟨addr, plus addr length, prot⟩, new⟩ :: next :: rest) 1
  else (conflict cnt length prot new fixed (next :: rest)).behind curr

def hintLast (curr : VmNode) : Try :=
  if MMAP_AREA_END < plus addr length then conflict cnt length prot new fixed []
  else if curr.val.vmStart ≤ addr ∧ addr < curr.val.vmEnd then conflict cnt length prot new fixed [curr]
  else if addr = curr.val.vmEnd then
    if curr.val.accessFlags = prot then .placed curr.val.vmStart [{ curr with val.vmEnd := plus curr.val.vmEnd length }] 0
    else if 128 ≤ cnt then .refuse
    else .placed curr.val.vmEnd [curr, ⟨⟨curr.val.vmEnd, plus curr.val.vmEnd length, prot⟩, new⟩] 1
  else if 128 ≤ cnt then .refuse
  else .placed addr [curr, ⟨⟨addr, plus addr length, prot⟩, new⟩] 1

def hintFrom : List VmNode → Try
  | [] => .pass
  | [curr] => hintLast cnt length prot new addr fixed curr
  | curr :: next :: rest =>
    if curr.val.vmStart ≤ addr ∧ addr < curr.val.vmEnd then conflict cnt length prot new fixed (curr :: next :: rest)
    else if addr = curr.val.vmEnd then
      (gapAfter cnt length prot new curr next rest).orElse (conflict cnt length prot new fixed (curr :: next :: rest))
    else if curr.val.vmEnd < addr ∧ addr < next.val.vmStart then hintGap cnt length prot new addr fixed curr next rest
    else (hintFrom (next :: rest)).behind curr

def restart (ns : List VmNode) : Try :=
  (frontAt cnt length prot new MMAP_AREA_START ns).orElse
    (search cnt length prot new (fun curr => decide (curr.vmEnd < addr)) ns)

def mapHint : List VmNode → Try
  | [] =>
    if MMAP_AREA_END < plus addr length then
      if MMAP_AREA_END < plus MMAP_AREA_START length then .refuse
      else .placed MMAP_AREA_START [⟨⟨MMAP_AREA_START, plus MMAP_AREA_START length, prot⟩, new⟩] 1
    else .placed addr [⟨⟨addr, plus addr length, prot⟩, new⟩] 1
  | curr :: rest =>
    let t :=
      if addr < curr.val.vmStart then
        (frontAt cnt length prot new addr (curr :: rest)).orElse (conflict cnt length prot new fixed (curr :: rest))
      else hintFrom cnt length prot new addr fixed (curr :: rest)
    t.orElse (restart cnt length prot new addr (curr :: rest))

end

def vmAreaMap (ns : List VmNode) (new addr : Nat) (length : Int) (prot flags : UInt32) : Int × List VmNode × Int :=
  if addr ≠ 0 ∧ ¬ (MMAP_AREA_START ≤ addr ∧ addr ≤ MMAP_AREA_END) then (-1, ns, 0)
  else if addr ≠ 0 ∧ flags &&& MAP_FIXED ≠ 0 ∧ ¬ (MMAP_AREA_START ≤ addr ∧ plus addr length ≤ MMAP_AREA_END) then
    (-1, ns, 0)
  else
    let len := pageRound length
    if addr = 0 then (mapAnywhere ns.length len prot new ns).result ns
    else (mapHint ns.length len prot new addr (flags &&& MAP_FIXED ≠ 0) ns).result ns

/-! ## vm_area_unmap -/

def unmapIn (stop : Nat) : List VmNode → List VmNode
  | [] => []
  | curr :: rest =>
    if stop ≤ curr.val.vmStart then curr :: rest
    else if stop < curr.val.vmEnd then { curr with val.vmStart := stop } :: rest
    else if curr.val.vmEnd = stop then rest
    else unmapIn stop rest

def unmapFrom (cnt addr stop new : Nat) : List VmNode → Option (List VmNode)
  | [] => some []
  | curr :: rest =>
    if addr ≤ curr.val.vmStart then
      if stop ≤ curr.val.vmStart then some (curr :: rest)
      else if stop < curr.val.vmEnd then some ({ curr with val.vmStart := stop } :: rest)
      else some (unmapIn stop rest)
    else if curr.val.vmStart < addr ∧ addr < curr.val.vmEnd then
      if stop < curr.val.vmEnd then
        if cnt = 128 then none
        else some ({ curr with val.vmEnd := addr } :: ⟨⟨stop, curr.val.vmEnd, curr.val.accessFlags⟩, new⟩ :: rest)
      else some ({ curr with val.vmEnd := addr } :: unmapIn stop rest)
    else (unmapFrom cnt addr stop new rest).map (curr :: ·)

def vmAreaUnmap (ns : List VmNode) (new addr : Nat) (length : Int) : Int × List VmNode × Int :=
  if addr ≠ 0 ∧ ¬ (MMAP_AREA_START ≤ addr ∧ plus addr length ≤ MMAP_AREA_END) then (-1, ns, 0)
  else
    match unmapFrom ns.length addr (plus addr (pageRound length)) new ns with
    | none => (-1, ns, 0)
    | some ns' => (0, ns', ns'.length - ns.length)

/-! ## vm_area_mprotect -/

def protectIn (stop : Nat) (prot : UInt32) (new : Nat) : List VmNode → List VmNode
  | [] => []
  | curr :: rest =>
    if stop < curr.val.vmEnd then
      if curr.val.accessFlags ≠ prot then ⟨⟨curr.val.vmStart, stop, prot⟩, new⟩ :: { curr with val.vmStart := stop } :: rest
      else curr :: rest
    else if stop = curr.val.vmEnd then { curr with val.accessFlags := prot } :: rest
    else { curr with val.accessFlags := prot } :: protectIn stop prot new rest

def protectFrom (addr stop : Nat) (prot : UInt32) (new new' : Nat) : List VmNode → List VmNode
  | [] => []
  | curr :: rest =>
    if addr = curr.val.vmStart then
      if stop < curr.val.vmEnd then
        if curr.val.accessFlags ≠ prot then ⟨⟨addr, stop, prot⟩, new⟩ :: { curr with val.vmStart := stop } :: rest
        else curr :: rest
      else if stop = curr.val.vmEnd then { curr with val.accessFlags := prot } :: rest
      else { curr with val.accessFlags := prot } :: protectIn stop prot new rest
    else if curr.val.vmStart < addr ∧ addr < curr.val.vmEnd then
      if stop < curr.val.vmEnd then
        if curr.val.accessFlags ≠ prot then
          { curr with val.vmEnd := addr } :: ⟨⟨addr, stop, prot⟩, new⟩ :: ⟨⟨stop, curr.val.vmEnd, curr.val.accessFlags⟩, new'⟩ :: rest
        else curr :: rest
      else if stop = curr.val.vmEnd then
        if curr.val.accessFlags ≠ prot then { curr with val.vmEnd := addr } :: ⟨⟨addr, curr.val.vmEnd, prot⟩, new⟩ :: rest
        else curr :: rest
      else if curr.val.accessFlags ≠ prot then
        -- the end of the range may split another area, with the second node
        { curr with val.vmEnd := addr } :: protectIn stop prot new' (⟨⟨addr, curr.val.vmEnd, prot⟩, new⟩ :: rest)
      else curr :: protectIn stop prot new rest
    else curr :: protectFrom addr stop prot new new' rest

def mergeFrom (prev : VmNode) : List VmNode → List VmNode
  | [] => [prev]
  | curr :: rest =>
    if prev.val.vmEnd = curr.val.vmStart ∧ prev.val.accessFlags = curr.val.accessFlags then
      mergeFrom { prev with val.vmEnd := curr.val.vmEnd } rest
    else prev :: mergeFrom curr rest

def mergeAll : List VmNode → List VmNode
  | [] => []
  | prev :: rest => mergeFrom prev rest

/-- The checks read the areas only. -/
def vmAreaMprotect (ns : List VmNode) (new new' addr : Nat) (length : Int) (prot : UInt32) : Int × List VmNode × Int :=
  if ¬ (MMAP_AREA_START ≤ addr ∧ plus addr length ≤ MMAP_AREA_END) then (-1, ns, 0)
  else
    let stop := plus addr (pageRound length)
    if pageRound length = 0 then (0, ns, 0)
    else
      match ns with
      | [] => (-1, ns, 0)
      | first :: _ =>
        if addr < first.val.vmStart then (-1, ns, 0)
        else if ¬ checkFrom addr stop (vals ns) then (-1, ns, 0)
        else if limit ns.length addr stop prot (vals ns) then (-1, ns, 0)
        else
          let ns' := mergeAll (protectFrom addr stop prot new new' ns)
          (0, ns', ns'.length - ns.length)

def run (ns : List VmNode) (new new' : Nat) : Call → Int × List VmNode × Int
  | .mmap addr length prot flags => vmAreaMap ns new addr length prot flags
  | .munmap addr length => vmAreaUnmap ns new addr length
  | .mprotect addr length prot => vmAreaMprotect ns new new' addr length prot

/-! ## What becomes of the areas -/

def Try.areas : Try → Vm.Try
  | .pass => .pass
  | .refuse => .refuse
  | .placed ret list nodes => .placed ret (vals list) nodes

theorem areas_behind (curr : VmNode) (t : Try) : (t.behind curr).areas = t.areas.behind curr.val := by
  cases t <;> rfl

theorem areas_orElse (t next : Try) : (t.orElse next).areas = t.areas.orElse next.areas := by
  cases t <;> rfl

section
variable (cnt : Nat) (length : Int) (prot : UInt32) (new addr : Nat) (fixed : Bool)

theorem areas_frontAt (start : Nat) (ns : List VmNode) :
    (frontAt cnt length prot new start ns).areas = Vm.frontAt cnt length prot start (vals ns) := by
  cases ns with
  | nil => rfl
  | cons curr rest =>
    unfold frontAt
    simp only [apply_ite Try.areas]
    rfl

theorem areas_gapAfter (curr next : VmNode) (rest : List VmNode) :
    (gapAfter cnt length prot new curr next rest).areas =
      Vm.gapAfter cnt length prot curr.val next.val (vals rest) := by
  unfold gapAfter
  simp only [apply_ite Try.areas]
  rfl

theorem areas_appendLast (curr : VmNode) :
    (appendLast cnt length prot new curr).areas = Vm.appendLast cnt length prot curr.val := by
  unfold appendLast
  simp only [apply_ite Try.areas]
  rfl

theorem areas_search (go : VmArea → Bool) (ns : List VmNode) :
    (search cnt length prot new go ns).areas = Vm.search cnt length prot go (vals ns) := by
  induction ns with
  | nil => rfl
  | cons curr rest ih =>
    cases rest with
    | nil =>
      unfold search
      rw [apply_ite Try.areas, areas_appendLast]
      rfl
    | cons next rest =>
      unfold search
      rw [apply_ite Try.areas, areas_orElse, areas_behind, areas_gapAfter, ih]
      rfl

theorem areas_mapAnywhere (ns : List VmNode) :
    (mapAnywhere cnt length prot new ns).areas = Vm.mapAnywhere cnt length prot (vals ns) := by
  cases ns with
  | nil =>
    unfold mapAnywhere
    rw [apply_ite Try.areas]
    rfl
  | cons curr rest =>
    unfold mapAnywhere
    rw [areas_orElse, areas_frontAt, areas_search]
    rfl

theorem areas_conflict (ns : List VmNode) :
    (conflict cnt length prot new fixed ns).areas = Vm.conflict cnt length prot fixed (vals ns) := by
  unfold conflict
  rw [apply_ite Try.areas, areas_search]
  rfl

theorem areas_hintGap (curr next : VmNode) (rest : List VmNode) :
    (hintGap cnt length prot new addr fixed curr next rest).areas =
      Vm.hintGap cnt length prot addr fixed curr.val next.val (vals rest) := by
  unfold hintGap
  simp only [apply_ite Try.areas, areas_behind, areas_conflict]
  rfl

theorem areas_hintLast (curr : VmNode) :
    (hintLast cnt length prot new addr fixed curr).areas = Vm.hintLast cnt length prot addr fixed curr.val := by
  unfold hintLast
  simp only [apply_ite Try.areas, areas_conflict]
  rfl

theorem areas_hintFrom (ns : List VmNode) :
    (hintFrom cnt length prot new addr fixed ns).areas = Vm.hintFrom cnt length prot addr fixed (vals ns) := by
  induction ns with
  | nil => rfl
  | cons curr rest ih =>
    cases rest with
    | nil => exact areas_hintLast cnt length prot new addr fixed curr
    | cons next rest =>
      unfold hintFrom
      simp only [apply_ite Try.areas, areas_orElse, areas_behind, areas_gapAfter, areas_conflict, areas_hintGap, ih]
      rfl

theorem areas_restart (ns : List VmNode) :
    (restart cnt length prot new addr ns).areas = Vm.restart cnt length prot addr (vals ns) := by
  unfold restart
  rw [areas_orElse, areas_frontAt, areas_search]
  rfl

theorem areas_mapHint (ns : List VmNode) :
    (mapHint cnt length prot new addr fixed ns).areas = Vm.mapHint cnt length prot addr fixed (vals ns) := by
  cases ns with
  | nil =>
    unfold mapHint
    simp only [apply_ite Try.areas]
    rfl
  | cons curr rest =>
    unfold mapHint
    simp only [apply_ite Try.areas, areas_orElse, areas_frontAt, areas_conflict, areas_hintFrom, areas_restart]
    rfl

end

/-- The result of a call, its list without the nodes. -/
def erase (r : Int × List VmNode × Int) : Int × List VmArea × Int := (r.1, vals r.2.1, r.2.2)

theorem erase_result (ns : List VmNode) (t : Try) : erase (t.result ns) = t.areas.result (vals ns) := by
  cases t <;> rfl

theorem erase_vmAreaMap (ns : List VmNode) (new addr : Nat) (length : Int) (prot flags : UInt32) :
    erase (vmAreaMap ns new addr length prot flags) = mapAreas (vals ns) addr length prot flags := by
  unfold vmAreaMap mapAreas
  simp only [apply_ite erase, erase_result, areas_mapAnywhere, areas_mapHint, length_vals]
  rfl

theorem areas_unmapIn (stop : Nat) (ns : List VmNode) : vals (unmapIn stop ns) = Vm.unmapIn stop (vals ns) := by
  induction ns with
  | nil => rfl
  | cons curr rest ih =>
    unfold unmapIn
    simp only [apply_ite vals, ih]
    rfl

theorem areas_unmapFrom (cnt addr stop new : Nat) (ns : List VmNode) :
    (unmapFrom cnt addr stop new ns).map vals = Vm.unmapFrom cnt addr stop (vals ns) := by
  induction ns with
  | nil => rfl
  | cons curr rest ih =>
    unfold unmapFrom
    have hmap : ((unmapFrom cnt addr stop new rest).map (curr :: ·)).map vals =
        (Vm.unmapFrom cnt addr stop (vals rest)).map (curr.val :: ·) := by
      rw [← ih, Option.map_map, Option.map_map]
      rfl
    simp only [apply_ite (Option.map vals), hmap, Option.map_some, Option.map_none, vals_cons, areas_unmapIn]
    rfl

theorem erase_vmAreaUnmap (ns : List VmNode) (new addr : Nat) (length : Int) :
    erase (vmAreaUnmap ns new addr length) = unmapAreas (vals ns) addr length := by
  unfold vmAreaUnmap unmapAreas
  have h := areas_unmapFrom ns.length addr (plus addr (pageRound length)) new ns
  rw [apply_ite erase, length_vals, ← h]
  cases unmapFrom ns.length addr (plus addr (pageRound length)) new ns with
  | none => rfl
  | some ns' => simp [erase]

theorem areas_protectIn (stop : Nat) (prot : UInt32) (new : Nat) (ns : List VmNode) :
    vals (protectIn stop prot new ns) = Vm.protectIn stop prot (vals ns) := by
  induction ns with
  | nil => rfl
  | cons curr rest ih =>
    unfold protectIn
    simp only [apply_ite vals, vals_cons, ih]
    rfl

theorem areas_protectFrom (addr stop : Nat) (prot : UInt32) (new new' : Nat) (ns : List VmNode) :
    vals (protectFrom addr stop prot new new' ns) = Vm.protectFrom addr stop prot (vals ns) := by
  induction ns with
  | nil => rfl
  | cons curr rest ih =>
    unfold protectFrom
    simp only [apply_ite vals, vals_cons, areas_protectIn, ih]
    rfl

theorem areas_mergeFrom (prev : VmNode) (ns : List VmNode) :
    vals (mergeFrom prev ns) = Vm.mergeFrom prev.val (vals ns) := by
  induction ns generalizing prev with
  | nil => rfl
  | cons curr rest ih =>
    unfold mergeFrom
    rw [apply_ite vals, vals_cons, ih, ih]
    rfl

theorem areas_mergeAll (ns : List VmNode) : vals (mergeAll ns) = Vm.mergeAll (vals ns) := by
  cases ns with
  | nil => rfl
  | cons prev rest => exact areas_mergeFrom prev rest

theorem erase_vmAreaMprotect (ns : List VmNode) (new new' addr : Nat) (length : Int) (prot : UInt32) :
    erase (vmAreaMprotect ns new new' addr length prot) = protectAreas (vals ns) addr length prot := by
  unfold vmAreaMprotect protectAreas
  have h := (areas_mergeAll (protectFrom addr (plus addr (pageRound length)) prot new new' ns)).trans
    (congrArg Vm.mergeAll (areas_protectFrom addr (plus addr (pageRound length)) prot new new' ns))
  cases ns with
  | nil =>
    simp only [apply_ite erase]
    rfl
  | cons first rest =>
    simp only [apply_ite erase]
    simp only [erase, h, ← length_vals, vals_cons]
    rfl

theorem run_areas (ns : List VmNode) (new new' : Nat) (c : Call) : erase (run ns new new' c) = c.run (vals ns) := by
  cases c with
  | mmap addr length prot flags => exact erase_vmAreaMap ns new addr length prot flags
  | munmap addr length => exact erase_vmAreaUnmap ns new addr length
  | mprotect addr length prot => exact erase_vmAreaMprotect ns new new' addr length prot

/-! ## Which nodes are in the list -/

/-- The nodes of a list are those of another, or new, each as often at most. -/
def Kept (fresh : List Nat) (ns ns' : List VmNode) : Prop :=
  ∀ p, (ptrs ns').count p ≤ (ptrs ns).count p + fresh.count p

section
variable {fresh : List Nat} {ns ns' ms : List VmNode} {n n' : VmNode}

theorem Kept.of_ptrs (h : ptrs ns' = ptrs ns) : Kept fresh ns ns' := fun p => by rw [h]; exact Nat.le_add_right _ _

theorem Kept.trans (h1 : Kept fresh ns ns') (h2 : Kept [] ns' ms) : Kept fresh ns ms := fun p => (h2 p).trans (h1 p)

theorem Kept.mono {fresh' : List Nat} (h : Kept fresh ns ns') (hf : fresh.Sublist fresh') : Kept fresh' ns ns' :=
  fun p => (h p).trans (Nat.add_le_add_left (hf.count_le p) _)

/-- A node that stays, whatever is assigned to its fields. -/
theorem Kept.cons (hp : n'.ptr = n.ptr) (h : Kept fresh ns ns') : Kept fresh (n :: ns) (n' :: ns') := by
  intro p
  have hcount := h p
  rw [ptrs_cons, ptrs_cons, hp, List.count_cons, List.count_cons]
  omega

/-- A node that is taken out. -/
theorem Kept.tail (h : Kept fresh ns ns') : Kept fresh (n :: ns) ns' := by
  intro p
  have hcount := h p
  rw [ptrs_cons, List.count_cons]
  omega

/-- A new node. -/
theorem Kept.new (a : VmArea) {q : Nat} (h : Kept fresh ns ns') : Kept (q :: fresh) ns (⟨a, q⟩ :: ns') := by
  intro p
  have hcount := h p
  simp only [ptrs_cons, List.count_cons]
  omega

theorem kept_refl (fresh : List Nat) (ns : List VmNode) : Kept fresh ns ns := .of_ptrs rfl

theorem Kept.mem (h : Kept fresh ns ns') {p : Nat} (hp : p ∈ ptrs ns') : p ∈ ptrs ns ∨ p ∈ fresh := by
  have hcount := h p
  have hpos := List.count_pos_iff.mpr hp
  by_cases hf : p ∈ fresh
  · exact .inr hf
  · rw [List.count_eq_zero.mpr hf] at hcount
    exact .inl (List.count_pos_iff.mp (by omega))

end

def Try.Kept (fresh : List Nat) (ns : List VmNode) : Try → Prop
  | .placed _ ns' _ => Nodes.Kept fresh ns ns'
  | .pass | .refuse => True

theorem Try.Kept.behind {fresh : List Nat} {ns : List VmNode} {t : Try} (h : t.Kept fresh ns) (curr : VmNode) :
    (t.behind curr).Kept fresh (curr :: ns) := by
  cases t with
  | placed ret list nodes => exact Nodes.Kept.cons rfl h
  | pass => trivial
  | refuse => trivial

theorem Try.Kept.orElse {fresh : List Nat} {ns : List VmNode} {t next : Try} (h1 : t.Kept fresh ns)
    (h2 : next.Kept fresh ns) : (t.orElse next).Kept fresh ns := by
  cases t with
  | placed ret list nodes => exact h1
  | pass => exact h2
  | refuse => trivial

section
variable (cnt : Nat) (length : Int) (prot : UInt32) (new addr : Nat) (fixed : Bool)

theorem kept_frontAt (start : Nat) (ns : List VmNode) : (frontAt cnt length prot new start ns).Kept [new] ns := by
  cases ns with
  | nil => trivial
  | cons curr rest =>
    unfold frontAt
    simp only
    split_ifs
    · trivial
    · exact (kept_refl [] _).new _
    · exact .of_ptrs rfl
    · trivial
    · exact (kept_refl [] _).new _
    · trivial

theorem kept_gapAfter (curr next : VmNode) (rest : List VmNode) :
    (gapAfter cnt length prot new curr next rest).Kept [new] (curr :: next :: rest) := by
  unfold gapAfter
  split_ifs
  · exact .of_ptrs rfl
  · trivial
  · exact .cons rfl ((kept_refl [] _).new _)
  · exact .cons rfl (kept_refl _ _).tail
  · exact .of_ptrs rfl
  · exact .of_ptrs rfl
  · trivial
  · exact .cons rfl ((kept_refl [] _).new _)
  · trivial

theorem kept_appendLast (curr : VmNode) : (appendLast cnt length prot new curr).Kept [new] [curr] := by
  unfold appendLast
  split_ifs
  · exact .of_ptrs rfl
  · trivial
  · exact .cons rfl ((kept_refl [] _).new _)

theorem kept_search (go : VmArea → Bool) (ns : List VmNode) : (search cnt length prot new go ns).Kept [new] ns := by
  induction ns with
  | nil => trivial
  | cons curr rest ih =>
    cases rest with
    | nil =>
      unfold search
      split_ifs
      · trivial
      · exact kept_appendLast cnt length prot new curr
    | cons next rest =>
      unfold search
      split_ifs
      · exact (kept_gapAfter cnt length prot new curr next rest).orElse (ih.behind curr)
      · trivial

theorem kept_mapAnywhere (ns : List VmNode) : (mapAnywhere cnt length prot new ns).Kept [new] ns := by
  cases ns with
  | nil =>
    unfold mapAnywhere
    split_ifs
    · trivial
    · exact (kept_refl [] _).new _
  | cons curr rest => exact (kept_frontAt cnt length prot new _ _).orElse (kept_search cnt length prot new _ _)

theorem kept_conflict (ns : List VmNode) : (conflict cnt length prot new fixed ns).Kept [new] ns := by
  unfold conflict
  split_ifs
  · trivial
  · exact kept_search cnt length prot new _ ns

theorem kept_hintGap (curr next : VmNode) (rest : List VmNode) :
    (hintGap cnt length prot new addr fixed curr next rest).Kept [new] (curr :: next :: rest) := by
  unfold hintGap
  split_ifs
  · trivial
  · exact .cons rfl ((kept_refl [] _).new _)
  · exact .of_ptrs rfl
  · trivial
  · exact .cons rfl ((kept_refl [] _).new _)
  · exact (kept_conflict cnt length prot new fixed _).behind curr

theorem kept_hintLast (curr : VmNode) : (hintLast cnt length prot new addr fixed curr).Kept [new] [curr] := by
  unfold hintLast
  split_ifs
  · -- the source goes on with NULL for `curr`, and no area is placed
    unfold conflict
    split_ifs
    · trivial
    · trivial
  · exact kept_conflict cnt length prot new fixed _
  · exact .of_ptrs rfl
  · trivial
  · exact .cons rfl ((kept_refl [] _).new _)
  · trivial
  · exact .cons rfl ((kept_refl [] _).new _)

theorem kept_hintFrom (ns : List VmNode) : (hintFrom cnt length prot new addr fixed ns).Kept [new] ns := by
  induction ns with
  | nil => trivial
  | cons curr rest ih =>
    cases rest with
    | nil => exact kept_hintLast cnt length prot new addr fixed curr
    | cons next rest =>
      unfold hintFrom
      split_ifs
      · exact kept_conflict cnt length prot new fixed _
      · exact (kept_gapAfter cnt length prot new curr next rest).orElse (kept_conflict cnt length prot new fixed _)
      · exact kept_hintGap cnt length prot new addr fixed curr next rest
      · exact ih.behind curr

theorem kept_mapHint (ns : List VmNode) : (mapHint cnt length prot new addr fixed ns).Kept [new] ns := by
  cases ns with
  | nil =>
    unfold mapHint
    split_ifs
    · trivial
    · exact (kept_refl [] _).new _
    · exact (kept_refl [] _).new _
  | cons curr rest =>
    have hfront := kept_frontAt cnt length prot new
    have hsearch := kept_search cnt length prot new
    unfold mapHint
    refine Try.Kept.orElse ?_ ((hfront _ _).orElse (hsearch _ _))
    split_ifs
    · exact (hfront _ _).orElse (kept_conflict cnt length prot new fixed _)
    · exact kept_hintFrom cnt length prot new addr fixed _

end

theorem kept_result {fresh : List Nat} {ns : List VmNode} {t : Try} (h : t.Kept fresh ns) :
    Kept fresh ns (t.result ns).2.1 := by
  cases t with
  | placed ret list nodes => exact h
  | pass => exact kept_refl _ _
  | refuse => exact kept_refl _ _

theorem kept_unmapIn (stop : Nat) (ns : List VmNode) : Kept [] ns (unmapIn stop ns) := by
  induction ns with
  | nil => exact kept_refl _ _
  | cons curr rest ih =>
    unfold unmapIn
    split_ifs
    · exact kept_refl _ _
    · exact .of_ptrs rfl
    · exact (kept_refl _ _).tail
    · exact ih.tail

theorem kept_unmapFrom {cnt addr stop new : Nat} {ns ns' : List VmNode} (h : unmapFrom cnt addr stop new ns = some ns') :
    Kept [new] ns ns' := by
  have hin : ∀ rest, Kept [new] rest (unmapIn stop rest) := fun rest => (kept_unmapIn stop rest).mono (List.nil_sublist _)
  induction ns generalizing ns' with
  | nil =>
    cases h
    exact kept_refl _ _
  | cons curr rest ih =>
    unfold unmapFrom at h
    split_ifs at h
    · cases h; exact kept_refl _ _
    · cases h; exact .of_ptrs rfl
    · cases h; exact (hin rest).tail
    · cases h; exact .cons rfl ((kept_refl [] _).new _)
    · cases h; exact .cons rfl (hin rest)
    · obtain ⟨ms, hms, rfl⟩ := Option.map_eq_some_iff.mp h
      exact .cons rfl (ih hms)

theorem kept_protectIn (stop : Nat) (prot : UInt32) (new : Nat) (ns : List VmNode) :
    Kept [new] ns (protectIn stop prot new ns) := by
  induction ns with
  | nil => exact kept_refl _ _
  | cons curr rest ih =>
    unfold protectIn
    split_ifs
    · exact (Kept.of_ptrs rfl).new _
    · exact kept_refl _ _
    · exact .of_ptrs rfl
    · exact .cons rfl ih

theorem kept_protectFrom (addr stop : Nat) (prot : UInt32) (new new' : Nat) (ns : List VmNode) :
    Kept [new, new'] ns (protectFrom addr stop prot new new' ns) := by
  have hone : [new].Sublist [new, new'] := List.sublist_append_left [new] [new']
  induction ns with
  | nil => exact kept_refl _ _
  | cons curr rest ih =>
    have hin := (kept_protectIn stop prot new rest).mono hone
    unfold protectFrom
    split_ifs
    · exact ((Kept.of_ptrs rfl).new _).mono hone
    · exact kept_refl _ _
    · exact .of_ptrs rfl
    · exact .cons rfl hin
    · exact .cons rfl (((kept_refl [] _).new _).new _)
    · exact kept_refl _ _
    · exact (Kept.cons rfl ((kept_refl [] _).new _)).mono hone
    · exact kept_refl _ _
    · -- the walk goes on with the new node, which it keeps
      refine .cons rfl fun p => ?_
      have hcount := kept_protectIn stop prot new' (⟨⟨addr, curr.val.vmEnd, prot⟩, new⟩ :: rest) p
      simp only [ptrs_cons, List.count_cons, List.count_nil] at hcount ⊢
      omega
    · exact .cons rfl hin
    · exact .cons rfl ih

theorem kept_mergeFrom (prev : VmNode) (ns : List VmNode) : Kept [] (prev :: ns) (mergeFrom prev ns) := by
  induction ns generalizing prev with
  | nil => exact kept_refl _ _
  | cons curr rest ih =>
    unfold mergeFrom
    split_ifs
    · exact Kept.trans (.cons rfl (kept_refl _ _).tail) (ih { prev with val.vmEnd := curr.val.vmEnd })
    · exact .cons rfl (ih curr)

theorem kept_mergeAll (ns : List VmNode) : Kept [] ns (mergeAll ns) := by
  cases ns with
  | nil => exact kept_refl _ _
  | cons prev rest => exact kept_mergeFrom prev rest

theorem run_kept (ns : List VmNode) (new new' : Nat) (c : Call) : Kept [new, new'] ns (run ns new new' c).2.1 := by
  have hone : [new].Sublist [new, new'] := List.sublist_append_left [new] [new']
  cases c with
  | mmap addr length prot flags =>
    show Kept _ ns (vmAreaMap ns new addr length prot flags).2.1
    unfold vmAreaMap
    split_ifs
    · exact kept_refl _ _
    · exact kept_refl _ _
    · exact (kept_result (kept_mapAnywhere _ _ _ new ns)).mono hone
    · exact (kept_result (kept_mapHint _ _ _ new _ _ ns)).mono hone
  | munmap addr length =>
    show Kept _ ns (vmAreaUnmap ns new addr length).2.1
    unfold vmAreaUnmap
    split_ifs
    · exact kept_refl _ _
    · split
      · exact kept_refl _ _
      · rename_i ns' h
        exact (kept_unmapFrom h).mono hone
  | mprotect addr length prot =>
    cases ns with
    | nil =>
      show Kept _ [] (vmAreaMprotect [] new new' addr length prot).2.1
      unfold vmAreaMprotect
      simp only
      split_ifs
      · exact kept_refl _ _
      · exact kept_refl _ _
      · exact kept_refl _ _
    | cons first rest =>
      show Kept _ (first :: rest) (vmAreaMprotect (first :: rest) new new' addr length prot).2.1
      unfold vmAreaMprotect
      simp only
      split_ifs
      · exact kept_refl _ _
      · exact kept_refl _ _
      · exact kept_refl _ _
      · exact Kept.trans (kept_protectFrom _ _ _ _ _ _) (kept_mergeAll _)
      · exact kept_refl _ _
      · exact kept_refl _ _

end Nodes

end Cs330.Vm
