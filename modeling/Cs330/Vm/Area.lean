/-
  Cs330.Vm.Area — `struct vm_area` and the arithmetic of mmap.c.

  Addresses are u64 and lengths int: `plus` and `minus` are what `addr + length` and
  `vm_end - length` come to, the int sign-extended and the sum taken modulo 2^64.
  `pageRound` is the rounding all three calls do, in 32 bits. For the lengths the
  assignment promises, 0 < length ≤ 0x7FFFF000, it is the least multiple of the page size
  (`pageRound_eq`), and no sum wraps.

  A list of areas stands for a map from addresses to protections (`protAt`).
-/
import Mathlib.Data.Set.Card
import Cs330.Lib.Segments

namespace Cs330.Vm

open Lib Lib.Seg

def MMAP_AREA_START : Nat := 0x180200000
def MMAP_AREA_END : Nat := 0x7FE000000

def MAP_FIXED : UInt32 := 1
def MAP_POPULATE : UInt32 := 2

/-- `struct vm_area`; `vm_next` is the rest of the list. -/
structure VmArea where
  vmStart : Nat
  vmEnd : Nat
  accessFlags : UInt32
  deriving DecidableEq, Repr

instance : Seg VmArea UInt32 := ⟨VmArea.vmStart, VmArea.vmEnd, VmArea.accessFlags⟩

@[simp] theorem lo_eq (a : VmArea) : lo a = a.vmStart := rfl
@[simp] theorem hi_eq (a : VmArea) : hi a = a.vmEnd := rfl
@[simp] theorem val_eq (a : VmArea) : val a = a.accessFlags := rfl

def protAt (areas : List VmArea) (addr : Nat) : Option UInt32 := valueAt areas addr

def plus (addr : Nat) (length : Int) : Nat := ((addr + length) % 2 ^ 64).toNat

def minus (addr : Nat) (length : Int) : Nat := ((addr - length) % 2 ^ 64).toNat

/-- The int that the low 32 bits of a number stand for. -/
def int32 (x : Int) : Int := (x + 2 ^ 31) % 2 ^ 32 - 2 ^ 31

/-- `if((length>>12)<<12 != length) length = (((length>>12) + 1)<<12);` -/
def pageRound (length : Int) : Int :=
  if length / 4096 * 4096 ≠ length then int32 ((length / 4096 + 1) * 4096) else length

/-- The least multiple of the page size that is at least `length`. -/
def pageUp (length : Int) : Nat := ((length + 4095) / 4096 * 4096).toNat

theorem plus_nat {addr n : Nat} (h : addr + n < 2 ^ 64) : plus addr n = addr + n := by
  unfold plus; omega

theorem minus_nat {addr n : Nat} (hn : n ≤ addr) (h : addr < 2 ^ 64) : minus addr n = addr - n := by
  unfold minus; omega

/-- The lengths the calls are documented for. -/
def Promised (length : Int) : Prop := 0 < length ∧ length ≤ 0x7FFFF000

instance (length : Int) : Decidable (Promised length) := inferInstanceAs (Decidable (_ ∧ _))

theorem pageRound_eq {length : Int} (h : Promised length) : pageRound length = pageUp length := by
  unfold Promised at h
  unfold pageRound pageUp int32
  split <;> omega

theorem pageUp_spec {length : Int} (h : Promised length) :
    0 < pageUp length ∧ pageUp length < 2 ^ 31 ∧ 4096 ∣ pageUp length ∧ length ≤ pageUp length ∧
      (pageUp length : Int) < length + 4096 := by
  unfold Promised at h
  unfold pageUp
  omega

/-- From a page boundary, a range fits below a boundary whether its length is rounded or not. -/
theorem fits_iff {length : Int} (h : Promised length) {addr top : Nat} (ha : 4096 ∣ addr) (ht : 4096 ∣ top)
    (hlt : addr < 2 ^ 63) : plus addr length ≤ top ↔ addr + pageUp length ≤ top := by
  unfold Promised at h
  unfold plus pageUp
  omega

/-! ## Well-formed lists -/

structure WellFormed (areas : List VmArea) : Prop where
  area : ∀ a ∈ areas, MMAP_AREA_START ≤ a.vmStart ∧ a.vmStart < a.vmEnd ∧ a.vmEnd ≤ MMAP_AREA_END ∧
    4096 ∣ a.vmStart ∧ 4096 ∣ a.vmEnd
  sorted : areas.Pairwise fun a c => a.vmEnd ≤ c.vmStart

/-- Where one area ends and the next starts, their flags differ. -/
def MaximallyMerged (areas : List VmArea) : Prop :=
  areas.IsChain fun a c => a.vmEnd = c.vmStart → a.accessFlags ≠ c.accessFlags

/-- Well-formed from address `b` on. -/
abbrev Areas (b : Nat) (areas : List VmArea) : Prop := Chain (4096 ∣ ·) MMAP_AREA_END b areas

theorem wellFormed_iff {areas : List VmArea} : WellFormed areas ↔ Areas MMAP_AREA_START areas := by
  refine Iff.trans ?_ chain_iff.symm
  constructor
  · intro h; exact ⟨by decide, h.area, h.sorted⟩
  · intro h; exact ⟨h.2.1, h.2.2⟩

theorem maximallyMerged_iff {areas : List VmArea} : MaximallyMerged areas ↔ Merged areas := merged_iff.symm

/-- `areas'` is `areas` with the free range of `n` bytes at `r` mapped with protection `prot`. -/
abbrev Maps (b : Nat) (areas areas' : List VmArea) (r n : Nat) (prot : UInt32) : Prop :=
  Fills (4096 ∣ ·) MMAP_AREA_END b areas areas' r (r + n) prot

end Cs330.Vm
