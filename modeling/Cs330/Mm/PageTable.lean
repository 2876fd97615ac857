/-
  Cs330.Mm.PageTable — the user half of a four-level page table.

  Entries are kept by the address bits above them: a PTE by the page, a PMD, PUD and PGD
  entry by the 2 MB, 1 GB and 512 GB around it. An upper entry is its write bit, a PTE its
  frame and its write bit; an entry that is there has the present and the user bit. A PTE
  is there only below upper entries that are (`walk`), so the walk of get_user_pte finds it
  (`get_eq`). The frames the tables themselves take are not part of this.
-/
import Cs330.Lib.Frames

namespace Cs330.Mm

open Lib

/-- `frame` is the PFN, `write` bit 1. -/
abbrev Pte := Entry Nat

/-- Bits 47..12 of an address. -/
def pageOf (addr : Nat) : Nat := addr % 2 ^ 48 / 4096

structure PageTable where
  pgd : Nat → Option Bool
  pud : Nat → Option Bool
  pmd : Nat → Option Bool
  pte : Nat → Option Pte
  walk : ∀ p, pte p ≠ none → pgd (p / 2 ^ 27) ≠ none ∧ pud (p / 2 ^ 18) ≠ none ∧ pmd (p / 2 ^ 9) ≠ none

namespace PageTable

/-- A zeroed PGD. -/
def empty : PageTable := ⟨fun _ => none, fun _ => none, fun _ => none, fun _ => none, fun _ h => absurd rfl h⟩

/-- get_user_pte, and get_pte of mmap.c, which is the same walk. -/
def get (t : PageTable) (p : Nat) : Option Pte :=
  if t.pgd (p / 2 ^ 27) = none then none
  else if t.pud (p / 2 ^ 18) = none then none
  else if t.pmd (p / 2 ^ 9) = none then none
  else t.pte p

theorem get_eq (t : PageTable) (p : Nat) : t.get p = t.pte p := by
  unfold get
  by_cases h : t.pte p = none
  · rw [h]; split <;> [rfl; split <;> [rfl; split <;> rfl]]
  · obtain ⟨h1, h2, h3⟩ := t.walk p h
    rw [if_neg h1, if_neg h2, if_neg h3]

/-- Allocate the tables on the way to page `p` that are missing, with write bit `w` in the
    entries that refer to them, and set its PTE. -/
def install (t : PageTable) (p : Nat) (e : Pte) (w : Bool) : PageTable where
  pgd := Function.update t.pgd (p / 2 ^ 27) (some ((t.pgd (p / 2 ^ 27)).getD w))
  pud := Function.update t.pud (p / 2 ^ 18) (some ((t.pud (p / 2 ^ 18)).getD w))
  pmd := Function.update t.pmd (p / 2 ^ 9) (some ((t.pmd (p / 2 ^ 9)).getD w))
  pte := Function.update t.pte p (some e)
  walk := by
    have hup : ∀ {f : Nat → Option Bool} {i j : Nat} {b : Bool}, (i ≠ j → f i ≠ none) → Function.update f j (some b) i ≠ none := by
      intro f i j b h
      by_cases e : i = j
      · rw [e, Function.update_self]; exact Option.some_ne_none b
      · rw [Function.update_of_ne e]; exact h e
    intro q hq
    by_cases e : q = p
    · subst e
      exact ⟨hup (fun h => absurd rfl h), hup (fun h => absurd rfl h), hup (fun h => absurd rfl h)⟩
    · rw [Function.update_of_ne e] at hq
      obtain ⟨h1, h2, h3⟩ := t.walk q hq
      exact ⟨hup fun _ => h1, hup fun _ => h2, hup fun _ => h3⟩

/-- Change a PTE through the pointer a walk returned; `none` clears it. -/
def alter (t : PageTable) (p : Nat) (f : Pte → Option Pte) : PageTable :=
  { t with
    pte := Function.update t.pte p ((t.pte p).bind f)
    walk := by
      intro q hq
      refine t.walk q fun h => hq ?_
      by_cases e : q = p
      · rw [e, Function.update_self, ← e, h]; rfl
      · rw [Function.update_of_ne e, h] }

/-- The processor lets user mode read what is mapped, and write where every level allows it. -/
def allows (t : PageTable) (p : Nat) (write : Bool) : Bool :=
  match t.pte p with
  | none => false
  | some e => !write || (e.write && t.pgd (p / 2 ^ 27) == some true && t.pud (p / 2 ^ 18) == some true &&
      t.pmd (p / 2 ^ 9) == some true)

/-- The error code of a page fault in user mode: bit 0 for a page that is there, bit 1 for a write. -/
def errorCode (t : PageTable) (p : Nat) (write : Bool) : UInt64 :=
  4 ||| (if write then 2 else 0) ||| (if (t.pte p).isSome then 1 else 0)

@[simp] theorem install_pte (t : PageTable) (p : Nat) (e : Pte) (w : Bool) :
    (t.install p e w).pte = Function.update t.pte p (some e) := rfl

@[simp] theorem alter_pte (t : PageTable) (p : Nat) (f : Pte → Option Pte) :
    (t.alter p f).pte = Function.update t.pte p ((t.pte p).bind f) := rfl

theorem allows_read (t : PageTable) (p : Nat) : t.allows p false = (t.pte p).isSome := by
  unfold allows; cases t.pte p <;> rfl

theorem allows_write {t : PageTable} {p : Nat} (h : t.allows p true = true) : ∃ e, t.pte p = some e ∧ e.write = true := by
  unfold allows at h
  cases he : t.pte p with
  | none => rw [he] at h; cases h
  | some e =>
    rw [he] at h
    simp only [Bool.not_true, Bool.false_or, Bool.and_eq_true] at h
    exact ⟨e, rfl, h.1.1.1⟩

end PageTable

end Cs330.Mm
