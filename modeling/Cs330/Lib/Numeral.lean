/-
  Cs330.Lib.Numeral — numerals in a base.

  `numeral sym b n` has the digits of `n`, the most significant first and no leading zero
  (`numeral_short`). `read` takes digits only; it reads a numeral as its number
  (`read_numeral`). The loop that divides by the base and puts each remainder in front of
  those before comes to the numeral (`divides`).
-/
import Cs330.Lib.Loop
import Mathlib.Data.Nat.Digits.Lemmas

namespace Cs330.Lib.Numeral

variable {α : Type} {sym : Nat → α} {dig : α → Option Nat} {b n : Nat} {l : List α}

/-- The digits, none for 0. -/
def digits (sym : Nat → α) (b n : Nat) : List α := (Nat.digits b n).reverse.map sym

def numeral (sym : Nat → α) (b n : Nat) : List α := if n = 0 then [sym 0] else digits sym b n

def read (dig : α → Option Nat) (b : Nat) : List α → Option Nat
  | [] => none
  | l => l.foldlM (fun n c => (dig c).map fun d => n * b + d) 0

theorem mem_digits (hb : 1 < b) {c : α} (h : c ∈ digits sym b n) : ∃ d < b, c = sym d := by
  unfold digits at h
  obtain ⟨d, hd, rfl⟩ := List.mem_map.mp h
  exact ⟨d, Nat.digits_lt_base hb (List.mem_reverse.mp hd), rfl⟩

theorem mem_numeral (hb : 1 < b) {c : α} (h : c ∈ numeral sym b n) : ∃ d < b, c = sym d := by
  unfold numeral at h
  split at h
  · exact ⟨0, by omega, List.mem_singleton.mp h⟩
  · exact mem_digits hb h

theorem numeral_ne_nil : numeral sym b n ≠ [] := by
  unfold numeral
  split
  · exact List.cons_ne_nil _ _
  · rename_i hn
    unfold digits
    intro h
    exact hn (Nat.digits_eq_nil_iff_eq_zero.mp (List.reverse_eq_nil_iff.mp (List.map_eq_nil_iff.mp h)))

/-- No zero in front of other digits. -/
theorem numeral_short (hb : 1 < b) (hsym : ∀ d < b, sym d = sym 0 → d = 0) {t : List α} (h : numeral sym b n = sym 0 :: t) :
    t = [] := by
  unfold numeral at h
  split at h
  · cases h
    rfl
  · rename_i hn
    obtain ⟨d, ds, hds, hd, -⟩ := List.map_eq_cons_iff.mp h
    have hlast : Nat.digits b n = ds.reverse ++ [d] := by
      rw [← List.reverse_reverse (Nat.digits b n), hds, List.reverse_cons]
    have hmem : d ∈ Nat.digits b n := by
      rw [hlast]
      exact List.mem_append_right _ (List.mem_singleton_self d)
    have hne := Nat.getLast_digit_ne_zero b hn
    simp only [hlast, List.getLast_append_singleton] at hne
    exact absurd (hsym d (Nat.digits_lt_base hb hmem) hd) hne

/-- Read from the left. -/
theorem foldlM_digits (hdig : ∀ d < b, dig (sym d) = some d) {ds : List Nat} (hds : ∀ d ∈ ds, d < b) (a : Nat) :
    (ds.map sym).foldlM (fun n c => (dig c).map fun d => n * b + d) a = some (ds.foldl (fun n d => n * b + d) a) := by
  induction ds generalizing a with
  | nil => rfl
  | cons d ds ih =>
    rw [List.map_cons, List.foldlM_cons, hdig d (hds d List.mem_cons_self)]
    exact ih (fun e he => hds e (List.mem_cons_of_mem _ he)) _

theorem read_numeral (hb : 1 < b) (hdig : ∀ d < b, dig (sym d) = some d) : read dig b (numeral sym b n) = some n := by
  have hread : ∀ l : List α, l ≠ [] → read dig b l = l.foldlM (fun n c => (dig c).map fun d => n * b + d) 0 := by
    intro l hl
    cases l with
    | nil => exact absurd rfl hl
    | cons c l => rfl
  rw [hread _ numeral_ne_nil]
  unfold numeral
  split
  · rename_i hn
    rw [hn, List.foldlM_cons, hdig 0 (by omega)]
    show some (0 * b + 0) = some 0
    rw [Nat.zero_mul]
  · unfold digits
    rw [foldlM_digits hdig fun d hd => Nat.digits_lt_base hb (List.mem_reverse.mp hd), List.foldl_reverse]
    have hstep : (fun d n : Nat => n * b + d) = fun d n => d + b * n := by
      funext d n
      rw [Nat.mul_comm, Nat.add_comm]
    rw [hstep]
    exact congrArg some ((Nat.ofDigits_eq_foldr b _).symm.trans (Nat.ofDigits_digits b n))

/-- Each round puts the next digit in front. -/
theorem divides (sym : Nat → α) (hb : 1 < b) {body : Int × List α → Option (Int × List α)} (hzero : ∀ l, body (0, l) = none)
    (hstep : ∀ n l, n ≠ 0 → body ((n : Nat), l) = some (((n / b : Nat) : Int), sym (n % b) :: l)) (n : Nat) (l : List α) :
    Loop.Leaves body (Nat.digits b n).length ((n : Int), l) (0, digits sym b n ++ l) := by
  induction n using Nat.strong_induction_on generalizing l with
  | _ n ih =>
    by_cases hn : n = 0
    · subst hn
      have heq : digits sym b 0 = [] := by
        unfold digits
        rw [Nat.digits_zero]
        rfl
      rw [Nat.digits_zero, heq]
      exact .exit (hzero l)
    · have hdigits := Nat.digits_def' hb (Nat.pos_of_ne_zero hn)
      have hrest := ih (n / b) (Nat.div_lt_self (Nat.pos_of_ne_zero hn) hb) (sym (n % b) :: l)
      have heq : digits sym b n ++ l = digits sym b (n / b) ++ sym (n % b) :: l := by
        unfold digits
        rw [hdigits, List.reverse_cons, List.map_append, List.append_assoc]
        rfl
      rw [hdigits, List.length_cons, heq]
      exact .round (hstep n l hn) hrest

end Cs330.Lib.Numeral
