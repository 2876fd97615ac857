/-
  Cs330.Print.Vprintf — the numbers vprintf of lib.c and vuprintf of user/lib.c print.

  Both put the remainders of tmp into chars, last digit first, after tmp = -tmp for a negative
  number. The least int and the least long stay what they are: their remainders are negative
  and what is printed lies below '0' (`least_garbled`). Of every other number the text is
  its numeral, is read back as the number and is the text of no other (`numbers_exact_iff`).

  A format is its bytes without the NUL, and `str` is what %s reads at an address. `none`: the
  format ends behind a %, where the loop goes on after the NUL, or an argument is missing.
-/
import Cs330.Lib.CInt
import Cs330.Lib.Numeral

namespace Cs330.Print

open Lib Lib.CInt Lib.Numeral

def byte (c : Char) : UInt8 := c.toNat.toUInt8

/-- What a char keeps of an int. -/
def s8 (x : Int) : UInt8 := UInt8.ofInt x

/-- `va_arg(args, int)` and `va_arg(args, long)` -/
def vaInt (arg : UInt64) : Int := int32 arg.toNat
def vaLong (arg : UInt64) : Int := int64 arg.toNat

/-- A round of `while(tmp)`; `chars` has the last of its bytes in front. -/
def round (base : Int) (digit : Int → Int) (s : Int × List UInt8) : Option (Int × List UInt8) :=
  if s.1 = 0 then none else some (s.1.tdiv base, s8 (digit (s.1.tmod base)) :: s.2)

/-- `chars[20]`, read from its end. -/
def chars (base : Int) (digit : Int → Int) (tmp : Int) : List UInt8 := (Loop.run (round base digit) 20 (tmp, [])).2

/-- `'0' + tmp % 10` -/
def digit10 (r : Int) : Int := 48 + r

def digit16 (r : Int) : Int := if r > 9 then 65 + (r - 10) else 48 + r

def formatD (buf : List UInt8) (num : Int) : List UInt8 :=
  if num = 0 then buf ++ [byte '0']
  else
    let r := if num < 0 then (buf ++ [byte '-'], int32 (-num)) else (buf, num)
    r.1 ++ chars 10 digit10 r.2

def formatX (buf : List UInt8) (num : Int) : List UInt8 :=
  let r := if num < 0 then (buf ++ [byte '-'], int64 (-num)) else (buf, num)
  let buf := r.1 ++ [byte '0', byte 'x']
  if r.2 = 0 then buf ++ [byte '0'] else buf ++ chars 16 digit16 r.2

def vprintf (str : UInt64 → List UInt8) (buf : List UInt8) : List UInt8 → List UInt64 → Option (List UInt8)
  | [], _ => some buf
  | ch :: format, args =>
    if ch ≠ byte '%' then vprintf str (buf ++ [ch]) format args
    else
      match format, args with
      | [], _ => none
      | ch :: format, args =>
        if ch = byte 'c' ∨ ch = byte 'd' ∨ ch = byte 'u' ∨ ch = byte 'x' ∨ ch = byte 's' then
          match args with
          | [] => none
          | arg :: args =>
            if ch = byte 'c' then vprintf str (buf ++ [s8 (vaInt arg)]) format args
            else if ch = byte 'x' then vprintf str (formatX buf (vaLong arg)) format args
            else if ch = byte 's' then vprintf str (if arg = 0 then buf else buf ++ str arg) format args
            else vprintf str (formatD buf (vaInt arg)) format args
        else vprintf str (buf ++ [ch]) format args

/-- user/lib.c has the same text. -/
def vuprintf (str : UInt64 → List UInt8) (buf : List UInt8) (format : List UInt8) (args : List UInt64) : Option (List UInt8) :=
  vprintf str buf format args

/-! ## Numerals with a sign -/

/-- How a kind of numeral is written; no digit and no byte before the digits is a minus. -/
structure Form where
  pre : List UInt8
  base : Nat
  sym : Nat → UInt8
  dig : UInt8 → Option Nat
  one_lt : 1 < base
  known : ∀ d < base, dig (sym d) = some d
  minus_pre : byte '-' ∉ pre
  minus_dig : dig (byte '-') = none

def sign (v : Int) : List UInt8 := if v < 0 then [byte '-'] else []

/-- The canonical text of a number. -/
def Form.text (F : Form) (v : Int) : List UInt8 := sign v ++ F.pre ++ numeral F.sym F.base v.natAbs

/-- Without a sign. -/
def Form.parseNat (F : Form) (text : List UInt8) : Option Nat :=
  if F.pre <+: text then read F.dig F.base (text.drop F.pre.length) else none

def Form.parse (F : Form) : List UInt8 → Option Int
  | [] => none
  | c :: text => if c = byte '-' then (F.parseNat text).map fun n => -(n : Int) else (F.parseNat (c :: text)).map fun n => (n : Int)

def dig10 (c : UInt8) : Option Nat := if 48 ≤ c ∧ c ≤ 57 then some (c.toNat - 48) else none

def dig16 (c : UInt8) : Option Nat := if 65 ≤ c ∧ c ≤ 70 then some (c.toNat - 55) else dig10 c

def decimal : Form where
  pre := []
  base := 10
  sym d := s8 (digit10 d)
  dig := dig10
  one_lt := by decide
  known := by decide
  minus_pre := by decide
  minus_dig := by decide

def hexadecimal : Form where
  pre := [byte '0', byte 'x']
  base := 16
  sym d := s8 (digit16 d)
  dig := dig16
  one_lt := by decide
  known := by decide
  minus_pre := by decide
  minus_dig := by decide

theorem Form.parseNat_text (F : Form) (n : Nat) : F.parseNat (F.pre ++ numeral F.sym F.base n) = some n := by
  unfold Form.parseNat
  rw [if_pos (List.prefix_append _ _), List.drop_left]
  exact read_numeral F.one_lt F.known

theorem Form.minus_not_mem (F : Form) (n : Nat) : byte '-' ∉ F.pre ++ numeral F.sym F.base n := by
  intro h
  rcases List.mem_append.mp h with h | h
  · exact F.minus_pre h
  · obtain ⟨d, hd, hsym⟩ := mem_numeral F.one_lt h
    have hdig := F.known d hd
    rw [← hsym, F.minus_dig] at hdig
    cases hdig

/-- The text gives the number back. -/
theorem Form.parse_text (F : Form) (v : Int) : F.parse (F.text v) = some v := by
  have hnat := F.parseNat_text v.natAbs
  have hminus := F.minus_not_mem v.natAbs
  have hne : F.pre ++ numeral F.sym F.base v.natAbs ≠ [] := fun h => numeral_ne_nil (List.append_eq_nil_iff.mp h).2
  unfold Form.text sign
  rw [List.append_assoc]
  generalize F.pre ++ numeral F.sym F.base v.natAbs = text at hnat hminus hne
  split
  · rename_i hneg
    rw [List.singleton_append, Form.parse, if_pos rfl, hnat]
    exact congrArg some (show -(v.natAbs : Int) = v by omega)
  · rename_i hpos
    obtain ⟨c, text, rfl⟩ := List.exists_cons_of_ne_nil hne
    have hc : c ≠ byte '-' := fun h => hminus (List.mem_cons.mpr (.inl h.symm))
    rw [List.nil_append, Form.parse, if_neg hc, hnat]
    exact congrArg some (show (v.natAbs : Int) = v by omega)

/-! ## The loops -/

/-- Division and remainder of what is not negative. -/
theorem round_pos (base : Nat) (digit : Int → Int) {n : Nat} (hn : n ≠ 0) (l : List UInt8) :
    round base digit ((n : Int), l) = some (((n / base : Nat) : Int), s8 (digit ((n % base : Nat) : Int)) :: l) := by
  unfold round
  dsimp only
  rw [if_neg (Int.natCast_ne_zero.mpr hn)]
  rfl

/-- `chars` has room for every digit. -/
theorem chars_eq {base : Nat} (hbase : 10 ≤ base) (digit : Int → Int) {n : Nat} (hn : n < 2 ^ 63) :
    chars base digit n = digits (fun d => s8 (digit d)) base n := by
  have hleaves := divides (fun d : Nat => s8 (digit d)) (show 1 < base by omega) (fun l => if_pos rfl)
    (fun _ l hn => round_pos base digit hn l) n []
  have hlen : (Nat.digits base n).length ≤ 20 := by
    rw [Nat.digits_length_le_iff (by omega)]
    have hpow := Nat.pow_le_pow_left hbase 20
    omega
  unfold chars
  rw [hleaves.run_eq hlen, List.append_nil]

theorem chars_numeral {base : Nat} (hbase : 10 ≤ base) (digit : Int → Int) {n : Nat} (hn : n < 2 ^ 63) (h0 : n ≠ 0) :
    chars base digit n = numeral (fun d => s8 (digit d)) base n := by
  unfold numeral
  rw [if_neg h0]
  exact chars_eq hbase digit hn

/-- The sign is printed and taken off, unless the type has no room for `-v`. -/
theorem signed (buf : List UInt8) {v : Int} {type : Int → Int} (h : type (-v) = -v) :
    (if v < 0 then (buf ++ [byte '-'], type (-v)) else (buf, v)) = (buf ++ sign v, (v.natAbs : Int)) := by
  unfold sign
  split
  · rename_i hneg
    rw [h, show (v.natAbs : Int) = -v by omega]
  · rename_i hpos
    rw [List.append_nil, show (v.natAbs : Int) = v by omega]

theorem formatD_text (buf : List UInt8) {v : Int} (h1 : -2 ^ 31 < v) (h2 : v < 2 ^ 31) : formatD buf v = buf ++ decimal.text v := by
  unfold formatD Form.text
  rw [signed buf (int32_eq (by omega) (by omega))]
  by_cases h0 : v = 0
  · rw [if_pos h0, h0]
    rfl
  · rw [if_neg h0]
    have hnum := chars_numeral (Nat.le_refl 10) digit10 (show v.natAbs < 2 ^ 63 by omega) (by omega)
    show (buf ++ sign v) ++ chars 10 digit10 v.natAbs = buf ++ (sign v ++ [] ++ _)
    rw [List.append_nil, List.append_assoc]
    exact congrArg (fun t => buf ++ (sign v ++ t)) hnum

theorem formatX_text (buf : List UInt8) {v : Int} (h1 : -2 ^ 63 < v) (h2 : v < 2 ^ 63) : formatX buf v = buf ++ hexadecimal.text v := by
  unfold formatX Form.text
  rw [signed buf (int64_eq (by omega) (by omega))]
  dsimp only
  by_cases h0 : v = 0
  · subst h0
    show (buf ++ sign 0 ++ _ ++ _) = _
    rw [List.append_assoc, List.append_assoc]
    rfl
  · rw [if_neg (by omega)]
    have hnum := chars_numeral (show 10 ≤ 16 by decide) digit16 (show v.natAbs < 2 ^ 63 by omega) (by omega)
    show (buf ++ sign v ++ hexadecimal.pre) ++ chars 16 digit16 v.natAbs = _
    rw [List.append_assoc, List.append_assoc, List.append_assoc]
    exact congrArg (fun t => buf ++ (sign v ++ (hexadecimal.pre ++ t))) hnum

/-! ## Which numbers print exactly -/

/-- Whatever is in the buffer and comes after, the directive appends the text. -/
def Appends (print : List UInt8 → List UInt8 → List UInt64 → Option (List UInt8)) (ch : UInt8) (arg : UInt64) (text : List UInt8) :
    Prop :=
  ∀ buf format args, print buf (byte '%' :: ch :: format) (arg :: args) = print (buf ++ text) format args

/-- The directive appends the numeral, which has no zero in front, gives the number back, and
    is printed for no other number. -/
structure Exact (F : Form) (print : List UInt8 → List UInt8 → List UInt64 → Option (List UInt8)) (ch : UInt8) (value : UInt64 → Int)
    (arg : UInt64) : Prop where
  appends : Appends print ch arg (F.text (value arg))
  short : ∀ t, F.text (value arg) = sign (value arg) ++ F.pre ++ F.sym 0 :: t → t = []
  parses : F.parse (F.text (value arg)) = some (value arg)
  distinct : ∀ other text, value other ≠ value arg → Appends print ch other text → text ≠ F.text (value arg)

theorem Form.text_short (F : Form) {v : Int} {t : List UInt8} (h : F.text v = sign v ++ F.pre ++ F.sym 0 :: t) : t = [] := by
  refine numeral_short F.one_lt ?_ (List.append_cancel_left h)
  intro d hd hsym
  have hdig := F.known d hd
  rw [hsym, F.known 0 (Nat.lt_trans Nat.zero_lt_one F.one_lt)] at hdig
  exact (Option.some.inj hdig).symm

/-- A directive that prints every number but one, and for that one no numeral. -/
theorem exact_iff {F : Form} {print : List UInt8 → List UInt8 → List UInt64 → Option (List UInt8)} {ch : UInt8} {value : UInt64 → Int}
    {format : List UInt8 → Int → List UInt8} {least : Int} (hend : ∀ buf, print buf [] [] = some buf)
    (hprint : ∀ arg buf rest args, print buf (byte '%' :: ch :: rest) (arg :: args) = print (format buf (value arg)) rest args)
    (htext : ∀ arg buf, value arg ≠ least → format buf (value arg) = buf ++ F.text (value arg))
    (hleast : F.parse (format [] least) = none) (arg : UInt64) : Exact F print ch value arg ↔ value arg ≠ least := by
  have hunique : ∀ arg text, Appends print ch arg text → text = format [] (value arg) := by
    intro arg text happ
    have h := happ [] [] []
    rw [hprint, hend, hend] at h
    exact (Option.some.inj h).symm
  constructor
  · intro h he
    have hparse := h.parses
    rw [hunique arg _ h.appends, he, hleast] at hparse
    cases hparse
  · intro hne
    refine ⟨?_, fun t => F.text_short, F.parse_text _, ?_⟩
    · intro buf rest args
      rw [hprint, htext arg buf hne]
    · intro other text hother happ he
      rw [hunique other text happ] at he
      have hparse := F.parse_text (value arg)
      rw [← he] at hparse
      by_cases hl : value other = least
      · rw [hl, hleast] at hparse
        cases hparse
      · rw [htext other [] hl, List.nil_append, F.parse_text] at hparse
        exact hother (Option.some.inj hparse)

theorem vprintf_d (str : UInt64 → List UInt8) (arg : UInt64) (buf format : List UInt8) (args : List UInt64) :
    vprintf str buf (byte '%' :: byte 'd' :: format) (arg :: args) = vprintf str (formatD buf (vaInt arg)) format args := by
  rw [vprintf, if_neg (by decide), if_pos (by decide), if_neg (by decide), if_neg (by decide), if_neg (by decide)]

theorem vprintf_x (str : UInt64 → List UInt8) (arg : UInt64) (buf format : List UInt8) (args : List UInt64) :
    vprintf str buf (byte '%' :: byte 'x' :: format) (arg :: args) = vprintf str (formatX buf (vaLong arg)) format args := by
  rw [vprintf, if_neg (by decide), if_pos (by decide), if_neg (by decide), if_pos rfl]

/-- The remainders of the least int are negative: `./,),(-*,(` after the sign. -/
theorem least_int : formatD [] (-2 ^ 31) = [45, 46, 47, 44, 41, 44, 40, 45, 42, 44, 40] := by decide +kernel

/-- Of the least long, the first. -/
theorem least_long : formatX [] (-2 ^ 63) = [45, 48, 120, 40] ++ List.replicate 15 48 := by decide +kernel

theorem formatD_iff (str : UInt64 → List UInt8) (arg : UInt64) :
    Exact decimal (vprintf str) (byte 'd') vaInt arg ↔ vaInt arg ≠ -2 ^ 31 := by
  refine exact_iff (fun _ => rfl) (vprintf_d str) ?_ ?_ arg
  · intro arg buf hne
    have hrange : -2 ^ 31 ≤ vaInt arg ∧ vaInt arg < 2 ^ 31 := by
      unfold vaInt int32
      omega
    exact formatD_text buf (by omega) hrange.2
  · rw [least_int]
    decide

theorem formatX_iff (str : UInt64 → List UInt8) (arg : UInt64) :
    Exact hexadecimal (vprintf str) (byte 'x') vaLong arg ↔ vaLong arg ≠ -2 ^ 63 := by
  refine exact_iff (fun _ => rfl) (vprintf_x str) ?_ ?_ arg
  · intro arg buf hne
    have hrange : -2 ^ 63 ≤ vaLong arg ∧ vaLong arg < 2 ^ 63 := by
      unfold vaLong int64
      omega
    exact formatX_text buf (by omega) hrange.2
  · rw [least_long]
    decide

/-- Of every int but the least, and of every long but the least, vprintf and vuprintf print
    the numeral and nothing else prints it. -/
theorem numbers_exact_iff (str : UInt64 → List UInt8) (arg : UInt64) :
    (Exact decimal (vprintf str) (byte 'd') vaInt arg ↔ vaInt arg ≠ -2 ^ 31) ∧
    (Exact hexadecimal (vprintf str) (byte 'x') vaLong arg ↔ vaLong arg ≠ -2 ^ 63) ∧
    (Exact decimal (vuprintf str) (byte 'd') vaInt arg ↔ vaInt arg ≠ -2 ^ 31) ∧
    (Exact hexadecimal (vuprintf str) (byte 'x') vaLong arg ↔ vaLong arg ≠ -2 ^ 63) :=
  ⟨formatD_iff str arg, formatX_iff str arg, formatD_iff str arg, formatX_iff str arg⟩

/-- The least int and the least long. -/
theorem least_garbled : ¬ (∀ arg, Exact decimal (vprintf fun _ => []) (byte 'd') vaInt arg) ∧
    ¬ ∀ arg, Exact hexadecimal (vprintf fun _ => []) (byte 'x') vaLong arg := by
  constructor
  · intro h
    have hleast : vaInt 0x80000000 = -2 ^ 31 := by decide +kernel
    exact (formatD_iff _ _).mp (h 0x80000000) hleast
  · intro h
    have hleast : vaLong 0x8000000000000000 = -2 ^ 63 := by decide +kernel
    exact (formatX_iff _ _).mp (h 0x8000000000000000) hleast

end Cs330.Print
