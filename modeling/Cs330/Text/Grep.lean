/-
  Cs330.Text.Grep — the loop of grep (Assignment1/Part_1/src/part1.c).

  The file is read byte by byte into one buffer, `line[1000009]`, which is never cleared: a
  newline ends the line with a NUL and starts the next one at index 0. What stays behind
  the NUL of an earlier line is not read, because strstr and printf stop at the NUL
  (`Holds.cstr`). So from any bytes in the buffer the output is that of the lines alone:
  `prints_matching`, for files without NUL bytes whose lines fit (`List.splitOn` is what a
  line is).

  A write outside the buffer is `none`. The file is open and every read succeeds.
-/
import Mathlib.Data.List.Infix
import Mathlib.Logic.Function.Basic

namespace Cs330.Text

open Function

/-- The size of `line`. -/
def LINE_SIZE : Nat := 1000009

def NEWLINE : UInt8 := 10

/-- The string at `s`, of at most `n` bytes. -/
def cstr (s : Nat → UInt8) : Nat → Nat → List UInt8
  | 0, _ => []
  | n + 1, i => if s i = 0 then [] else s i :: cstr s n (i + 1)

/-- `strstr(haystack, needle) != NULL` -/
def strstr (haystack needle : List UInt8) : Bool := needle <:+: haystack

/-- `printf("%s:%s\n",loc,line)` or `printf("%s\n",line)` -/
def printed (loc : List UInt8) (fileordir : Bool) (line : List UInt8) : List UInt8 :=
  if !fileordir then loc ++ [58] ++ line ++ [NEWLINE] else line ++ [NEWLINE]

/-- The variables of grep's loop, and what has been printed. -/
structure Grep where
  line : Nat → UInt8
  len : Nat
  out : List UInt8

namespace Grep

/-- `line[i] = b` -/
def store (line : Nat → UInt8) (i : Nat) (b : UInt8) : Option (Nat → UInt8) :=
  if i < LINE_SIZE then some (update line i b) else none

/-- `if(strstr(line, pattern)) printf(...)` -/
def printMatch (pattern loc : List UInt8) (fileordir : Bool) (line : Nat → UInt8) (out : List UInt8) : List UInt8 :=
  if strstr (cstr line LINE_SIZE 0) pattern then out ++ printed loc fileordir (cstr line LINE_SIZE 0) else out

/-- The body of the loop. -/
def byte (pattern loc : List UInt8) (fileordir : Bool) (s : Grep) (tmp : UInt8) : Option Grep :=
  if tmp = NEWLINE then do
    let line ← store s.line s.len 0
    return ⟨line, 0, printMatch pattern loc fileordir line s.out⟩
  else do
    let line ← store s.line s.len tmp
    return { s with line := line, len := s.len + 1 }

end Grep

/-- The output of grep on a file, from whatever is in the buffer. -/
def grep (pattern loc : List UInt8) (fileordir : Bool) (junk : Nat → UInt8) (content : List UInt8) : Option (List UInt8) := do
  let s ← content.foldlM (Grep.byte pattern loc fileordir) ⟨junk, 0, []⟩
  let line ← Grep.store s.line s.len 0
  return if s.len ≠ 0 then Grep.printMatch pattern loc fileordir line s.out else s.out

/-! ## What it is for -/

/-- The lines to print: the ended ones that contain the pattern, and the last one if it is
    not empty and contains it. `parts` are the pieces between newlines. -/
def due (pattern : List UInt8) (parts : List (List UInt8)) : List (List UInt8) :=
  parts.dropLast.filter (fun line => strstr line pattern) ++
    (parts.getLast?.toList.filter fun last => last ≠ [] && strstr last pattern)

/-! ## The buffer -/

/-- The line so far is in the buffer, with anything behind it. -/
structure Grep.Holds (s : Grep) (cur : List UInt8) : Prop where
  len : s.len = cur.length
  bytes : ∀ i (h : i < cur.length), s.line i = cur[i]

theorem cstr_eq {line : Nat → UInt8} {l : List UInt8} (hnul : 0 ∉ l) : ∀ (n i : Nat), l.length < n →
    (∀ k (h : k < l.length), line (i + k) = l[k]) → line (i + l.length) = 0 → cstr line n i = l := by
  induction l with
  | nil =>
    intro n i hn _ hend
    cases n with
    | zero => cases hn
    | succ n =>
      unfold cstr
      exact if_pos hend
  | cons b l ih =>
    intro n i hn hbytes hend
    cases n with
    | zero => cases hn
    | succ n =>
      have hb : line i = b := hbytes 0 (Nat.zero_lt_succ _)
      have hne : b ≠ 0 := fun e => hnul (e ▸ List.mem_cons_self)
      have hrest := ih (fun h => hnul (List.mem_cons_of_mem _ h)) n (i + 1) (Nat.lt_of_succ_lt_succ hn)
        (fun k hk => by
          have := hbytes (k + 1) (Nat.succ_lt_succ hk)
          rwa [Nat.add_assoc, Nat.add_comm 1 k])
        (by rwa [Nat.add_assoc, Nat.add_comm 1 l.length])
      unfold cstr
      rw [hb, if_neg hne, hrest]

namespace Grep

variable {s : Grep} {cur : List UInt8}

/-- Once its NUL is there, the line reads back, whatever is behind. -/
theorem Holds.cstr (h : s.Holds cur) (hnul : 0 ∉ cur) (hlen : cur.length < LINE_SIZE) :
    Grep.store s.line s.len 0 = some (update s.line s.len 0) ∧ Text.cstr (update s.line s.len 0) LINE_SIZE 0 = cur := by
  constructor
  · unfold store
    rw [if_pos (by rw [h.len]; exact hlen)]
  · apply cstr_eq hnul LINE_SIZE 0 hlen
    · intro k hk
      rw [Nat.zero_add, update_of_ne (by rw [h.len]; omega)]
      exact h.bytes k hk
    · rw [Nat.zero_add, h.len, update_self]

/-- One more byte. -/
theorem Holds.push (h : s.Holds cur) (hlen : cur.length < LINE_SIZE) (b : UInt8) :
    Grep.store s.line s.len b = some (update s.line s.len b) ∧
      Holds { s with line := update s.line s.len b, len := s.len + 1 } (cur ++ [b]) := by
  constructor
  · unfold store
    rw [if_pos (by rw [h.len]; exact hlen)]
  · refine ⟨?_, fun i hi => ?_⟩
    · rw [List.length_append, h.len]
      rfl
    · dsimp only
      rw [List.length_append, List.length_singleton] at hi
      by_cases he : i = cur.length
      · subst he
        rw [h.len, update_self, List.getElem_concat_length rfl]
      · rw [update_of_ne (by rw [h.len]; exact he), List.getElem_append_left (by omega)]
        exact h.bytes i (by omega)

end Grep

/-! ## Lines -/

/-- The first piece starts with what has no newline. -/
theorem splitOn_head {cur : List UInt8} (hcur : NEWLINE ∉ cur) (rest : List UInt8) :
    ∃ head tail, (cur ++ rest).splitOn NEWLINE = head :: tail ∧ cur <+: head := by
  induction cur with
  | nil =>
    obtain ⟨head, tail, h⟩ := List.exists_cons_of_ne_nil (List.splitOn_ne_nil NEWLINE rest)
    exact ⟨head, tail, h, List.nil_prefix⟩
  | cons b cur ih =>
    obtain ⟨head, tail, h, hpre⟩ := ih fun hm => hcur (List.mem_cons_of_mem _ hm)
    have hb : (b == NEWLINE) = false := beq_eq_false_iff_ne.mpr fun e => hcur (e ▸ List.mem_cons_self)
    refine ⟨b :: head, tail, ?_, List.cons_prefix_cons.mpr ⟨rfl, hpre⟩⟩
    rw [List.cons_append, List.splitOn_cons_eq_if_modifyHead, hb, h]
    rfl

theorem due_cons (pattern line : List UInt8) {parts : List (List UInt8)} (h : parts ≠ []) :
    due pattern (line :: parts) = (if strstr line pattern then [line] else []) ++ due pattern parts := by
  obtain ⟨p, ps, rfl⟩ := List.exists_cons_of_ne_nil h
  unfold due
  rw [List.dropLast_cons_cons, List.getLast?_cons_cons, List.filter_cons]
  split
  · rfl
  · rfl

section
variable (pattern loc : List UInt8) (fileordir : Bool)

theorem printMatch_eq {line : Nat → UInt8} {l : List UInt8} (h : cstr line LINE_SIZE 0 = l) (out : List UInt8) :
    Grep.printMatch pattern loc fileordir line out =
      out ++ (if strstr l pattern then [l] else []).flatMap (printed loc fileordir) := by
  unfold Grep.printMatch
  rw [h]
  split
  · simp
  · simp

/-- What is left of grep, with the line so far in the buffer. -/
theorem run_prints : ∀ (rest cur : List UInt8) (s : Grep), s.Holds cur → NEWLINE ∉ cur → 0 ∉ cur ++ rest →
    (∀ l ∈ (cur ++ rest).splitOn NEWLINE, l.length < LINE_SIZE) →
    (do
      let s ← rest.foldlM (Grep.byte pattern loc fileordir) s
      let line ← Grep.store s.line s.len 0
      return if s.len ≠ 0 then Grep.printMatch pattern loc fileordir line s.out else s.out) =
      some (s.out ++ (due pattern ((cur ++ rest).splitOn NEWLINE)).flatMap (printed loc fileordir)) := by
  intro rest
  induction rest with
  | nil =>
    intro cur s hs hcur hnul hlong
    rw [List.append_nil] at hnul hlong ⊢
    rw [List.splitOn_eq_singleton hcur] at hlong ⊢
    obtain ⟨hstore, hline⟩ := hs.cstr hnul (hlong cur List.mem_cons_self)
    simp only [List.foldlM_nil, Option.pure_def, Option.bind_eq_bind, Option.bind_some, hstore]
    refine congrArg some ?_
    cases cur with
    | nil =>
      have hzero : s.len = 0 := hs.len
      rw [if_neg (not_not.mpr hzero)]
      simp [due]
    | cons b cur =>
      have hpos : s.len ≠ 0 := by rw [hs.len]; exact Nat.succ_ne_zero _
      rw [if_pos hpos, printMatch_eq pattern loc fileordir hline]
      unfold due
      by_cases hmatch : strstr (b :: cur) pattern = true
      · simp [hmatch]
      · simp [hmatch]
  | cons b rest ih =>
    intro cur s hs hcur hnul hlong
    have hnulcur : 0 ∉ cur := fun h => hnul (List.mem_append_left _ h)
    rw [List.foldlM_cons]
    by_cases hb : b = NEWLINE
    · subst hb
      -- the line is complete; the next one starts at index 0
      rw [List.splitOn_append_cons_self_of_not_mem hcur] at hlong ⊢
      obtain ⟨hstore, hline⟩ := hs.cstr hnulcur (hlong cur List.mem_cons_self)
      have hnext := ih [] ⟨update s.line s.len 0, 0, Grep.printMatch pattern loc fileordir (update s.line s.len 0) s.out⟩
        ⟨rfl, fun i hi => absurd hi (Nat.not_lt_zero i)⟩ List.not_mem_nil
        (fun h => hnul (List.mem_append_right _ (List.mem_cons_of_mem _ h)))
        (fun l hl => hlong l (List.mem_cons_of_mem _ hl))
      rw [List.nil_append] at hnext
      rw [due_cons pattern cur (List.splitOn_ne_nil _ _), List.flatMap_append, ← List.append_assoc,
        ← printMatch_eq pattern loc fileordir hline]
      rw [← hnext]
      simp only [Grep.byte, if_pos, hstore]
      rfl
    · have happend : cur ++ b :: rest = cur ++ [b] ++ rest := by simp
      rw [happend] at hnul hlong ⊢
      have hcur' : NEWLINE ∉ cur ++ [b] := by
        intro h
        rcases List.mem_append.mp h with h | h
        · exact hcur h
        · exact hb (List.mem_singleton.mp h).symm
      have hlen : cur.length < LINE_SIZE := by
        obtain ⟨head, tail, hsplit, hpre⟩ := splitOn_head hcur' rest
        have hhead := hlong head (hsplit ▸ List.mem_cons_self)
        have hle := hpre.length_le
        rw [List.length_append, List.length_singleton] at hle
        omega
      obtain ⟨hstore, hpush⟩ := hs.push hlen b
      have hnext := ih (cur ++ [b]) _ hpush hcur' hnul hlong
      rw [← hnext]
      simp only [Grep.byte, if_neg hb, hstore]
      rfl

end

/-- grep prints the lines that are due, in order, whatever the buffer holds at first. -/
theorem prints_matching (pattern loc : List UInt8) (fileordir : Bool) (content : List UInt8) (hnul : 0 ∉ content)
    (hlong : ∀ line ∈ content.splitOn NEWLINE, line.length ≤ 1000008) (junk : Nat → UInt8) :
    grep pattern loc fileordir junk content =
      some ((due pattern (content.splitOn NEWLINE)).flatMap (printed loc fileordir)) := by
  have hfit : ∀ line ∈ ([] ++ content).splitOn NEWLINE, line.length < LINE_SIZE := by
    intro line hline
    have := hlong line hline
    unfold LINE_SIZE
    omega
  exact run_prints pattern loc fileordir content [] ⟨junk, 0, []⟩ ⟨rfl, fun i hi => absurd hi (Nat.not_lt_zero i)⟩
    List.not_mem_nil hnul hfit

/-- `ab`, a line without the pattern, and an unterminated last line, in a buffer full of `x`. -/
theorem prints_matching_last : (0 : UInt8) ∉ ([97, 98, 10, 99, 10, 98] : List UInt8) ∧
    (∀ line ∈ ([97, 98, 10, 99, 10, 98] : List UInt8).splitOn NEWLINE, line.length ≤ 1000008) ∧
    grep [98] [] true (fun _ => 120) [97, 98, 10, 99, 10, 98] = some [97, 98, 10, 98, 10] := by
  have hnul : (0 : UInt8) ∉ ([97, 98, 10, 99, 10, 98] : List UInt8) := by decide
  have hlong : ∀ line ∈ ([97, 98, 10, 99, 10, 98] : List UInt8).splitOn NEWLINE, line.length ≤ 1000008 := by decide
  have h := prints_matching [98] [] true [97, 98, 10, 99, 10, 98] hnul hlong fun _ => 120
  exact ⟨hnul, hlong, h.trans (by decide)⟩

end Cs330.Text
