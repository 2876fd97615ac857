/-
  Cs330.Hash.Generator — inputgen.c: the operations it makes up, as a .bin file and as text.

  100 PUTs of fresh keys, and then operations of kinds and keys that are drawn: a fresh key
  is one more of `unique_keys`, the others are taken from there or drawn and forgotten.

  Whatever is drawn, the two files list the same records, with ids 1, 2, 3 …, and no more
  keys are PUT than the cap on the command line (`generated`). The array has room for as
  many keys as the cap; the mandatory PUTs are stored before the assert on that, and the
  others counted before it, so a cap of 100 or less can be written past, and with a greater
  one the generator stops one key short of it.

  The files are opened without O_TRUNC: over a longer one the end of the old one stays.
-/
import Cs330.Hash.Reader
import Cs330.Lib.Numeral

namespace Cs330.Hash

open Lib.Numeral

/-! ## The text -/

def sym (d : Nat) : UInt8 := UInt8.ofNat (48 + d)

/-- `%lu ` and `%u ` -/
def word (n : Nat) : List UInt8 := numeral sym 10 n ++ [32]

/-- The line of a record. -/
def Rec.line : Rec → List UInt8
  | .put id key payload =>
    word id.toNat ++ (word key.toNat ++ (word OpType.PUT.code ++ (word payload.1.length ++ (payload.1 ++ [10]))))
  | .get id key => word id.toNat ++ (word key.toNat ++ (word OpType.GET.code ++ [10]))
  | .del id key => word id.toNat ++ (word key.toNat ++ (word OpType.DEL.code ++ [10]))

def dig (c : UInt8) : Option Nat := if 48 ≤ c.toNat ∧ c.toNat < 58 then some (c.toNat - 48) else none

def readWord (l : List UInt8) : Option (Nat × List UInt8) :=
  match l.dropWhile (· ≠ 32) with
  | [] => none
  | _ :: rest => (read dig 10 (l.takeWhile (· ≠ 32))).map (·, rest)

def readLine (l : List UInt8) : Option (Rec × List UInt8) :=
  (readWord l).bind fun (id, l) => (readWord l).bind fun (key, l) => (readWord l).bind fun (op, l) =>
    match OpType.decode op with
    | none => none
    | some .PUT => (readWord l).bind fun (len, l) =>
      if h : (l.take len).length < 2 ^ 32 then
        match l.drop len with
        | 10 :: rest => some (.put (UInt64.ofNat id) (UInt64.ofNat key) ⟨l.take len, h⟩, rest)
        | _ => none
      else none
    | some .GET =>
      match l with
      | 10 :: rest => some (.get (UInt64.ofNat id) (UInt64.ofNat key), rest)
      | _ => none
    | some .DEL =>
      match l with
      | 10 :: rest => some (.del (UInt64.ofNat id) (UInt64.ofNat key), rest)
      | _ => none

/-- At most `n` lines. -/
def readTxt : Nat → List UInt8 → Option (List Rec)
  | _, [] => some []
  | 0, _ => none
  | n + 1, l => (readLine l).bind fun (r, rest) => (readTxt n rest).map (r :: ·)

theorem sym_toNat {d : Nat} (h : d < 10) : (sym d).toNat = 48 + d := by
  unfold sym
  rw [UInt8.toNat_ofNat']
  omega

theorem readWord_word (n : Nat) (rest : List UInt8) : readWord (word n ++ rest) = some (n, rest) := by
  have hne : ∀ c ∈ numeral sym 10 n, decide (c ≠ 32) = true := by
    intro c hc
    obtain ⟨d, hd, rfl⟩ := mem_numeral (by decide) hc
    have hd' := sym_toNat hd
    refine decide_eq_true fun h => ?_
    rw [h] at hd'
    have : (32 : UInt8).toNat = 32 := rfl
    omega
  have hdig : ∀ d < 10, dig (sym d) = some d := by
    intro d hd
    unfold dig
    rw [sym_toNat hd, if_pos ⟨by omega, by omega⟩]
    congr 1
    omega
  have hl : word n ++ rest = numeral sym 10 n ++ 32 :: rest := by
    unfold word
    rw [List.append_assoc]
    rfl
  unfold readWord
  rw [hl, List.dropWhile_append_of_pos hne, List.takeWhile_append_of_pos hne]
  show (read dig 10 (numeral sym 10 n ++ [])).map _ = _
  rw [List.append_nil, read_numeral (by decide) hdig]
  rfl

theorem readLine_line (r : Rec) (rest : List UInt8) : readLine (r.line ++ rest) = some (r, rest) := by
  unfold readLine Rec.line
  cases r with
  | put id key payload =>
    obtain ⟨text, htext⟩ := payload
    have htake : (text ++ [10] ++ rest).take text.length = text := by rw [List.append_assoc, List.take_left]
    have hdrop : (text ++ [10] ++ rest).drop text.length = 10 :: rest := by rw [List.append_assoc, List.drop_left]; rfl
    simp only [List.append_assoc, readWord_word, Option.bind_some, OpType.decode_code]
    simp only [← List.append_assoc, htake, hdrop, htext, ↓reduceDIte, UInt64.ofNat_toNat]
  | get id key =>
    simp only [List.append_assoc, readWord_word, Option.bind_some, OpType.decode_code, UInt64.ofNat_toNat, List.singleton_append]
  | del id key =>
    simp only [List.append_assoc, readWord_word, Option.bind_some, OpType.decode_code, UInt64.ofNat_toNat, List.singleton_append]

/-- The text of a list of records gives the list. -/
theorem readTxt_lines (recs : List Rec) : readTxt recs.length (recs.flatMap Rec.line) = some recs := by
  induction recs with
  | nil => rfl
  | cons r recs ih =>
    rw [List.flatMap_cons, List.length_cons]
    have hne : ∃ c l, r.line ++ recs.flatMap Rec.line = c :: l := by
      cases h : r.line ++ recs.flatMap Rec.line with
      | nil =>
        have hread := readLine_line r (recs.flatMap Rec.line)
        rw [h] at hread
        cases hread
      | cons c l => exact ⟨c, l, rfl⟩
    obtain ⟨c, l, hcl⟩ := hne
    have hread := readLine_line r (recs.flatMap Rec.line)
    rw [hcl] at hread ⊢
    unfold readTxt
    rw [hread]
    simp only [Option.bind_some, ih, Option.map_some]

/-! ## The generator -/

def MANDATORY_PUTS : Nat := 100

def PUT_FRESH_HIGH : Nat := 2000
def PUT_OVERWRITE_HIGH : Nat := 3000
def GET_SUCCESS_HIGH : Nat := 8000
def GET_FAIL_HIGH : Nat := 9000
def DEL_SUCCESS_HIGH : Nat := 9700

/-- What the calls of rand() return, and the reads of /dev/urandom. -/
structure Draws where
  rand : Nat → Nat
  urandom : Nat → UInt64

/-- How a run ends before its time: an assert fails, or `unique_keys` is written past its end. -/
inductive Stop where
  | assert
  | overrun
  deriving DecidableEq, Repr

/-- `rands` and `reads` count the calls so far, `uniqueKeys` is the array up to `unique_ctr`. -/
structure Gen where
  rands : Nat
  reads : Nat
  id : UInt64
  uniqueKeys : List UInt64
  bin : List UInt8
  txt : List UInt8

/-- The character for `rand() % 62`. -/
def randChar (ch : Nat) : UInt8 :=
  if ch < 10 then UInt8.ofNat (48 + ch) else if ch < 36 then UInt8.ofNat (65 + ch - 10) else UInt8.ofNat (97 + ch - 36)

namespace Gen

/-- `generate_rand_text`, without the length it writes in front. -/
def generateRandText (d : Draws) (g : Gen) : List UInt8 :=
  (List.range (8 + d.rand g.rands % 25)).map fun ctr => randChar (d.rand (g.rands + 1 + ctr) % 62)

/-- `create_put`, and `++id`. -/
def createPut (d : Draws) (g : Gen) (key : UInt64) : Gen :=
  let text := g.generateRandText d
  { g with
    rands := g.rands + 1 + text.length
    id := g.id + 1
    bin := g.bin ++ Hash.createPut g.id key text
    txt := g.txt ++ (word g.id.toNat ++ (word key.toNat ++ (word OpType.PUT.code ++ (word text.length ++ (text ++ [10]))))) }

/-- `create_get_del`, and `++id`. -/
def createGetDel (g : Gen) (key : UInt64) (op : OpType) : Gen :=
  { g with
    id := g.id + 1
    bin := g.bin ++ Hash.createGetDel g.id key op
    txt := g.txt ++ (word g.id.toNat ++ (word key.toNat ++ (word op.code ++ [10]))) }

/-- `unique_keys[unique_ctr] = key` with a key from /dev/urandom, and the count of it. -/
def storeKey (d : Draws) (maxUnique : Nat) (g : Gen) : Except Stop Gen :=
  if g.uniqueKeys.length < maxUnique then
    .ok { g with reads := g.reads + 1, uniqueKeys := g.uniqueKeys ++ [d.urandom g.reads] }
  else .error .overrun

/-- The loop of mandatory PUTs; the asserts in it are on the count before. -/
def mandatory (d : Draws) (maxUnique : Nat) : Nat → Gen → Except Stop Gen
  | 0, g => .ok g
  | n + 1, g =>
    match g.storeKey d maxUnique with
    | .error e => .error e
    | .ok g' =>
      if g.uniqueKeys.length < maxUnique then mandatory d maxUnique n (g'.createPut d (d.urandom g.reads)) else .error .assert

/-- `unique_keys[rand() % unique_ctr]` -/
def pickKey (d : Draws) (g : Gen) : UInt64 × Gen :=
  (g.uniqueKeys.getD (d.rand g.rands % g.uniqueKeys.length) 0, { g with rands := g.rands + 1 })

/-- A key that is not kept. -/
def freshKey (d : Draws) (g : Gen) : UInt64 × Gen := (d.urandom g.reads, { g with reads := g.reads + 1 })

/-- One round of the loop. -/
def round (d : Draws) (maxUnique : Nat) (g : Gen) : Except Stop Gen :=
  let prob := d.rand g.rands % 10000
  let g := { g with rands := g.rands + 1 }
  if prob < PUT_FRESH_HIGH then
    match g.storeKey d maxUnique with
    | .error e => .error e
    | .ok g' => if g'.uniqueKeys.length < maxUnique then .ok (g'.createPut d (d.urandom g.reads)) else .error .assert
  else if prob < PUT_OVERWRITE_HIGH then .ok ((g.pickKey d).2.createPut d (g.pickKey d).1)
  else if prob < GET_SUCCESS_HIGH then .ok ((g.pickKey d).2.createGetDel (g.pickKey d).1 .GET)
  else if prob < GET_FAIL_HIGH then .ok ((g.freshKey d).2.createGetDel (g.freshKey d).1 .GET)
  else if prob < DEL_SUCCESS_HIGH then .ok ((g.pickKey d).2.createGetDel (g.pickKey d).1 .DEL)
  else .ok ((g.freshKey d).2.createGetDel (g.freshKey d).1 .DEL)

def rounds (d : Draws) (maxUnique : Nat) : Nat → Gen → Except Stop Gen
  | 0, g => .ok g
  | n + 1, g =>
    match g.round d maxUnique with
    | .error e => .error e
    | .ok g' => rounds d maxUnique n g'

end Gen

/-- `main`; `totalops` wraps below the mandatory PUTs. -/
def generate (d : Draws) (totalops : UInt64) (maxUnique : Nat) : Except Stop Gen :=
  match Gen.mandatory d maxUnique MANDATORY_PUTS ⟨0, 0, 1, [], [], []⟩ with
  | .error e => .error e
  | .ok g => g.rounds d maxUnique (totalops - UInt64.ofNat MANDATORY_PUTS).toNat

/-- What a file opened without O_TRUNC holds after `new` has been written. -/
def overwrite (old new : List UInt8) : List UInt8 := new ++ old.drop new.length

/-! ## What is written -/

/-- The files list `recs`; every key PUT so far is kept. -/
structure Gen.Lists (g : Gen) (recs : List Rec) : Prop where
  bin : g.bin = encode recs
  txt : g.txt = recs.flatMap Rec.line
  next : g.id.toNat = (recs.length + 1) % 2 ^ 64
  ids : ∀ i (h : i < recs.length), recs[i].id = (i + 1) % 2 ^ 64
  keys : ∀ r ∈ recs, r.opType = .PUT → ∃ k ∈ g.uniqueKeys, r.key = k.toNat

namespace Gen

variable {d : Draws} {maxUnique : Nat} {g g' : Gen} {recs : List Rec} {key : UInt64}

/-- One more record. -/
theorem Lists.snoc (h : g.Lists recs) {r : Rec} (hid : r.id = g.id.toNat) (hbin : g'.bin = g.bin ++ r.bytes)
    (htxt : g'.txt = g.txt ++ r.line) (hnext : g'.id = g.id + 1) (hkeys : ∀ k ∈ g.uniqueKeys, k ∈ g'.uniqueKeys)
    (hkey : r.opType = .PUT → ∃ k ∈ g'.uniqueKeys, r.key = k.toNat) : g'.Lists (recs ++ [r]) := by
  refine ⟨?_, ?_, ?_, fun i hi => ?_, fun q hq hput => ?_⟩
  · rw [hbin, h.bin, encode_append]
    unfold encode
    rw [List.flatMap_singleton]
  · rw [htxt, h.txt, List.flatMap_append, List.flatMap_singleton]
  · rw [hnext, UInt64.toNat_add, h.next, List.length_append, List.length_singleton]
    show ((recs.length + 1) % 2 ^ 64 + 1) % 2 ^ 64 = _
    omega
  · by_cases hlt : i < recs.length
    · rw [List.getElem_append_left hlt]
      exact h.ids i hlt
    · obtain rfl : i = recs.length := by
        rw [List.length_append, List.length_singleton] at hi
        omega
      rw [List.getElem_append_right (Nat.le_refl _)]
      simp only [Nat.sub_self, List.getElem_cons_zero]
      rw [hid, h.next]
  · rcases List.mem_append.mp hq with hq | hq
    · obtain ⟨k, hk, he⟩ := h.keys q hq hput
      exact ⟨k, hkeys k hk, he⟩
    · rw [List.mem_singleton.mp hq] at hput ⊢
      exact hkey hput

theorem text_length (d : Draws) (g : Gen) : (g.generateRandText d).length < 2 ^ 32 := by
  unfold generateRandText
  rw [List.length_map, List.length_range]
  omega

theorem lists_createPut (h : g.Lists recs) (hk : key ∈ g.uniqueKeys) : ∃ r, (g.createPut d key).Lists (recs ++ [r]) :=
  ⟨.put g.id key ⟨g.generateRandText d, text_length d g⟩, h.snoc rfl rfl rfl rfl (fun _ hk => hk) fun _ => ⟨key, hk, rfl⟩⟩

theorem lists_get (h : g.Lists recs) (key : UInt64) : ∃ r, (g.createGetDel key .GET).Lists (recs ++ [r]) :=
  ⟨.get g.id key, h.snoc rfl rfl rfl rfl (fun _ hk => hk) nofun⟩

theorem lists_del (h : g.Lists recs) (key : UInt64) : ∃ r, (g.createGetDel key .DEL).Lists (recs ++ [r]) :=
  ⟨.del g.id key, h.snoc rfl rfl rfl rfl (fun _ hk => hk) nofun⟩

/-- Calls that write nothing. -/
theorem Lists.congr (h : g.Lists recs) (hbin : g'.bin = g.bin) (htxt : g'.txt = g.txt) (hid : g'.id = g.id)
    (hkeys : ∀ k ∈ g.uniqueKeys, k ∈ g'.uniqueKeys) : g'.Lists recs := by
  refine ⟨hbin.trans h.bin, htxt.trans h.txt, by rw [hid]; exact h.next, h.ids, fun r hr hput => ?_⟩
  obtain ⟨k, hk, he⟩ := h.keys r hr hput
  exact ⟨k, hkeys k hk, he⟩

theorem storeKey_cases (d : Draws) (maxUnique : Nat) (g : Gen) :
    (maxUnique ≤ g.uniqueKeys.length ∧ g.storeKey d maxUnique = .error .overrun) ∨
      (g.uniqueKeys.length < maxUnique ∧ g.storeKey d maxUnique =
        .ok { g with reads := g.reads + 1, uniqueKeys := g.uniqueKeys ++ [d.urandom g.reads] }) := by
  unfold storeKey
  split
  · rename_i h
    exact .inr ⟨h, rfl⟩
  · rename_i h
    exact .inl ⟨Nat.le_of_not_lt h, rfl⟩

/-- The mandatory PUTs: all of them, or the first that the array has no room for. -/
theorem mandatory_spec (n : Nat) (h : g.Lists recs) :
    (maxUnique < g.uniqueKeys.length + n ∧ mandatory d maxUnique n g = .error .overrun) ∨
      ∃ g' new, mandatory d maxUnique n g = .ok g' ∧ g'.Lists (recs ++ new) ∧ new.length = n ∧
        g'.uniqueKeys.length = g.uniqueKeys.length + n ∧ (0 < n → g.uniqueKeys.length + n ≤ maxUnique) := by
  induction n generalizing g recs with
  | zero => exact .inr ⟨g, [], rfl, by rwa [List.append_nil], rfl, rfl, fun h => absurd h (Nat.lt_irrefl 0)⟩
  | succ n ih =>
    unfold mandatory
    rcases storeKey_cases d maxUnique g with ⟨hfull, hstore⟩ | ⟨hroom, hstore⟩
    · rw [hstore]
      exact .inl ⟨by omega, rfl⟩
    · rw [hstore]
      simp only
      rw [if_pos hroom]
      obtain ⟨g₁, hg₁⟩ : ∃ g₁ : Gen, g₁ = { g with reads := g.reads + 1, uniqueKeys := g.uniqueKeys ++ [d.urandom g.reads] } := ⟨_, rfl⟩
      have hlen : g₁.uniqueKeys.length = g.uniqueKeys.length + 1 := by
        rw [hg₁]
        exact List.length_append
      have h₁ : g₁.Lists recs := by
        rw [hg₁]
        exact h.congr rfl rfl rfl fun k hk => List.mem_append_left _ hk
      have hmem : d.urandom g.reads ∈ g₁.uniqueKeys := by
        rw [hg₁]
        exact List.mem_append_right _ (List.mem_singleton_self _)
      obtain ⟨r, hr⟩ := lists_createPut (d := d) h₁ hmem
      rw [← hg₁]
      have hsame : (g₁.createPut d (d.urandom g.reads)).uniqueKeys.length = g.uniqueKeys.length + 1 := hlen
      rcases ih hr with ⟨hover, herr⟩ | ⟨g', new, hok, hlists, hn, hkeys, hle⟩
      · rw [hsame] at hover
        exact .inl ⟨by omega, herr⟩
      · rw [hsame] at hkeys hle
        refine .inr ⟨g', r :: new, hok, ?_, by rw [List.length_cons, hn], by omega, fun _ => ?_⟩
        · rwa [List.append_assoc, List.singleton_append] at hlists
        · by_cases hn0 : 0 < n
          · have := hle hn0
            omega
          · omega

theorem pickKey_mem (d : Draws) (hpos : 0 < g.uniqueKeys.length) : (g.pickKey d).1 ∈ g.uniqueKeys := by
  have hlt : d.rand g.rands % g.uniqueKeys.length < g.uniqueKeys.length := Nat.mod_lt _ hpos
  unfold pickKey
  simp only
  rw [List.getD_eq_getElem _ _ hlt]
  exact List.getElem_mem hlt

/-- One round: a record, or the array is full, or nearly. -/
theorem round_spec (d : Draws) (maxUnique : Nat) (h : g.Lists recs) (hpos : 0 < g.uniqueKeys.length) :
    (g.round d maxUnique = .error .overrun ∧ maxUnique ≤ g.uniqueKeys.length) ∨
      (g.round d maxUnique = .error .assert ∧ g.uniqueKeys.length < maxUnique) ∨
      ∃ g' r, g.round d maxUnique = .ok g' ∧ g'.Lists (recs ++ [r]) ∧
        (g'.uniqueKeys = g.uniqueKeys ∨ (g'.uniqueKeys.length = g.uniqueKeys.length + 1 ∧ g'.uniqueKeys.length < maxUnique)) := by
  obtain ⟨g₀, hg₀⟩ : ∃ g₀ : Gen, g₀ = { g with rands := g.rands + 1 } := ⟨_, rfl⟩
  have h₀ : g₀.Lists recs := by
    rw [hg₀]
    exact h.congr rfl rfl rfl fun _ hk => hk
  have hkeys : g₀.uniqueKeys = g.uniqueKeys := by rw [hg₀]
  have hpick : (g₀.pickKey d).1 ∈ (g₀.pickKey d).2.uniqueKeys := pickKey_mem d (by rw [hkeys]; exact hpos)
  have hpicked : (g₀.pickKey d).2.Lists recs := h₀.congr rfl rfl rfl fun _ hk => hk
  have hfresh : (g₀.freshKey d).2.Lists recs := h₀.congr rfl rfl rfl fun _ hk => hk
  unfold round
  simp only
  rw [← hg₀]
  split
  · rcases storeKey_cases d maxUnique g₀ with ⟨hfull, hstore⟩ | ⟨hroom, hstore⟩
    · rw [hstore]
      exact .inl ⟨rfl, by rwa [← hkeys]⟩
    · rw [hstore]
      simp only
      split
      · rename_i hlt
        obtain ⟨g₁, hg₁⟩ : ∃ g₁ : Gen, g₁ = { g₀ with reads := g₀.reads + 1, uniqueKeys := g₀.uniqueKeys ++ [d.urandom g₀.reads] } :=
          ⟨_, rfl⟩
        have h₁ : g₁.Lists recs := by
          rw [hg₁]
          exact h₀.congr rfl rfl rfl fun k hk => List.mem_append_left _ hk
        have hmem : d.urandom g₀.reads ∈ g₁.uniqueKeys := by
          rw [hg₁]
          exact List.mem_append_right _ (List.mem_singleton_self _)
        obtain ⟨r, hr⟩ := lists_createPut (d := d) h₁ hmem
        rw [show g₀.reads = g.reads by rw [hg₀]] at hr
        rw [← hg₁]
        refine .inr (.inr ⟨_, r, rfl, hr, .inr ⟨?_, ?_⟩⟩)
        · show g₁.uniqueKeys.length = _
          rw [hg₁, ← hkeys]
          exact List.length_append
        · show g₁.uniqueKeys.length < maxUnique
          rw [hg₁]
          exact hlt
      · exact .inr (.inl ⟨rfl, by rwa [← hkeys]⟩)
  split
  · obtain ⟨r, hr⟩ := lists_createPut (d := d) hpicked hpick
    exact .inr (.inr ⟨_, r, rfl, hr, .inl hkeys⟩)
  split
  · obtain ⟨r, hr⟩ := lists_get hpicked (g₀.pickKey d).1
    exact .inr (.inr ⟨_, r, rfl, hr, .inl hkeys⟩)
  split
  · obtain ⟨r, hr⟩ := lists_get hfresh (g₀.freshKey d).1
    exact .inr (.inr ⟨_, r, rfl, hr, .inl hkeys⟩)
  split
  · obtain ⟨r, hr⟩ := lists_del hpicked (g₀.pickKey d).1
    exact .inr (.inr ⟨_, r, rfl, hr, .inl hkeys⟩)
  · obtain ⟨r, hr⟩ := lists_del hfresh (g₀.freshKey d).1
    exact .inr (.inr ⟨_, r, rfl, hr, .inl hkeys⟩)

/-- How many keys there are once the mandatory ones are stored. -/
def Counted (maxUnique n : Nat) : Prop := n = MANDATORY_PUTS ∧ n ≤ maxUnique ∨ MANDATORY_PUTS < n ∧ n < maxUnique

theorem rounds_spec (d : Draws) (maxUnique n : Nat) (h : g.Lists recs) (hc : Counted maxUnique g.uniqueKeys.length) :
    (g.rounds d maxUnique n = .error .overrun ∧ maxUnique = MANDATORY_PUTS) ∨
      (g.rounds d maxUnique n = .error .assert ∧ MANDATORY_PUTS < maxUnique) ∨
      ∃ g' new, g.rounds d maxUnique n = .ok g' ∧ g'.Lists (recs ++ new) ∧ new.length = n ∧ Counted maxUnique g'.uniqueKeys.length := by
  induction n generalizing g recs with
  | zero => exact .inr (.inr ⟨g, [], rfl, by rwa [List.append_nil], rfl, hc⟩)
  | succ n ih =>
    have hpos : 0 < g.uniqueKeys.length := by
      unfold Counted MANDATORY_PUTS at hc
      omega
    unfold rounds
    rcases round_spec d maxUnique h hpos with ⟨he, hfull⟩ | ⟨he, hroom⟩ | ⟨g₁, r, he, hr, hkeys⟩
    · rw [he]
      unfold Counted at hc
      exact .inl ⟨rfl, by omega⟩
    · rw [he]
      unfold Counted at hc
      exact .inr (.inl ⟨rfl, by omega⟩)
    · rw [he]
      have hc₁ : Counted maxUnique g₁.uniqueKeys.length := by
        unfold Counted at hc ⊢
        rcases hkeys with hk | ⟨hk1, hk2⟩
        · rw [hk]
          exact hc
        · omega
      rcases ih hr hc₁ with hstop | hstop | ⟨g', new, hok, hlists, hn, hcount⟩
      · exact .inl hstop
      · exact .inr (.inl hstop)
      · refine .inr (.inr ⟨g', r :: new, hok, ?_, by rw [List.length_cons, hn], hcount⟩)
        rwa [List.append_assoc, List.singleton_append] at hlists

end Gen

/-- A new file holds what is written, and so does one that was no longer. -/
theorem overwrite_eq {old new : List UInt8} : overwrite old new = new ↔ old.length ≤ new.length := by
  unfold overwrite
  rw [List.append_right_eq_self, List.drop_eq_nil_iff]

/-- Whatever is drawn: a run that comes to its end leaves two files that list the same records, numbered from 1 on, which the
    programs read back, and no more keys are PUT than the cap. With a cap of at most 100 the array may be written past its
    end, and below 100 it always is; with a greater one all that can stop the generator is an assert. -/
theorem generated (d : Draws) (totalops : UInt64) (maxUnique : Nat) :
    match generate d totalops maxUnique with
    | .error .overrun => maxUnique ≤ MANDATORY_PUTS
    | .error .assert => MANDATORY_PUTS < maxUnique
    | .ok g => MANDATORY_PUTS ≤ maxUnique ∧ ∃ recs : List Rec,
        recs.length = MANDATORY_PUTS + (totalops - UInt64.ofNat MANDATORY_PUTS).toNat ∧
        g.bin = encode recs ∧ readTxt recs.length g.txt = some recs ∧
        (∀ i (h : i < recs.length), recs[i].id = (i + 1) % 2 ^ 64) ∧
        (∃ keys : List UInt64, keys.length ≤ maxUnique ∧ ∀ r ∈ recs, r.opType = .PUT → ∃ k ∈ keys, r.key = k.toNat) ∧
        ∀ (old : List UInt8) (s : Reader) (p : Nat), old.length ≤ g.bin.length → Reader.At (overwrite old g.bin) 0 s →
          ∃ outs, Reader.calls (Serial.readOp · p 1) (Serial.doneOne · 1) p (recs.length + 1) s = some outs ∧
            outs.length = recs.length + 1 ∧ Reader.ReadsBack s.data recs outs := by
  unfold generate
  have hinit : Gen.Lists ⟨0, 0, 1, [], [], []⟩ [] := ⟨rfl, rfl, rfl, nofun, nofun⟩
  rcases @Gen.mandatory_spec d maxUnique _ _ MANDATORY_PUTS hinit with ⟨hover, he⟩ | ⟨g, new, hok, hlists, hn, hkeys, hle⟩
  · rw [he]
    have hover : maxUnique < 0 + MANDATORY_PUTS := hover
    show maxUnique ≤ MANDATORY_PUTS
    omega
  · rw [hok]
    simp only
    have hkeys : g.uniqueKeys.length = 0 + MANDATORY_PUTS := hkeys
    have hle : 0 + MANDATORY_PUTS ≤ maxUnique := hle (by decide)
    rw [Nat.zero_add] at hkeys hle
    rcases Gen.rounds_spec d maxUnique (totalops - UInt64.ofNat MANDATORY_PUTS).toNat hlists (.inl ⟨hkeys, hkeys ▸ hle⟩) with
      ⟨he, heq⟩ | ⟨he, hlt⟩ | ⟨g', more, hok', hlists', hmore, hcount⟩
    · rw [he]
      exact heq.le
    · rw [he]
      exact hlt
    · rw [hok']
      have hlen : ([] ++ new ++ more).length = MANDATORY_PUTS + (totalops - UInt64.ofNat MANDATORY_PUTS).toNat := by
        rw [List.length_append, List.nil_append, hn, hmore]
      refine ⟨hle, [] ++ new ++ more, hlen, hlists'.bin, ?_, hlists'.ids, ⟨g'.uniqueKeys, ?_, hlists'.keys⟩, fun old s p hold hat => ?_⟩
      · rw [hlists'.txt]
        exact readTxt_lines _
      · unfold Gen.Counted at hcount
        omega
      · rw [overwrite_eq.mpr hold, hlists'.bin] at hat
        have hat : Reader.At ([] ++ (encode ([] ++ new ++ more) ++ [])) ([] : List UInt8).length s := by
          rw [List.nil_append, List.append_nil]
          exact hat
        exact Reader.calls_read (Serial.takes_record p 1) (Serial.fails_once p 1) (.inl rfl) _ [] s hat _ (Nat.le_refl _)

end Cs330.Hash
