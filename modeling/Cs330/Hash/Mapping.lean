/-
  Cs330.Hash.Mapping — where the copies of `read_op` are.

  read_op copies a 24-byte header before it knows the record's shape, and the test at its
  start in parallel_hash.c (there is none in serial_hash.c) still lets a copy begin at the
  file's very end. What the last record is plays no part: the header of a GET or DEL is
  copied with 4 bytes too many, but the call that finds the end copies 24. So with any
  threads in any order every copied byte is in the mapping if and only if 24 bytes are left
  behind the file in its last page (`copies_inside_iff`); of a file of exactly a page
  nothing is left (`full_page`).

  The threads are those of `Hash.Gate`; serial_hash.c's one is `Serial.machine`, over the
  calls of `Hash.Reader`.
-/
import Cs330.Hash.Reader

namespace Cs330.Hash

open Lib Function

/-- 24 bytes are left behind the file in its last page. -/
def RoomBehind (size : Nat) : Prop := 1 ≤ size % PAGE ∧ size % PAGE + 24 ≤ PAGE

theorem roomBehind_iff (file : List UInt8) : RoomBehind file.length ↔ file.length + 24 ≤ mapLen file := by
  unfold RoomBehind mapLen PAGE
  omega

def Inside (file : List UInt8) (copies : List Nat) : Prop := ∀ x ∈ copies, x < mapLen file

theorem inside_range {file : List UInt8} {curr : Nat} : Inside file (List.range' curr 24) ↔ curr + 24 ≤ mapLen file := by
  unfold Inside
  constructor
  · intro h
    have hlast := h (curr + 23) (List.mem_range'_1.mpr ⟨by omega, by omega⟩)
    omega
  · intro h x hx
    have hx := (List.mem_range'_1.mp hx).2
    omega

/-! ## Where the records start -/

section
variable {recs : List Rec}

/-- The first copy that leaves the mapping, if one does by the file's end. -/
theorem first_outside (h : ¬ RoomBehind (encode recs).length) : ∃ k ≤ recs.length,
    mapLen (encode recs) < offset recs k + 24 ∧ ∀ i < k, Gate.Readable recs i := by
  rw [roomBehind_iff, ← offset_length] at h
  have hex : ∃ k, mapLen (encode recs) < offset recs k + 24 := ⟨recs.length, by omega⟩
  classical
  refine ⟨Nat.find hex, Nat.find_min' hex (by omega), Nat.find_spec hex, fun i hi => ?_⟩
  have hmin := Nat.find_min hex hi
  unfold Gate.Readable
  omega

theorem offset_room (h : RoomBehind (encode recs).length) {k : Nat} (hk : k ≤ recs.length) :
    offset recs k + 24 ≤ mapLen (encode recs) := by
  rw [roomBehind_iff] at h
  have hle := Gate.offset_mono hk (Nat.le_refl _)
  rw [offset_length] at hle
  omega

end

/-! ## parallel_hash.c -/

namespace Gate

/-- The bytes that a call of read_op copies from `in->curr`. -/
def copies (file : List UInt8) (g : Gate) : List Nat := if file.length < g.curr then [] else List.range' g.curr 24

/-- With `N` threads, in whatever order, no call copies from outside the mapping. -/
def CopiesInside (recs : List Rec) (N : Nat) : Prop :=
  ∀ g, (machine (encode recs) N).Reach Machine.any g → ∀ t, (step (encode recs) N g (.read t)).isSome = true →
    Inside (encode recs) (copies (encode recs) g)

/-- `in->curr` is at a record, at the end, or past it. -/
def AtRecord (recs : List Rec) (g : Gate) : Prop :=
  (∃ c ≤ recs.length, g.curr = offset recs c) ∨ (encode recs).length < g.curr

/-- A call faults if and only if it copies from outside. -/
theorem fetch_segv_iff (file : List UInt8) (g : Gate) (op : Op) :
    fetch file g.curr op = .segv ↔ ¬ Inside file (copies file g) := by
  unfold fetch copies
  by_cases hpast : file.length < g.curr
  · rw [if_pos hpast, if_pos hpast]
    simp [Inside]
  rw [if_neg hpast, if_neg hpast, inside_range]
  by_cases hmap : mapLen file < g.curr + 24
  · simp only [if_pos hmap, true_iff]
    omega
  · rw [if_neg hmap]
    refine iff_of_false ?_ (by omega)
    cases OpType.decode (leAt file (g.curr + 16) 4) with
    | none => simp
    | some ty =>
      cases ty <;> dsimp only <;> split <;> simp

variable {recs : List Rec} {N : Nat} {g g' : Gate}

theorem AtRecord.readOp (h : AtRecord recs g) (t : Nat) : AtRecord recs (g.readOp (encode recs) t) := by
  have hfail : (encode recs).length ≤ g.curr → AtRecord recs (g.readOp (encode recs) t) := by
    intro hle
    rcases fetch_end recs g.curr hle (g.op t) with hf | ⟨op, curr, hf, hlt⟩
    · simp only [Gate.readOp, hf]
      exact h
    · simp only [Gate.readOp, hf]
      exact .inr hlt
  rcases h with ⟨c, hc, hcurr⟩ | hpast
  · by_cases hend : c = recs.length
    · exact hfail (by rw [hcurr, hend, offset_length])
    · have hlt : c < recs.length := by omega
      have hf := fetch_record recs c hlt (g.op t)
      rw [← hcurr] at hf
      by_cases hseg : mapLen (encode recs) < g.curr + 24
      · simp only [Gate.readOp, hf, if_pos hseg]
        exact .inl ⟨c, hc, hcurr⟩
      · simp only [Gate.readOp, hf, if_neg hseg, scan]
        split
        · exact .inl ⟨c + 1, hlt, rfl⟩
        · exact .inl ⟨c + 1, hlt, rfl⟩
  · exact hfail (Nat.le_of_lt hpast)

theorem AtRecord.step {e : Ev} (h : AtRecord recs g) (hs : Gate.step (encode recs) N g e = some g') : AtRecord recs g' := by
  unfold Gate.step at hs
  split at hs
  swap
  · cases hs
  cases e with
  | read t =>
    simp only [stepAt] at hs
    split at hs
    · cases hs
      exact h.readOp t
    · cases hs
  | spurious t =>
    simp only [stepAt] at hs
    split at hs
    · cases hs
      exact h
    · cases hs
  | rescan t =>
    simp only [stepAt] at hs
    split at hs
    · cases hs
      unfold scan
      split
      · exact h
      · exact h
    · cases hs
  | done t =>
    simp only [stepAt] at hs
    split at hs
    · cases hs
      exact h
    · cases hs

theorem reach_atRecord (h : (machine (encode recs) N).Reach Machine.any g) : AtRecord recs g := by
  refine h.inv (AtRecord recs) (fun g hg => ?_) fun g e g' hg _ hs => hg.step hs
  exact .inl ⟨0, Nat.zero_le _, hg.1⟩

theorem inside_iff (recs : List Rec) (N : Nat) : CopiesInside recs (N + 1) ↔ RoomBehind (encode recs).length := by
  constructor
  · intro h
    by_contra hroom
    obtain ⟨k, hk, hout, hread⟩ := first_outside hroom
    -- one thread takes the records before, and then copies
    have hstart : (machine (encode recs) (N + 1)).Reach Machine.any idleGate :=
      .init ⟨rfl, fun _ => rfl, fun _ => rfl, rfl, rfl⟩
    have hsolo : Solo recs idleGate 0 := ⟨rfl, fun _ _ => rfl, rfl, rfl, fun _ => by simp [idleGate]⟩
    obtain ⟨es, g, hrun, hs, -⟩ := solo_run (N := N + 1) (by omega) hsolo k (Nat.zero_le _) hk hread
    have hin := h g (hrun.reach hstart) 1 (by
      simp [Gate.step, stepAt, hs.fault, hs.idle, Ev.tnum])
    have hle := Gate.offset_mono hk (Nat.le_refl _)
    rw [offset_length] at hle
    unfold copies at hin
    rw [hs.curr, if_neg (by omega), inside_range] at hin
    omega
  · intro hroom g hg t _
    unfold copies
    rcases reach_atRecord hg with ⟨c, hc, hcurr⟩ | hpast
    · split
      · simp [Inside]
      · rw [hcurr]
        exact inside_range.mpr (offset_room hroom hc)
    · rw [if_pos hpast]
      simp [Inside]

end Gate

/-! ## serial_hash.c -/

namespace Serial

/-- The caller of serial_hash.c's read_op: `done` after the first -1. -/
structure Caller where
  reader : Reader
  done : Bool

/-- `while(read_op(td->in, op, td->tnum) == 0)`, with done_one at the end of the body. -/
def step (p t : Nat) (c : Caller) (_ : Unit) : Option Caller :=
  if c.done then none
  else
    match readOp c.reader p t with
    | .ret r s => some (if r = 0 then ⟨doneOne s t, false⟩ else ⟨s, true⟩)
    | .assert | .waits => none

def machine (file : List UInt8) (p t : Nat) : Machine Caller Unit :=
  ⟨fun c => Reader.At file 0 c.reader ∧ c.done = false, step p t⟩

def copies (c : Caller) : List Nat := List.range' c.reader.curr 24

def CopiesInside (recs : List Rec) (p t : Nat) : Prop :=
  ∀ c, (machine (encode recs) p t).Reach Machine.any c → (step p t c ()).isSome = true → Inside (encode recs) (copies c)

variable {recs : List Rec} {p t : Nat} {c c' : Caller}

/-- At a record the caller goes on to the next one. -/
theorem step_record {k : Nat} (hk : k < recs.length) (h : Reader.At (encode recs) (offset recs k) c.reader) (hd : c.done = false) :
    ∃ c', step p t c () = some c' ∧ Reader.At (encode recs) (offset recs (k + 1)) c'.reader ∧ c'.done = false := by
  rw [encode_split recs k hk] at h
  obtain ⟨s', hread, -, -, hnext⟩ := takes_record p t (encode (recs.take k)) recs[k] (encode (recs.drop (k + 1))) c.reader h
  rw [← encode_split recs k hk] at hnext
  refine ⟨⟨doneOne s' t, false⟩, ?_, ?_, rfl⟩
  · unfold step
    simp [hd, hread]
  · rw [offset_succ recs k hk]
    exact hnext

/-- At the end it stops. -/
theorem step_end (h : Reader.At (encode recs) (offset recs recs.length) c.reader) (hd : c.done = false) :
    ∃ c', step p t c () = some c' ∧ c'.done = true := by
  have h : Reader.At (encode recs ++ []) (encode recs).length c.reader := by
    rwa [List.append_nil, ← offset_length]
  obtain ⟨op, curr, htake, hpast⟩ := @Reader.take_cut c.reader p (encode recs) [] (.inl rfl) h
  refine ⟨⟨{ c.reader with op := update c.reader.op p op, curr := curr }, true⟩, ?_, rfl⟩
  have hread : readOp c.reader p t = .ret (-1) { c.reader with op := update c.reader.op p op, curr := curr } := by
    simp only [readOp, htake]
    exact if_pos hpast
  unfold step
  simp [hd, hread]

/-- Where the caller is. -/
def AtRecord (recs : List Rec) (c : Caller) : Prop :=
  c.done = true ∨ c.done = false ∧ ∃ k ≤ recs.length, Reader.At (encode recs) (offset recs k) c.reader

theorem AtRecord.step (h : AtRecord recs c) (hs : step p t c () = some c') : AtRecord recs c' := by
  rcases h with hd | ⟨hd, k, hk, hat⟩
  · simp [Serial.step, hd] at hs
  by_cases hend : k = recs.length
  · rw [hend] at hat
    obtain ⟨q, hq, hdone⟩ := step_end (p := p) (t := t) hat hd
    cases hq.symm.trans hs
    exact .inl hdone
  · have hlt : k < recs.length := by omega
    obtain ⟨q, hq, hnext, hgoes⟩ := step_record (p := p) (t := t) hlt hat hd
    cases hq.symm.trans hs
    exact .inr ⟨hgoes, k + 1, hlt, hnext⟩

/-- A freshly opened file. -/
def opened (recs : List Rec) : Caller :=
  ⟨⟨fun i => (encode recs).getD i 0, 0, (encode recs).length, fun _ => none, fun _ => ⟨0, 0, .PUT, 0, 0⟩⟩, false⟩

theorem reach_record (recs : List Rec) (p t : Nat) {k : Nat} (hk : k ≤ recs.length) :
    ∃ c, (machine (encode recs) p t).Reach Machine.any c ∧ c.done = false ∧
      Reader.At (encode recs) (offset recs k) c.reader := by
  induction k with
  | zero => exact ⟨opened recs, .init ⟨⟨rfl, rfl, fun _ => rfl, fun _ _ => rfl⟩, rfl⟩, rfl, rfl, rfl, fun _ => rfl, fun _ _ => rfl⟩
  | succ k ih =>
    obtain ⟨c, hc, hd, hat⟩ := ih (by omega)
    obtain ⟨c', hs, hat', hd'⟩ := step_record (p := p) (t := t) hk hat hd
    exact ⟨c', hc.step (e := ()) trivial hs, hd', hat'⟩

theorem inside_iff (recs : List Rec) (p t : Nat) : CopiesInside recs p t ↔ RoomBehind (encode recs).length := by
  constructor
  · intro h
    by_contra hroom
    obtain ⟨k, hk, hout, -⟩ := first_outside hroom
    obtain ⟨c, hc, hd, hat⟩ := reach_record recs p t hk
    have hsome : (step p t c ()).isSome = true := by
      by_cases hend : k = recs.length
      · rw [hend] at hat
        obtain ⟨q, hq, -⟩ := step_end (p := p) (t := t) hat hd
        rw [hq]
        rfl
      · obtain ⟨q, hq, -⟩ := step_record (p := p) (t := t) (by omega : k < recs.length) hat hd
        rw [hq]
        rfl
    have hin := h c hc hsome
    unfold copies at hin
    rw [hat.curr, inside_range] at hin
    omega
  · intro hroom c hc hs
    have hat : AtRecord recs c := by
      refine hc.inv (AtRecord recs) (fun c hi => ?_) fun c _ c' hc _ hs => hc.step hs
      exact .inr ⟨hi.2, 0, Nat.zero_le _, hi.1⟩
    rcases hat with hd | ⟨-, k, hk, hat⟩
    · simp [step, hd] at hs
    · unfold copies
      rw [hat.curr]
      exact inside_range.mpr (offset_room hroom hk)

end Serial

/-! ## Both -/

/-- Every copy is in the mapping, in every run, if and only if the file's last page has 24
    bytes behind the file. -/
theorem copies_inside_iff (recs : List Rec) :
    (∀ p t, Serial.CopiesInside recs p t ↔ RoomBehind (encode recs).length) ∧
      ∀ N, Gate.CopiesInside recs (N + 1) ↔ RoomBehind (encode recs).length :=
  ⟨Serial.inside_iff recs, Gate.inside_iff recs⟩

/-- 128 PUTs of 8 bytes. -/
def fullPage : List Rec := (List.range 128).map fun i => .put (.ofNat (i + 1)) (.ofNat (i + 1)) ⟨List.replicate 8 97, by decide⟩

theorem full_page : (encode fullPage).length = 4096 ∧ mapLen (encode fullPage) = 4096 ∧
    (∀ p t, ¬ Serial.CopiesInside fullPage p t) ∧ ∀ N, ¬ Gate.CopiesInside fullPage (N + 1) := by
  have hlen : (encode fullPage).length = 4096 := by decide +kernel
  have hroom : ¬ RoomBehind (encode fullPage).length := by
    rw [hlen]
    unfold RoomBehind PAGE
    decide
  refine ⟨hlen, ?_, fun p t h => hroom ((Serial.inside_iff fullPage p t).mp h),
    fun N h => hroom ((Gate.inside_iff fullPage N).mp h)⟩
  unfold mapLen
  rw [hlen]
  rfl

end Cs330.Hash
