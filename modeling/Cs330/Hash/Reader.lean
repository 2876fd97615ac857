/-
  Cs330.Hash.Reader — `read_op` of serial_hash.c and of parallel_hash.c over the bytes
  behind `in->data`, called again and again by one thread.

  Both copy a 24-byte header and move `curr` by the record's shape (`Reader.take`); -1 comes
  from the new `curr` alone, so a cut record is recognised by where its own header, read
  through zero bytes behind the cut, says that it ends. `cut_record_past` goes through the
  cut points: before the opcode's byte the header reads as an empty PUT, behind it as what
  it was, and either way the record ends past the cut.

  Proved: `reads_back`. On the first `n` bytes of what inputgen wrote, the calls take the
  records that lie wholly in these bytes, in order, each with its payload, and then fail:
  once for serial_hash.c, for good for parallel_hash.c, which leaves `curr` past the end.
  `fetch_eq_take` says that this is the `fetch` of the concurrent model where the copy
  stays inside the mapping.
-/
import Cs330.Hash.Gate

namespace Cs330.Hash

open Function

/-- `struct input_manager` and the memory its pointers lead to: the byte at `in->data + i`,
    and the `op_t` at an address. -/
structure Reader where
  data : Nat → UInt8
  curr : Nat
  size : Nat
  beingProcessed : Nat → Option Nat
  op : Nat → Op

/-- How a call of `read_op` ends. `waits`: in `pthread_cond_wait`. -/
inductive Outcome where
  | ret (r : Int) (s : Reader)
  | assert
  | waits

namespace Reader

/-- The `n`-byte little-endian number at `in->data + off`. -/
def load (data : Nat → UInt8) : Nat → Nat → Nat
  | _, 0 => 0
  | off, n + 1 => (data off).toNat + 256 * load data (off + 1) n

/-- `memcpy` of the header and the three branches, for the `op_t` at `p`. -/
def take (s : Reader) (p : Nat) : Option Reader :=
  match OpType.decode (load s.data (s.curr + 16) 4) with
  | none => none
  | some ty =>
    let op : Op := ⟨load s.data s.curr 8, load s.data (s.curr + 8) 8, ty, load s.data (s.curr + 20) 4, (s.op p).data⟩
    match ty with
    | .GET | .DEL => some { s with op := update s.op p op, curr := s.curr + 20 }
    | .PUT => some { s with op := update s.op p { op with data := s.curr + 24 }, curr := s.curr + 24 + op.datalen }

/-- `temp && temp->key == op->key && temp->id < op->id`, over slots 0..31. -/
def conflict (s : Reader) (p : Nat) : Bool :=
  (List.range 32).any fun i =>
    match s.beingProcessed i with
    | none => false
    | some q => (s.op q).key == (s.op p).key && decide ((s.op q).id < (s.op p).id)

end Reader

namespace Serial

/-- serial_hash.c -/
def readOp (s : Reader) (p tnum : Nat) : Outcome :=
  match s.take p with
  | none => .assert
  | some s =>
    if s.size < s.curr then .ret (-1) s
    else .ret 0 { s with beingProcessed := update s.beingProcessed tnum (some p) }

def doneOne (s : Reader) (tnum : Nat) : Reader :=
  { s with beingProcessed := update s.beingProcessed tnum none }

end Serial

namespace Parallel

/-- parallel_hash.c. A thread that is alone and finds a smaller id is never woken. -/
def readOp (s : Reader) (p tnum : Nat) : Outcome :=
  if s.size < s.curr then .ret (-1) s
  else
    match s.take p with
    | none => .assert
    | some s =>
      if s.size < s.curr then .ret (-1) s
      else
        let s := { s with beingProcessed := update s.beingProcessed (tnum - 1) (some p) }
        if s.conflict p then .waits else .ret 0 s

def doneOne (s : Reader) (tnum : Nat) : Reader :=
  { s with beingProcessed := update s.beingProcessed (tnum - 1) none }

end Parallel

namespace Reader

/-- `k` calls with the `op_t` at `p`, `done_one` after each operation: what each call
    returned and left in `*op`. -/
def calls (read : Reader → Outcome) (done : Reader → Reader) (p : Nat) : Nat → Reader → Option (List (Int × Op))
  | 0, _ => some []
  | k + 1, s =>
    match read s with
    | .ret r s => (calls read done p k (if r = 0 then done s else s)).map ((r, s.op p) :: ·)
    | .assert | .waits => none

/-- Between two calls: the file is mapped, its bytes and zeros just past its end, and
    `curr` is at `off`. `init_input_manager` makes it so at 0. -/
structure At (file : List UInt8) (off : Nat) (s : Reader) : Prop where
  size : s.size = file.length
  curr : s.curr = off
  free : ∀ i, s.beingProcessed i = none
  bytes : ∀ i < file.length + 24, s.data i = file.getD i 0

end Reader

/-! ## What the calls should give -/

/-- The records that lie wholly in the first `n` bytes. -/
def whole : Nat → List Rec → List Rec
  | _, [] => []
  | n, r :: recs => if r.bytes.length ≤ n then r :: whole (n - r.bytes.length) recs else []

/-- The operation is the record's; of a PUT, `datalen` and `data` give the payload. -/
def Shows (data : Nat → UInt8) (r : Rec) (op : Op) : Prop :=
  op.id = r.id ∧ op.key = r.key ∧ op.opType = r.opType ∧
    match r with
    | .put _ _ payload => op.datalen = payload.1.length ∧ ∀ i (h : i < payload.1.length), data (op.data + i) = payload.1[i]
    | .get .. | .del .. => True

/-- A call gives the next record, or -1 when there is none. -/
def Gives (data : Nat → UInt8) : Option Rec → Int × Op → Prop
  | some r, out => out.1 = 0 ∧ Shows data r out.2
  | none, out => out.1 = -1

/-- What is left of the file at its end: nothing, or a record cut short. -/
def Cut (part : List UInt8) : Prop := part = [] ∨ ∃ r : Rec, ∃ m < r.bytes.length, part = r.bytes.take m

theorem whole_all (recs : List Rec) (n : Nat) (h : (encode recs).length ≤ n) : whole n recs = recs := by
  induction recs generalizing n with
  | nil => rfl
  | cons r recs ih =>
    have hlen : (encode (r :: recs)).length = r.bytes.length + (encode recs).length := by
      rw [← List.length_append]
      rfl
    rw [whole, if_pos (by omega), ih _ (by omega)]

/-- The file is the whole records and what is left. -/
theorem take_encode (recs : List Rec) (n : Nat) :
    ∃ part, (encode recs).take n = encode (whole n recs) ++ part ∧ Cut part := by
  induction recs generalizing n with
  | nil => exact ⟨[], by simp [encode, whole], .inl rfl⟩
  | cons r recs ih =>
    have henc : encode (r :: recs) = r.bytes ++ encode recs := rfl
    rw [whole, henc, List.take_append]
    by_cases hle : r.bytes.length ≤ n
    · obtain ⟨part, htake, hpart⟩ := ih (n - r.bytes.length)
      refine ⟨part, ?_, hpart⟩
      rw [if_pos hle, List.take_of_length_le hle, htake, ← List.append_assoc]
      rfl
    · refine ⟨r.bytes.take n, ?_, .inr ⟨r, n, by omega, rfl⟩⟩
      rw [if_neg hle, show n - r.bytes.length = 0 by omega, List.take_zero, List.append_nil]
      rfl

/-! ## One header -/

/-- A number cut off behind byte `m`: its low bytes. -/
theorem leAt_take (l : List UInt8) (m off n : Nat) : leAt (l.take m) off n = leAt l off n % 256 ^ (m - off) := by
  induction n generalizing off with
  | zero => exact (Nat.zero_mod _).symm
  | succ n ih =>
    rw [leAt, leAt, ih]
    have hbyte := UInt8.toNat_lt (l.getD off 0)
    by_cases hm : m ≤ off
    · rw [show m - (off + 1) = 0 by omega, show m - off = 0 by omega, List.getD_eq_default _ _ (by simp; omega)]
      simp [Nat.mod_one]
    · have hget : (l.take m).getD off 0 = l.getD off 0 := by
        rw [List.getD_eq_getElem?_getD, List.getElem?_take_of_lt (by omega), List.getD_eq_getElem?_getD]
      obtain ⟨k, hk⟩ : ∃ k, m - off = k + 1 := ⟨m - off - 1, by omega⟩
      have hlow : ((l.getD off 0).toNat + 256 * leAt l (off + 1) n) % 256 = (l.getD off 0).toNat := by omega
      have hhigh : ((l.getD off 0).toNat + 256 * leAt l (off + 1) n) / 256 = leAt l (off + 1) n := by omega
      rw [hget, show m - (off + 1) = k by omega, hk, Nat.pow_succ', Nat.mod_mul, hlow, hhigh]

/-- Where a record ends by its own header. -/
def recordEnd (tail : List UInt8) : OpType → Nat
  | .GET | .DEL => 20
  | .PUT => 24 + leAt tail 20 4

theorem opcode_of_record (r : Rec) (post : List UInt8) : leAt (r.bytes ++ post) 16 4 = r.opType.code := by
  rcases r with ⟨id, key, payload⟩ | ⟨id, key⟩ | ⟨id, key⟩
  · have h := (header_fields [] (leBytes 4 payload.1.length ++ payload.1 ++ post) id key .PUT).2.2
    simpa [Rec.bytes, Rec.opType, put_bytes, List.append_assoc] using h
  · exact (header_fields [] post id key .GET).2.2
  · exact (header_fields [] post id key .DEL).2.2

theorem datalen_of_put (id key : UInt64) (payload : { l : List UInt8 // l.length < 2 ^ 32 }) (post : List UInt8) :
    leAt ((Rec.put id key payload).bytes ++ post) 20 4 = payload.1.length := by
  have h := leAt_field (createGetDel id key .PUT) 4 payload.1.length (payload.1 ++ post) (by simpa using payload.2)
  rw [createGetDel_length] at h
  simpa [Rec.bytes, put_bytes, List.append_assoc] using h

/-- A whole record ends where its header says. -/
theorem recordEnd_record (r : Rec) (post : List UInt8) : recordEnd (r.bytes ++ post) r.opType = r.bytes.length := by
  rcases r with ⟨id, key, payload⟩ | ⟨id, key⟩ | ⟨id, key⟩
  · show 24 + leAt _ 20 4 = _
    rw [datalen_of_put]
    simp [Rec.bytes, put_bytes, createGetDel_length]
    omega
  · exact (createGetDel_length id key .GET).symm
  · exact (createGetDel_length id key .DEL).symm

/-- A cut record ends past the cut, by what is left of its header. -/
theorem cut_record_past (r : Rec) (m : Nat) (h : m < r.bytes.length) :
    ∃ ty, OpType.decode (leAt (r.bytes.take m) 16 4) = some ty ∧ m < recordEnd (r.bytes.take m) ty := by
  have hcode := opcode_of_record r []
  rw [List.append_nil] at hcode
  rw [leAt_take, hcode]
  by_cases hm : m ≤ 16
  · -- the opcode is gone: an empty PUT
    refine ⟨.PUT, ?_, ?_⟩
    · rw [show m - 16 = 0 by omega, Nat.pow_zero, Nat.mod_one]
      rfl
    · show m < 24 + _
      omega
  · refine ⟨r.opType, ?_, ?_⟩
    · rw [Nat.mod_eq_of_lt, OpType.decode_code]
      calc r.opType.code < 256 ^ 1 := by cases r.opType <;> decide
        _ ≤ 256 ^ (m - 16) := Nat.pow_le_pow_right (by decide) (by omega)
    · rcases r with ⟨id, key, payload⟩ | ⟨id, key⟩ | ⟨id, key⟩
      · show m < 24 + leAt _ 20 4
        have hlen : (Rec.put id key payload).bytes.length = 24 + payload.1.length := by
          simp [Rec.bytes, put_bytes, createGetDel_length]
          omega
        have hdata := datalen_of_put id key payload []
        rw [List.append_nil] at hdata
        by_cases hm4 : m < 24
        · omega
        · have hfit : payload.1.length < 256 ^ (m - 20) := by
            calc payload.1.length < 256 ^ 4 := by simpa using payload.2
              _ ≤ 256 ^ (m - 20) := Nat.pow_le_pow_right (by decide) (by omega)
          rw [leAt_take, hdata, Nat.mod_eq_of_lt hfit]
          omega
      · rwa [Rec.bytes, createGetDel_length] at h
      · rwa [Rec.bytes, createGetDel_length] at h

/-! ## One call -/

namespace Reader

variable {s : Reader} {p : Nat} {pre tail : List UInt8}

theorem load_eq {file : List UInt8} (h : ∀ i < file.length + 24, s.data i = file.getD i 0) (off n : Nat)
    (hin : off + n ≤ file.length + 24) : load s.data off n = leAt file off n := by
  induction n generalizing off with
  | zero => rfl
  | succ n ih => rw [load, leAt, h off (by omega), ih (off + 1) (by omega)]

/-- What `take` does, by the bytes from `curr` on. -/
theorem At.take (h : At (pre ++ tail) pre.length s) {ty : OpType} (hty : OpType.decode (leAt tail 16 4) = some ty) :
    ∃ op, s.take p = some { s with op := update s.op p op, curr := pre.length + recordEnd tail ty } ∧
      op.id = leAt tail 0 8 ∧ op.key = leAt tail 8 8 ∧ op.opType = ty ∧ op.datalen = leAt tail 20 4 ∧
      (ty = .PUT → op.data = pre.length + 24) := by
  have hload : ∀ off n, off + n ≤ 24 → load s.data (s.curr + off) n = leAt tail off n := fun off n hin => by
    have hlen : (pre ++ tail).length = pre.length + tail.length := List.length_append
    rw [h.curr, load_eq h.bytes _ _ (by omega), leAt_append]
  have hid := hload 0 8 (by omega)
  rw [Nat.add_zero] at hid
  unfold Reader.take
  rw [hload 16 4 (by omega), hty, hid, hload 8 8 (by omega), hload 20 4 (by omega), h.curr]
  cases ty with
  | PUT =>
    refine ⟨⟨leAt tail 0 8, leAt tail 8 8, .PUT, leAt tail 20 4, pre.length + 24⟩, ?_, rfl, rfl, rfl, rfl, fun _ => rfl⟩
    simp only [recordEnd, Nat.add_assoc]
  | GET =>
    exact ⟨⟨leAt tail 0 8, leAt tail 8 8, .GET, leAt tail 20 4, (s.op p).data⟩, rfl, rfl, rfl, rfl, rfl,
      fun hput => by cases hput⟩
  | DEL =>
    exact ⟨⟨leAt tail 0 8, leAt tail 8 8, .DEL, leAt tail 20 4, (s.op p).data⟩, rfl, rfl, rfl, rfl, rfl,
      fun hput => by cases hput⟩

/-- Where its copy stays inside the mapping, `fetch` does what `take` does. -/
theorem fetch_eq_take {file : List UInt8} {off : Nat} (h : At file off s) (hin : off ≤ file.length)
    (hmap : off + 24 ≤ mapLen file) :
    fetch file s.curr (s.op p) =
      match s.take p with
      | none => .assert
      | some s' => if s'.size < s'.curr then .fail (s'.op p) s'.curr else .got (s'.op p) s'.curr := by
  have hload : ∀ i n, i + n ≤ 24 → load s.data (s.curr + i) n = leAt file (s.curr + i) n := fun i n hi =>
    load_eq h.bytes _ _ (by rw [h.curr]; omega)
  have hid : load s.data s.curr 8 = leAt file s.curr 8 := hload 0 8 (by omega)
  have hcurr := h.curr
  rw [fetch, if_neg (by omega), if_neg (by omega), Reader.take, hload 16 4 (by omega), hid, hload 8 8 (by omega),
    hload 20 4 (by omega)]
  cases hty : OpType.decode (leAt file (s.curr + 16) 4) with
  | none => rfl
  | some ty => cases ty <;> simp [h.size]

/-- At a whole record. -/
theorem take_record (r : Rec) (post : List UInt8) (h : At (pre ++ (r.bytes ++ post)) pre.length s) :
    ∃ op, s.take p = some { s with op := update s.op p op, curr := pre.length + r.bytes.length } ∧ Shows s.data r op := by
  have hty : OpType.decode (leAt (r.bytes ++ post) 16 4) = some r.opType := by
    rw [opcode_of_record, OpType.decode_code]
  obtain ⟨op, htake, hid, hkey, hop, hlen, hdata⟩ := h.take hty
  rw [recordEnd_record] at htake
  refine ⟨op, htake, ?_⟩
  rcases r with ⟨id, key, payload⟩ | ⟨id, key⟩ | ⟨id, key⟩
  · obtain ⟨h1, h2, -⟩ := header_fields [] (leBytes 4 payload.1.length ++ payload.1 ++ post) id key .PUT
    have hbytes : (Rec.put id key payload).bytes ++ post =
        createGetDel id key .PUT ++ (leBytes 4 payload.1.length ++ payload.1 ++ post) := by
      simp only [Rec.bytes, put_bytes, List.append_assoc]
    rw [datalen_of_put] at hlen
    rw [hbytes] at hid hkey
    refine ⟨hid.trans h1, hkey.trans h2, hop, hlen, fun i hi => ?_⟩
    rw [hdata rfl, h.bytes _ (by simp [Rec.bytes, put_bytes, createGetDel_length]; omega), hbytes]
    have hsplit : pre ++ (createGetDel id key .PUT ++ (leBytes 4 payload.1.length ++ payload.1 ++ post)) =
        (pre ++ createGetDel id key .PUT ++ leBytes 4 payload.1.length) ++ (payload.1 ++ post) := by
      simp only [List.append_assoc]
    have hoff : (pre ++ createGetDel id key .PUT ++ leBytes 4 payload.1.length).length = pre.length + 24 := by
      simp [createGetDel_length]
    rw [hsplit, List.getD_append_right _ _ _ _ (by omega), hoff, Nat.add_sub_cancel_left,
      List.getD_append _ _ _ _ hi, List.getD_eq_getElem _ _ hi]
  · obtain ⟨h1, h2, -⟩ := header_fields [] post id key .GET
    exact ⟨hid.trans h1, hkey.trans h2, hop, trivial⟩
  · obtain ⟨h1, h2, -⟩ := header_fields [] post id key .DEL
    exact ⟨hid.trans h1, hkey.trans h2, hop, trivial⟩

/-- At the end of the file or at a cut record. -/
theorem take_cut (hcut : Cut tail) (h : At (pre ++ tail) pre.length s) :
    ∃ op curr, s.take p = some { s with op := update s.op p op, curr := curr } ∧ s.size < curr := by
  have hsize : s.size = pre.length + tail.length := h.size.trans List.length_append
  rcases hcut with rfl | ⟨r, m, hm, rfl⟩
  · have hty : OpType.decode (leAt [] 16 4) = some .PUT := rfl
    obtain ⟨op, htake, -⟩ := h.take hty
    refine ⟨op, _, htake, ?_⟩
    show s.size < pre.length + (24 + _)
    rw [hsize, List.length_nil]
    omega
  · obtain ⟨ty, hty, hpast⟩ := cut_record_past r m hm
    obtain ⟨op, htake, -⟩ := h.take hty
    refine ⟨op, _, htake, ?_⟩
    rw [hsize, List.length_take]
    omega

/-! ## Call after call -/

/-- What one call makes of a whole record, with `done_one` after it. -/
def TakesRecord (read : Reader → Outcome) (done : Reader → Reader) (p : Nat) : Prop :=
  ∀ (pre : List UInt8) (r : Rec) (post : List UInt8) (s : Reader), At (pre ++ (r.bytes ++ post)) pre.length s →
    ∃ s', read s = .ret 0 s' ∧ Shows s.data r (s'.op p) ∧ (done s').data = s.data ∧
      At (pre ++ (r.bytes ++ post)) (pre.length + r.bytes.length) (done s')

/-- Past the last whole record, `K` calls all return -1. -/
def FailsFor (read : Reader → Outcome) (done : Reader → Reader) (p K : Nat) : Prop :=
  ∀ (pre part : List UInt8) (s : Reader), Cut part → At (pre ++ part) pre.length s →
    ∀ k ≤ K, ∃ outs, calls read done p k s = some outs ∧ outs.length = k ∧ ∀ out ∈ outs, out.1 = -1

/-- The calls read the records back. -/
def ReadsBack (data : Nat → UInt8) (recs : List Rec) (outs : List (Int × Op)) : Prop :=
  ∀ i (h : i < outs.length), Gives data recs[i]? outs[i]

theorem calls_read {read : Reader → Outcome} {done : Reader → Reader} {p K : Nat} {part : List UInt8}
    (hrec : TakesRecord read done p) (hend : FailsFor read done p K) (hcut : Cut part) (recs : List Rec)
    (pre : List UInt8) (s : Reader) (h : At (pre ++ (encode recs ++ part)) pre.length s) (k : Nat)
    (hk : k ≤ recs.length + K) :
    ∃ outs, calls read done p k s = some outs ∧ outs.length = k ∧ ReadsBack s.data recs outs := by
  induction recs generalizing pre s k with
  | nil =>
    obtain ⟨outs, hcalls, hlen, hall⟩ := hend pre part s hcut h k (by simpa using hk)
    exact ⟨outs, hcalls, hlen, fun i hi => hall _ (List.getElem_mem hi)⟩
  | cons r recs ih =>
    cases k with
    | zero => exact ⟨[], rfl, rfl, fun i hi => absurd hi (Nat.not_lt_zero i)⟩
    | succ k =>
      have hfile : pre ++ (encode (r :: recs) ++ part) = pre ++ (r.bytes ++ (encode recs ++ part)) := by
        rw [← List.append_assoc r.bytes]
        rfl
      rw [hfile] at h
      obtain ⟨s', hread, hshows, hdata, hnext⟩ := hrec pre r (encode recs ++ part) s h
      rw [← List.append_assoc, ← List.length_append] at hnext
      obtain ⟨outs, hcalls, hlen, hback⟩ := ih (pre ++ r.bytes) (done s') hnext k (by rw [List.length_cons] at hk; omega)
      refine ⟨(0, s'.op p) :: outs, ?_, by rw [List.length_cons, hlen], fun i hi => ?_⟩
      · rw [calls, hread]
        dsimp only
        rw [if_pos rfl, hcalls]
        rfl
      · cases i with
        | zero => exact ⟨rfl, hshows⟩
        | succ i =>
          have hgives := hback i (Nat.lt_of_succ_lt_succ hi)
          rwa [hdata] at hgives

/-- The operation registered in slot `i`, and taken out again by `done_one`. -/
theorem At.next {file : List UInt8} {off next i : Nat} {op : Op} (h : At file off s) :
    At file next { s with
      op := update s.op p op, curr := next, beingProcessed := update (update s.beingProcessed i (some p)) i none } := by
  refine ⟨h.size, rfl, fun j => ?_, h.bytes⟩
  rw [update_idem]
  by_cases hj : j = i
  · subst hj
    exact update_self _ _ _
  · exact (update_of_ne hj _ _).trans (h.free j)

/-- The thread's own operation holds it back from nothing. -/
theorem conflict_alone (h : ∀ i, s.beingProcessed i = none ∨ s.beingProcessed i = some p) : s.conflict p = false := by
  rw [conflict, List.any_eq_false]
  intro i _
  rcases h i with hi | hi <;> simp [hi]

end Reader

namespace Serial

open Reader

theorem takes_record (p t : Nat) : TakesRecord (readOp · p t) (doneOne · t) p := fun pre r post s h => by
  obtain ⟨op, htake, hshows⟩ := @take_record s p pre r post h
  have hsize := h.size
  rw [List.length_append, List.length_append] at hsize
  refine ⟨{ s with
    op := update s.op p op
    curr := pre.length + r.bytes.length
    beingProcessed := update s.beingProcessed t (some p) }, ?_, ?_, rfl, h.next⟩
  · simp only [readOp, htake]
    exact if_neg (by omega)
  · show Shows s.data r (update s.op p op p)
    rwa [update_self]

theorem fails_once (p t : Nat) : FailsFor (readOp · p t) (doneOne · t) p 1 := fun pre part s hcut h k hk => by
  obtain ⟨op, curr, htake, hpast⟩ := @take_cut s p pre part hcut h
  cases k with
  | zero => exact ⟨[], rfl, rfl, fun out hout => by cases hout⟩
  | succ k =>
    obtain rfl : k = 0 := by omega
    have hread : readOp s p t = .ret (-1) { s with op := update s.op p op, curr := curr } := by
      simp only [readOp, htake]
      exact if_pos hpast
    refine ⟨[(-1, update s.op p op p)], ?_, rfl, fun out hout => ?_⟩
    · simp only [calls, hread, Option.map_some]
    · obtain rfl := List.mem_singleton.mp hout
      rfl

end Serial

namespace Parallel

open Reader

theorem takes_record (p t : Nat) : TakesRecord (readOp · p t) (doneOne · t) p := fun pre r post s h => by
  obtain ⟨op, htake, hshows⟩ := @take_record s p pre r post h
  have hsize := h.size
  rw [List.length_append, List.length_append] at hsize
  have hcurr := h.curr
  refine ⟨{ s with
    op := update s.op p op
    curr := pre.length + r.bytes.length
    beingProcessed := update s.beingProcessed (t - 1) (some p) }, ?_, ?_, rfl, h.next⟩
  · simp only [readOp, htake]
    rw [if_neg (by omega), if_neg (by omega), conflict_alone fun i => ?_]
    · rfl
    · by_cases hi : i = t - 1
      · subst hi
        exact .inr (update_self _ _ _)
      · exact .inl ((update_of_ne hi _ _).trans (h.free i))
  · show Shows s.data r (update s.op p op p)
    rwa [update_self]

/-- Once `curr` is past the end, it stays there. -/
theorem past_fails {s : Reader} (p t : Nat) (h : s.size < s.curr) (k : Nat) :
    calls (readOp · p t) (doneOne · t) p k s = some (List.replicate k (-1, s.op p)) := by
  induction k with
  | zero => rfl
  | succ k ih =>
    have hread : readOp s p t = .ret (-1) s := if_pos h
    simp only [calls, hread]
    rw [if_neg (by decide), ih]
    rfl

theorem fails_for_good (p t K : Nat) : FailsFor (readOp · p t) (doneOne · t) p K := fun pre part s hcut h k _ => by
  obtain ⟨op, curr, htake, hpast⟩ := @take_cut s p pre part hcut h
  cases k with
  | zero => exact ⟨[], rfl, rfl, fun out hout => by cases hout⟩
  | succ k =>
    have hsize := h.size
    rw [List.length_append] at hsize
    have hcurr := h.curr
    have hread : readOp s p t = .ret (-1) { s with op := update s.op p op, curr := curr } := by
      simp only [readOp, htake]
      rw [if_neg (by omega), if_pos hpast]
    have hlater := @past_fails { s with op := update s.op p op, curr := curr } p t hpast k
    refine ⟨List.replicate (k + 1) (-1, update s.op p op p), ?_, List.length_replicate, fun out hout => ?_⟩
    · simp only [calls, hread]
      rw [if_neg (by decide), hlater]
      rfl
    · rw [List.eq_of_mem_replicate hout]

end Parallel

namespace Reader

/-- From a freshly opened file that holds the first `n` bytes of what inputgen wrote, the
    calls of the one thread read back the records wholly in it and then return -1: in
    serial_hash.c the first time, in parallel_hash.c every time. -/
theorem reads_back (recs : List Rec) (n : Nat) (s : Reader) (h : At ((encode recs).take n) 0 s) (p : Nat) :
    ((encode recs).length ≤ n → whole n recs = recs) ∧
      (∀ k ≤ (whole n recs).length + 1, ∃ outs,
        calls (Serial.readOp · p 1) (Serial.doneOne · 1) p k s = some outs ∧ outs.length = k ∧
          ReadsBack s.data (whole n recs) outs) ∧
      ∀ k, ∃ outs, calls (Parallel.readOp · p 1) (Parallel.doneOne · 1) p k s = some outs ∧ outs.length = k ∧
        ReadsBack s.data (whole n recs) outs := by
  obtain ⟨part, hfile, hcut⟩ := take_encode recs n
  rw [hfile] at h
  refine ⟨whole_all recs n, fun k hk => ?_, fun k => ?_⟩
  · exact calls_read (Serial.takes_record p 1) (Serial.fails_once p 1) hcut (whole n recs) [] s h k hk
  · exact calls_read (Parallel.takes_record p 1) (Parallel.fails_for_good p 1 k) hcut (whole n recs) [] s h k
      (Nat.le_add_left _ _)

/-- A PUT of two bytes and a GET cut behind its tenth byte. -/
def cutGet : List UInt8 := (encode [.put 1 5 ⟨[97, 98], by decide⟩, .get 2 5]).take 36

def openCutGet : Reader := ⟨fun i => cutGet.getD i 0, 0, cutGet.length, fun _ => none, fun _ => ⟨0, 0, .PUT, 0, 0⟩⟩

theorem reads_back_cut_get : At cutGet 0 openCutGet ∧
    (∀ k ≤ (whole 36 [.put 1 5 ⟨[97, 98], by decide⟩, .get 2 5]).length + 1, ∃ outs,
      calls (Serial.readOp · 0 1) (Serial.doneOne · 1) 0 k openCutGet = some outs ∧ outs.length = k ∧
        ReadsBack openCutGet.data (whole 36 [.put 1 5 ⟨[97, 98], by decide⟩, .get 2 5]) outs) ∧
      ∀ k, ∃ outs, calls (Parallel.readOp · 0 1) (Parallel.doneOne · 1) 0 k openCutGet = some outs ∧ outs.length = k ∧
        ReadsBack openCutGet.data (whole 36 [.put 1 5 ⟨[97, 98], by decide⟩, .get 2 5]) outs := by
  have hopen : At cutGet 0 openCutGet := ⟨rfl, rfl, fun _ => rfl, fun _ _ => rfl⟩
  exact ⟨hopen, (reads_back [.put 1 5 ⟨[97, 98], by decide⟩, .get 2 5] 36 openCutGet hopen 0).2⟩

end Reader

end Cs330.Hash
