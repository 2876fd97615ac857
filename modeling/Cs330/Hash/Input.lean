/-
  Cs330.Hash.Input — the operation file and the part of parallel_hash.c's `read_op` that
  takes the next operation out of it.

  The file is mapped into memory: up to its length the bytes are the file's, from there to
  the end of the last page they are zero, and an access beyond that page faults
  (`Fetch.segv`). Pointers into the mapping are offsets from `in->data`. `fetch` copies the
  24-byte header whatever the record's shape, moves `curr` by that shape, and only then
  compares it with the end of the file.

  `create_put` and `create_get_del` lay a record out as inputgen.c does. On their output
  `fetch` takes the records one after another (`fetch_record`) and then fails
  (`fetch_end`).
-/
import Cs330.Hash.FiniteMap
import Mathlib.Data.List.GetD

namespace Cs330.Hash

def PAGE : Nat := 4096

/-- The length of the mapping: whole pages. -/
def mapLen (file : List UInt8) : Nat := (file.length + (PAGE - 1)) / PAGE * PAGE

/-- The `n`-byte little-endian number at an offset, zero bytes past the end of the file. -/
def leAt (file : List UInt8) : Nat → Nat → Nat
  | _, 0 => 0
  | off, n + 1 => (file.getD off 0).toNat + 256 * leAt file (off + 1) n

def OpType.decode : Nat → Option OpType
  | 0 => some .PUT
  | 1 => some .GET
  | 2 => some .DEL
  | _ => none

def OpType.code : OpType → Nat
  | .PUT => 0
  | .GET => 1
  | .DEL => 2

theorem OpType.decode_code (t : OpType) : OpType.decode t.code = some t := by cases t <;> rfl

/-- What one fetch comes to: an operation and the new `curr`; -1, with `*op` and `curr` as
    they are left; a failed assert; an access outside the mapping. -/
inductive Fetch where
  | got (op : Op) (curr : Nat)
  | fail (op : Op) (curr : Nat)
  | assert
  | segv
  deriving DecidableEq, Repr

def fetch (file : List UInt8) (curr : Nat) (op : Op) : Fetch :=
  if file.length < curr then .fail op curr
  else if mapLen file < curr + 24 then .segv
  else
    match OpType.decode (leAt file (curr + 16) 4) with
    | none => .assert
    | some ty =>
      let op : Op := ⟨leAt file curr 8, leAt file (curr + 8) 8, ty, leAt file (curr + 20) 4, op.data⟩
      let r : Op × Nat :=
        match ty with
        | .PUT => ({ op with data := curr + 24 }, curr + 24 + op.datalen)
        | .GET | .DEL => (op, curr + 20)
      if file.length < r.2 then .fail r.1 r.2 else .got r.1 r.2

/-! ## The records inputgen writes -/

inductive Rec where
  | put (id key : UInt64) (payload : { l : List UInt8 // l.length < 2 ^ 32 })
  | get (id key : UInt64)
  | del (id key : UInt64)

def leBytes : Nat → Nat → List UInt8
  | 0, _ => []
  | n + 1, x => UInt8.ofNat (x % 256) :: leBytes n (x / 256)

def createPut (id key : UInt64) (payload : List UInt8) : List UInt8 :=
  leBytes 8 id.toNat ++ leBytes 8 key.toNat ++ leBytes 4 OpType.PUT.code ++ leBytes 4 payload.length ++ payload

def createGetDel (id key : UInt64) (op : OpType) : List UInt8 :=
  leBytes 8 id.toNat ++ leBytes 8 key.toNat ++ leBytes 4 op.code

namespace Rec

def id : Rec → Nat
  | .put id _ _ | .get id _ | .del id _ => id.toNat

def key : Rec → Nat
  | .put _ key _ | .get _ key | .del _ key => key.toNat

def opType : Rec → OpType
  | .put .. => .PUT
  | .get .. => .GET
  | .del .. => .DEL

def bytes : Rec → List UInt8
  | .put id key payload => createPut id key payload.1
  | .get id key => createGetDel id key .GET
  | .del id key => createGetDel id key .DEL

/-- The operation a record at offset `off` stands for. -/
def toOp (r : Rec) (off : Nat) : Op :=
  match r with
  | .put id key payload => ⟨id.toNat, key.toNat, .PUT, payload.1.length, off + 24⟩
  | .get id key => ⟨id.toNat, key.toNat, .GET, 0, 0⟩
  | .del id key => ⟨id.toNat, key.toNat, .DEL, 0, 0⟩

@[simp] theorem toOp_id (r : Rec) (off : Nat) : (r.toOp off).id = r.id := by cases r <;> rfl
@[simp] theorem toOp_key (r : Rec) (off : Nat) : (r.toOp off).key = r.key := by cases r <;> rfl
@[simp] theorem toOp_opType (r : Rec) (off : Nat) : (r.toOp off).opType = r.opType := by cases r <;> rfl

end Rec

def encode (recs : List Rec) : List UInt8 := recs.flatMap Rec.bytes

/-- Where record `i` starts. -/
def offset (recs : List Rec) (i : Nat) : Nat := (encode (recs.take i)).length

/-- The operations of a file, from offset `off` on. -/
def opsFrom (off : Nat) : List Rec → List Op
  | [] => []
  | r :: recs => r.toOp off :: opsFrom (off + r.bytes.length) recs

@[simp] theorem leBytes_length (n x : Nat) : (leBytes n x).length = n := by
  induction n generalizing x with
  | zero => rfl
  | succ n ih => simp [leBytes, ih]

theorem leAt_append (pre rest : List UInt8) (off n : Nat) :
    leAt (pre ++ rest) (pre.length + off) n = leAt rest off n := by
  induction n generalizing off with
  | zero => rfl
  | succ n ih =>
    simp only [leAt, List.getD_append_right _ _ _ _ (Nat.le_add_right _ _), Nat.add_sub_cancel_left, Nat.add_assoc, ih]

theorem leAt_cons (b : UInt8) (l : List UInt8) (off n : Nat) : leAt (b :: l) (off + 1) n = leAt l off n := by
  have := leAt_append [b] l off n
  rwa [List.length_singleton, Nat.add_comm 1 off] at this

theorem leAt_leBytes (n x : Nat) (post : List UInt8) (hx : x < 256 ^ n) : leAt (leBytes n x ++ post) 0 n = x := by
  induction n generalizing x with
  | zero => simp only [leAt]; omega
  | succ n ih =>
    have hdiv : x / 256 < 256 ^ n := Nat.div_lt_of_lt_mul (by rwa [Nat.pow_succ, Nat.mul_comm] at hx)
    have hb : (UInt8.ofNat (x % 256)).toNat = x % 256 := by
      rw [UInt8.toNat_ofNat']; omega
    simp only [leBytes, List.cons_append, leAt, List.getD_cons_zero, leAt_cons, ih _ hdiv, hb]
    omega

/-- A field behind what precedes it in the file. -/
theorem leAt_field (pre : List UInt8) (n x : Nat) (post : List UInt8) (hx : x < 256 ^ n) :
    leAt (pre ++ (leBytes n x ++ post)) pre.length n = x := by
  have := leAt_append pre (leBytes n x ++ post) 0 n
  rwa [Nat.add_zero, leAt_leBytes n x post hx] at this

theorem leAt_past (file : List UInt8) (off n : Nat) (h : file.length ≤ off) : leAt file off n = 0 := by
  induction n generalizing off with
  | zero => rfl
  | succ n ih =>
    simp only [leAt, ih (off + 1) (by omega)]
    rw [List.getD_eq_default _ _ h]; rfl

/-! ## Fetching what inputgen wrote -/

/-- The 20 bytes every record starts with, read back. -/
theorem header_fields (pre post : List UInt8) (id key : UInt64) (ty : OpType) :
    let file := pre ++ (createGetDel id key ty ++ post)
    leAt file pre.length 8 = id.toNat ∧ leAt file (pre.length + 8) 8 = key.toNat ∧
      leAt file (pre.length + 16) 4 = ty.code := by
  have h1 := leAt_field pre 8 id.toNat (leBytes 8 key.toNat ++ (leBytes 4 ty.code ++ post)) id.toNat_lt
  have h2 := leAt_field (pre ++ leBytes 8 id.toNat) 8 key.toNat (leBytes 4 ty.code ++ post) key.toNat_lt
  have h3 := leAt_field (pre ++ leBytes 8 id.toNat ++ leBytes 8 key.toNat) 4 ty.code post (by cases ty <;> decide)
  simp only [List.append_assoc, List.length_append, leBytes_length] at h2 h3
  simp only [createGetDel, List.append_assoc]
  exact ⟨h1, h2, h3⟩

theorem put_bytes (id key : UInt64) (payload : List UInt8) :
    createPut id key payload = createGetDel id key .PUT ++ (leBytes 4 payload.length ++ payload) := by
  simp only [createPut, createGetDel, List.append_assoc]

theorem createGetDel_length (id key : UInt64) (ty : OpType) : (createGetDel id key ty).length = 20 := by
  simp [createGetDel]

theorem bytes_length_pos (r : Rec) : 20 ≤ r.bytes.length := by
  cases r <;> simp [Rec.bytes, put_bytes, createGetDel_length]

theorem encode_append (a b : List Rec) : encode (a ++ b) = encode a ++ encode b := List.flatMap_append

theorem encode_split (recs : List Rec) (i : Nat) (h : i < recs.length) :
    encode recs = encode (recs.take i) ++ (recs[i].bytes ++ encode (recs.drop (i + 1))) := by
  have hs : recs = recs.take i ++ recs[i] :: recs.drop (i + 1) := by
    rw [← List.drop_eq_getElem_cons h, List.take_append_drop]
  calc encode recs = encode (recs.take i ++ recs[i] :: recs.drop (i + 1)) := congrArg encode hs
    _ = encode (recs.take i) ++ encode (recs[i] :: recs.drop (i + 1)) := encode_append _ _
    _ = encode (recs.take i) ++ (recs[i].bytes ++ encode (recs.drop (i + 1))) := rfl

theorem offset_succ (recs : List Rec) (i : Nat) (h : i < recs.length) :
    offset recs (i + 1) = offset recs i + recs[i].bytes.length := by
  rw [offset, List.take_succ_eq_append_getElem h, encode_append, List.length_append]
  simp [offset, encode]

theorem offset_length (recs : List Rec) : offset recs recs.length = (encode recs).length := by
  rw [offset, List.take_length]

theorem offset_le (recs : List Rec) (i : Nat) (h : i < recs.length) :
    offset recs i + recs[i].bytes.length ≤ (encode recs).length := by
  rw [encode_split recs i h]
  simp only [List.length_append, offset]
  omega

theorem opsFrom_getElem? (off : Nat) (recs : List Rec) (i : Nat) :
    (opsFrom off recs)[i]? = recs[i]?.map fun r => r.toOp (off + offset recs i) := by
  induction recs generalizing off i with
  | nil => simp [opsFrom]
  | cons r recs ih =>
    cases i with
    | zero => simp [opsFrom, offset, encode]
    | succ i =>
      simp only [opsFrom, List.getElem?_cons_succ, ih, offset, List.take_succ_cons]
      rw [show encode (r :: recs.take i) = r.bytes ++ encode (recs.take i) from rfl, List.length_append, Nat.add_assoc]

/-- The operation `fetch` makes of a record when `*op` was `op`: of a GET or DEL the length
    is whatever follows the record and the payload pointer stays what it was. -/
def fetched (recs : List Rec) (i : Nat) (r : Rec) (op : Op) : Op :=
  match r with
  | .put .. => r.toOp (offset recs i)
  | .get .. | .del .. =>
    { r.toOp (offset recs i) with datalen := leAt (encode recs) (offset recs i + 20) 4, data := op.data }

@[simp] theorem fetched_id (recs : List Rec) (i : Nat) (r : Rec) (op : Op) : (fetched recs i r op).id = r.id := by
  cases r <;> rfl
@[simp] theorem fetched_key (recs : List Rec) (i : Nat) (r : Rec) (op : Op) : (fetched recs i r op).key = r.key := by
  cases r <;> rfl
@[simp] theorem fetched_opType (recs : List Rec) (i : Nat) (r : Rec) (op : Op) :
    (fetched recs i r op).opType = r.opType := by
  cases r <;> rfl

/-- At the start of a record `fetch` takes exactly that record. -/
theorem fetch_record (recs : List Rec) (i : Nat) (h : i < recs.length) (op : Op) :
    fetch (encode recs) (offset recs i) op =
      if mapLen (encode recs) < offset recs i + 24 then .segv
      else .got (fetched recs i recs[i] op) (offset recs (i + 1)) := by
  have hle := offset_le recs i h
  have hpos := bytes_length_pos recs[i]
  have hnext := offset_succ recs i h
  have hsplit := encode_split recs i h
  rw [fetch, if_neg (by omega : ¬ (encode recs).length < offset recs i)]
  by_cases hseg : mapLen (encode recs) < offset recs i + 24
  · rw [if_pos hseg, if_pos hseg]
  rw [if_neg hseg, if_neg hseg]
  rcases hr : recs[i] with ⟨id, key, payload⟩ | ⟨id, key⟩ | ⟨id, key⟩
  · rw [hr, Rec.bytes, put_bytes] at hsplit hnext hle
    simp only [List.length_append, createGetDel_length, leBytes_length] at hnext hle
    obtain ⟨hid, hkey, hty⟩ := header_fields (encode (recs.take i))
      (leBytes 4 payload.1.length ++ payload.1 ++ encode (recs.drop (i + 1))) id key .PUT
    have hlen := leAt_field (encode (recs.take i) ++ createGetDel id key .PUT) 4 payload.1.length
      (payload.1 ++ encode (recs.drop (i + 1))) (by simpa using payload.2)
    simp only [List.append_assoc, List.length_append, createGetDel_length] at hsplit hid hkey hty hlen
    rw [← hsplit] at hid hkey hty hlen
    simp only [fetched, Rec.toOp]
    change leAt (encode recs) (offset recs i) 8 = _ at hid
    change leAt (encode recs) (offset recs i + 8) 8 = _ at hkey
    change leAt (encode recs) (offset recs i + 16) 4 = _ at hty
    change leAt (encode recs) (offset recs i + 20) 4 = _ at hlen
    simp only [hid, hkey, hty, hlen, OpType.decode_code]
    rw [if_neg (by omega), hnext]
    simp only [← Nat.add_assoc]
  · rw [hr, Rec.bytes] at hsplit hnext hle
    simp only [createGetDel_length] at hnext hle
    obtain ⟨hid, hkey, hty⟩ := header_fields (encode (recs.take i)) (encode (recs.drop (i + 1))) id key .GET
    rw [← hsplit] at hid hkey hty
    simp only [fetched, Rec.toOp]
    change leAt (encode recs) (offset recs i) 8 = _ at hid
    change leAt (encode recs) (offset recs i + 8) 8 = _ at hkey
    change leAt (encode recs) (offset recs i + 16) 4 = _ at hty
    simp only [hid, hkey, hty, OpType.decode_code]
    rw [if_neg (by omega), hnext]
  · rw [hr, Rec.bytes] at hsplit hnext hle
    simp only [createGetDel_length] at hnext hle
    obtain ⟨hid, hkey, hty⟩ := header_fields (encode (recs.take i)) (encode (recs.drop (i + 1))) id key .DEL
    rw [← hsplit] at hid hkey hty
    simp only [fetched, Rec.toOp]
    change leAt (encode recs) (offset recs i) 8 = _ at hid
    change leAt (encode recs) (offset recs i + 8) 8 = _ at hkey
    change leAt (encode recs) (offset recs i + 16) 4 = _ at hty
    simp only [hid, hkey, hty, OpType.decode_code]
    rw [if_neg (by omega), hnext]

/-- At or past the end of the file `fetch` fails, unless its copy faults: the zero bytes
    there are an empty PUT that ends beyond the file. It leaves `curr` past the end. -/
theorem fetch_end (recs : List Rec) (curr : Nat) (h : (encode recs).length ≤ curr) (op : Op) :
    fetch (encode recs) curr op = .segv ∨
      ∃ op' curr', fetch (encode recs) curr op = .fail op' curr' ∧ (encode recs).length < curr' := by
  rw [fetch]
  by_cases hpast : (encode recs).length < curr
  · right; exact ⟨op, curr, if_pos hpast, hpast⟩
  rw [if_neg hpast]
  by_cases hseg : mapLen (encode recs) < curr + 24
  · left; exact if_pos hseg
  right
  rw [if_neg hseg, leAt_past _ _ _ (by omega), leAt_past _ (curr + 20) _ (by omega)]
  simp only [OpType.decode, Nat.add_zero]
  exact ⟨_, _, if_pos (by omega), by omega⟩

end Cs330.Hash
