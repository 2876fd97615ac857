/-
  Cs330.Files.Inodes — the inodes hold a directory.

  `Holds fs d`: the valid inodes are the first ones, one for each file of `d` in the order
  they were made, and the memory behind the last byte of a file is zero up to FILE_SIZE.
  Looking a name up, making a file, reading and writing one do to the directory what they
  are to do (`Holds.lookup_some`, `Holds.create`, `Holds.read`, `Holds.write`).
-/
import Cs330.Files.Named

namespace Cs330.Files

open Lib Lib.CInt Function

structure Holds (fs : FlatFs) (d : Dir) : Prop where
  names : ∀ i (h : i < d.names.length), (fs.inode i).filename = d.names[i]
  valid : ∀ i < NUM_FILES, (fs.inode i).isValid = decide (i < d.names.length)
  bounds : ∀ i < NUM_FILES, (fs.inode i).ePos = (fs.inode i).sPos + FILE_SIZE ∧ (fs.inode i).ePos < 2 ^ 32
  apart : ∀ i < NUM_FILES, ∀ j < NUM_FILES, i ≠ j →
    (fs.inode i).ePos ≤ (fs.inode j).sPos ∨ (fs.inode j).ePos ≤ (fs.inode i).sPos
  mode : ∀ i < d.names.length, (fs.inode i).mode = (d.file (fs.inode i).filename).mode
  size : ∀ i < d.names.length, (fs.inode i).fileSize = (d.file (fs.inode i).filename).bytes.length ∧
    (fs.inode i).maxPos = (fs.inode i).sPos + (fs.inode i).fileSize
  bytes : ∀ i < d.names.length, ∀ k < FILE_SIZE,
    fs.store ((fs.inode i).sPos + k) = (d.file (fs.inode i).filename).bytes.getD k 0
  zero : ∀ i, d.names.length ≤ i → i < NUM_FILES → ∀ k < FILE_SIZE, fs.store ((fs.inode i).sPos + k) = 0

section
variable {fs : FlatFs} {d : Dir} {name : List UInt8} {i j : Nat}

theorem Holds.name_mem (h : Holds fs d) (hi : i < d.names.length) : (fs.inode i).filename ∈ d.names := by
  rw [h.names i hi]
  exact List.getElem_mem hi

theorem Holds.name_inj (h : Holds fs d) (hi : i < d.names.length) (hj : j < d.names.length)
    (he : (fs.inode i).filename = (fs.inode j).filename) : i = j := by
  rw [h.names i hi, h.names j hj] at he
  exact (List.Nodup.getElem_inj_iff d.nodup).mp he

theorem Holds.lookup_some (h : Holds fs d) (hl : fs.lookupInode name = some i) :
    i < d.names.length ∧ (fs.inode i).filename = name := by
  have hmem := List.mem_range.mp (List.mem_of_find?_eq_some hl)
  have hp := List.find?_some hl
  rw [Bool.and_eq_true, h.valid i hmem, decide_eq_true_iff, beq_iff_eq] at hp
  exact hp

theorem Holds.lookup_none (h : Holds fs d) (hl : fs.lookupInode name = none) : name ∉ d.names := by
  intro hmem
  obtain ⟨i, hi, he⟩ := List.getElem_of_mem hmem
  have hlt : i < NUM_FILES := Nat.lt_of_lt_of_le hi d.few
  have hp := List.find?_eq_none.mp hl i (List.mem_range.mpr hlt)
  apply hp
  rw [h.valid i hlt, h.names i hi, he, decide_eq_true hi, Bool.true_and]
  exact beq_self_eq_true name

theorem Holds.getFreeInode (h : Holds fs d) :
    fs.getFreeInode = if d.names.length < NUM_FILES then some d.names.length else none := by
  unfold FlatFs.getFreeInode
  by_cases hlt : d.names.length < NUM_FILES
  · rw [if_pos hlt, List.find?_range_eq_some]
    refine ⟨?_, List.mem_range.mpr hlt, fun i hi => ?_⟩
    · rw [h.valid _ hlt, decide_eq_false (Nat.lt_irrefl _)]
      rfl
    · rw [h.valid i (Nat.lt_trans hi hlt), decide_eq_true hi]
      rfl
  · rw [if_neg hlt]
    refine List.find?_eq_none.mpr fun i hi => ?_
    have hi := List.mem_range.mp hi
    rw [h.valid i hi, decide_eq_true (by omega)]
    exact Bool.false_ne_true

/-! ## Making a file -/

theorem Holds.create (h : Holds fs d) (mode : UInt32) (hnew : name ∉ d.names) (hfew : d.names.length < NUM_FILES) :
    ∃ fs', fs.createInode name mode = (some d.names.length, fs') ∧ Holds fs' (d.create name mode hnew hfew) ∧
      (fs'.inode d.names.length).filename = name ∧ ∀ i < d.names.length, fs'.inode i = fs.inode i := by
  have hnone : fs.lookupInode name = none := by
    cases hl : fs.lookupInode name with
    | none => rfl
    | some i =>
      obtain ⟨hi, he⟩ := h.lookup_some hl
      exact absurd (he ▸ h.name_mem hi) hnew
  obtain ⟨fs', hcreate, hself, hother, hstore⟩ : ∃ fs', fs.createInode name mode = (some d.names.length, fs') ∧
      fs'.inode d.names.length = { fs.inode d.names.length with
        isValid := true, mode := mode, filename := name, maxPos := (fs.inode d.names.length).sPos, fileSize := 0 } ∧
      (∀ i, i ≠ d.names.length → fs'.inode i = fs.inode i) ∧ fs'.store = fs.store := by
    refine ⟨{ fs with
      inode := update fs.inode d.names.length { fs.inode d.names.length with
        isValid := true, mode := mode, filename := name, maxPos := (fs.inode d.names.length).sPos, fileSize := 0 }
      numFiles := fs.numFiles + 1 }, ?_, update_self .., fun i hi => update_of_ne hi .., rfl⟩
    unfold FlatFs.createInode
    rw [if_neg (not_not.mpr hnone), h.getFreeInode, if_pos hfew]
  have hpos : ∀ i, (fs'.inode i).sPos = (fs.inode i).sPos ∧ (fs'.inode i).ePos = (fs.inode i).ePos := fun i => by
    by_cases e : i = d.names.length
    · rw [e, hself]
      exact ⟨rfl, rfl⟩
    · rw [hother i e]
      exact ⟨rfl, rfl⟩
  have hlen : (d.create name mode hnew hfew).names.length = d.names.length + 1 := List.length_append
  have hlt : ∀ {i}, i < d.names.length + 1 → i ≠ d.names.length → i < d.names.length := fun hi he => by omega
  -- an old file has another name
  have hfile : ∀ {i}, i < d.names.length + 1 → i ≠ d.names.length → (d.create name mode hnew hfew).file (fs.inode i).filename =
      d.file (fs.inode i).filename := fun {i} hi he => by
    refine update_of_ne (fun e => hnew ?_) ..
    rw [← e]
    exact h.name_mem (hlt hi he)
  have hempty : (d.create name mode hnew hfew).file name = .empty mode := update_self ..
  refine ⟨fs', hcreate, ⟨fun i hi => ?_, fun i hi => ?_, fun i hi => ?_, fun i hi j hj hne => ?_, fun i hi => ?_, fun i hi => ?_,
    fun i hi k hk => ?_, fun i hle hi k hk => ?_⟩, congrArg Inode.filename hself, fun i hi => hother i (Nat.ne_of_lt hi)⟩
  · by_cases e : i = d.names.length
    · subst e
      rw [hself]
      exact (List.getElem_concat_length rfl _).symm
    · have hi' := hlt (hlen ▸ hi) e
      rw [hother i e, h.names i hi']
      exact (List.getElem_append_left hi').symm
  · rw [hlen]
    by_cases e : i = d.names.length
    · rw [e, hself]
      exact (decide_eq_true (Nat.lt_succ_self _)).symm
    · rw [hother i e, h.valid i hi]
      exact decide_eq_decide.mpr (by omega)
  · rw [(hpos i).1, (hpos i).2]
    exact h.bounds i hi
  · rw [(hpos i).1, (hpos i).2, (hpos j).1, (hpos j).2]
    exact h.apart i hi j hj hne
  · rw [hlen] at hi
    by_cases e : i = d.names.length
    · rw [e, hself]
      exact congrArg Bytes.mode hempty.symm
    · rw [hother i e, hfile hi e]
      exact h.mode i (hlt hi e)
  · rw [hlen] at hi
    by_cases e : i = d.names.length
    · rw [e, hself]
      exact ⟨congrArg (fun f => f.bytes.length) hempty.symm, rfl⟩
    · rw [hother i e, hfile hi e]
      exact h.size i (hlt hi e)
  · rw [hlen] at hi
    rw [hstore, (hpos i).1]
    by_cases e : i = d.names.length
    · rw [e, hself]
      refine (h.zero _ (Nat.le_refl _) hfew k hk).trans ?_
      exact congrArg (fun f => f.bytes.getD k 0) hempty.symm
    · rw [hother i e, hfile hi e]
      exact h.bytes i (hlt hi e) k hk
  · rw [hlen] at hle
    rw [hstore, (hpos i).1]
    exact h.zero i (by omega) hi k hk

/-! ## Reading and writing -/

theorem Holds.long (h : Holds fs d) (hi : i < d.names.length) : (fs.inode i).fileSize ≤ FILE_SIZE := by
  rw [(h.size i hi).1]
  exact (d.file _).short

theorem Holds.read (h : Holds fs d) (hi : i < d.names.length) {count offset : Nat}
    (hle : offset + count ≤ (fs.inode i).fileSize) : fs.flatRead (fs.inode i) count offset =
      ((d.file (fs.inode i).filename).bytes.drop offset).take count := by
  have hlong := h.long hi
  have hpos := h.bounds i (Nat.lt_of_lt_of_le hi d.few)
  have hsize := (h.size i hi).1
  unfold FILE_SIZE at hlong hpos
  have hoff : int32 offset = offset := int32_eq (by omega) (by omega)
  have hcount : int32 count = count := int32_eq (by omega) (by omega)
  unfold FlatFs.flatRead
  rw [hoff, hcount]
  dsimp only
  by_cases hz : ((fs.inode i).fileSize : Int) - offset ≤ 0
  · rw [if_pos hz, show count = 0 by omega, List.take_zero]
  · rw [if_neg hz, if_neg (by omega), u64_eq (by omega)]
    refine List.ext_getElem ?_ fun k hk hk' => ?_
    · rw [List.length_map, List.length_range, List.length_take, List.length_drop]
      omega
    · rw [List.length_map, List.length_range] at hk
      rw [List.getElem_map, List.getElem_range, List.getElem_take, List.getElem_drop]
      have hat : u64 (((fs.inode i).sPos : Int) + offset + k) = (fs.inode i).sPos + (offset + k) := by
        unfold u64
        omega
      rw [hat, h.bytes i hi (offset + k) (by unfold FILE_SIZE; omega)]
      exact List.getD_eq_getElem _ _ _

/-- What flat_write's loop leaves in memory. -/
theorem writeLoop_eq (buff : Nat → UInt8) {base : Nat} (hbase : base < 2 ^ 32) (store : Nat → UInt8) {n : Nat} (hn : n < 2 ^ 32)
    (x : Nat) : (List.range n).foldl (fun (store : Nat → UInt8) (k : Nat) => update store (u64 (base + k)) (buff k)) store x =
      if base ≤ x ∧ x < base + n then buff (x - base) else store x := by
  induction n with
  | zero => rw [if_neg (by omega)]; rfl
  | succ n ih =>
    have hat : u64 ((base : Int) + n) = base + n := by
      unfold u64
      omega
    rw [List.range_succ, List.foldl_append, List.foldl_cons, List.foldl_nil, hat]
    by_cases e : x = base + n
    · rw [e, update_self, if_pos (by omega), Nat.add_sub_cancel_left]
    · rw [update_of_ne e, ih (by omega)]
      by_cases hx : base ≤ x ∧ x < base + n
      · rw [if_pos hx, if_pos (by omega)]
      · rw [if_neg hx, if_neg (by omega)]

/-- A write that fits: the file ends where it did, or where the write does. -/
theorem flatWrite_eq {size : Nat} (hend : (fs.inode i).ePos = (fs.inode i).sPos + 4096) (h32 : (fs.inode i).ePos < 2 ^ 32)
    (hmax : (fs.inode i).maxPos = (fs.inode i).sPos + size) (hlong : size ≤ 4096) (buff : Nat → UInt8) {count offset : Nat}
    (hfit : offset + count ≤ 4096) : ∃ fs', fs.flatWrite i buff count offset = ((count : Int), fs') ∧
      fs'.inode i = { fs.inode i with
        maxPos := (fs.inode i).sPos + max size (offset + count), fileSize := max size (offset + count) } ∧
      (∀ j, j ≠ i → fs'.inode j = fs.inode j) ∧
      ∀ x, fs'.store x = if (fs.inode i).sPos + offset ≤ x ∧ x < (fs.inode i).sPos + offset + count then
        buff (x - ((fs.inode i).sPos + offset)) else fs.store x := by
  have hoff : int32 offset = offset := int32_eq (by omega) (by omega)
  have hcount : int32 count = count := int32_eq (by omega) (by omega)
  have hlast : u32 (((fs.inode i).sPos : Int) + offset + count) = (fs.inode i).sPos + (offset + count) := by
    unfold u32
    omega
  have hnewMax : (if (fs.inode i).maxPos < (fs.inode i).sPos + (offset + count) then (fs.inode i).sPos + (offset + count)
      else (fs.inode i).maxPos) = (fs.inode i).sPos + max size (offset + count) := by
    rw [hmax]
    split <;> omega
  have hnewSize : u32 ((((fs.inode i).sPos + max size (offset + count) : Nat) : Int) - (fs.inode i).sPos) =
      max size (offset + count) := by
    unfold u32
    omega
  unfold FlatFs.flatWrite
  rw [hoff, hcount]
  dsimp only
  rw [if_neg (by omega), hlast, hnewMax, hnewSize, u64_eq (by omega)]
  refine ⟨_, rfl, update_self .., fun j hj => update_of_ne hj .., fun x => ?_⟩
  dsimp only
  rw [← Int.natCast_add]
  exact writeLoop_eq buff (by omega) fs.store (by omega) x

theorem Holds.write (h : Holds fs d) (hi : i < d.names.length) (buff : Nat → UInt8) {count offset : Nat} {data : List UInt8}
    (hdata : data = (List.range count).map buff) (hfit : offset + data.length ≤ FILE_SIZE) :
    ∃ fs', fs.flatWrite i buff count offset = ((count : Int), fs') ∧
      Holds fs' (d.put (fs.inode i).filename ((d.file (fs.inode i).filename).write offset data hfit)) ∧
      ∀ j, (fs'.inode j).filename = (fs.inode j).filename := by
  have hlen : data.length = count := by rw [hdata, List.length_map, List.length_range]
  have hfit' : offset + count ≤ FILE_SIZE := Nat.le_trans (Nat.le_of_eq (by rw [hlen])) hfit
  have hi32 := Nat.lt_of_lt_of_le hi d.few
  have hsize := h.size i hi
  obtain ⟨fs', hwrite, hself, hother, hstore⟩ := flatWrite_eq (h.bounds i hi32).1 (h.bounds i hi32).2 hsize.2 (h.long hi) buff
    hfit'
  have hposAll : ∀ j, (fs'.inode j).sPos = (fs.inode j).sPos ∧ (fs'.inode j).ePos = (fs.inode j).ePos ∧
      (fs'.inode j).filename = (fs.inode j).filename ∧ (fs'.inode j).isValid = (fs.inode j).isValid ∧
      (fs'.inode j).mode = (fs.inode j).mode := fun j => by
    by_cases e : j = i
    · rw [e, hself]
      exact ⟨rfl, rfl, rfl, rfl, rfl⟩
    · rw [hother j e]
      exact ⟨rfl, rfl, rfl, rfl, rfl⟩
  generalize hf : (d.file (fs.inode i).filename).write offset data hfit = f
  have hmode : f.mode = (d.file (fs.inode i).filename).mode := hf ▸ rfl
  have hbytes : f.bytes = splice (d.file (fs.inode i).filename).bytes offset data := hf ▸ rfl
  have hsame : (d.put (fs.inode i).filename f).file (fs.inode i).filename = f := update_self ..
  have hdiff : ∀ {j}, j < d.names.length → j ≠ i → (d.put (fs.inode i).filename f).file (fs.inode j).filename =
      d.file (fs.inode j).filename := fun hj hne => update_of_ne (fun e => hne (h.name_inj hj hi e)) ..
  -- the bytes written are in no other file's page
  have hapart : ∀ {j k}, j < NUM_FILES → j ≠ i → k < FILE_SIZE → fs'.store ((fs.inode j).sPos + k) =
      fs.store ((fs.inode j).sPos + k) := fun {j k} hj hne hk => by
    rw [hstore, if_neg]
    have hpj := h.bounds j hj
    have hpi := h.bounds i hi32
    have := h.apart j hj i hi32 hne
    omega
  refine ⟨fs', hwrite, ⟨fun j hj => ?_, fun j hj => ?_, fun j hj => ?_, fun j hj k hk hne => ?_, fun j hj => ?_, fun j hj => ?_,
    fun j hj k hk => ?_, fun j hle hj k hk => ?_⟩, fun j => (hposAll j).2.2.1⟩
  · rw [(hposAll j).2.2.1]
    exact h.names j hj
  · rw [(hposAll j).2.2.2.1]
    exact h.valid j hj
  · rw [(hposAll j).1, (hposAll j).2.1]
    exact h.bounds j hj
  · rw [(hposAll j).1, (hposAll j).2.1, (hposAll k).1, (hposAll k).2.1]
    exact h.apart j hj k hk hne
  · rw [(hposAll j).2.2.1, (hposAll j).2.2.2.2]
    by_cases e : j = i
    · rw [e, hsame, hmode]
      exact h.mode i hi
    · rw [hdiff hj e]
      exact h.mode j hj
  · rw [(hposAll j).2.2.1]
    by_cases e : j = i
    · rw [e, hsame, hself, hbytes, splice_length, hlen, hsize.1]
      exact ⟨rfl, rfl⟩
    · rw [hdiff hj e, hother j e]
      exact h.size j hj
  · rw [(hposAll j).2.2.1, (hposAll j).1]
    by_cases e : j = i
    · rw [e, hsame, hbytes, splice_getD, hlen, hstore]
      by_cases hin : offset ≤ k ∧ k < offset + count
      · rw [if_pos (by omega), if_pos hin]
        have hsub : (fs.inode i).sPos + k - ((fs.inode i).sPos + offset) = k - offset := by omega
        have hlt : k - offset < ((List.range count).map buff).length := by rw [← hdata]; omega
        rw [hsub, hdata, List.getD_eq_getElem _ _ hlt, List.getElem_map, List.getElem_range]
      · rw [if_neg (by omega), if_neg hin]
        exact h.bytes i hi k hk
    · rw [hdiff hj e, hapart (Nat.lt_of_lt_of_le hj d.few) e hk]
      exact h.bytes j hj k hk
  · rw [(hposAll j).1]
    have hne : j ≠ i := fun e => Nat.not_lt.mpr hle (e ▸ hi)
    rw [hapart hj hne hk]
    exact h.zero j hle hj k hk

end

end Cs330.Files
