/-
  Cs330.Files.Offsets — where the offset of an open file can be.

  do_lseek_regular computes the new offset as a long, keeps an int of it and compares that
  with FILE_SIZE from above only: a target below 0 becomes an offset of nearly 2^32, one
  that differs from an offset of the file by a multiple of 2^32 is taken for it, and an
  unknown whence succeeds (`seeks_below_start`). `SeekMeets` is when none of this happens.

  Over runs whose seeks meet it, and whose reads and writes are of less than 2^31 bytes,
  every offset stays within FILE_SIZE (`Inside`), and flat_read and flat_write stay between
  s_pos and e_pos of the file's own inode (`Inside.contained`).
-/
import Cs330.Files.Refine

namespace Cs330.Files

open Lib Lib.CInt Function

/-! ## The bytes that are touched -/

namespace FlatFs

/-- The addresses flat_read copies from. -/
def readAddrs (inode : Inode) (count offp : Nat) : List Nat :=
  let remainLen : Int := inode.fileSize - int32 offp
  if remainLen ≤ 0 then []
  else
    (List.range (u64 (if remainLen < int32 count then remainLen else int32 count))).map fun (i : Nat) =>
      u64 (inode.sPos + int32 offp + i)

/-- The addresses flat_write copies to. -/
def writeAddrs (inode : Inode) (count offp : Nat) : List Nat :=
  let maxLen : Int := inode.ePos - int32 offp - inode.sPos
  if maxLen < int32 count then []
  else (List.range (u64 (int32 count))).map fun (k : Nat) => u64 (inode.sPos + int32 offp + k)

theorem flatRead_eq_map (fs : FlatFs) (inode : Inode) (count offp : Nat) :
    fs.flatRead inode count offp = (readAddrs inode count offp).map fs.store := by
  unfold flatRead readAddrs
  dsimp only
  split
  · rfl
  · rw [List.map_map]
    rfl

theorem store_foldl (buff : Nat → UInt8) (addr : Nat → Nat) (x : Nat) (l : List Nat) (store : Nat → UInt8)
    (hx : ∀ k ∈ l, addr k ≠ x) : l.foldl (fun (store : Nat → UInt8) (k : Nat) => update store (addr k) (buff k)) store x = store x := by
  induction l generalizing store with
  | nil => rfl
  | cons k l ih =>
    rw [List.foldl_cons, ih _ fun j hj => hx j (List.mem_cons_of_mem _ hj)]
    exact update_of_ne (hx k List.mem_cons_self).symm ..

/-- Nothing else of the memory changes. -/
theorem flatWrite_store {fs fs' : FlatFs} {i count offp : Nat} {buff : Nat → UInt8} {v : Int}
    (h : fs.flatWrite i buff count offp = (v, fs')) {x : Nat} (hx : x ∉ writeAddrs (fs.inode i) count offp) :
    fs'.store x = fs.store x := by
  unfold flatWrite at h
  unfold writeAddrs at hx
  dsimp only at h hx
  split at h
  · rw [← (Prod.mk.inj h).2]
  · rename_i hlt
    rw [if_neg hlt] at hx
    rw [← (Prod.mk.inj h).2]
    dsimp only
    exact store_foldl buff _ x _ fs.store fun k hk he => hx (List.mem_map.mpr ⟨k, hk, he⟩)

/-- A read that ends in the file. -/
theorem mem_readAddrs {inode : Inode} {count offp x : Nat} (hlong : inode.fileSize ≤ FILE_SIZE) (hle : offp + count ≤ inode.fileSize)
    (h32 : inode.sPos + FILE_SIZE < 2 ^ 32) (hx : x ∈ readAddrs inode count offp) :
    inode.sPos + offp ≤ x ∧ x < inode.sPos + offp + count := by
  unfold FILE_SIZE at hlong h32
  have hoff : int32 offp = offp := int32_eq (by omega) (by omega)
  have hcount : int32 count = count := int32_eq (by omega) (by omega)
  unfold readAddrs at hx
  simp only [hoff, hcount] at hx
  split at hx
  · simp at hx
  · rw [if_neg (by omega), u64_eq (by omega)] at hx
    obtain ⟨k, hk, rfl⟩ := List.mem_map.mp hx
    have hk := List.mem_range.mp hk
    unfold u64
    omega

theorem readAddrs_length {inode : Inode} {count offp : Nat} (hlong : inode.fileSize ≤ FILE_SIZE)
    (hle : offp + count ≤ inode.fileSize) : (readAddrs inode count offp).length = count := by
  unfold FILE_SIZE at hlong
  have hoff : int32 offp = offp := int32_eq (by omega) (by omega)
  have hcount : int32 count = count := int32_eq (by omega) (by omega)
  unfold readAddrs
  simp only [hoff, hcount]
  by_cases hz : (inode.fileSize : Int) - offp ≤ 0
  · rw [if_pos hz]
    simp
    omega
  · rw [if_neg hz, if_neg (by omega), u64_eq (by omega), List.length_map, List.length_range]

/-- A write that fits. -/
theorem mem_writeAddrs {inode : Inode} {count offp x : Nat} (hfit : offp + count ≤ FILE_SIZE)
    (h32 : inode.sPos + FILE_SIZE < 2 ^ 32) (hx : x ∈ writeAddrs inode count offp) :
    inode.sPos + offp ≤ x ∧ x < inode.sPos + offp + count := by
  unfold FILE_SIZE at hfit h32
  have hoff : int32 offp = offp := int32_eq (by omega) (by omega)
  have hcount : int32 count = count := int32_eq (by omega) (by omega)
  unfold writeAddrs at hx
  simp only [hoff, hcount] at hx
  split at hx
  · simp at hx
  · rw [u64_eq (by omega)] at hx
    obtain ⟨k, hk, rfl⟩ := List.mem_map.mp hx
    have hk := List.mem_range.mp hk
    unfold u64
    omega

end FlatFs

namespace Kernel

/-- A read of `count` bytes gets past the checks of do_read_regular. -/
structure CanRead (s : Kernel) (a i count : Nat) : Prop where
  there : u32 ((s.file a).offp + count) ≤ (s.fs.inode i).fileSize
  asked : has (s.file a).mode O_READ = true
  given : has (s.fs.inode i).mode O_READ = true
  short : (s.fs.inode i).fileSize ≤ FILE_SIZE

structure CanWrite (s : Kernel) (a i count : Nat) : Prop where
  fits : u32 ((s.file a).offp + count) ≤ FILE_SIZE
  asked : has (s.file a).mode O_WRITE = true
  given : has (s.fs.inode i).mode O_WRITE = true
  short : (s.fs.inode i).fileSize ≤ FILE_SIZE

instance (s : Kernel) (a i count : Nat) : Decidable (s.CanRead a i count) :=
  decidable_of_iff (u32 ((s.file a).offp + count) ≤ (s.fs.inode i).fileSize ∧ has (s.file a).mode O_READ = true ∧
    has (s.fs.inode i).mode O_READ = true ∧ (s.fs.inode i).fileSize ≤ FILE_SIZE)
    ⟨fun h => ⟨h.1, h.2.1, h.2.2.1, h.2.2.2⟩, fun h => ⟨h.there, h.asked, h.given, h.short⟩⟩

instance (s : Kernel) (a i count : Nat) : Decidable (s.CanWrite a i count) :=
  decidable_of_iff (u32 ((s.file a).offp + count) ≤ FILE_SIZE ∧ has (s.file a).mode O_WRITE = true ∧
    has (s.fs.inode i).mode O_WRITE = true ∧ (s.fs.inode i).fileSize ≤ FILE_SIZE)
    ⟨fun h => ⟨h.1, h.2.1, h.2.2.1, h.2.2.2⟩, fun h => ⟨h.fits, h.asked, h.given, h.short⟩⟩

section
variable {s t : Kernel} {a i count : Nat} {buff : Nat → UInt8}

/-- A read is refused with nothing changed, or flat_read is called. -/
theorem doReadRegular_cases (hi : (s.file a).inode = some i) (count : Nat) :
    (¬ s.CanRead a i count ∧ ∃ v : Int, v < 0 ∧ s.doReadRegular a count = (.of v, s)) ∨
    (s.CanRead a i count ∧ s.doReadRegular a count =
      (⟨some (int32 (s.fs.flatRead (s.fs.inode i) count (s.file a).offp).length), s.fs.flatRead (s.fs.inode i) count (s.file a).offp, []⟩,
        s.setFile a { s.file a with
          offp := u32 ((s.file a).offp + int32 (s.fs.flatRead (s.fs.inode i) count (s.file a).offp).length) })) := by
  unfold doReadRegular
  simp only [hi]
  by_cases hthere : (s.fs.inode i).fileSize < u32 ((s.file a).offp + count)
  · rw [if_pos hthere]
    exact .inl ⟨fun h => Nat.not_lt.mpr h.there hthere, _, by decide, rfl⟩
  rw [if_neg hthere]
  cases hasked : has (s.file a).mode O_READ with
  | false => exact .inl ⟨fun h => by simp [h.asked] at hasked, -EACCES, by decide, by simp⟩
  | true =>
    cases hgiven : has (s.fs.inode i).mode O_READ with
    | false => exact .inl ⟨fun h => by simp [h.given] at hgiven, -EACCES, by decide, by simp⟩
    | true =>
      by_cases hshort : FILE_SIZE < (s.fs.inode i).fileSize
      · exact .inl ⟨fun h => Nat.not_lt.mpr h.short hshort, -EOTHERS, by decide, by simp [hshort]⟩
      · exact .inr ⟨⟨Nat.le_of_not_lt hthere, hasked, hgiven, Nat.le_of_not_lt hshort⟩,
          by simp only [Bool.not_true, Bool.and_false, Bool.false_eq_true, if_false, if_neg hshort]⟩

theorem doWriteRegular_cases (hi : (s.file a).inode = some i) (buff : Nat → UInt8) (count : Nat) :
    (¬ s.CanWrite a i count ∧ ∃ v : Int, v < 0 ∧ s.doWriteRegular a buff count = (.of v, s)) ∨
    (s.CanWrite a i count ∧ s.doWriteRegular a buff count =
      let r := s.fs.flatWrite i buff count (s.file a).offp
      if r.1 = -1 then (.of (-EOTHERS), { s with fs := r.2 })
      else (.of r.1, { s with fs := r.2 }.setFile a { s.file a with offp := u32 ((s.file a).offp + r.1) })) := by
  unfold doWriteRegular
  simp only [hi]
  by_cases hfits : FILE_SIZE < u32 ((s.file a).offp + count)
  · rw [if_pos hfits]
    exact .inl ⟨fun h => Nat.not_lt.mpr h.fits hfits, _, by decide, rfl⟩
  rw [if_neg hfits]
  cases hasked : has (s.file a).mode O_WRITE with
  | false => exact .inl ⟨fun h => by simp [h.asked] at hasked, -EACCES, by decide, by simp⟩
  | true =>
    cases hgiven : has (s.fs.inode i).mode O_WRITE with
    | false => exact .inl ⟨fun h => by simp [h.given] at hgiven, -EACCES, by decide, by simp⟩
    | true =>
      by_cases hshort : FILE_SIZE < (s.fs.inode i).fileSize
      · exact .inl ⟨fun h => Nat.not_lt.mpr h.short hshort, -EOTHERS, by decide, by simp [hshort]⟩
      · exact .inr ⟨⟨Nat.le_of_not_lt hfits, hasked, hgiven, Nat.le_of_not_lt hshort⟩, by simp [hshort]⟩

end

/-! ## One seek -/

/-- One of the three. -/
def Whence (whence : Int) : Prop := whence = SEEK_SET ∨ whence = SEEK_CUR ∨ whence = SEEK_END

instance (whence : Int) : Decidable (Whence whence) :=
  inferInstanceAs (Decidable (whence = SEEK_SET ∨ whence = SEEK_CUR ∨ whence = SEEK_END))

/-- The seek fails and changes nothing, or its target is an offset of the file and where it goes. -/
def SeekExact (s : Kernel) (a : Nat) (offset whence : Int) : Prop :=
  (∃ v : Int, v < 0 ∧ s.doLseekRegular a offset whence = (.of v, s)) ∨
    Whence whence ∧ 0 ≤ s.lseekTarget a offset whence ∧ s.lseekTarget a offset whence < FILE_SIZE ∧
      s.doLseekRegular a offset whence = (.of (s.lseekTarget a offset whence),
        s.setFile a { s.file a with offp := (s.lseekTarget a offset whence).toNat })

/-- The low 32 bits of the target are the target, an offset of the file, or they are too large
    for one; a whence that is none of the three is refused at the very end of the storage only. -/
def SeekMeets (s : Kernel) (a : Nat) (offset whence : Int) : Prop :=
  Whence whence ∧ (0 ≤ s.lseekTarget a offset whence ∧ s.lseekTarget a offset whence < FILE_SIZE ∨
      (FILE_SIZE : Int) ≤ s.lseekTarget a offset whence % 2 ^ 32 ∧ s.lseekTarget a offset whence % 2 ^ 32 < 2 ^ 31) ∨
    ¬ Whence whence ∧ (s.file a).offp = FILE_SIZE

instance (s : Kernel) (a : Nat) (offset whence : Int) : Decidable (s.SeekMeets a offset whence) :=
  inferInstanceAs (Decidable (_ ∨ _))

section
variable {s t : Kernel} {a : Nat} {offset whence : Int}

/-- Where do_lseek_regular goes: the int that is left of the target, or where the offset is. -/
theorem doLseekRegular_split (hoff : (s.file a).offp ≤ FILE_SIZE) (offset whence : Int) :
    ∃ n : Int, (Whence whence → n = int32 (s.lseekTarget a offset whence)) ∧ (¬ Whence whence → n = (s.file a).offp) ∧
      s.doLseekRegular a offset whence =
        if FILE_SIZE ≤ n then (.of (-EOTHERS), s) else (.of (u32 n), s.setFile a { s.file a with offp := u32 n }) := by
  unfold FILE_SIZE at hoff
  have hold : int32 (s.file a).offp = (s.file a).offp := int32_eq (by omega) (by omega)
  refine ⟨_, fun hw => ?_, fun hw => ?_, rfl⟩
  · unfold lseekTarget
    rcases hw with rfl | rfl | rfl
    · simp [SEEK_SET, SEEK_CUR, SEEK_END]
    · simp [hold]
    · cases (s.file a).inode <;> simp [SEEK_CUR, SEEK_END]
  · unfold Whence at hw
    rw [not_or, not_or] at hw
    rw [if_neg hw.2.1, if_neg hw.2.2, if_neg hw.1, hold]

theorem u32_nonneg (n : Int) : ¬ ((u32 n : Nat) : Int) < 0 := by omega

/-- For every offset and whence. -/
theorem seek_exact_iff (hoff : (s.file a).offp ≤ FILE_SIZE) (offset whence : Int) :
    s.SeekExact a offset whence ↔ s.SeekMeets a offset whence := by
  obtain ⟨n, hin, hout, heq⟩ := doLseekRegular_split hoff offset whence
  unfold SeekExact SeekMeets
  rw [heq]
  have hF : (FILE_SIZE : Int) = 4096 := rfl
  by_cases hlarge : (FILE_SIZE : Int) ≤ n
  · rw [if_pos hlarge]
    refine iff_of_true (.inl ⟨-EOTHERS, by decide, rfl⟩) ?_
    by_cases hw : Whence whence
    · have hn := hin hw
      unfold int32 at hn
      exact .inl ⟨hw, .inr (by omega)⟩
    · have hn := hout hw
      exact .inr ⟨hw, by omega⟩
  · rw [if_neg hlarge]
    have herr : ¬ ∃ v : Int, v < 0 ∧ ((Ret.of (u32 n : Int)), s.setFile a { s.file a with offp := u32 n }) = (Ret.of v, s) := by
      rintro ⟨v, hv, h⟩
      have hval := Option.some.inj (congrArg Ret.value (Prod.mk.inj h).1)
      exact u32_nonneg n (by rw [hval]; exact hv)
    rw [or_iff_right herr]
    by_cases hw : Whence whence
    · have hn := hin hw
      constructor
      · rintro ⟨-, h0, h1, -⟩
        exact .inl ⟨hw, .inl ⟨h0, h1⟩⟩
      · rintro (⟨-, ⟨h0, h1⟩ | h⟩ | ⟨h, -⟩)
        · have hsame : n = s.lseekTarget a offset whence := by rw [hn, int32_eq (by omega) (by omega)]
          have hu : u32 n = (s.lseekTarget a offset whence).toNat := by
            rw [hsame]
            unfold u32
            omega
          refine ⟨hw, h0, h1, ?_⟩
          rw [hu, Int.toNat_of_nonneg h0]
        · unfold int32 at hn
          omega
        · exact absurd hw h
    · have hn := hout hw
      refine iff_of_false (fun h => hw h.1) ?_
      rintro (⟨h, -⟩ | ⟨-, h⟩)
      · exact hw h
      · omega

end

/-! ## Runs -/

end Kernel

/-- Only regular files have the operations on regular files. -/
theorem File.Shaped.regular {f : File} (h : f.Shaped)
    (hops : f.fops.read = some .doReadRegular ∨ f.fops.write = some .doWriteRegular ∨ f.fops.lseek = true) : f.type = .REGULAR := by
  unfold File.Shaped at h
  split at h
  · rw [h.2] at hops
    simp at hops
  · rw [h.2] at hops
    simp at hops
  · rw [h.2] at hops
    simp at hops
  · assumption
  · rcases h with ⟨-, h⟩ | ⟨-, h⟩ <;> rw [h] at hops <;> simp at hops

namespace Kernel

/-- Every inode has FILE_SIZE bytes of the memory, and a file lies at their start. -/
structure Storage (fs : FlatFs) : Prop where
  bounds : ∀ i < NUM_FILES, (fs.inode i).ePos = (fs.inode i).sPos + FILE_SIZE ∧ (fs.inode i).ePos < 2 ^ 32
  size : ∀ i < NUM_FILES, (fs.inode i).isValid = true →
    (fs.inode i).fileSize ≤ FILE_SIZE ∧ (fs.inode i).maxPos = (fs.inode i).sPos + (fs.inode i).fileSize

/-- The object is of a file that is there, with an offset in its storage. -/
def Placed (fs : FlatFs) (f : File) : Prop :=
  ∃ i < NUM_FILES, f.inode = some i ∧ (fs.inode i).isValid = true ∧ f.offp ≤ FILE_SIZE

structure Inside (s : Kernel) : Prop where
  storage : Storage s.fs
  placed : ∀ a, s.use a = .file → (s.file a).type = .REGULAR → Placed s.fs (s.file a)

section
variable {s t : Kernel} {pid fd a i count page : Nat} {junk : File} {buff : Nat → UInt8}

theorem Placed.congr {fs : FlatFs} {f g : File} (h : Placed fs f) (hi : g.inode = f.inode) (ho : g.offp = f.offp) : Placed fs g := by
  obtain ⟨i, hlt, hin, hv, hoff⟩ := h
  exact ⟨i, hlt, hi.trans hin, hv, ho ▸ hoff⟩

/-- Every object is one of before, or has been placed. -/
theorem Inside.next (h : s.Inside) (hfs : t.fs = s.fs) (hobj : ∀ b, t.use b = .file → (t.file b).type = .REGULAR →
    (s.use b = .file ∧ (s.file b).type = .REGULAR ∧ (t.file b).inode = (s.file b).inode ∧ (t.file b).offp = (s.file b).offp) ∨
      Placed s.fs (t.file b)) : t.Inside := by
  refine ⟨hfs ▸ h.storage, fun b hb ht => ?_⟩
  rw [hfs]
  rcases hobj b hb ht with ⟨hlive, htype, hi, ho⟩ | hp
  · exact (h.placed b hlive htype).congr hi ho
  · exact hp

theorem Inside.same (h : s.Inside) (hs : s.Same t) : t.Inside := by
  apply h.next hs.fs
  intro b hb ht
  obtain ⟨htype, -, ho, hi⟩ := hs.file b
  exact .inl ⟨hs.live b hb, htype ▸ ht, hi, ho⟩

theorem Inside.setSlot (h : s.Inside) (v : Option Nat) : (s.setSlot pid fd v).Inside :=
  h.next rfl fun _ hb ht => .inl ⟨hb, ht, rfl, rfl⟩

theorem Inside.genericClose (h : s.Inside) (a : Nat) : (s.genericClose a).Inside := h.same (same_genericClose s a)

theorem Inside.addRef (h : s.Inside) (a : Nat) : (s.addRef a).Inside := h.same (same_setRefCount s a _)

theorem Inside.setPipe (h : s.Inside) (p : Nat) (q : PipeInfo) : (s.setPipe p q).Inside :=
  h.next rfl fun _ hb ht => .inl ⟨hb, ht, rfl, rfl⟩

theorem Inside.setOffp (h : s.Inside) (a : Nat) {offp : Nat} (hoff : offp ≤ FILE_SIZE) :
    (s.setFile a { s.file a with offp := offp }).Inside := by
  refine h.next rfl fun b hb ht => ?_
  show _ ∨ Placed s.fs (update s.file a _ b)
  have ht : (update s.file a { s.file a with offp := offp } b).type = .REGULAR := ht
  by_cases e : b = a
  · rw [e, update_self] at ht ⊢
    obtain ⟨i, hlt, hin, hv, -⟩ := h.placed a (e ▸ hb) ht
    exact .inr ⟨i, hlt, hin, hv, hoff⟩
  · rw [update_of_ne e] at ht ⊢
    exact .inr (h.placed b hb ht)

theorem Inside.made {x : File} (h : s.Inside) (hm : Made s t page x) (hx : x.type = .REGULAR → Placed s.fs x) : t.Inside := by
  apply h.next hm.fs
  intro b hb ht
  by_cases e : b = page
  · rw [e, hm.self] at ht ⊢
    exact .inr (hx ht)
  · rw [hm.other e] at ht ⊢
    exact .inl ⟨((hm.use b).mp hb).resolve_left e, ht, rfl, rfl⟩

/-! ### Opening -/

theorem Inside.openInode (h : s.Inside) (hpage : page ≠ 0) (hi : i < NUM_FILES) (hv : (s.fs.inode i).isValid = true)
    (flags : UInt64) : (s.openInode pid i flags page junk).2.Inside := by
  unfold Kernel.openInode
  dsimp only
  split
  · exact h
  split
  · exact h
  cases freeSlot (s.ctx pid).files 3 with
  | none => exact h
  | some fd =>
    exact h.made (made_object s pid fd page junk (regularFile i flags)) fun _ => ⟨i, hi, rfl, hv, Nat.zero_le _⟩

theorem Storage.create {fs fs' : FlatFs} {filename : List UInt8} {mode : UInt32} (h : Storage fs)
    (hc : fs.createInode filename mode = (some i, fs')) : Storage fs' ∧ i < NUM_FILES ∧ (fs'.inode i).isValid = true ∧
      ∀ j, (fs.inode j).isValid = true → (fs'.inode j).isValid = true := by
  unfold FlatFs.createInode at hc
  split at hc
  · cases hc
  cases hfree : fs.getFreeInode with
  | none =>
    rw [hfree] at hc
    cases hc
  | some k =>
    rw [hfree] at hc
    obtain ⟨hk, rfl⟩ := Prod.mk.inj hc
    cases hk
    have hlt := List.mem_range.mp (List.mem_of_find?_eq_some hfree)
    refine ⟨⟨fun j hj => ?_, fun j hj hv => ?_⟩, hlt, by simp, fun j hv => ?_⟩
    · have hb := h.bounds j hj
      by_cases e : j = i
      · subst e
        simpa using hb
      · simpa [update_of_ne e] using hb
    · by_cases e : j = i
      · subst e
        simp
      · simp only [update_of_ne e] at hv ⊢
        exact h.size j hj hv
    · by_cases e : j = i
      · subst e
        simp
      · simpa [update_of_ne e] using hv

theorem Inside.setFs (h : s.Inside) {fs : FlatFs} (hs : Storage fs)
    (hv : ∀ j, (s.fs.inode j).isValid = true → (fs.inode j).isValid = true) : { s with fs := fs }.Inside := by
  refine ⟨hs, fun b hb ht => ?_⟩
  obtain ⟨i, hlt, hin, hvalid, hoff⟩ := h.placed b hb ht
  exact ⟨i, hlt, hin, hv i hvalid, hoff⟩

theorem Inside.doRegularFileOpen (h : s.Inside) (hf : s.Fresh [page]) (filename : List UInt8) (flags mode : UInt64) :
    (s.doRegularFileOpen pid filename flags mode page junk).2.Inside := by
  have hpage : page ≠ 0 := (hf.2 page (by simp)).2
  unfold Kernel.doRegularFileOpen
  split
  · exact h
  cases hl : s.fs.lookupInode filename with
  | none =>
    dsimp only
    split
    · rcases hc : s.fs.createInode filename mode.toUInt32 with ⟨i | i, fs⟩
      · have hsame : fs = s.fs := by
          unfold FlatFs.createInode at hc
          split at hc
          · exact (Prod.mk.inj hc).2.symm
          · split at hc
            · exact (Prod.mk.inj hc).2.symm
            · cases (Prod.mk.inj hc).1
        subst hsame
        exact h
      · obtain ⟨hs, hlt, hv, hold⟩ := h.storage.create hc
        exact (h.setFs hs hold).openInode hpage hlt hv flags
    · exact h
  | some i =>
    have hmem := List.mem_range.mp (List.mem_of_find?_eq_some hl)
    have hp := List.find?_some hl
    rw [Bool.and_eq_true] at hp
    dsimp only
    split
    · exact h
    · exact h.openInode hpage hmem hp.1 flags

/-! ### The other calls -/

theorem Inside.createStandardIO (h : s.Inside) {type : FileType} (ht : type ≠ .REGULAR) (v : Nat) :
    ((s.createStandardIO type page junk).setSlot pid v (some page)).Inside := by
  apply h.made (made_object s pid v page junk _)
  intro e
  exact absurd e ht

theorem Inside.openStandardIO (h : s.Inside) {type : FileType} (ht : type.num < 3) {r : Ret × Kernel}
    (hr : s.openStandardIO pid type page junk = some r) : r.2.Inside := by
  have htype : type ≠ .REGULAR := fun e => absurd (e ▸ ht) (by decide)
  unfold Kernel.openStandardIO at hr
  cases hs : (s.ctx pid).files type.num with
  | none =>
    rw [hs] at hr
    cases hr
    exact h.createStandardIO htype type.num
  | some a =>
    rw [hs] at hr
    obtain ⟨fd, -, rfl⟩ := Option.map_eq_some_iff.mp hr
    exact (h.addRef a).setSlot _

theorem Inside.createPipe (h : s.Inside) {pages : PipePages} (hf : s.Fresh [pages.file1, pages.file2, pages.info, pages.buff]) :
    (s.createPipe pid pages).2.Inside := by
  unfold Kernel.createPipe
  cases freeSlot (s.ctx pid).files 3 with
  | none => exact h
  | some fd0 =>
    dsimp only
    cases freeSlot (s.ctx pid).files (fd0 + 1) with
    | none => exact h
    | some fd1 =>
      show (s.madePipe pid fd0 fd1 pages).Inside
      refine h.next rfl fun b hb ht => ?_
      obtain (e | e) | hlive := (madePipe_file_iff hf b).mp hb
      · rw [e, madePipe_file1 hf] at ht
        cases ht
      · rw [e, madePipe_file2] at ht
        cases ht
      · rw [madePipe_file hf (by rw [hlive]; exact nofun)] at ht ⊢
        exact .inl ⟨hlive, ht, rfl, rfl⟩

theorem Inside.fdDup (h : s.Inside) (oldfd : Int) : (s.fdDup pid oldfd).2.Inside := by
  unfold Kernel.fdDup
  split
  · exact h
  cases (s.ctx pid).files oldfd.toNat with
  | none => exact h
  | some a =>
    cases freeSlot (s.ctx pid).files 0 with
    | none => exact h
    | some fd => exact (h.setSlot _).addRef a

theorem Inside.fdDup2 (h : s.Inside) (oldfd newfd : Int) : (s.fdDup2 pid oldfd newfd).2.Inside := by
  unfold Kernel.fdDup2
  split
  · exact h
  split
  · exact h
  cases (s.ctx pid).files oldfd.toNat with
  | none => exact h
  | some a =>
    dsimp only
    split
    · exact h
    · refine Inside.addRef (Inside.setSlot ?_ _) a
      cases (s.ctx pid).files newfd.toNat with
      | none => exact h
      | some b => exact h.genericClose b

theorem Inside.doClose (h : s.Inside) : (s.doClose pid fd).2.Inside := by
  unfold Kernel.doClose
  cases (s.ctx pid).files fd with
  | none => exact h
  | some a =>
    dsimp only
    split
    · exact (h.setSlot _).genericClose a
    · exact h

theorem Inside.foldl (h : s.Inside) {step : Kernel → Nat → Kernel} (hstep : ∀ s i, s.Inside → (step s i).Inside) (l : List Nat) :
    (l.foldl step s).Inside := by
  induction l generalizing s with
  | nil => exact h
  | cons i l ih => exact ih (hstep s i h)

theorem Inside.doFork (h : s.Inside) {r : Ret × Kernel} (hr : s.doFork pid = some r) : r.2.Inside := by
  obtain ⟨child, -, rfl⟩ := Option.map_eq_some_iff.mp hr
  have hctx : { s with ctx := update s.ctx child { s.ctx pid with used := true } }.Inside := ⟨h.storage, h.placed⟩
  refine hctx.foldl (fun s i hs => ?_) _
  cases (s.ctx child).files i with
  | none => exact hs
  | some a => exact hs.addRef a

theorem Inside.doExit (h : s.Inside) : (s.doExit pid).Inside := by
  have hslots : (s.doFileExit pid).Inside := by
    refine Inside.foldl h (fun s i hs => ?_) _
    cases (s.ctx pid).files i with
    | none => exact hs
    | some a => exact (hs.genericClose a).setSlot _
  exact ⟨hslots.storage, hslots.placed⟩

theorem Inside.doReadRegular (h : s.Inside) (ha : s.use a = .file) (ht : (s.file a).type = .REGULAR) (hc : count < 2 ^ 31) :
    (s.doReadRegular a count).2.Inside := by
  obtain ⟨i, -, hi, -, hoff⟩ := h.placed a ha ht
  unfold FILE_SIZE at hoff
  rcases doReadRegular_cases hi count with ⟨-, v, -, hr⟩ | ⟨hcan, hr⟩
  · rw [hr]
    exact h
  · rw [hr]
    have hsum : u32 ((s.file a).offp + count) = (s.file a).offp + count := by
      unfold u32
      omega
    have hle := hcan.there
    have hshort := hcan.short
    rw [hsum] at hle
    have hlen := FlatFs.readAddrs_length hshort hle
    apply h.setOffp
    rw [FlatFs.flatRead_eq_map, List.length_map, hlen, int32_eq (by omega) (by omega), hsum]
    omega

theorem Storage.write {fs fs' : FlatFs} (h : Storage fs) (hi : i < NUM_FILES) {size : Nat}
    (hsize : size ≤ FILE_SIZE)
    (hself : fs'.inode i = { fs.inode i with maxPos := (fs.inode i).sPos + size, fileSize := size })
    (hother : ∀ j, j ≠ i → fs'.inode j = fs.inode j) : Storage fs' := by
  refine ⟨fun j hj => ?_, fun j hj hvj => ?_⟩
  · by_cases e : j = i
    · rw [e, hself]
      exact h.bounds i hi
    · rw [hother j e]
      exact h.bounds j hj
  · by_cases e : j = i
    · rw [e, hself]
      exact ⟨hsize, rfl⟩
    · rw [hother j e] at hvj ⊢
      exact h.size j hj hvj

theorem Inside.doWriteRegular (h : s.Inside) (ha : s.use a = .file) (ht : (s.file a).type = .REGULAR) (hc : count < 2 ^ 31) :
    (s.doWriteRegular a buff count).2.Inside := by
  obtain ⟨i, hlt, hi, hv, hoff⟩ := h.placed a ha ht
  rcases doWriteRegular_cases hi buff count with ⟨-, v, -, hr⟩ | ⟨hcan, hr⟩
  · rw [hr]
    exact h
  · have hsum : u32 ((s.file a).offp + count) = (s.file a).offp + count := by
      unfold FILE_SIZE at hoff
      unfold u32
      omega
    have hfit := hcan.fits
    rw [hsum] at hfit
    obtain ⟨hend, h32⟩ := h.storage.bounds i hlt
    obtain ⟨hlong, hmax⟩ := h.storage.size i hlt hv
    obtain ⟨fs', hwrite, hself, hother, -⟩ := flatWrite_eq hend h32 hmax hlong buff hfit
    have hne : ¬ ((count : Int) = -1) := by omega
    rw [hr, hwrite]
    dsimp only
    rw [if_neg hne, hsum]
    have hs := h.storage.write hlt (Nat.max_le.mpr ⟨hlong, hfit⟩) hself hother
    have hvalid : ∀ j, (s.fs.inode j).isValid = true → (fs'.inode j).isValid = true := by
      intro j hj
      by_cases e : j = i
      · rw [e, hself]
        exact hv
      · rw [hother j e]
        exact hj
    exact (h.setFs hs hvalid).setOffp a hfit

theorem Inside.doFileRead (h : s.Inside) (hx : s.Exact none) (hpid : pid < MAX_PROCESSES) (hfd : fd < MAX_OPEN_FILES)
    (hc : count < 2 ^ 31) {r : Ret × Kernel} (hr : s.doFileRead pid fd count = some r) : r.2.Inside := by
  unfold Kernel.doFileRead at hr
  cases ha : (s.ctx pid).files fd with
  | none =>
    rw [ha] at hr
    cases hr
    exact h
  | some a =>
    have hlive := hx.live hpid hfd ha
    simp only [ha] at hr
    split at hr
    · cases hr
      exact h
    · rename_i hop
      cases hr
      rw [u32_eq (by omega)]
      exact h.doReadRegular hlive ((hx.shapes a hlive).regular (.inl hop)) hc
    · split at hr
      · cases hr
        exact h
      · cases hr
        exact h.setPipe _ _
    · cases hr

theorem Inside.doFileWrite (h : s.Inside) (hx : s.Exact none) (hpid : pid < MAX_PROCESSES) (hfd : fd < MAX_OPEN_FILES)
    (hc : count < 2 ^ 31) {r : Ret × Kernel} (hr : s.doFileWrite pid fd buff count = some r) : r.2.Inside := by
  unfold Kernel.doFileWrite at hr
  cases ha : (s.ctx pid).files fd with
  | none =>
    rw [ha] at hr
    cases hr
    exact h
  | some a =>
    have hlive := hx.live hpid hfd ha
    simp only [ha] at hr
    split at hr
    · cases hr
      exact h
    · rename_i hop
      cases hr
      rw [u32_eq (by omega)]
      exact h.doWriteRegular hlive ((hx.shapes a hlive).regular (.inr (.inl hop))) hc
    · split at hr
      · cases hr
        exact h
      · cases hr
        exact h.setPipe _ _
    · cases hr

/-- A seek that meets the condition leaves the offset in the storage. -/
theorem Inside.doLseek (h : s.Inside) (hx : s.Exact none) (hpid : pid < MAX_PROCESSES) (hfd : fd < MAX_OPEN_FILES)
    {offset whence : Int} (hmeets : ∀ a, (s.ctx pid).files fd = some a → (s.file a).type = .REGULAR → s.SeekMeets a offset whence) :
    (s.doLseek pid fd offset whence).2.Inside := by
  unfold Kernel.doLseek
  cases ha : (s.ctx pid).files fd with
  | none => exact h
  | some a =>
    have hlive := hx.live hpid hfd ha
    dsimp only
    split
    · rename_i hop
      have ht := (hx.shapes a hlive).regular (.inr (.inr hop))
      obtain ⟨-, -, -, -, hoff⟩ := h.placed a hlive ht
      rcases (seek_exact_iff hoff offset whence).mpr (hmeets a ha ht) with ⟨v, -, hr⟩ | ⟨-, h0, h1, hr⟩
      · rw [hr]
        exact h
      · rw [hr]
        exact h.setOffp a (by omega)
    · exact h

end

/-- The promises to `step`, counts below 2^31, and seeks of regular files that meet their condition. -/
def Seeking (s : Kernel) (e : Ev) : Prop :=
  s.Promised e ∧ match e.call with
    | .read _ count | .write _ _ count => count < 2 ^ 31
    | .lseek fd offset whence =>
      ∀ a, (s.ctx e.pid).files fd = some a → (s.file a).type = .REGULAR → s.SeekMeets a offset whence
    | _ => True

/-- What a call touches of the memory the files lie in, each byte with the inode it is touched for. -/
def touched (s : Kernel) (pid : Nat) : Call → List (Nat × Nat)
  | .read fd count =>
    match (s.ctx pid).files fd with
    | none => []
    | some a =>
      match (s.file a).fops.read, (s.file a).inode with
      | some .doReadRegular, some i =>
        if s.CanRead a i (u32 count) then (FlatFs.readAddrs (s.fs.inode i) (u32 count) (s.file a).offp).map (i, ·) else []
      | _, _ => []
  | .write fd _ count =>
    match (s.ctx pid).files fd with
    | none => []
    | some a =>
      match (s.file a).fops.write, (s.file a).inode with
      | some .doWriteRegular, some i =>
        if s.CanWrite a i (u32 count) then (FlatFs.writeAddrs (s.fs.inode i) (u32 count) (s.file a).offp).map (i, ·) else []
      | _, _ => []
  | _ => []

section
variable {s t : Kernel} {e : Ev}

theorem step_inside (h : s.Inside) (hx : s.Exact none) (hok : s.Seeking e) (he : s.step e = some t) : t.Inside := by
  unfold step at he
  split at he
  · rename_i hpid
    obtain ⟨r, hcall, hr⟩ := Option.bind_eq_some_iff.mp he
    split at hr
    · cases hr
      obtain ⟨pid, c, ret⟩ := e
      obtain ⟨hpid, -⟩ := hpid
      obtain ⟨hp, hok⟩ := hok
      cases c with
      | openRegular filename flags mode page junk =>
        cases hcall
        exact h.doRegularFileOpen hp filename flags mode
      | openStandard type page junk => exact h.openStandardIO hp.1 hcall
      | pipe pages =>
        cases hcall
        exact h.createPipe hp
      | dup oldfd =>
        cases hcall
        exact h.fdDup oldfd
      | dup2 oldfd newfd =>
        cases hcall
        exact h.fdDup2 oldfd newfd
      | close fd =>
        cases hcall
        exact h.doClose
      | fork => exact h.doFork hcall
      | exit =>
        cases hcall
        exact h.doExit
      | read fd count => exact h.doFileRead hx hpid hp hok hcall
      | write fd buff count => exact h.doFileWrite hx hpid hp hok hcall
      | lseek fd offset whence =>
        cases hcall
        exact h.doLseek hx hpid hp hok
    · cases hr
  · cases he

theorem start_inside (h : Start s) : s.Inside := by
  have hm : s.Matches Named.start fun _ => 0 := start_matches h
  have hb := hm.holds
  refine ⟨⟨hb.bounds, fun i hi hv => ?_⟩, fun a ha ht => ?_⟩
  · rw [hb.valid i hi] at hv
    cases hv
  · obtain ⟨i, -, hi, -⟩ := hm.opened a ha ht
    exact absurd hi (Nat.not_lt_zero i)

theorem reach_inside (h : machine.Reach Seeking s) : s.Inside ∧ s.Exact none := by
  apply h.inv (fun s => s.Inside ∧ s.Exact none)
  · intro s hs
    exact ⟨start_inside hs, start_exact hs⟩
  · intro s e t hi hok he
    exact ⟨step_inside hi.1 hi.2 hok he, step_exact hi.2 hok.1 he⟩

section
variable {a i count x : Nat} (hst : Storage s.fs) (hi : i < NUM_FILES) (hoff : (s.file a).offp ≤ FILE_SIZE) (hc : count < 2 ^ 31)
include hst hi hoff hc

theorem CanRead.contained (hcan : s.CanRead a i count) (hx : x ∈ FlatFs.readAddrs (s.fs.inode i) count (s.file a).offp) :
    (s.fs.inode i).sPos ≤ x ∧ x < (s.fs.inode i).ePos := by
  obtain ⟨hend, h32⟩ := hst.bounds i hi
  have hle := hcan.there
  have hshort := hcan.short
  have hsum : u32 ((s.file a).offp + count) = (s.file a).offp + count := by
    unfold FILE_SIZE at hoff
    unfold u32
    omega
  rw [hsum] at hle
  have := FlatFs.mem_readAddrs hshort hle (by omega) hx
  omega

theorem CanWrite.contained (hcan : s.CanWrite a i count) (hx : x ∈ FlatFs.writeAddrs (s.fs.inode i) count (s.file a).offp) :
    (s.fs.inode i).sPos ≤ x ∧ x < (s.fs.inode i).ePos := by
  obtain ⟨hend, h32⟩ := hst.bounds i hi
  have hfit := hcan.fits
  have hsum : u32 ((s.file a).offp + count) = (s.file a).offp + count := by
    unfold FILE_SIZE at hoff
    unfold u32
    omega
  rw [hsum] at hfit
  have := FlatFs.mem_writeAddrs hfit (by omega) hx
  omega

end

/-- Reads and writes stay in the storage of the file they are made of. -/
theorem Inside.contained (h : s.Inside) (hx : s.Exact none) (hpid : e.pid < MAX_PROCESSES) (hok : s.Seeking e) {p : Nat × Nat}
    (hp : p ∈ s.touched e.pid e.call) : (s.fs.inode p.1).sPos ≤ p.2 ∧ p.2 < (s.fs.inode p.1).ePos := by
  obtain ⟨pid, c, ret⟩ := e
  obtain ⟨hfd, hok⟩ := hok
  have hplaced : ∀ {fd a i}, fd < MAX_OPEN_FILES → (s.ctx pid).files fd = some a → (s.file a).inode = some i →
      (s.file a).fops.read = some .doReadRegular ∨ (s.file a).fops.write = some .doWriteRegular →
      i < NUM_FILES ∧ (s.file a).offp ≤ FILE_SIZE := by
    intro fd a i hfd ha hi hop
    have hlive := hx.live hpid hfd ha
    obtain ⟨j, hlt, hj, -, hoff⟩ := h.placed a hlive ((hx.shapes a hlive).regular (hop.imp_right .inl))
    cases hi.symm.trans hj
    exact ⟨hlt, hoff⟩
  cases c with
  | read fd count =>
    have hc : count < 2 ^ 31 := hok
    simp only [touched] at hp
    cases ha : (s.ctx pid).files fd with
    | none => simp [ha] at hp
    | some a =>
      simp only [ha, u32_eq (Nat.lt_trans hc (by decide))] at hp
      split at hp
      · rename_i i hop hi
        obtain ⟨hlt, hoff⟩ := hplaced hfd ha hi (.inl hop)
        split at hp
        · rename_i hcan
          obtain ⟨x, hmem, rfl⟩ := List.mem_map.mp hp
          exact CanRead.contained h.storage hlt hoff hc hcan hmem
        · simp at hp
      · simp at hp
  | write fd buff count =>
    have hc : count < 2 ^ 31 := hok
    simp only [touched] at hp
    cases ha : (s.ctx pid).files fd with
    | none => simp [ha] at hp
    | some a =>
      simp only [ha, u32_eq (Nat.lt_trans hc (by decide))] at hp
      split at hp
      · rename_i i hop hi
        obtain ⟨hlt, hoff⟩ := hplaced hfd ha hi (.inr hop)
        split at hp
        · rename_i hcan
          obtain ⟨x, hmem, rfl⟩ := List.mem_map.mp hp
          exact CanWrite.contained h.storage hlt hoff hc hcan hmem
        · simp at hp
      · simp at hp
  | openRegular | openStandard | pipe | dup | dup2 | close | fork | exit | lseek => simp [touched] at hp

end

/-- A seek of a regular file is exact if and only if it meets the condition; and over any calls
    whose seeks meet it, every offset stays in the storage, and so does every byte that a read or
    write touches. -/
theorem offsets_inside (s : Kernel) :
    (∀ (a : Nat) (offset whence : Int), (s.file a).inode ≠ none → (s.file a).offp ≤ FILE_SIZE →
      (s.SeekExact a offset whence ↔ s.SeekMeets a offset whence)) ∧
    (machine.Reach Seeking s →
      (∀ a, s.use a = .file → (s.file a).type = .REGULAR → (s.file a).offp ≤ FILE_SIZE) ∧
      ∀ e : Ev, e.pid < MAX_PROCESSES → s.Seeking e → ∀ p ∈ s.touched e.pid e.call,
        (s.fs.inode p.1).sPos ≤ p.2 ∧ p.2 < (s.fs.inode p.1).ePos) := by
  refine ⟨fun a offset whence _ hoff => seek_exact_iff hoff offset whence, fun h => ?_⟩
  obtain ⟨hi, hx⟩ := reach_inside h
  refine ⟨fun a ha ht => ?_, fun e hpid hok p hp => hi.contained hx hpid hok hp⟩
  obtain ⟨-, -, -, -, hoff⟩ := hi.placed a ha ht
  exact hoff

theorem offsets_inside_moved : ∃ s t, machine.Reach Seeking s ∧ s.step ⟨1, .lseek 3 5 SEEK_SET, .of 5⟩ = some t ∧
    (t.file 4).offp = 5 ∧ (s.SeekExact 4 5 SEEK_SET ↔ s.SeekMeets 4 5 SEEK_SET) ∧
    (∀ a, t.use a = .file → (t.file a).type = .REGULAR → (t.file a).offp ≤ FILE_SIZE) ∧
    ∀ e : Ev, e.pid < MAX_PROCESSES → t.Seeking e → ∀ p ∈ t.touched e.pid e.call,
      (t.fs.inode p.1).sPos ≤ p.2 ∧ p.2 < (t.fs.inode p.1).ePos := by
  have h0 : machine.Reach Seeking first := .init first_start
  have h1 := h0.step (e := ⟨1, .openRegular [97] 11 3 4 blankFile, .of 3⟩) ⟨by decide, trivial⟩ rfl
  have hmeets : ∀ (s : Kernel) a, s.SeekMeets a 5 SEEK_SET := fun s a => .inl ⟨.inl rfl, .inl (by rw [lseekTarget_set]; decide)⟩
  have h2 := h1.step (e := ⟨1, .lseek 3 5 SEEK_SET, .of 5⟩) ⟨by decide, fun a _ _ => hmeets _ a⟩ rfl
  exact ⟨_, _, h1, rfl, by decide, (offsets_inside _).1 4 5 SEEK_SET (by decide) (by decide), (offsets_inside _).2 h2⟩

/-- One byte back from the start of the third file: the seek succeeds, and a write then goes to the last byte of the second. -/
theorem seek_below_start : ∃ s, machine.Reach Seeking s ∧ (s.file 6).inode ≠ none ∧ (s.file 6).offp ≤ FILE_SIZE ∧
    ¬ s.SeekExact 6 (-1) SEEK_CUR ∧ (s.doLseek 1 5 (-1) SEEK_CUR).1 = .of 4294967295 ∧
    ((s.doLseek 1 5 (-1) SEEK_CUR).2.file 6).offp = 4294967295 ∧
    (s.doLseek 1 5 (-1) SEEK_CUR).2.touched 1 (.write 5 (fun _ => 7) 1) = [(2, 0x2200EFFF)] ∧
    ((s.doLseek 1 5 (-1) SEEK_CUR).2.fs.inode 1).ePos = 0x2200F000 ∧
    ((s.doLseek 1 5 (-1) SEEK_CUR).2.fs.inode 2).sPos = 0x2200F000 := by
  have h0 : machine.Reach Seeking first := .init first_start
  have h1 := h0.step (e := ⟨1, .openRegular [97] 11 3 4 blankFile, .of 3⟩) ⟨by decide, trivial⟩ rfl
  have h2 := h1.step (e := ⟨1, .openRegular [98] 11 3 5 blankFile, .of 4⟩) ⟨by decide, trivial⟩ rfl
  have h3 := h2.step (e := ⟨1, .openRegular [99] 11 3 6 blankFile, .of 5⟩) ⟨by decide, trivial⟩ rfl
  refine ⟨_, h3, by decide, by decide, fun h => ?_, by decide +kernel, by decide +kernel, by decide +kernel, by decide +kernel,
    by decide +kernel⟩
  have hmeets := (seek_exact_iff (by decide) (-1) SEEK_CUR).mp h
  exact absurd hmeets (by decide +kernel)

end Kernel

end Cs330.Files
