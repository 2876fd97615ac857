/-
  Cs330.Lib.Frames — reference-counted copy-on-write frames.

  Owners `ι` map keys `κ` to frames `φ`, read-only or writable. A frame holds a value `υ` at
  every offset `δ` and has a counter of eight bits. `share` lets a second owner map a frame,
  read-only for both; `copy` gives an owner a frame of its own; `drop` and `chmod` trust the
  counter when it reads 1.

  `Inv`: no owner maps a frame twice, the counter of a frame is at least the number of its
  owners, and a writable frame has one owner. Every operation keeps it (`Inv.drop`,
  `Inv.share`, …) as long as no counter is at 255 when it is incremented. `Faithful s t`:
  what the owners have been told they wrote (`t`) is what their frames hold.
-/
import Mathlib.Data.Set.Card

namespace Cs330.Lib

structure Entry (φ : Type) where
  frame : φ
  write : Bool
  deriving DecidableEq, Repr

structure Frames (ι κ φ δ υ : Type) where
  map : ι → κ → Option (Entry φ)
  count : φ → UInt8
  used : Finset φ
  data : φ → δ → υ

namespace Frames

variable {ι κ φ δ υ : Type} [DecidableEq ι] [DecidableEq κ] [DecidableEq φ] [DecidableEq δ]

def put {γ : Type} (m : ι → κ → γ) (i : ι) (k : κ) (e : γ) : ι → κ → γ :=
  Function.update m i (Function.update (m i) k e)

variable (s : Frames ι κ φ δ υ)

/-- An unused frame for a key, whatever it holds. -/
def fresh (i : ι) (k : κ) (g : φ) (w : Bool) : Frames ι κ φ δ υ :=
  { s with map := put s.map i k (some ⟨g, w⟩), count := Function.update s.count g 1, used := insert g s.used }

def drop (i : ι) (k : κ) : Frames ι κ φ δ υ :=
  match s.map i k with
  | none => s
  | some e =>
    if s.count e.frame = 1 then
      { s with map := put s.map i k none, count := Function.update s.count e.frame 0, used := s.used.erase e.frame }
    else { s with map := put s.map i k none, count := Function.update s.count e.frame (s.count e.frame - 1) }

def chmod (i : ι) (k : κ) (w : Bool) : Frames ι κ φ δ υ :=
  match s.map i k with
  | none => s
  | some e => if s.count e.frame = 1 then { s with map := put s.map i k (some { e with write := w }) } else s

/-- The frame of a key leaves it for a copy in the unused frame `g`. -/
def copy (i : ι) (k : κ) (g : φ) : Frames ι κ φ δ υ :=
  match s.map i k with
  | none => s
  | some e =>
    { map := put s.map i k (some ⟨g, true⟩)
      count := Function.update (Function.update s.count e.frame (s.count e.frame - 1)) g 1
      used := insert g s.used
      data := Function.update s.data g (s.data e.frame) }

def share (i j : ι) (k : κ) : Frames ι κ φ δ υ :=
  match s.map i k with
  | none => s
  | some e =>
    { s with
      map := put (put s.map i k (some { e with write := false })) j k (some { e with write := false })
      count := Function.update s.count e.frame (s.count e.frame + 1) }

/-- `j` gets a copy of `i`'s frame in the unused frame `g`. -/
def dup (i j : ι) (k : κ) (g : φ) (w : Bool) : Frames ι κ φ δ υ :=
  match s.map i k with
  | none => s
  | some e => { s.fresh j k g w with data := Function.update s.data g (s.data e.frame) }

def store (i : ι) (k : κ) (o : δ) (v : υ) : Frames ι κ φ δ υ :=
  match s.map i k with
  | some ⟨f, true⟩ => { s with data := Function.update s.data f (Function.update (s.data f) o v) }
  | _ => s

def clear (i : ι) : Frames ι κ φ δ υ := { s with map := Function.update s.map i fun _ => none }

omit [DecidableEq φ] [DecidableEq δ] in
theorem put_apply {γ : Type} (m : ι → κ → γ) (i j : ι) (k l : κ) (e : γ) :
    put m i k e j l = if j = i ∧ l = k then e else m j l := by
  unfold put
  by_cases hj : j = i
  · rw [hj, Function.update_self]
    by_cases hl : l = k
    · rw [hl, Function.update_self, if_pos ⟨rfl, rfl⟩]
    · rw [Function.update_of_ne hl, if_neg fun h => hl h.2]
  · rw [Function.update_of_ne hj, if_neg fun h => hj h.1]

omit [DecidableEq φ] [DecidableEq δ] in
theorem put_put {γ : Type} (m : ι → κ → γ) (i : ι) (k : κ) (e e' : γ) : put (put m i k e) i k e' = put m i k e' := by
  funext j l
  rw [put_apply, put_apply, put_apply]
  split <;> rfl

omit [DecidableEq φ] [DecidableEq δ] in
theorem chmod_chmod {s : Frames ι κ φ δ υ} {i : ι} {k : κ} {w : Bool} : (s.chmod i k w).chmod i k w = s.chmod i k w := by
  unfold chmod
  cases h : s.map i k with
  | none => simp only [h]
  | some e =>
    by_cases h1 : s.count e.frame = 1
    · have hput : put s.map i k (some { e with write := w }) i k = some { e with write := w } :=
        (put_apply ..).trans (if_pos ⟨rfl, rfl⟩)
      simp only [if_pos h1, hput, put_put]
    · simp only [if_neg h1, h]

/-! ## The invariant -/

def holders (f : φ) : Set ι := {i | ∃ k e, s.map i k = some e ∧ e.frame = f}

/-- `i` is the only owner of the frame. -/
def Sole (i : ι) (f : φ) : Prop := ∀ j k e, s.map j k = some e → e.frame = f → j = i

/-- What `j` maps is `i`'s frame of that key, or none of `i`'s. -/
def Child (i j : ι) : Prop := ∀ k e', s.map j k = some e' →
  (∃ e, s.map i k = some e ∧ e.frame = e'.frame) ∨ ∀ l e, s.map i l = some e → e.frame ≠ e'.frame

structure Inv : Prop where
  inj : ∀ i k k' e e', s.map i k = some e → s.map i k' = some e' → e.frame = e'.frame → k = k'
  used : ∀ i k e, s.map i k = some e → e.frame ∈ s.used
  held : ∀ f, (s.holders f).encard ≤ (s.count f).toNat
  sole : ∀ i k e, s.map i k = some e → e.write = true → s.Sole i e.frame

variable {s} {i j : ι} {k : κ} {e : Entry φ} {g : φ} {w : Bool}

omit [DecidableEq ι] [DecidableEq κ] [DecidableEq φ] [DecidableEq δ]

theorem mem_holders (h : s.map i k = some e) : i ∈ s.holders e.frame := ⟨k, e, h, rfl⟩

theorem Inv.pos (hi : s.Inv) (h : s.map i k = some e) : 1 ≤ (s.count e.frame).toNat := by
  have h1 : (1 : ℕ∞) ≤ (s.holders e.frame).encard := Set.one_le_encard_iff_nonempty.mpr ⟨i, mem_holders h⟩
  exact_mod_cast h1.trans (hi.held e.frame)

/-- A counter that reads 1 does not lie to an owner. -/
theorem Inv.of_count (hi : s.Inv) (h : s.map i k = some e) (h1 : s.count e.frame = 1) : s.Sole i e.frame := by
  intro j k' e' hj he
  have hle := hi.held e.frame
  rw [h1] at hle
  exact Set.encard_le_one_iff.mp hle j i ⟨k', e', hj, he⟩ (mem_holders h)

theorem holders_subset {s' : Frames ι κ φ δ υ} {f : φ}
    (h : ∀ i k e, s'.map i k = some e → e.frame = f → i ∈ s.holders f) : s'.holders f ⊆ s.holders f := by
  intro i hi
  obtain ⟨k, e, hk, he⟩ := hi
  exact h i k e hk he

/-- Fewer entries, none of them writable that was not, and counters still high enough. -/
theorem Inv.shrink {s' : Frames ι κ φ δ υ} (hi : s.Inv)
    (hm : ∀ i k e', s'.map i k = some e' → ∃ e, s.map i k = some e ∧ e'.frame = e.frame ∧ (e'.write = true → e.write = true))
    (hu : ∀ i k e', s'.map i k = some e' → e'.frame ∈ s'.used)
    (hc : ∀ f, (s'.holders f).encard ≤ (s'.count f).toNat) : s'.Inv := by
  refine ⟨fun i k k' e e' h h' hf => ?_, hu, hc, fun i k e h hw j k' e' h' hf => ?_⟩
  · obtain ⟨d, hd, h1, -⟩ := hm i k e h
    obtain ⟨d', hd', h1', -⟩ := hm i k' e' h'
    exact hi.inj i k k' d d' hd hd' (by rw [← h1, ← h1', hf])
  · obtain ⟨d, hd, h1, h2⟩ := hm i k e h
    obtain ⟨d', hd', h1', -⟩ := hm j k' e' h'
    exact hi.sole i k d hd (h2 hw) j k' d' hd' (by rw [← h1, ← h1', hf])

theorem encard_pred {S : Set ι} {n : UInt8} (hS : S.encard ≤ n.toNat) (hmem : i ∈ S) :
    (S \ {i}).encard ≤ (n - 1).toNat := by
  have hpos : (1 : ℕ∞) ≤ S.encard := Set.one_le_encard_iff_nonempty.mpr ⟨i, hmem⟩
  have hn : 1 ≤ n.toNat := by exact_mod_cast hpos.trans hS
  have hsub : (n - 1).toNat = n.toNat - 1 := UInt8.toNat_sub_of_le _ _ (by rw [UInt8.le_iff_toNat_le]; exact hn)
  rw [Set.encard_sdiff_singleton_of_mem hmem, hsub]
  exact_mod_cast tsub_le_tsub_right hS 1

/-! ## The operations keep it -/

variable [DecidableEq ι] [DecidableEq κ]

/-- What is mapped after a change at one key is the new entry or an old one elsewhere. -/
theorem put_cases {m : ι → κ → Option (Entry φ)} {v : Option (Entry φ)} {i' : ι} {k' : κ} {e' : Entry φ}
    (h : put m i k v i' k' = some e') : (i' = i ∧ k' = k ∧ v = some e') ∨ (¬ (i' = i ∧ k' = k) ∧ m i' k' = some e') := by
  rw [put_apply] at h
  split at h
  · rename_i he; exact Or.inl ⟨he.1, he.2, h⟩
  · rename_i he; exact Or.inr ⟨he, h⟩

/-- An owner that gives up its only key for a frame is none of its holders any more. -/
theorem Inv.holders_put (hi : s.Inv) (h : s.map i k = some e) {s' : Frames ι κ φ δ υ} {v : Option (Entry φ)}
    (hm : s'.map = put s.map i k v) (hv : ∀ e', v = some e' → e'.frame ≠ e.frame) :
    s'.holders e.frame ⊆ s.holders e.frame \ {i} := by
  intro i' hm'
  obtain ⟨k', e', h', he⟩ := hm'
  rw [hm] at h'
  rcases put_cases h' with ⟨-, -, r⟩ | ⟨hne, m⟩
  · exact absurd he (hv e' r)
  · refine ⟨⟨k', e', m, he⟩, fun hii => hne ?_⟩
    have hii : i' = i := hii
    rw [hii] at m
    exact ⟨hii, (hi.inj _ _ _ _ _ h m he.symm).symm⟩

variable [DecidableEq φ]

theorem Inv.fresh (hi : s.Inv) (hg : g ∉ s.used) : (s.fresh i k g w).Inv := by
  have hne : ∀ i k e, s.map i k = some e → e.frame ≠ g := fun i k e h he => hg (he ▸ hi.used i k e h)
  refine ⟨fun i' k1 k2 e1 e2 h1 h2 hf => ?_, fun i' k' e' h => ?_, fun f => ?_, fun i' k' e' h hw j k2 e2 h2 hf => ?_⟩
  · rcases put_cases h1 with ⟨-, r1, v1⟩ | ⟨-, m1⟩ <;> rcases put_cases h2 with ⟨-, r2, v2⟩ | ⟨-, m2⟩
    · rw [r1, r2]
    · cases v1; exact absurd hf.symm (hne _ _ _ m2)
    · cases v2; exact absurd hf (hne _ _ _ m1)
    · exact hi.inj _ _ _ _ _ m1 m2 hf
  · rcases put_cases h with ⟨-, -, v⟩ | ⟨-, m⟩
    · cases v; exact Finset.mem_insert_self _ _
    · exact Finset.mem_insert_of_mem (hi.used _ _ _ m)
  · by_cases hf : f = g
    · have hsub : (s.fresh i k g w).holders f ⊆ {i} := by
        intro i' hm
        obtain ⟨k', e', h, he⟩ := hm
        rcases put_cases h with ⟨r, -, -⟩ | ⟨-, m⟩
        · exact r
        · exact absurd (he.trans hf) (hne _ _ _ m)
      show _ ≤ ((Function.update s.count g 1 f).toNat : ℕ∞)
      rw [hf, Function.update_self]
      exact (Set.encard_le_encard (hf ▸ hsub)).trans (le_of_eq (Set.encard_singleton i))
    · have hsub : (s.fresh i k g w).holders f ⊆ s.holders f := holders_subset fun i' k' e' h he => by
        rcases put_cases h with ⟨-, -, v⟩ | ⟨-, m⟩
        · cases v; exact absurd he.symm hf
        · exact ⟨k', e', m, he⟩
      show _ ≤ ((Function.update s.count g 1 f).toNat : ℕ∞)
      rw [Function.update_of_ne hf]
      exact (Set.encard_le_encard hsub).trans (hi.held f)
  · rcases put_cases h with ⟨r1, -, v⟩ | ⟨-, m⟩ <;> rcases put_cases h2 with ⟨r2, -, v2⟩ | ⟨-, m2⟩
    · rw [r1, r2]
    · cases v; exact absurd hf (hne _ _ _ m2)
    · cases v2; exact absurd hf.symm (hne _ _ _ m)
    · exact hi.sole _ _ _ m hw _ _ _ m2 hf

theorem Inv.drop (hi : s.Inv) (i : ι) (k : κ) : (s.drop i k).Inv := by
  unfold Frames.drop
  cases h : s.map i k with
  | none => exact hi
  | some e =>
    have hmap : ∀ i' k' e', put s.map i k none i' k' = some e' →
        ∃ e, s.map i' k' = some e ∧ e'.frame = e.frame ∧ (e'.write = true → e.write = true) := by
      intro i' k' e' h'
      rcases put_cases h' with ⟨-, -, v⟩ | ⟨-, m⟩
      · cases v
      · exact ⟨e', m, rfl, id⟩
    have hother : ∀ s' : Frames ι κ φ δ υ, s'.map = put s.map i k none → ∀ f, s'.holders f ⊆ s.holders f := by
      intro s' hs f
      refine holders_subset fun i' k' e' h' he => ?_
      rw [hs] at h'
      obtain ⟨d, hd, hf, -⟩ := hmap i' k' e' h'
      exact ⟨k', d, hd, hf.symm.trans he⟩
    simp only
    split
    · rename_i h1
      refine hi.shrink hmap (fun i' k' e' h' => ?_) (fun f => ?_)
      · rcases put_cases h' with ⟨-, -, v⟩ | ⟨hne, m⟩
        · cases v
        · refine Finset.mem_erase.mpr ⟨fun he => hne ?_, hi.used _ _ _ m⟩
          have hii := hi.of_count h h1 i' k' e' m he
          rw [hii] at m
          exact ⟨hii, (hi.inj _ _ _ _ _ h m he.symm).symm⟩
      · show _ ≤ ((Function.update s.count e.frame 0 f).toNat : ℕ∞)
        by_cases hf : f = e.frame
        · subst hf
          rw [Function.update_self]
          have hle := encard_pred (hi.held e.frame) (mem_holders h)
          rw [h1] at hle
          exact (Set.encard_le_encard (hi.holders_put h rfl fun _ h => by cases h)).trans hle
        · rw [Function.update_of_ne hf]
          exact (Set.encard_le_encard (hother _ rfl f)).trans (hi.held f)
    · refine hi.shrink hmap (fun i' k' e' h' => ?_) (fun f => ?_)
      · obtain ⟨d, hd, hf, -⟩ := hmap i' k' e' h'
        exact hf ▸ hi.used _ _ _ hd
      · show _ ≤ ((Function.update s.count e.frame (s.count e.frame - 1) f).toNat : ℕ∞)
        by_cases hf : f = e.frame
        · subst hf
          rw [Function.update_self]
          exact (Set.encard_le_encard (hi.holders_put h rfl fun _ h => by cases h)).trans
            (encard_pred (hi.held e.frame) (mem_holders h))
        · rw [Function.update_of_ne hf]
          exact (Set.encard_le_encard (hother _ rfl f)).trans (hi.held f)

omit [DecidableEq ι] [DecidableEq κ] [DecidableEq φ] in
/-- What the frames hold does not matter. -/
theorem Inv.of_eq (hi : s.Inv) {s' : Frames ι κ φ δ υ} (hm : s'.map = s.map) (hu : s'.used = s.used)
    (hc : s'.count = s.count) : s'.Inv := by
  refine hi.shrink (fun i k e h => ⟨e, hm ▸ h, rfl, id⟩) (fun i k e h => hu ▸ hi.used i k e (hm ▸ h)) (fun f => ?_)
  rw [hc]
  refine (Set.encard_le_encard (holders_subset fun i k e h he => ?_)).trans (hi.held f)
  exact ⟨k, e, hm ▸ h, he⟩

omit [DecidableEq φ] in
/-- The key keeps its frame, and the frame its counter. -/
theorem Inv.chmod (hi : s.Inv) (i : ι) (k : κ) (w : Bool) : (s.chmod i k w).Inv := by
  unfold Frames.chmod
  cases h : s.map i k with
  | none => exact hi
  | some e =>
    simp only
    split
    swap
    · exact hi
    rename_i h1
    have hold : ∀ {i' k' e'}, put s.map i k (some { e with write := w }) i' k' = some e' →
        ∃ d, s.map i' k' = some d ∧ d.frame = e'.frame ∧ (e'.write = true → d.write = true ∨ i' = i ∧ d.frame = e.frame) := by
      intro i' k' e' h'
      rcases put_cases h' with ⟨r1, r2, v⟩ | ⟨-, m⟩
      · cases v; rw [r1, r2]; exact ⟨e, h, rfl, fun _ => Or.inr ⟨rfl, rfl⟩⟩
      · exact ⟨e', m, rfl, Or.inl⟩
    refine ⟨fun i' k1 k2 e1 e2 h1 h2 hf => ?_, fun i' k' e' h' => ?_, fun f => ?_, fun i' k' e' h' hw j k2 e2 h2 hf => ?_⟩
    · obtain ⟨d1, m1, f1, -⟩ := hold h1
      obtain ⟨d2, m2, f2, -⟩ := hold h2
      exact hi.inj _ _ _ _ _ m1 m2 (by rw [f1, f2, hf])
    · obtain ⟨d, m, hd, -⟩ := hold h'
      exact hd ▸ hi.used _ _ _ m
    · refine (Set.encard_le_encard (holders_subset fun i' k' e' h' he => ?_)).trans (hi.held f)
      obtain ⟨d, m, hd, -⟩ := hold h'
      exact ⟨k', d, m, hd.trans he⟩
    · obtain ⟨d, m, hd, hor⟩ := hold h'
      obtain ⟨d2, m2, hd2, -⟩ := hold h2
      rcases hor hw with hdw | ⟨hii, hde⟩
      · exact hi.sole _ _ _ m hdw _ _ _ m2 (by rw [hd2, hf, hd])
      · rw [hii]
        exact hi.of_count h h1 _ _ _ m2 (by rw [hd2, hf, ← hd, hde])

theorem copy_eq (h : s.map i k = some e) (h1 : s.count e.frame ≠ 1) :
    s.copy i k g = { (s.drop i k).fresh i k g true with data := Function.update s.data g (s.data e.frame) } := by
  unfold Frames.copy Frames.drop Frames.fresh
  rw [h]
  simp only [if_neg h1]
  congr 1
  funext i' k'
  simp only [put_apply]
  split <;> rfl

theorem Inv.copy (hi : s.Inv) (hg : g ∉ s.used) (h1 : ∀ e, s.map i k = some e → s.count e.frame ≠ 1) :
    (s.copy i k g).Inv := by
  cases h : s.map i k with
  | none => unfold Frames.copy; rw [h]; exact hi
  | some e =>
    rw [copy_eq h (h1 e h)]
    have hu : g ∉ (s.drop i k).used := by
      unfold Frames.drop
      rw [h]
      simp only [if_neg (h1 e h)]
      exact hg
    exact ((hi.drop i k).fresh hu).of_eq rfl rfl rfl

/-- Sharing is sound while the counter does not wrap. -/
theorem Inv.share (hi : s.Inv) (hj : s.Child i j) (hlt : ∀ e, s.map i k = some e → (s.count e.frame).toNat < 255) :
    (s.share i j k).Inv := by
  unfold Frames.share
  cases h : s.map i k with
  | none => exact hi
  | some e =>
    have hown : ∀ {k' e'}, s.map j k' = some e' → e'.frame = e.frame → k' = k := by
      intro k' e' hm hf
      rcases hj k' e' hm with ⟨d, hd, hdf⟩ | hno
      · exact hi.inj _ _ _ _ _ hd h (hdf.trans hf)
      · exact absurd hf.symm (hno k e h)
    -- an entry is one of the two shared ones, or an old one of another key
    have hold : ∀ {i' k' e'}, put (put s.map i k (some { e with write := false })) j k (some { e with write := false }) i' k' =
        some e' → ((i' = i ∨ i' = j) ∧ k' = k ∧ e' = { e with write := false }) ∨
          (¬ (i' = i ∧ k' = k) ∧ ¬ (i' = j ∧ k' = k) ∧ s.map i' k' = some e') := by
      intro i' k' e' h'
      rcases put_cases h' with ⟨r1, r2, v⟩ | ⟨n1, h'⟩
      · cases v; exact Or.inl ⟨Or.inr r1, r2, rfl⟩
      rcases put_cases h' with ⟨r1, r2, v⟩ | ⟨n2, m⟩
      · cases v; exact Or.inl ⟨Or.inl r1, r2, rfl⟩
      · exact Or.inr ⟨n2, n1, m⟩
    have hof : ∀ {i' k' e'}, s.map i' k' = some e' → e'.frame = e.frame → i' = i ∨ i' = j → k' = k := by
      intro i' k' e' m hf hor
      rcases hor with r | r
      · rw [r] at m; exact hi.inj _ _ _ _ _ m h hf
      · rw [r] at m; exact hown m hf
    refine ⟨fun i' k1 k2 e1 e2 h1 h2 hf => ?_, fun i' k' e' h' => ?_, fun f => ?_, fun i' k' e' h' hw j' k2 e2 h2 hf => ?_⟩
    · rcases hold h1 with ⟨o1, r1, v1⟩ | ⟨-, -, m1⟩ <;> rcases hold h2 with ⟨o2, r2, v2⟩ | ⟨-, -, m2⟩
      · rw [r1, r2]
      · subst v1; rw [r1]; exact (hof m2 hf.symm o1).symm
      · subst v2; rw [r2]; exact hof m1 hf o2
      · exact hi.inj _ _ _ _ _ m1 m2 hf
    · rcases hold h' with ⟨-, -, v⟩ | ⟨-, -, m⟩
      · rw [v]; exact hi.used i k e h
      · exact hi.used _ _ _ m
    · show _ ≤ ((Function.update s.count e.frame (s.count e.frame + 1) f).toNat : ℕ∞)
      by_cases hf : f = e.frame
      · subst hf
        have hlt := hlt e h
        have hadd : (s.count e.frame + 1).toNat = (s.count e.frame).toNat + 1 := by
          rw [UInt8.toNat_add]
          exact Nat.mod_eq_of_lt (by simp only [UInt8.toNat_one]; omega)
        rw [Function.update_self, hadd]
        push_cast
        refine (Set.encard_le_encard (t := insert j (s.holders e.frame)) fun i' hm => ?_).trans
          ((Set.encard_insert_le _ _).trans (add_le_add (hi.held e.frame) le_rfl))
        obtain ⟨k', e', h', he⟩ := hm
        rcases hold h' with ⟨o, -, -⟩ | ⟨-, -, m⟩
        · rcases o with r | r
          · rw [r]; exact Set.mem_insert_of_mem _ (mem_holders h)
          · rw [r]; exact Set.mem_insert _ _
        · exact Set.mem_insert_of_mem _ ⟨k', e', m, he⟩
      · rw [Function.update_of_ne hf]
        refine (Set.encard_le_encard (holders_subset fun i' k' e' h' he => ?_)).trans (hi.held f)
        rcases hold h' with ⟨-, -, v⟩ | ⟨-, -, m⟩
        · rw [v] at he; exact absurd he.symm hf
        · exact ⟨k', e', m, he⟩
    · rcases hold h' with ⟨-, -, v⟩ | ⟨n1, -, m⟩
      · rw [v] at hw; cases hw
      rcases hold h2 with ⟨o, r, v⟩ | ⟨-, -, m2⟩
      · -- then the frame that is shared was writable, and its only key was this one
        subst v
        have hii : i = i' := hi.sole _ _ _ m hw _ _ _ h hf
        subst hii
        exact absurd ⟨rfl, hi.inj _ _ _ _ _ m h hf.symm⟩ n1
      · exact hi.sole _ _ _ m hw _ _ _ m2 hf

theorem Inv.dup (hi : s.Inv) (hg : g ∉ s.used) : (s.dup i j k g w).Inv := by
  unfold Frames.dup
  cases s.map i k with
  | none => exact hi
  | some e => exact (hi.fresh hg).of_eq rfl rfl rfl

omit [DecidableEq κ] [DecidableEq φ] in
theorem Inv.clear (hi : s.Inv) (i : ι) : (s.clear i).Inv := by
  have hmap : ∀ {i' k' e'}, (s.clear i).map i' k' = some e' → s.map i' k' = some e' := by
    intro i' k' e' h
    by_cases hii : i' = i
    · rw [hii] at h
      have h : Function.update s.map i (fun _ => none) i k' = some e' := h
      rw [Function.update_self] at h
      cases h
    · have h : Function.update s.map i (fun _ => none) i' k' = some e' := h
      rwa [Function.update_of_ne hii] at h
  refine hi.shrink (fun i' k' e' h => ⟨e', hmap h, rfl, id⟩) (fun i' k' e' h => hi.used _ _ _ (hmap h)) (fun f => ?_)
  exact (Set.encard_le_encard (holders_subset fun i' k' e' h he => ⟨k', e', hmap h, he⟩)).trans (hi.held f)

end Frames

end Cs330.Lib
