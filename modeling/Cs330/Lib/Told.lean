/-
  Cs330.Lib.Told — what owners wrote, next to what their frames hold.

  `t i k o` is the value owner `i` last wrote at offset `o` of key `k`, itself or through
  the owner it was forked from, if there is one. `Faithful s t`: the frame of the key holds
  that value. An operation that gives a key another frame must copy what it held or make
  `t` forget the key.
-/
import Cs330.Lib.Frames

namespace Cs330.Lib.Frames

variable {ι κ φ δ υ : Type} [DecidableEq ι] [DecidableEq κ] [DecidableEq φ] [DecidableEq δ]

def Faithful (s : Frames ι κ φ δ υ) (t : ι → κ → δ → Option υ) : Prop :=
  ∀ i k o v, t i k o = some v → ∃ e, s.map i k = some e ∧ s.data e.frame o = v

variable {s : Frames ι κ φ δ υ} {t t' : ι → κ → δ → Option υ} {i j : ι} {k : κ} {e : Entry φ} {g : φ} {w : Bool}

omit [DecidableEq ι] [DecidableEq κ] [DecidableEq φ] [DecidableEq δ] in
theorem Faithful.forget (hf : Faithful s t) (h : ∀ i k o v, t' i k o = some v → t i k o = some v) : Faithful s t' :=
  fun i k o v hv => hf i k o v (h i k o v hv)

omit [DecidableEq ι] [DecidableEq κ] [DecidableEq φ] [DecidableEq δ] in
theorem Faithful.none_of_unmapped (hf : Faithful s t) (h : s.map i k = none) (o : δ) : t i k o = none := by
  cases hv : t i k o with
  | none => rfl
  | some v =>
    obtain ⟨e, he, -⟩ := hf i k o v hv
    rw [h] at he
    cases he

omit [DecidableEq ι] [DecidableEq κ] [DecidableEq φ] [DecidableEq δ] in
/-- A change of the maps that leaves every frame that is known of where it is. -/
theorem Faithful.remap (hf : Faithful s t) {s' : Frames ι κ φ δ υ} (hd : s'.data = s.data)
    (hm : ∀ i k e, (∃ o v, t i k o = some v) → s.map i k = some e → ∃ e', s'.map i k = some e' ∧ e'.frame = e.frame) :
    Faithful s' t := by
  intro i k o v hv
  obtain ⟨e, he, hv'⟩ := hf i k o v hv
  obtain ⟨e', he', hfr⟩ := hm i k e ⟨o, v, hv⟩ he
  exact ⟨e', he', by rw [hd, hfr]; exact hv'⟩

omit [DecidableEq δ] in
theorem Faithful.fresh (hf : Faithful s t) (h : s.map i k = none) : Faithful (s.fresh i k g w) t := by
  refine hf.remap rfl fun i' k' e he hm => ?_
  refine ⟨e, ?_, rfl⟩
  show put s.map i k (some ⟨g, w⟩) i' k' = some e
  rw [put_apply, if_neg]
  · exact hm
  · intro hik
    rw [hik.1, hik.2, h] at hm
    cases hm

omit [DecidableEq δ] in
theorem Faithful.drop (hf : Faithful s t) : Faithful (s.drop i k) (put t i k fun _ => none) := by
  have hput : Faithful s (put t i k fun _ => none) := by
    refine hf.forget fun i' k' o v hv => ?_
    rw [put_apply] at hv
    split at hv
    · cases hv
    · exact hv
  have hne : ∀ {i' k'}, (∃ o v, put t i k (fun _ => none) i' k' o = some v) → ¬ (i' = i ∧ k' = k) := by
    intro i' k' hv hik
    obtain ⟨o, v, hv⟩ := hv
    rw [put_apply, if_pos hik] at hv
    cases hv
  unfold Frames.drop
  cases s.map i k with
  | none => exact hput
  | some e =>
    simp only
    split
    · exact hput.remap rfl fun i' k' d hv hm => ⟨d, by rw [← hm]; exact (put_apply ..).trans (if_neg (hne hv)), rfl⟩
    · exact hput.remap rfl fun i' k' d hv hm => ⟨d, by rw [← hm]; exact (put_apply ..).trans (if_neg (hne hv)), rfl⟩

omit [DecidableEq φ] [DecidableEq δ] in
/-- A new entry for the same frame. -/
theorem exists_put {v : Entry φ} (h : s.map i k = some e) (hv : v.frame = e.frame) {i' : ι} {k' : κ} {d : Entry φ}
    (hm : s.map i' k' = some d) : ∃ d', put s.map i k (some v) i' k' = some d' ∧ d'.frame = d.frame := by
  rw [put_apply]
  by_cases hik : i' = i ∧ k' = k
  · rw [hik.1, hik.2, h] at hm
    cases hm
    exact ⟨v, if_pos hik, hv⟩
  · exact ⟨d, (if_neg hik).trans hm, rfl⟩

omit [DecidableEq φ] [DecidableEq δ] in
theorem Faithful.chmod (hf : Faithful s t) : Faithful (s.chmod i k w) t := by
  unfold Frames.chmod
  cases h : s.map i k with
  | none => exact hf
  | some e =>
    simp only
    split
    · exact hf.remap rfl fun i' k' d _ hm => exists_put (v := { e with write := w }) h rfl hm
    · exact hf

omit [DecidableEq δ] in
theorem Faithful.copy (hi : s.Inv) (hf : Faithful s t) (hg : g ∉ s.used) : Faithful (s.copy i k g) t := by
  unfold Frames.copy
  cases h : s.map i k with
  | none => exact hf
  | some e =>
    intro i' k' o v hv
    obtain ⟨d, hd, hv'⟩ := hf i' k' o v hv
    by_cases hik : i' = i ∧ k' = k
    · rw [hik.1, hik.2, h] at hd
      cases hd
      refine ⟨⟨g, true⟩, (put_apply ..).trans (if_pos hik), ?_⟩
      show Function.update s.data g (s.data e.frame) g o = v
      rw [Function.update_self, hv']
    · refine ⟨d, ((put_apply ..).trans (if_neg hik)).trans hd, ?_⟩
      have hne : d.frame ≠ g := fun he => hg (he ▸ hi.used _ _ _ hd)
      show Function.update s.data g (s.data e.frame) d.frame o = v
      rw [Function.update_of_ne hne, hv']

omit [DecidableEq δ] in
theorem Faithful.share (hf : Faithful s t) : Faithful (s.share i j k) (put t j k (t i k)) := by
  unfold Frames.share
  cases h : s.map i k with
  | none =>
    refine hf.forget fun i' k' o v hv => ?_
    rw [put_apply] at hv
    split at hv
    · rw [hf.none_of_unmapped h] at hv; cases hv
    · exact hv
  | some e =>
    intro i' k' o v hv
    rw [put_apply] at hv
    split at hv
    · rename_i hjk
      obtain ⟨d, hd, hv'⟩ := hf i k o v hv
      rw [h] at hd
      cases hd
      exact ⟨{ e with write := false }, (put_apply ..).trans (if_pos hjk), hv'⟩
    · rename_i hjk
      obtain ⟨d, hd, hv'⟩ := hf i' k' o v hv
      obtain ⟨d', hd', hfr⟩ := exists_put (v := { e with write := false }) h rfl hd
      exact ⟨d', ((put_apply ..).trans (if_neg hjk)).trans hd', by rw [hfr]; exact hv'⟩

omit [DecidableEq δ] in
theorem Faithful.dup (hi : s.Inv) (hf : Faithful s t) (hg : g ∉ s.used) :
    Faithful (s.dup i j k g w) (put t j k (t i k)) := by
  unfold Frames.dup
  cases h : s.map i k with
  | none =>
    refine hf.forget fun i' k' o v hv => ?_
    rw [put_apply] at hv
    split at hv
    · rw [hf.none_of_unmapped h] at hv; cases hv
    · exact hv
  | some e =>
    intro i' k' o v hv
    rw [put_apply] at hv
    split at hv
    · rename_i hjk
      obtain ⟨d, hd, hv'⟩ := hf i k o v hv
      rw [h] at hd
      cases hd
      refine ⟨⟨g, w⟩, (put_apply ..).trans (if_pos hjk), ?_⟩
      show Function.update s.data g (s.data e.frame) g o = v
      rw [Function.update_self, hv']
    · rename_i hjk
      obtain ⟨d, hd, hv'⟩ := hf i' k' o v hv
      refine ⟨d, ((put_apply ..).trans (if_neg hjk)).trans hd, ?_⟩
      have hne : d.frame ≠ g := fun he => hg (he ▸ hi.used _ _ _ hd)
      show Function.update s.data g (s.data e.frame) d.frame o = v
      rw [Function.update_of_ne hne, hv']

/-- A write goes to a frame nobody else maps. -/
theorem Faithful.store (hi : s.Inv) (hf : Faithful s t) {o : δ} {v : υ} (h : s.map i k = some e) (hw : e.write = true) :
    Faithful (s.store i k o v) (put t i k (Function.update (t i k) o (some v))) := by
  have hs : s.store i k o v =
      { s with data := Function.update s.data e.frame (Function.update (s.data e.frame) o v) } := by
    unfold Frames.store
    rw [h]
    obtain ⟨f, w⟩ := e
    cases hw
    rfl
  rw [hs]
  intro i' k' o' v' hv
  rw [put_apply] at hv
  split at hv
  · rename_i hik
    refine ⟨e, by rw [hik.1, hik.2]; exact h, ?_⟩
    show Function.update s.data e.frame _ e.frame o' = v'
    rw [Function.update_self]
    by_cases ho : o' = o
    · rw [ho, Function.update_self] at hv ⊢
      cases hv
      rfl
    · rw [Function.update_of_ne ho] at hv ⊢
      obtain ⟨d, hd, hv'⟩ := hf i k o' v' hv
      rw [h] at hd
      cases hd
      exact hv'
  · rename_i hik
    obtain ⟨d, hd, hv'⟩ := hf i' k' o' v' hv
    refine ⟨d, hd, ?_⟩
    have hne : d.frame ≠ e.frame := by
      intro he
      have hii := hi.sole i k e h hw i' k' d hd he
      rw [hii] at hd
      exact hik ⟨hii, hi.inj _ _ _ _ _ hd h he⟩
    show Function.update s.data e.frame _ d.frame o' = v'
    rw [Function.update_of_ne hne, hv']

omit [DecidableEq κ] [DecidableEq φ] [DecidableEq δ] in
theorem Faithful.clear (hf : Faithful s t) : Faithful (s.clear i) (Function.update t i fun _ _ => none) := by
  intro i' k o v hv
  by_cases hii : i' = i
  · rw [hii, Function.update_self] at hv; cases hv
  · rw [Function.update_of_ne hii] at hv
    obtain ⟨e, he, hv'⟩ := hf i' k o v hv
    refine ⟨e, ?_, hv'⟩
    show Function.update s.map i (fun _ => none) i' k = some e
    rw [Function.update_of_ne hii, he]

end Cs330.Lib.Frames
