/-
  Cs330.Lib.Owner — what one owner may do to its own map.

  `Ops P i s t`: `t` comes from `s` by operations of owner `i`, each new frame unused and
  one `P` holds of. No other owner's map changes, the invariant stays, and no counter
  rises above what it was, or 1.
-/
import Cs330.Lib.Fork

namespace Cs330.Lib.Frames

variable {ι κ φ δ υ : Type} [DecidableEq ι] [DecidableEq κ] [DecidableEq φ] [DecidableEq δ]

inductive Ops (P : φ → Prop) (i : ι) (s : Frames ι κ φ δ υ) : Frames ι κ φ δ υ → Prop
  | refl : Ops P i s s
  | fresh {t : Frames ι κ φ δ υ} (k : κ) (g : φ) (w : Bool) : Ops P i s t → g ∉ t.used → P g → Ops P i s (t.fresh i k g w)
  | drop {t : Frames ι κ φ δ υ} (k : κ) : Ops P i s t → Ops P i s (t.drop i k)
  | chmod {t : Frames ι κ φ δ υ} (k : κ) (w : Bool) : Ops P i s t → Ops P i s (t.chmod i k w)
  | copy {t : Frames ι κ φ δ υ} (k : κ) (g : φ) : Ops P i s t → g ∉ t.used → P g →
      (∀ e, t.map i k = some e → t.count e.frame ≠ 1) → Ops P i s (t.copy i k g)
  | store {t : Frames ι κ φ δ υ} (k : κ) (o : δ) (v : υ) : Ops P i s t → Ops P i s (t.store i k o v)

variable {P : φ → Prop} {s t u : Frames ι κ φ δ υ} {i : ι}

theorem Ops.trans (h1 : Ops P i s t) (h2 : Ops P i t u) : Ops P i s u := by
  induction h2 with
  | refl => exact h1
  | fresh k g w _ hg hp ih => exact .fresh k g w ih hg hp
  | drop k _ ih => exact .drop k ih
  | chmod k w _ ih => exact .chmod k w ih
  | copy k g _ hg hp hc ih => exact .copy k g ih hg hp hc
  | store k o v _ ih => exact .store k o v ih

theorem Ops.freshAll {pick : Finset φ → φ} (hp : ∀ u, pick u ∉ u ∧ P (pick u)) (w : Bool) (ks : List κ) :
    Ops P i s (s.freshAll pick i w ks) := by
  induction ks generalizing s with
  | nil => exact .refl
  | cons k ks ih => exact Ops.trans (.fresh k _ w .refl (hp _).1 (hp _).2) ih

theorem Ops.dropAll (ks : List κ) : Ops P i s (s.dropAll i ks) := by
  induction ks generalizing s with
  | nil => exact .refl
  | cons k ks ih => exact Ops.trans (.drop k .refl) ih

omit [DecidableEq ι] [DecidableEq κ] in
/-- A store changes what a frame holds, and nothing else. -/
theorem store_eq (s : Frames ι κ φ δ υ) (i : ι) (k : κ) (o : δ) (v : υ) :
    (s.store i k o v).map = s.map ∧ (s.store i k o v).count = s.count ∧ (s.store i k o v).used = s.used := by
  unfold store
  split <;> exact ⟨rfl, rfl, rfl⟩

theorem Ops.inv (h : Ops P i s t) (hi : s.Inv) : t.Inv := by
  induction h with
  | refl => exact hi
  | fresh k g w _ hg _ ih => exact ih.fresh hg
  | drop k _ ih => exact ih.drop i k
  | chmod k w _ ih => exact ih.chmod i k w
  | copy k g _ hg _ hc ih => exact ih.copy hg hc
  | store k o v _ ih => exact ih.of_eq (store_eq _ i k o v).1 (store_eq _ i k o v).2.2 (store_eq _ i k o v).2.1

/-! ## The map -/

omit [DecidableEq φ] [DecidableEq δ] in
theorem chmod_map (i : ι) (k : κ) (w : Bool) (i' : ι) (k' : κ) : (s.chmod i k w).map i' k' =
    if i' = i ∧ k' = k then (s.map i k).map fun e => if s.count e.frame = 1 then { e with write := w } else e
    else s.map i' k' := by
  cases h : s.map i k with
  | none =>
    have hs : s.chmod i k w = s := by unfold Frames.chmod; rw [h]
    rw [hs]
    split
    · rename_i hik; rw [hik.1, hik.2, h]; rfl
    · rfl
  | some e =>
    unfold Frames.chmod
    rw [h]
    by_cases h1 : s.count e.frame = 1
    · simp only [if_pos h1, Option.map_some]
      exact put_apply ..
    · simp only [if_neg h1, Option.map_some]
      split
      · rename_i hik; rw [hik.1, hik.2, h]
      · rfl

omit [DecidableEq δ] in
theorem copy_map (i : ι) (k : κ) (g : φ) (i' : ι) (k' : κ) : (s.copy i k g).map i' k' =
    if i' = i ∧ k' = k then (s.map i k).map fun _ => ⟨g, true⟩ else s.map i' k' := by
  cases h : s.map i k with
  | none =>
    have hs : s.copy i k g = s := by unfold Frames.copy; rw [h]
    rw [hs]
    split
    · rename_i hik; rw [hik.1, hik.2, h]; rfl
    · rfl
  | some e => unfold Frames.copy; rw [h]; exact put_apply ..

theorem Ops.others (h : Ops P i s t) {j : ι} (hj : j ≠ i) (k : κ) : t.map j k = s.map j k := by
  induction h with
  | refl => rfl
  | fresh k g w _ _ _ ih => rw [fresh_map, if_neg fun h => hj h.1, ih]
  | drop k _ ih => rw [drop_map, put_apply, if_neg fun h => hj h.1, ih]
  | chmod k w _ ih => rw [chmod_map, if_neg fun h => hj h.1, ih]
  | copy k g _ _ _ _ ih => rw [copy_map, if_neg fun h => hj h.1, ih]
  | store k o v _ ih => rw [(store_eq _ i k o v).1, ih]

/-- What held of the frames in use holds of the new ones. -/
theorem Ops.all (h : Ops P i s t) (hs : ∀ j k e, s.map j k = some e → P e.frame) : ∀ j k e, t.map j k = some e → P e.frame := by
  induction h with
  | refl => exact hs
  | fresh k g w _ _ hp ih =>
    intro j l e he
    rw [fresh_map] at he
    split at he
    · cases he; exact hp
    · exact ih j l e he
  | drop k _ ih =>
    intro j l e he
    rw [drop_map, put_apply] at he
    split at he
    · cases he
    · exact ih j l e he
  | chmod k w _ ih =>
    intro j l e he
    rw [chmod_map] at he
    split at he
    · obtain ⟨d, hd, hf⟩ := Option.map_eq_some_iff.mp he
      have := ih _ _ d hd
      rw [← hf]
      split <;> exact this
    · exact ih j l e he
  | copy k g _ _ hp _ ih =>
    intro j l e he
    rw [copy_map] at he
    split at he
    · obtain ⟨d, -, hf⟩ := Option.map_eq_some_iff.mp he
      rw [← hf]; exact hp
    · exact ih j l e he
  | store k o v _ ih =>
    intro j l e he
    rw [(store_eq _ i k o v).1] at he
    exact ih j l e he

/-! ## The counters -/

theorem toNat_pred {n : UInt8} (h : 1 ≤ n.toNat) : (n - 1).toNat ≤ n.toNat := by
  rw [UInt8.toNat_sub_of_le _ _ (by rw [UInt8.le_iff_toNat_le]; exact h)]
  exact Nat.sub_le _ _

omit [DecidableEq δ] in
theorem Inv.drop_count (hi : s.Inv) (k : κ) (f : φ) : ((s.drop i k).count f).toNat ≤ (s.count f).toNat := by
  unfold Frames.drop
  cases h : s.map i k with
  | none => exact le_rfl
  | some e =>
    simp only
    split
    · by_cases hf : f = e.frame
      · subst hf; simp
      · simp only [Function.update_of_ne hf]; exact le_rfl
    · by_cases hf : f = e.frame
      · subst hf
        simp only [Function.update_self]
        exact toNat_pred (hi.pos h)
      · simp only [Function.update_of_ne hf]; exact le_rfl

theorem Ops.count_le (h : Ops P i s t) (hi : s.Inv) (f : φ) : (t.count f).toNat ≤ max 1 (s.count f).toNat := by
  induction h with
  | refl => exact le_max_right _ _
  | fresh k g w _ _ _ ih =>
    by_cases hf : f = g
    · subst hf; simp [Frames.fresh]
    · simp only [Frames.fresh, Function.update_of_ne hf]; exact ih
  | drop k ho ih => exact ((ho.inv hi).drop_count k f).trans ih
  | chmod k w _ ih =>
    refine le_of_eq_of_le ?_ ih
    unfold Frames.chmod
    split
    · rfl
    · split <;> rfl
  | copy k g ho _ _ hc ih =>
    unfold Frames.copy
    split
    · exact ih
    · rename_i e he
      by_cases hf : f = g
      · subst hf; simp
      · simp only [Function.update_of_ne hf]
        by_cases hfe : f = e.frame
        · subst hfe
          rw [Function.update_self]
          exact (toNat_pred ((ho.inv hi).pos he)).trans ih
        · rw [Function.update_of_ne hfe]; exact ih
  | store k o v _ ih => rw [(store_eq _ i k o v).2.1]; exact ih

end Cs330.Lib.Frames
