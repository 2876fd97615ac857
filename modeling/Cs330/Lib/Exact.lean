/-
  Cs330.Lib.Exact — counters that are right.

  `Exact s`: every frame in use has an entry, and its counter is the number of its entries.
  Filling an empty key, dropping, copying, sharing and forking keep it while no counter
  wraps. Clearing a map that has an entry does not (`Exact.not_clear`), and neither does
  filling a key that has one (`Exact.not_freshAll`): the frame that was there keeps its count.
-/
import Cs330.Lib.Owner

namespace Cs330.Lib.Frames

variable {ι κ φ δ υ : Type}

/-- The entries for a frame, of all owners. -/
def entries (s : Frames ι κ φ δ υ) (f : φ) : Set (ι × κ) := {x | ∃ e, s.map x.1 x.2 = some e ∧ e.frame = f}

structure Exact (s : Frames ι κ φ δ υ) : Prop where
  used : ∀ i k e, s.map i k = some e → e.frame ∈ s.used
  held : ∀ f ∈ s.used, (s.entries f).Nonempty
  count : ∀ f ∈ s.used, (s.entries f).encard = (s.count f).toNat

variable {s t : Frames ι κ φ δ υ} {i j : ι} {k : κ} {e : Entry φ} {f g : φ} {w : Bool}

theorem mem_entries (h : s.map i k = some e) : (i, k) ∈ s.entries e.frame := ⟨e, h, rfl⟩

/-- Which frames are writable, and what they hold, does not matter. -/
theorem Exact.congr (h : s.Exact) (hm : ∀ i k, (t.map i k).map Entry.frame = (s.map i k).map Entry.frame)
    (hu : t.used = s.used) (hc : t.count = s.count) : t.Exact := by
  have hframe : ∀ (s : Frames ι κ φ δ υ) f x, x ∈ s.entries f ↔ (s.map x.1 x.2).map Entry.frame = some f := by
    intro s f x
    simp [entries]
  have hent : ∀ f, t.entries f = s.entries f := by
    intro f
    ext x
    rw [hframe, hframe, hm]
  refine ⟨fun i k e he => ?_, fun f hf => ?_, fun f hf => ?_⟩
  · obtain ⟨d, hd, hde⟩ := (show (i, k) ∈ s.entries e.frame from hent e.frame ▸ mem_entries he)
    rw [hu, ← hde]
    exact h.used i k d hd
  · rw [hent]; exact h.held f (hu ▸ hf)
  · rw [hent, hc]; exact h.count f (hu ▸ hf)

/-- As many owners as a frame has entries, if no owner has it twice. -/
theorem Exact.count_le (h : s.Exact) (hi : s.Inv) {A : Finset ι} (hA : ∀ i k e, s.map i k = some e → i ∈ A) (hf : f ∈ s.used) :
    (s.count f).toNat ≤ A.card := by
  have hinj : Set.InjOn Prod.fst (s.entries f) := by
    intro x hx y hy hxy
    obtain ⟨d, hd, hdf⟩ := hx
    obtain ⟨e, he, hef⟩ := hy
    rw [← hxy] at he
    exact Prod.ext hxy (hi.inj _ _ _ _ _ hd he (hdf.trans hef.symm))
  have hsub : Prod.fst '' s.entries f ⊆ (A : Set ι) := by
    rintro i ⟨x, ⟨e, he, -⟩, rfl⟩
    exact hA x.1 x.2 e he
  have hle : (s.entries f).encard ≤ A.card := by
    rw [← hinj.encard_image, ← Set.encard_coe_eq_coe_finsetCard]
    exact Set.encard_le_encard hsub
  rw [h.count f hf] at hle
  exact_mod_cast hle

variable [DecidableEq ι] [DecidableEq κ]

/-! ## One key -/

theorem mem_entries_put {v : Option (Entry φ)} (hm : t.map = put s.map i k v) (x : ι × κ) :
    x ∈ t.entries f ↔ (x = (i, k) ∧ ∃ e, v = some e ∧ e.frame = f) ∨ (x ≠ (i, k) ∧ x ∈ s.entries f) := by
  unfold entries
  simp only [Set.mem_ofPred_eq, hm, put_apply]
  by_cases hx : x = (i, k)
  · simp [hx]
  · have hne : ¬ (x.1 = i ∧ x.2 = k) := fun h => hx (Prod.ext h.1 h.2)
    simp [hx, hne]

/-- A key that had nothing gets an entry. -/
theorem entries_insert (hm : t.map = put s.map i k (some e)) (h : s.map i k = none) :
    t.entries e.frame = insert (i, k) (s.entries e.frame) ∧ ∀ f, f ≠ e.frame → t.entries f = s.entries f := by
  have hno : ∀ f, (i, k) ∉ s.entries f := by
    rintro f ⟨d, hd, -⟩
    rw [h] at hd
    cases hd
  refine ⟨?_, fun f hf => ?_⟩
  · ext x
    rw [mem_entries_put hm]
    by_cases hx : x = (i, k)
    · simp [hx]
    · simp [hx]
  · ext x
    rw [mem_entries_put hm]
    by_cases hx : x = (i, k)
    · simp [hx, hno f, Ne.symm hf]
    · simp [hx]

/-- A key loses its entry. -/
theorem entries_erase (hm : t.map = put s.map i k none) (h : s.map i k = some e) :
    t.entries e.frame = s.entries e.frame \ {(i, k)} ∧ ∀ f, f ≠ e.frame → t.entries f = s.entries f := by
  refine ⟨?_, fun f hf => ?_⟩
  · ext x
    rw [mem_entries_put hm]
    simp [and_comm]
  · ext x
    rw [mem_entries_put hm]
    by_cases hx : x = (i, k)
    · subst hx
      refine iff_of_false (by simp) ?_
      rintro ⟨d, hd, hdf⟩
      rw [h] at hd
      cases hd
      exact hf hdf.symm
    · simp [hx]

variable [DecidableEq φ]

theorem Exact.fresh (h : s.Exact) (hnone : s.map i k = none) (hg : g ∉ s.used) : (s.fresh i k g w).Exact := by
  obtain ⟨h1, h2⟩ := entries_insert (t := s.fresh i k g w) (e := ⟨g, w⟩) rfl hnone
  have hempty : s.entries g = ∅ := by
    apply Set.eq_empty_of_forall_notMem
    rintro x ⟨e, he, heg⟩
    exact hg (heg ▸ h.used _ _ e he)
  rw [hempty] at h1
  refine ⟨fun i' k' e' he => ?_, fun f hf => ?_, fun f hf => ?_⟩
  · rcases put_cases he with ⟨-, -, v⟩ | ⟨-, m⟩
    · cases v; exact Finset.mem_insert_self _ _
    · exact Finset.mem_insert_of_mem (h.used _ _ _ m)
  · by_cases hfg : f = g
    · rw [hfg, h1]; exact Set.insert_nonempty _ _
    · rw [h2 f hfg]
      exact h.held f (Finset.mem_of_mem_insert_of_ne hf hfg)
  · show _ = ((Function.update s.count g 1 f).toNat : ℕ∞)
    by_cases hfg : f = g
    · rw [hfg, h1, Function.update_self]
      simp
    · rw [h2 f hfg, Function.update_of_ne hfg]
      exact h.count f (Finset.mem_of_mem_insert_of_ne hf hfg)

theorem Exact.drop (h : s.Exact) (i : ι) (k : κ) : (s.drop i k).Exact := by
  cases hk : s.map i k with
  | none =>
    have hs : s.drop i k = s := by unfold Frames.drop; rw [hk]
    rw [hs]; exact h
  | some e =>
    have hm := drop_map (s := s) i k
    obtain ⟨h1, h2⟩ := entries_erase hm hk
    have hin := mem_entries hk
    have hu := h.used i k e hk
    have hcard := h.count e.frame hu
    have hsub := Set.encard_sdiff_singleton_of_mem hin
    have hmap : ∀ {i' k' e'}, (s.drop i k).map i' k' = some e' → e'.frame ∈ s.used ∧ (i', k') ≠ (i, k) := by
      intro i' k' e' he
      rw [hm] at he
      rcases put_cases he with ⟨-, -, v⟩ | ⟨hne, m⟩
      · cases v
      · exact ⟨h.used _ _ _ m, fun hp => hne ⟨congrArg Prod.fst hp, congrArg Prod.snd hp⟩⟩
    by_cases hone : s.count e.frame = 1
    · -- it was the last entry
      have hgone : (s.drop i k).entries e.frame = ∅ := by
        rw [h1, ← Set.encard_eq_zero, hsub, hcard, hone]
        rfl
      have hdrop : (s.drop i k).used = s.used.erase e.frame ∧
          (s.drop i k).count = Function.update s.count e.frame 0 := by
        unfold Frames.drop
        rw [hk]
        simp only [if_pos hone, and_self]
      refine ⟨fun i' k' e' he => ?_, fun f hf => ?_, fun f hf => ?_⟩
      · rw [hdrop.1]
        refine Finset.mem_erase.mpr ⟨fun hef => ?_, (hmap he).1⟩
        have hmem := mem_entries he
        rw [hef, hgone] at hmem
        exact hmem
      · rw [hdrop.1] at hf
        obtain ⟨hne, hf⟩ := Finset.mem_erase.mp hf
        rw [h2 f hne]; exact h.held f hf
      · rw [hdrop.1] at hf
        obtain ⟨hne, hf⟩ := Finset.mem_erase.mp hf
        rw [h2 f hne, hdrop.2, Function.update_of_ne hne]; exact h.count f hf
    · have hdrop : (s.drop i k).used = s.used ∧
          (s.drop i k).count = Function.update s.count e.frame (s.count e.frame - 1) := by
        unfold Frames.drop
        rw [hk]
        simp only [if_neg hone, and_self]
      have hpos : 1 ≤ (s.count e.frame).toNat := by
        have hle := Set.one_le_encard_iff_nonempty.mpr ⟨_, hin⟩
        rw [hcard] at hle
        exact_mod_cast hle
      have hpred : (s.count e.frame - 1).toNat = (s.count e.frame).toNat - 1 :=
        UInt8.toNat_sub_of_le _ _ (by rw [UInt8.le_iff_toNat_le]; exact hpos)
      have hleft : ((s.drop i k).entries e.frame).encard = ((s.count e.frame - 1).toNat : ℕ∞) := by
        rw [h1, hsub, hcard, hpred]
        push_cast
        rfl
      refine ⟨fun i' k' e' he => hdrop.1 ▸ (hmap he).1, fun f hf => ?_, fun f hf => ?_⟩
      · by_cases hfe : f = e.frame
        · rw [hfe, ← Set.encard_pos, hleft, hpred]
          have hne1 : (s.count e.frame).toNat ≠ 1 := fun h => hone (UInt8.toNat_inj.mp h)
          exact_mod_cast (by omega : 0 < (s.count e.frame).toNat - 1)
        · rw [h2 f hfe]; exact h.held f (hdrop.1 ▸ hf)
      · rw [hdrop.2]
        by_cases hfe : f = e.frame
        · rw [hfe, Function.update_self]; exact hleft
        · rw [h2 f hfe, Function.update_of_ne hfe]; exact h.count f (hdrop.1 ▸ hf)

omit [DecidableEq φ] in
theorem Exact.chmod (h : s.Exact) (i : ι) (k : κ) (w : Bool) : (s.chmod i k w).Exact := by
  have hcu : (s.chmod i k w).used = s.used ∧ (s.chmod i k w).count = s.count := by
    unfold Frames.chmod
    cases s.map i k with
    | none => exact ⟨rfl, rfl⟩
    | some e => simp only; split <;> exact ⟨rfl, rfl⟩
  refine h.congr (fun i' k' => ?_) hcu.1 hcu.2
  rw [chmod_map]
  split
  · rename_i hik
    rw [hik.1, hik.2]
    cases s.map i k with
    | none => rfl
    | some e => simp only [Option.map_some]; split <;> rfl
  · rfl

theorem Exact.copy (h : s.Exact) (hg : g ∉ s.used) (h1 : ∀ e, s.map i k = some e → s.count e.frame ≠ 1) :
    (s.copy i k g).Exact := by
  cases hk : s.map i k with
  | none =>
    have hs : s.copy i k g = s := by unfold Frames.copy; rw [hk]
    rw [hs]; exact h
  | some e =>
    rw [copy_eq hk (h1 e hk)]
    have hu : g ∉ (s.drop i k).used := by
      unfold Frames.drop
      rw [hk]
      simp only [if_neg (h1 e hk)]
      exact hg
    have hnone : (s.drop i k).map i k = none := by rw [drop_map, put_apply, if_pos ⟨rfl, rfl⟩]
    exact ((h.drop i k).fresh hnone hu).congr (fun _ _ => rfl) rfl rfl

omit [DecidableEq ι] [DecidableEq κ] in
theorem Exact.store [DecidableEq δ] (h : s.Exact) (i : ι) (k : κ) (o : δ) (v : υ) : (s.store i k o v).Exact := by
  obtain ⟨hm, hc, hu⟩ := store_eq s i k o v
  exact h.congr (fun i' k' => by rw [hm]) hu hc

theorem Exact.share (h : s.Exact) (hij : i ≠ j) (hnone : s.map j k = none)
    (hlt : ∀ e, s.map i k = some e → (s.count e.frame).toNat < 255) : (s.share i j k).Exact := by
  cases hk : s.map i k with
  | none =>
    have hs : s.share i j k = s := by unfold Frames.share; rw [hk]
    rw [hs]; exact h
  | some e =>
    -- the entry of `i` stays an entry for the same frame
    obtain ⟨s1, hs1⟩ : ∃ s1 : Frames ι κ φ δ υ, s1 = { s with map := put s.map i k (some (readOnly e)) } := ⟨_, rfl⟩
    have hone : s1.Exact := by
      subst hs1
      refine h.congr (fun i' k' => ?_) rfl rfl
      show (put s.map i k (some (readOnly e)) i' k').map _ = _
      rw [put_apply]
      split
      · rename_i hik; rw [hik.1, hik.2, hk]; rfl
      · rfl
    have hnone1 : s1.map j k = none := by
      subst hs1
      exact (put_apply ..).trans ((if_neg fun hj => hij hj.1.symm).trans hnone)
    have heq : s.share i j k = { s1 with
        map := put s1.map j k (some (readOnly e)), count := Function.update s.count e.frame (s.count e.frame + 1) } := by
      subst hs1
      unfold Frames.share
      rw [hk]
      rfl
    have hcount : s1.count = s.count := by rw [hs1]
    have hused : s1.used = s.used := by rw [hs1]
    have hu := hused ▸ h.used i k e hk
    obtain ⟨h1, h2⟩ := entries_insert (s := s1) (t := s.share i j k) (e := readOnly e) (by rw [heq]) hnone1
    have h1 : (s.share i j k).entries e.frame = insert (j, k) (s1.entries e.frame) := h1
    have h2 : ∀ f, f ≠ e.frame → (s.share i j k).entries f = s1.entries f := h2
    have hno : (j, k) ∉ s1.entries e.frame := by
      rintro ⟨d, hd, -⟩
      rw [hnone1] at hd
      cases hd
    have hadd : (s.count e.frame + 1).toNat = (s.count e.frame).toNat + 1 := by
      have := hlt e hk
      rw [UInt8.toNat_add]
      exact Nat.mod_eq_of_lt (by simp only [UInt8.toNat_one]; omega)
    have hu' : (s.share i j k).used = s1.used := by rw [heq]
    refine ⟨fun i' k' e' he => ?_, fun f hf => ?_, fun f hf => ?_⟩
    · rw [hu']
      rw [heq] at he
      rcases put_cases he with ⟨-, -, v⟩ | ⟨-, m⟩
      · cases v; exact hu
      · exact hone.used _ _ _ m
    · by_cases hfe : f = e.frame
      · rw [hfe, h1]; exact Set.insert_nonempty _ _
      · rw [h2 f hfe]; exact hone.held f (hu' ▸ hf)
    · have hc : (s.share i j k).count = Function.update s.count e.frame (s.count e.frame + 1) := by rw [heq]
      rw [hc]
      by_cases hfe : f = e.frame
      · rw [hfe, h1, Function.update_self, hadd, Set.encard_insert_of_notMem hno, hone.count _ hu, hcount]
        push_cast
        rfl
      · rw [h2 f hfe, Function.update_of_ne hfe, ← hcount]
        exact hone.count f (hu' ▸ hf)

theorem Exact.dup (h : s.Exact) (hnone : s.map j k = none) (hg : g ∉ s.used) : (s.dup i j k g w).Exact := by
  unfold Frames.dup
  cases s.map i k with
  | none => exact h
  | some e => exact (h.fresh hnone hg).congr (fun _ _ => rfl) rfl rfl

/-! ## Lists of keys -/

theorem Exact.dropAll (h : s.Exact) (i : ι) (ks : List κ) : (s.dropAll i ks).Exact := by
  induction ks generalizing s with
  | nil => exact h
  | cons k ks ih => exact ih (h.drop i k)

theorem Exact.freshAll (h : s.Exact) {pick : Finset φ → φ} (hp : ∀ u, pick u ∉ u) (w : Bool) {ks : List κ} (hn : ks.Nodup)
    (hnone : ∀ k ∈ ks, s.map i k = none) : (s.freshAll pick i w ks).Exact := by
  induction ks generalizing s with
  | nil => exact h
  | cons k ks ih =>
    obtain ⟨hk, hn⟩ := List.nodup_cons.mp hn
    apply ih (h.fresh (hnone k List.mem_cons_self) (hp _)) hn
    intro k' hk'
    rw [fresh_map, if_neg fun h : i = i ∧ k' = k => hk (h.2 ▸ hk')]
    exact hnone k' (List.mem_cons_of_mem _ hk')

theorem Exact.shareAll (h : s.Exact) (hij : i ≠ j) {ks : List κ} (hn : ks.Nodup) (hnone : ∀ k ∈ ks, s.map j k = none)
    (hr : s.Room i ks) : (s.shareAll i j ks).Exact := by
  induction ks generalizing s with
  | nil => exact h
  | cons k ks ih =>
    obtain ⟨hk, hn⟩ := List.nodup_cons.mp hn
    have h1 := h.share hij (hnone k List.mem_cons_self) fun e he => hr.lt he
    refine ih h1 hn (fun k' hk' => ?_) hr.tail
    rw [share_map, if_neg fun h : (j = i ∨ j = j) ∧ k' = k => hk (h.2 ▸ hk')]
    exact hnone k' (List.mem_cons_of_mem _ hk')

theorem Exact.dupAll (h : s.Exact) {pick : Finset φ → φ} (hp : ∀ u, pick u ∉ u) (w : Bool) {ks : List κ} (hn : ks.Nodup)
    (hnone : ∀ k ∈ ks, s.map j k = none) : (s.dupAll pick i j w ks).Exact := by
  induction ks generalizing s with
  | nil => exact h
  | cons k ks ih =>
    obtain ⟨hk, hn⟩ := List.nodup_cons.mp hn
    apply ih (h.dup (hnone k List.mem_cons_self) (hp _)) hn
    intro k' hk'
    rw [dup_map, if_neg fun h : j = j ∧ k' = k => hk (h.2 ▸ hk')]
    exact hnone k' (List.mem_cons_of_mem _ hk')

/-- A fork that goes to each key once. -/
theorem Exact.fork (h : s.Exact) (hi : s.Inv) {pick : Finset φ → φ} (hp : ∀ u, pick u ∉ u) (hij : i ≠ j) {ks stack ls : List κ}
    (hn : (ks ++ stack ++ ls).Nodup) (hnew : ∀ k, s.map j k = none) (hr : s.Room i (ks ++ ls)) :
    (s.fork pick i j ks stack ls).Exact := by
  obtain ⟨hn, hl, hdl⟩ := List.nodup_append.mp hn
  obtain ⟨hk, hs, hds⟩ := List.nodup_append.mp hn
  have h1 := h.shareAll hij hk (fun k _ => hnew k) hr.left
  have hnone1 : ∀ k, k ∉ ks → (s.shareAll i j ks).map j k = none := by
    intro k hk
    rw [shareAll_forked, if_neg hk, hnew]
  have h2 := h1.dupAll (i := i) hp true hs fun k hk => hnone1 k fun hks => hds k hks k hk rfl
  refine h2.shareAll hij hl (fun k hk => ?_) (hi.fork_middle hij hp stack hnew hr).2.2
  have hno : k ∉ ks ++ stack := fun hm => hdl k hm k hk rfl
  rw [dupAll_apart pick true stack fun hs => hno (List.mem_append_right _ hs)]
  exact hnone1 k fun hks => hno (List.mem_append_left _ hks)

/-! ## What leaves a frame behind -/

omit [DecidableEq ι] [DecidableEq κ] [DecidableEq φ] in
/-- A frame that loses an entry, and keeps its counter. -/
theorem Exact.not_of_lost (h : s.Exact) (hk : s.map i k = some e) (hu : e.frame ∈ t.used) (hc : t.count e.frame = s.count e.frame)
    (hsub : t.entries e.frame ⊆ s.entries e.frame) (hlost : (i, k) ∉ t.entries e.frame) : ¬ t.Exact := by
  intro ht
  have hcard := h.count e.frame (h.used i k e hk)
  have hfin : (s.entries e.frame).Finite := Set.finite_of_encard_eq_coe hcard
  have hlt := (hfin.subset hsub).encard_lt_encard (hsub.ssubset_of_mem_notMem (mem_entries hk) hlost)
  rw [ht.count e.frame hu, hcard, hc] at hlt
  exact lt_irrefl _ hlt

omit [DecidableEq κ] [DecidableEq φ] in
theorem Exact.not_clear (h : s.Exact) (hk : s.map i k = some e) : ¬ (s.clear i).Exact := by
  have hcleared : (s.clear i).map i k = none := by
    show Function.update s.map i (fun _ => none) i k = none
    rw [Function.update_self]
  refine h.not_of_lost hk (h.used i k e hk) rfl (fun x hx => ?_) fun hx => ?_
  · obtain ⟨d, hd, hdf⟩ := hx
    have hd : Function.update s.map i (fun _ => none) x.1 x.2 = some d := hd
    by_cases hxi : x.1 = i
    · rw [hxi, Function.update_self] at hd; cases hd
    · rw [Function.update_of_ne hxi] at hd; exact ⟨d, hd, hdf⟩
  · obtain ⟨d, hd, -⟩ := hx
    rw [hcleared] at hd
    cases hd

theorem freshAll_keeps (s : Frames ι κ φ δ υ) {pick : Finset φ → φ} (hp : ∀ u, pick u ∉ u) (i : ι) (w : Bool) (ks : List κ)
    (hf : f ∈ s.used) : f ∈ (s.freshAll pick i w ks).used ∧ (s.freshAll pick i w ks).count f = s.count f := by
  induction ks generalizing s with
  | nil => exact ⟨hf, rfl⟩
  | cons k ks ih =>
    obtain ⟨h1, h2⟩ := ih (s.fresh i k (pick s.used) w) (Finset.mem_insert_of_mem hf)
    refine ⟨h1, h2.trans (Function.update_of_ne ?_ ..)⟩
    intro he
    exact hp _ (he ▸ hf)

theorem Exact.not_freshAll (h : s.Exact) {pick : Finset φ → φ} (hp : ∀ u, pick u ∉ u) (w : Bool) {ks : List κ} (hin : k ∈ ks)
    (hk : s.map i k = some e) : ¬ (s.freshAll pick i w ks).Exact := by
  have hu := h.used i k e hk
  have hfill := freshAll_filled (s := s) hp i w ks
  obtain ⟨hused, hcount⟩ := freshAll_keeps s hp i w ks hu
  -- the new frames are none of the old ones
  have hnew : ∀ l ∈ ks, (i, l) ∉ (s.freshAll pick i w ks).entries e.frame := by
    intro l hl hx
    obtain ⟨d, hd, hdf⟩ := hx
    obtain ⟨g, hg, hnot, -⟩ := hfill.new l hl
    have hd : (s.freshAll pick i w ks).map i l = some d := hd
    rw [hg] at hd
    cases hd
    have hdf : g = e.frame := hdf
    exact hnot (hdf ▸ hu)
  refine h.not_of_lost hk hused hcount (fun x hx => ?_) (hnew k hin)
  by_cases hxk : x.1 = i ∧ x.2 ∈ ks
  · exact absurd hx (by rw [show x = (i, x.2) from Prod.ext hxk.1 rfl]; exact hnew x.2 hxk.2)
  · obtain ⟨d, hd, hdf⟩ := hx
    exact ⟨d, (hfill.others x.1 x.2 hxk).symm.trans hd, hdf⟩

end Cs330.Lib.Frames
