/-
  Cs330.Lib.Fork — filling, dropping, sharing and copying a list of keys, one after the other.

  `shareAll i j ks` and `dupAll pick i j w ks` are the two halves of a fork of `i` into
  `j`. Sharing a list is sound if no counter would pass 255 (`Room`): each frame of `i` is
  counted as often as its key comes up in the list.
-/
import Cs330.Lib.Told

namespace Cs330.Lib.Frames

variable {ι κ φ δ υ : Type} [DecidableEq ι] [DecidableEq κ] [DecidableEq φ]

/-- `pick` chooses an unused frame. -/
def freshAll (s : Frames ι κ φ δ υ) (pick : Finset φ → φ) (i : ι) (w : Bool) (ks : List κ) : Frames ι κ φ δ υ :=
  ks.foldl (fun s k => s.fresh i k (pick s.used) w) s

def dropAll (s : Frames ι κ φ δ υ) (i : ι) (ks : List κ) : Frames ι κ φ δ υ := ks.foldl (fun s k => s.drop i k) s

def shareAll (s : Frames ι κ φ δ υ) (i j : ι) (ks : List κ) : Frames ι κ φ δ υ :=
  ks.foldl (fun s k => s.share i j k) s

def dupAll (s : Frames ι κ φ δ υ) (pick : Finset φ → φ) (i j : ι) (w : Bool) (ks : List κ) : Frames ι κ φ δ υ :=
  ks.foldl (fun s k => s.dup i j k (pick s.used) w) s

variable {s : Frames ι κ φ δ υ} {t : ι → κ → δ → Option υ} {i j : ι} {k : κ} {e : Entry φ}

theorem shareAll_append (i j : ι) (ks ls : List κ) : s.shareAll i j (ks ++ ls) = (s.shareAll i j ks).shareAll i j ls :=
  List.foldl_append

/-! ## Filling -/

theorem fresh_map (i : ι) (k : κ) (g : φ) (w : Bool) (i' : ι) (k' : κ) : (s.fresh i k g w).map i' k' =
    if i' = i ∧ k' = k then some ⟨g, w⟩ else s.map i' k' := put_apply ..

theorem freshAll_cons (pick : Finset φ → φ) (i : ι) (w : Bool) (k : κ) (ks : List κ) :
    s.freshAll pick i w (k :: ks) = (s.fresh i k (pick s.used) w).freshAll pick i w ks := rfl

theorem freshAll_append (pick : Finset φ → φ) (i : ι) (w : Bool) (ks ls : List κ) :
    s.freshAll pick i w (ks ++ ls) = (s.freshAll pick i w ks).freshAll pick i w ls := List.foldl_append

/-- Whatever is picked. -/
theorem freshAll_others (pick : Finset φ → φ) (w : Bool) {ks : List κ} (hk : ¬ (j = i ∧ k ∈ ks)) :
    (s.freshAll pick i w ks).map j k = s.map j k := by
  induction ks generalizing s with
  | nil => rfl
  | cons k' ks ih =>
    refine (ih fun h => hk ⟨h.1, List.mem_cons_of_mem _ h.2⟩).trans ?_
    rw [fresh_map, if_neg fun h : j = i ∧ k = k' => hk ⟨h.1, h.2 ▸ List.mem_cons_self⟩]

/-- The keys of the list have new frames, each a frame of its own; nothing else changes. -/
structure Filled (s s' : Frames ι κ φ δ υ) (i : ι) (w : Bool) (ks : List κ) : Prop where
  others : ∀ i' k, ¬ (i' = i ∧ k ∈ ks) → s'.map i' k = s.map i' k
  new : ∀ k ∈ ks, ∃ g, s'.map i k = some ⟨g, w⟩ ∧ g ∉ s.used ∧ g ∈ s'.used
  apart : ∀ k ∈ ks, ∀ k' ∈ ks, s'.map i k = s'.map i k' → k = k'
  used : s.used ⊆ s'.used

theorem freshAll_filled {pick : Finset φ → φ} (hp : ∀ u, pick u ∉ u) (i : ι) (w : Bool) (ks : List κ) :
    Filled s (s.freshAll pick i w ks) i w ks := by
  induction ks generalizing s with
  | nil => exact ⟨fun _ _ _ => rfl, fun _ h => absurd h List.not_mem_nil, fun _ h => absurd h List.not_mem_nil, subset_rfl⟩
  | cons k ks ih =>
    have h := ih (s := s.fresh i k (pick s.used) w)
    have hins : (s.fresh i k (pick s.used) w).used = insert (pick s.used) s.used := rfl
    -- the first key keeps the frame picked for it unless it comes up again
    have hfirst : k ∉ ks → ((s.fresh i k (pick s.used) w).freshAll pick i w ks).map i k = some ⟨pick s.used, w⟩ := by
      intro hk
      rw [h.others i k fun hik => hk hik.2, fresh_map, if_pos ⟨rfl, rfl⟩]
    have hlater : ∀ k' ∈ ks, ((s.fresh i k (pick s.used) w).freshAll pick i w ks).map i k' ≠ some ⟨pick s.used, w⟩ := by
      intro k' hk' he
      obtain ⟨g, hg, hnew, -⟩ := h.new k' hk'
      rw [hg] at he
      cases he
      exact hnew (Finset.mem_insert_self _ _)
    refine ⟨fun i' k' hno => ?_, fun k' hk' => ?_, fun k1 h1 k2 h2 he => ?_, ?_⟩
    · exact freshAll_others pick w hno
    · by_cases hks : k' ∈ ks
      · obtain ⟨g, hg, hnew, hin⟩ := h.new k' hks
        exact ⟨g, hg, fun hu => hnew (Finset.mem_insert_of_mem hu), hin⟩
      · obtain rfl : k' = k := (List.mem_cons.mp hk').resolve_right hks
        exact ⟨pick s.used, hfirst hks, hp _, h.used (Finset.mem_insert_self _ _)⟩
    · have he : ((s.fresh i k (pick s.used) w).freshAll pick i w ks).map i k1 =
          ((s.fresh i k (pick s.used) w).freshAll pick i w ks).map i k2 := he
      by_cases m1 : k1 ∈ ks <;> by_cases m2 : k2 ∈ ks
      · exact h.apart k1 m1 k2 m2 he
      · obtain rfl : k2 = k := (List.mem_cons.mp h2).resolve_right m2
        exact absurd (he.trans (hfirst m2)) (hlater k1 m1)
      · obtain rfl : k1 = k := (List.mem_cons.mp h1).resolve_right m1
        exact absurd (he.symm.trans (hfirst m1)) (hlater k2 m2)
      · rw [(List.mem_cons.mp h1).resolve_right m1, (List.mem_cons.mp h2).resolve_right m2]
    · exact (Finset.subset_insert _ _).trans h.used

theorem Faithful.freshAll (hf : Faithful s t) {pick : Finset φ → φ} (hp : ∀ u, pick u ∉ u) (w : Bool) {ks : List κ}
    (hk : ∀ k ∈ ks, s.map i k = none) : Faithful (s.freshAll pick i w ks) t := by
  have hfill := freshAll_filled (s := s) hp i w ks
  have hdata : (s.freshAll pick i w ks).data = s.data := by
    clear hfill hk hf
    induction ks generalizing s with
    | nil => rfl
    | cons k ks ih => exact ih
  refine hf.remap hdata fun i' k' e _ he => ⟨e, ?_, rfl⟩
  rw [hfill.others i' k' fun h => ?_]
  · exact he
  · rw [h.1, hk k' h.2] at he
    cases he

/-! ## Dropping -/

theorem drop_map (i : ι) (k : κ) : (s.drop i k).map = put s.map i k none := by
  cases h : s.map i k with
  | none =>
    have hs : s.drop i k = s := by unfold drop; rw [h]
    funext i' k'
    rw [hs, put_apply]
    split
    · rename_i hik; rw [hik.1, hik.2, h]
    · rfl
  | some e => unfold drop; rw [h]; simp only; split <;> rfl

theorem dropAll_map (i : ι) (ks : List κ) (i' : ι) (k' : κ) :
    (s.dropAll i ks).map i' k' = if i' = i ∧ k' ∈ ks then none else s.map i' k' := by
  induction ks generalizing s with
  | nil => simp [dropAll]
  | cons k ks ih =>
    show ((s.drop i k).dropAll i ks).map i' k' = _
    rw [ih, drop_map, put_apply]
    by_cases h1 : i' = i ∧ k' ∈ ks
    · rw [if_pos h1, if_pos ⟨h1.1, List.mem_cons_of_mem _ h1.2⟩]
    · rw [if_neg h1]
      by_cases h2 : i' = i ∧ k' = k
      · rw [if_pos h2, if_pos ⟨h2.1, h2.2 ▸ List.mem_cons_self⟩]
      · rw [if_neg h2, if_neg]
        intro h3
        rcases List.mem_cons.mp h3.2 with h | h
        · exact h2 ⟨h3.1, h⟩
        · exact h1 ⟨h3.1, h⟩

theorem Faithful.dropAll (hf : Faithful s t) (i : ι) (ks : List κ) :
    Faithful (s.dropAll i ks) fun i' k' => if i' = i ∧ k' ∈ ks then fun _ => none else t i' k' := by
  induction ks generalizing s t with
  | nil => exact hf.forget fun i k o v hv => by simpa using hv
  | cons k ks ih =>
    refine (ih hf.drop).forget fun i' k' o v hv => ?_
    by_cases h : i' = i ∧ k' ∈ k :: ks
    · rw [if_pos h] at hv; cases hv
    · rw [if_neg h] at hv
      have h1 : ¬ (i' = i ∧ k' ∈ ks) := fun h' => h ⟨h'.1, List.mem_cons_of_mem _ h'.2⟩
      have h2 : ¬ (i' = i ∧ k' = k) := fun h' => h ⟨h'.1, h'.2 ▸ List.mem_cons_self⟩
      rw [if_neg h1, put_apply, if_neg h2]
      exact hv

/-! ## Sharing -/

def readOnly (e : Entry φ) : Entry φ := { e with write := false }

omit [DecidableEq φ] in
theorem readOnly_readOnly (x : Option (Entry φ)) : (x.map readOnly).map readOnly = x.map readOnly := by
  cases x <;> rfl

omit [DecidableEq φ] in
theorem shared_map {v : Entry φ} (i' : ι) (k' : κ) :
    put (put s.map i k (some v)) j k (some v) i' k' = if (i' = i ∨ i' = j) ∧ k' = k then some v else s.map i' k' := by
  rw [put_apply, put_apply]
  by_cases h1 : i' = j ∧ k' = k
  · rw [if_pos h1, if_pos ⟨Or.inr h1.1, h1.2⟩]
  rw [if_neg h1]
  by_cases h2 : i' = i ∧ k' = k
  · rw [if_pos h2, if_pos ⟨Or.inl h2.1, h2.2⟩]
  · rw [if_neg h2, if_neg]
    intro h
    rcases h.1 with r | r
    · exact h2 ⟨r, h.2⟩
    · exact h1 ⟨r, h.2⟩

/-- After a share both have the frame, read-only; nothing else changes. -/
theorem share_map (i' : ι) (k' : κ) : (s.share i j k).map i' k' =
    if (i' = i ∨ i' = j) ∧ k' = k then ((s.map i k).map readOnly).or (s.map i' k') else s.map i' k' := by
  unfold share
  cases h : s.map i k with
  | none => simp
  | some e => exact shared_map i' k'

theorem share_count (f : φ) : (s.share i j k).count f =
    if (s.map i k).any (fun e => e.frame = f) then s.count f + 1 else s.count f := by
  unfold share
  cases h : s.map i k with
  | none => simp
  | some e =>
    by_cases hf : e.frame = f
    · subst hf; simp
    · simp [hf, Function.update_of_ne (Ne.symm hf)]

/-- How often sharing the list counts a frame of `i`. -/
def uses (s : Frames ι κ φ δ υ) (i : ι) (ks : List κ) (f : φ) : Nat :=
  ks.countP fun k => (s.map i k).any fun e => e.frame = f

def Room (s : Frames ι κ φ δ υ) (i : ι) (ks : List κ) : Prop := ∀ f, (s.count f).toNat + s.uses i ks f ≤ 255

theorem share_any (k' : κ) (f : φ) :
    ((s.share i j k).map i k').any (fun e => e.frame = f) = (s.map i k').any fun e => e.frame = f := by
  rw [share_map]
  split
  · rename_i h
    rw [h.2]
    cases s.map i k <;> rfl
  · rfl

theorem share_uses (ks : List κ) (f : φ) : (s.share i j k).uses i ks f = s.uses i ks f := by
  unfold uses
  simp only [share_any]

omit [DecidableEq ι] [DecidableEq κ] in
/-- What is counted depends on the frames of `i` only. -/
theorem uses_congr {s' : Frames ι κ φ δ υ} (h : ∀ k, (s'.map i k).map Entry.frame = (s.map i k).map Entry.frame) (ks : List κ)
    (f : φ) : s'.uses i ks f = s.uses i ks f := by
  have hany : ∀ x : Option (Entry φ), (x.any fun e => e.frame = f) = (x.map Entry.frame).any fun g => g = f := by
    intro x; cases x <;> rfl
  unfold uses
  simp only [hany, h]

theorem share_count_toNat (ks : List κ) (hr : s.Room i (k :: ks)) (f : φ) :
    ((s.share i j k).count f).toNat + s.uses i ks f = (s.count f).toNat + s.uses i (k :: ks) f := by
  have hroom := hr f
  unfold uses at hroom ⊢
  rw [List.countP_cons] at hroom ⊢
  rw [share_count]
  split
  · rename_i h
    rw [if_pos h] at hroom
    have hadd : (s.count f + 1).toNat = (s.count f).toNat + 1 := by
      rw [UInt8.toNat_add]
      exact Nat.mod_eq_of_lt (by simp only [UInt8.toNat_one]; omega)
    omega
  · omega

theorem Room.tail {ks : List κ} (hr : s.Room i (k :: ks)) : (s.share i j k).Room i ks := by
  intro f
  rw [share_uses, share_count_toNat ks hr]
  exact hr f

omit [DecidableEq ι] [DecidableEq κ] in
/-- Room is left for a frame that is about to be counted. -/
theorem Room.lt {ks : List κ} (hr : s.Room i (k :: ks)) (h : s.map i k = some e) : (s.count e.frame).toNat < 255 := by
  have hroom := hr e.frame
  unfold uses at hroom
  rw [List.countP_cons, if_pos (by rw [h]; simp)] at hroom
  omega

theorem Child.share (hc : s.Child i j) : (s.share i j k).Child i j := by
  intro k' e' h
  rw [share_map] at h
  have hframe : ∀ {l e}, (s.share i j k).map i l = some e → ∃ d, s.map i l = some d ∧ d.frame = e.frame := by
    intro l e hl
    have hany := share_any (s := s) (i := i) (j := j) (k := k) l e.frame
    rw [hl] at hany
    cases hd : s.map i l with
    | none => rw [hd] at hany; simp at hany
    | some d => rw [hd] at hany; exact ⟨d, rfl, by simpa using hany⟩
  have hback : ∀ {l d}, s.map i l = some d → ∃ e, (s.share i j k).map i l = some e ∧ e.frame = d.frame := by
    intro l d hl
    have hany := share_any (s := s) (i := i) (j := j) (k := k) l d.frame
    rw [hl] at hany
    cases he : (s.share i j k).map i l with
    | none => rw [he] at hany; simp at hany
    | some e => rw [he] at hany; exact ⟨e, rfl, by simpa using hany⟩
  have hold : s.map j k' = some e' → (∃ e, (s.share i j k).map i k' = some e ∧ e.frame = e'.frame) ∨
      ∀ l e, (s.share i j k).map i l = some e → e.frame ≠ e'.frame := by
    intro hm
    rcases hc k' e' hm with ⟨d, hd, hf⟩ | hno
    · obtain ⟨e, he, hfe⟩ := hback hd
      exact Or.inl ⟨e, he, hfe.trans hf⟩
    · refine Or.inr fun l e he hf => ?_
      obtain ⟨d, hd, hfd⟩ := hframe he
      exact hno l d hd (hfd.trans hf)
  split at h
  · rename_i hk
    cases hd : s.map i k with
    | none => rw [hd] at h; exact hold h
    | some d =>
      rw [hd] at h
      cases h
      obtain ⟨e, he, hfe⟩ := hback hd
      exact Or.inl ⟨e, hk.2 ▸ he, hfe⟩
  · exact hold h

theorem share_used : (s.share i j k).used = s.used := by
  unfold share; cases s.map i k <;> rfl

section
variable (ks : List κ)

theorem shareAll_owner (k : κ) : (s.shareAll i j ks).map i k = if k ∈ ks then (s.map i k).map readOnly else s.map i k := by
  induction ks generalizing s with
  | nil => rfl
  | cons k' ks ih =>
    refine ih.trans ?_
    rw [share_map]
    by_cases e : k = k'
    · subst e
      cases s.map i k with
      | none => simp
      | some e => simp [readOnly]
    · simp [e]

theorem shareAll_forked (k : κ) : (s.shareAll i j ks).map j k =
    if k ∈ ks then ((s.map i k).map readOnly).or (s.map j k) else s.map j k := by
  induction ks generalizing s with
  | nil => rfl
  | cons k' ks ih =>
    refine ih.trans ?_
    rw [share_map, share_map]
    by_cases e : k = k'
    · subst e
      cases s.map i k with
      | none => simp
      | some e => simp [readOnly]
    · simp [e]

theorem shareAll_others {i' : ι} (h1 : i' ≠ i) (h2 : i' ≠ j) (k : κ) : (s.shareAll i j ks).map i' k = s.map i' k := by
  induction ks generalizing s with
  | nil => rfl
  | cons k' ks ih => exact ih.trans (by rw [share_map, if_neg fun h => h.1.elim h1 h2])

end

/-- Sharing a list is sound, and counts what it shares. -/
structure Shared (s s' : Frames ι κ φ δ υ) (i j : ι) (ks : List κ) : Prop where
  inv : s'.Inv
  child : s'.Child i j
  count : ∀ f, (s'.count f).toNat = (s.count f).toNat + s.uses i ks f
  used : s'.used = s.used

theorem Inv.shareAll (hi : s.Inv) (hc : s.Child i j) (ks : List κ) (hr : s.Room i ks) :
    Shared s (s.shareAll i j ks) i j ks := by
  induction ks generalizing s with
  | nil => exact ⟨hi, hc, fun f => rfl, rfl⟩
  | cons k ks ih =>
    have h := ih (hi.share hc fun e he => hr.lt he) hc.share hr.tail
    refine ⟨h.inv, h.child, fun f => ?_, h.used.trans share_used⟩
    have h1 := h.count f
    rw [share_uses] at h1
    exact h1.trans (share_count_toNat ks hr f)

omit [DecidableEq φ] in
/-- `j` has been told of one key, then of the rest. -/
theorem told_cons (hij : i ≠ j) {ks : List κ} {i' : ι} {k' : κ} {o : δ} {v : υ}
    (hv : (if i' = j ∧ k' ∈ k :: ks then t i k' else t i' k') o = some v) :
    (if i' = j ∧ k' ∈ ks then put t j k (t i k) i k' else put t j k (t i k) i' k') o = some v := by
  have hik : put t j k (t i k) i k' = t i k' := by rw [put_apply, if_neg fun h => hij h.1]
  rw [hik]
  by_cases h : i' = j ∧ k' ∈ ks
  · rw [if_pos h]
    rwa [if_pos ⟨h.1, List.mem_cons_of_mem _ h.2⟩] at hv
  · rw [if_neg h, put_apply]
    by_cases h2 : i' = j ∧ k' = k
    · rw [if_pos h2]
      rwa [if_pos ⟨h2.1, h2.2 ▸ List.mem_cons_self⟩, h2.2] at hv
    · rw [if_neg h2]
      rwa [if_neg] at hv
      intro h3
      rcases List.mem_cons.mp h3.2 with r | r
      · exact h2 ⟨h3.1, r⟩
      · exact h ⟨h3.1, r⟩

theorem Faithful.shareAll (hf : Faithful s t) (hij : i ≠ j) (ks : List κ) :
    Faithful (s.shareAll i j ks) fun i' k' => if i' = j ∧ k' ∈ ks then t i k' else t i' k' := by
  induction ks generalizing s t with
  | nil => exact hf.forget fun i k o v hv => by simpa using hv
  | cons k ks ih => exact (ih hf.share).forget fun i' k' o v hv => told_cons hij hv

/-! ## Copying -/

theorem dup_map {g : φ} {w : Bool} (i' : ι) (k' : κ) : (s.dup i j k g w).map i' k' =
    if i' = j ∧ k' = k then ((s.map i k).map fun _ => ⟨g, w⟩).or (s.map i' k') else s.map i' k' := by
  unfold dup
  cases h : s.map i k with
  | none => simp
  | some e => exact put_apply ..

theorem dup_new {g : φ} {w : Bool} {k' : κ} (h : (s.dup i j k g w).map j k' = some e) :
    (k' = k ∧ (s.map i k').isSome ∧ e = ⟨g, w⟩) ∨ s.map j k' = some e := by
  rw [dup_map] at h
  split at h
  · rename_i hk
    cases hd : s.map i k with
    | none => rw [hd] at h; exact Or.inr h
    | some d =>
      rw [hd] at h
      cases h
      exact Or.inl ⟨hk.2, by rw [hk.2, hd]; rfl, rfl⟩
  · exact Or.inr h

section
variable (pick : Finset φ → φ) (w : Bool) (ks : List κ)

theorem dupAll_others {i' : ι} (h : i' ≠ j) (k : κ) : (s.dupAll pick i j w ks).map i' k = s.map i' k := by
  induction ks generalizing s with
  | nil => rfl
  | cons k' ks ih => exact ih.trans (by rw [dup_map, if_neg fun h' => h h'.1])

theorem dupAll_apart (hk : k ∉ ks) : (s.dupAll pick i j w ks).map j k = s.map j k := by
  induction ks generalizing s with
  | nil => rfl
  | cons k' ks ih =>
    refine (ih fun h => hk (List.mem_cons_of_mem _ h)).trans ?_
    rw [dup_map, if_neg fun h : j = j ∧ k = k' => hk (h.2 ▸ List.mem_cons_self)]

/-- What is mapped, or to be copied, is mapped afterwards. -/
theorem dupAll_mapped (hij : i ≠ j) (h : (k ∈ ks ∧ s.map i k ≠ none) ∨ s.map j k ≠ none) :
    (s.dupAll pick i j w ks).map j k ≠ none := by
  induction ks generalizing s with
  | nil => exact h.resolve_left fun h => absurd h.1 List.not_mem_nil
  | cons k' ks ih =>
    refine ih ?_
    rw [dup_map, if_neg fun h' => hij h'.1, dup_map]
    by_cases hk : k = k'
    · subst hk
      right
      rw [if_pos ⟨rfl, rfl⟩]
      rcases h with ⟨-, h⟩ | h
      · simp [h]
      · simp [h]
    · rw [if_neg fun h' => hk h'.2]
      rcases h with ⟨hmem, h⟩ | h
      · exact .inl ⟨(List.mem_cons.mp hmem).resolve_left hk, h⟩
      · exact .inr h

theorem dupAll_forked (hij : i ≠ j) (h : (s.dupAll pick i j w ks).map j k = some e) :
    (k ∈ ks ∧ (s.map i k).isSome ∧ ∃ u, e = ⟨pick u, w⟩) ∨ s.map j k = some e := by
  induction ks generalizing s with
  | nil => exact Or.inr h
  | cons k' ks ih =>
    rcases ih h with ⟨hk, hs, he⟩ | h
    · rw [dup_map, if_neg fun h => hij h.1] at hs
      exact Or.inl ⟨List.mem_cons_of_mem _ hk, hs, he⟩
    · rcases dup_new h with ⟨hk, hs, he⟩ | h
      · exact Or.inl ⟨hk ▸ List.mem_cons_self, hs, _, he⟩
      · exact Or.inr h

end

/-- Copying a list is sound, and counts only new frames. -/
structure Duped (s s' : Frames ι κ φ δ υ) (i j : ι) : Prop where
  inv : s'.Inv
  child : s'.Child i j
  count : ∀ f, s'.count f = s.count f ∨ (f ∉ s.used ∧ s'.count f = 1)
  used : s.used ⊆ s'.used

theorem Inv.dup_spec (hi : s.Inv) (hij : i ≠ j) (hc : s.Child i j) {g : φ} (hg : g ∉ s.used) (w : Bool) (k : κ) :
    Duped s (s.dup i j k g w) i j := by
  refine ⟨hi.dup hg, fun k' e' h => ?_, fun f => ?_, ?_⟩
  · have hothers : ∀ l, (s.dup i j k g w).map i l = s.map i l := fun l => by rw [dup_map, if_neg fun h' => hij h'.1]
    simp only [hothers]
    rcases dup_new h with ⟨-, -, v⟩ | hm
    · refine Or.inr fun l e he hf => hg ?_
      have hu := hi.used i l e he
      rw [hf, v] at hu
      exact hu
    · exact hc k' e' hm
  · unfold Frames.dup
    cases s.map i k with
    | none => exact Or.inl rfl
    | some e =>
      by_cases hf : f = g
      · subst hf; exact Or.inr ⟨hg, Function.update_self ..⟩
      · exact Or.inl (Function.update_of_ne hf ..)
  · unfold Frames.dup
    cases s.map i k with
    | none => exact fun _ h => h
    | some e => exact fun _ h => Finset.mem_insert_of_mem h

omit [DecidableEq ι] [DecidableEq κ] [DecidableEq φ] in
theorem Duped.trans {s1 s2 : Frames ι κ φ δ υ} (h1 : Duped s s1 i j) (h2 : Duped s1 s2 i j) : Duped s s2 i j := by
  refine ⟨h2.inv, h2.child, fun f => ?_, h1.used.trans h2.used⟩
  rcases h2.count f with hc | ⟨hu, hc⟩
  · rw [hc]; exact h1.count f
  · exact Or.inr ⟨fun hf => hu (h1.used hf), hc⟩

section
variable {pick : Finset φ → φ} (hp : ∀ u, pick u ∉ u)
include hp

theorem Inv.dupAll (hi : s.Inv) (hij : i ≠ j) (hc : s.Child i j) (w : Bool) (ks : List κ) :
    Duped s (s.dupAll pick i j w ks) i j := by
  induction ks generalizing s with
  | nil => exact ⟨hi, hc, fun _ => Or.inl rfl, fun _ h => h⟩
  | cons k ks ih =>
    have h := hi.dup_spec hij hc (hp s.used) w k
    exact h.trans (ih h.inv h.child)

theorem Faithful.dupAll (hi : s.Inv) (hf : Faithful s t) (hij : i ≠ j) (hc : s.Child i j) (w : Bool) (ks : List κ) :
    Faithful (s.dupAll pick i j w ks) fun i' k' => if i' = j ∧ k' ∈ ks then t i k' else t i' k' := by
  induction ks generalizing s t with
  | nil => exact hf.forget fun i k o v hv => by simpa using hv
  | cons k ks ih =>
    have h := hi.dup_spec hij hc (hp s.used) w k
    exact (ih h.inv (hf.dup hi (hp s.used)) h.child).forget fun i' k' o v hv => told_cons hij hv

end

omit [DecidableEq ι] [DecidableEq κ] in
/-- A frame that is not used is none of `i`'s. -/
theorem Inv.uses_eq_zero (hi : s.Inv) {f : φ} (hf : f ∉ s.used) (ls : List κ) : s.uses i ls f = 0 := by
  refine List.countP_eq_zero.mpr fun k _ h => ?_
  cases he : s.map i k with
  | none => rw [he] at h; simp at h
  | some e =>
    rw [he] at h
    have hfe : e.frame = f := by simpa using h
    exact hf (hfe ▸ hi.used i k e he)

omit [DecidableEq ι] [DecidableEq κ] in
theorem uses_append (s : Frames ι κ φ δ υ) (i : ι) (ks ls : List κ) (f : φ) :
    s.uses i (ks ++ ls) f = s.uses i ks f + s.uses i ls f := List.countP_append

omit [DecidableEq ι] [DecidableEq κ] in
theorem Room.left {ks ls : List κ} (hr : s.Room i (ks ++ ls)) : s.Room i ks := by
  intro f
  have h := hr f
  rw [uses_append] at h
  omega

omit [DecidableEq ι] [DecidableEq κ] in
/-- A list without repetition counts a frame once at most. -/
theorem Inv.uses_le_one {s : Frames ι κ φ δ υ} (hi : s.Inv) {ks : List κ} (hn : ks.Nodup) (f : φ) : s.uses i ks f ≤ 1 := by
  induction ks with
  | nil => exact Nat.zero_le _
  | cons k ks ih =>
    obtain ⟨hk, hn⟩ := List.nodup_cons.mp hn
    unfold uses at ih ⊢
    rw [List.countP_cons]
    split
    · rename_i hf
      obtain ⟨e, he, hef⟩ := (Option.any_eq_true _ _).mp hf
      have hzero : ks.countP (fun k => (s.map i k).any fun e => e.frame = f) = 0 := by
        refine List.countP_eq_zero.mpr fun k' hk' h' => ?_
        obtain ⟨e', he', hef'⟩ := (Option.any_eq_true _ _).mp h'
        have heq := hi.inj i k k' e e' he he' (by rw [of_decide_eq_true hef, of_decide_eq_true hef'])
        exact hk (heq ▸ hk')
      omega
    · exact ih hn

omit [DecidableEq ι] [DecidableEq κ] in
/-- There is room if no counter about to be incremented is at its end. -/
theorem Inv.room {s : Frames ι κ φ δ υ} (hi : s.Inv) {ks : List κ} (hn : ks.Nodup)
    (h : ∀ k ∈ ks, ∀ e, s.map i k = some e → s.count e.frame ≠ 255) : s.Room i ks := by
  intro f
  have hle := hi.uses_le_one (i := i) hn f
  have hlt := (s.count f).toNat_lt
  by_cases h0 : s.uses i ks f = 0
  · omega
  · obtain ⟨k, hk, hf⟩ := List.countP_pos_iff.mp (Nat.pos_of_ne_zero h0)
    obtain ⟨e, he, hef⟩ := (Option.any_eq_true _ _).mp hf
    have hne := h k hk e he
    rw [of_decide_eq_true hef] at hne
    have : (s.count f).toNat ≠ 255 := fun h => hne (UInt8.toNat_inj.mp h)
    omega

/-! ## A fork -/

/-- The keys `ks` are shared, then `stack` is copied, then `ls` are shared. -/
def fork (s : Frames ι κ φ δ υ) (pick : Finset φ → φ) (i j : ι) (ks stack ls : List κ) : Frames ι κ φ δ υ :=
  ((s.shareAll i j ks).dupAll pick i j true stack).shareAll i j ls

section
variable {pick : Finset φ → φ} {ks stack ls : List κ} (hij : i ≠ j)

include hij in
theorem fork_owner (k : κ) : (s.fork pick i j ks stack ls).map i k =
    if k ∈ ks ++ ls then (s.map i k).map readOnly else s.map i k := by
  refine (shareAll_owner ls k).trans ?_
  rw [dupAll_others pick true stack hij, shareAll_owner]
  by_cases hk : k ∈ ks <;> by_cases hl : k ∈ ls <;> simp only [List.mem_append, hk, hl, if_true, if_false, or_true,
    or_false, readOnly_readOnly]

theorem fork_others {i' : ι} (h1 : i' ≠ i) (h2 : i' ≠ j) (k : κ) : (s.fork pick i j ks stack ls).map i' k = s.map i' k :=
  (shareAll_others ls h1 h2 k).trans ((dupAll_others pick true stack h2 k).trans (shareAll_others ks h1 h2 k))

include hij in
/-- What the new owner has is a copy from `stack`, or shared. -/
theorem fork_forked (hnew : ∀ k, s.map j k = none) (h : (s.fork pick i j ks stack ls).map j k = some e) :
    (s.map i k).isSome ∧ ((k ∈ stack ∧ ∃ u, e = ⟨pick u, true⟩) ∨ (k ∈ ks ++ ls ∧ (s.map i k).map readOnly = some e)) := by
  have hsome : (s.map i k).map readOnly = some e → (s.map i k).isSome := by
    intro h
    cases hd : s.map i k with
    | none => rw [hd] at h; cases h
    | some d => rfl
  have hro : (if k ∈ ks then (s.map i k).map readOnly else s.map i k).map readOnly = (s.map i k).map readOnly := by
    split
    · exact readOnly_readOnly _
    · rfl
  have hmid : ((s.shareAll i j ks).dupAll pick i j true stack).map j k = some e →
      (s.map i k).isSome ∧ ((k ∈ stack ∧ ∃ u, e = ⟨pick u, true⟩) ∨ (k ∈ ks ++ ls ∧ (s.map i k).map readOnly = some e)) := by
    intro hm
    rcases dupAll_forked pick true stack hij hm with ⟨hk, hs, he⟩ | hm
    · refine ⟨?_, Or.inl ⟨hk, he⟩⟩
      rw [shareAll_owner] at hs
      split at hs
      · simpa using hs
      · exact hs
    · rw [shareAll_forked, hnew k] at hm
      split at hm
      · rename_i hk
        have hm : (s.map i k).map readOnly = some e := by simpa using hm
        exact ⟨hsome hm, Or.inr ⟨List.mem_append_left _ hk, hm⟩⟩
      · cases hm
  have h := (shareAll_forked ls k).symm.trans h
  rw [dupAll_others pick true stack hij, shareAll_owner, hro] at h
  split at h
  · rename_i hl
    rcases Option.or_eq_some_iff.mp h with h | ⟨-, h⟩
    · exact ⟨hsome h, Or.inr ⟨List.mem_append_right _ hl, h⟩⟩
    · exact hmid h
  · exact hmid h

include hij in
/-- Nothing the fork goes through is left out. -/
theorem fork_mapped (hk : k ∈ ks ++ stack ++ ls) (h : s.map i k ≠ none) : (s.fork pick i j ks stack ls).map j k ≠ none := by
  have hown : ((s.shareAll i j ks).dupAll pick i j true stack).map i k ≠ none := by
    rw [dupAll_others pick true stack hij, shareAll_owner]
    split <;> simp [h]
  intro hno
  have hno := (shareAll_forked ls k).symm.trans hno
  by_cases hl : k ∈ ls
  · rw [if_pos hl] at hno
    simp [hown] at hno
  · rw [if_neg hl] at hno
    refine dupAll_mapped pick true stack hij ?_ hno
    simp only [List.mem_append, hl, or_false] at hk
    rw [shareAll_owner, shareAll_forked]
    rcases hk with hk | hk
    · right
      simp [hk, h]
    · left
      refine ⟨hk, ?_⟩
      split <;> simp [h]

omit hij in
/-- A key that is only shared. -/
theorem fork_shared (hnew : s.map j k = none) (hk : k ∈ ks) (hs : k ∉ stack) (hl : k ∉ ls) :
    (s.fork pick i j ks stack ls).map j k = (s.map i k).map readOnly := by
  refine (shareAll_forked ls k).trans ?_
  rw [if_neg hl, dupAll_apart pick true stack hs, shareAll_forked, if_pos hk, hnew, Option.or_none]

variable (hp : ∀ u, pick u ∉ u)

include hij hp

/-- Before the second list is shared. -/
theorem Inv.fork_middle (hi : s.Inv) (stack : List κ) (hnew : ∀ k, s.map j k = none) (hr : s.Room i (ks ++ ls)) :
    Duped (s.shareAll i j ks) ((s.shareAll i j ks).dupAll pick i j true stack) i j ∧
      (∀ f, (((s.shareAll i j ks).dupAll pick i j true stack).count f).toNat +
        ((s.shareAll i j ks).dupAll pick i j true stack).uses i ls f ≤ max 1 ((s.count f).toNat + s.uses i (ks ++ ls) f)) ∧
      ((s.shareAll i j ks).dupAll pick i j true stack).Room i ls := by
  have h1 := hi.shareAll (i := i) (j := j) (fun k e h => by rw [hnew k] at h; cases h) ks hr.left
  have h2 := h1.inv.dupAll hp hij h1.child true stack
  have huses : ∀ f, ((s.shareAll i j ks).dupAll pick i j true stack).uses i ls f = s.uses i ls f := by
    intro f
    refine uses_congr (fun k => ?_) ls f
    rw [dupAll_others pick true stack hij, shareAll_owner]
    split
    · cases s.map i k <;> rfl
    · rfl
  have hcount : ∀ f, (((s.shareAll i j ks).dupAll pick i j true stack).count f).toNat +
      ((s.shareAll i j ks).dupAll pick i j true stack).uses i ls f ≤ max 1 ((s.count f).toNat + s.uses i (ks ++ ls) f) := by
    intro f
    rw [huses]
    rcases h2.count f with hc | ⟨hu, hc⟩
    · rw [hc, h1.count, uses_append]; omega
    · rw [hc, hi.uses_eq_zero (h1.used ▸ hu)]; simp
  refine ⟨h2, hcount, fun f => ?_⟩
  have := hcount f
  have := hr f
  omega

/-- A fork is sound while no counter wraps. -/
theorem Inv.fork (hi : s.Inv) (stack : List κ) (hnew : ∀ k, s.map j k = none) (hr : s.Room i (ks ++ ls)) :
    (s.fork pick i j ks stack ls).Inv ∧
      ∀ f, ((s.fork pick i j ks stack ls).count f).toNat ≤ max 1 ((s.count f).toNat + s.uses i (ks ++ ls) f) := by
  obtain ⟨h2, hcount, hroom⟩ := hi.fork_middle hij hp stack hnew hr
  have h3 := h2.inv.shareAll h2.child ls hroom
  exact ⟨h3.inv, fun f => (h3.count f).trans_le (hcount f)⟩

theorem Faithful.fork (hi : s.Inv) (hf : Faithful s t) (hnew : ∀ k, s.map j k = none)
    (hr : s.Room i (ks ++ ls)) : Faithful (s.fork pick i j ks stack ls)
      fun i' k' => if i' = j ∧ k' ∈ ks ++ stack ++ ls then t i k' else t i' k' := by
  have h1 := hi.shareAll (i := i) (j := j) (fun k e h => by rw [hnew k] at h; cases h) ks hr.left
  have h := ((hf.shareAll hij ks).dupAll hp h1.inv hij h1.child true stack).shareAll hij ls
  refine h.forget fun i' k' o v hv => ?_
  rw [← hv]
  by_cases hj : i' = j
  · by_cases hl : k' ∈ ls <;> by_cases hs : k' ∈ stack <;> by_cases hk : k' ∈ ks <;> simp [hj, hij, hl, hs, hk]
  · simp [hj]

end

end Cs330.Lib.Frames
