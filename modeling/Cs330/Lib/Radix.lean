/-
  Cs330.Lib.Radix — radix trees in a memory of frames.

  A frame is a table of words, one for every index; `next` says which frame a word refers
  to, if any. `follow` walks from a root along a path of indices.

  `Forest`: a table that is reached is reached along one path from one root. Then a write to
  a word of a table changes what paths through that word reach, and nothing else
  (`follow_put`). From it: a new table under a word that referred to none adds one path
  (`follow_link`, `Forest.link`), a word of the last level changes one (`follow_leaf`,
  `Forest.leaf`), and a zeroed frame is a new root (`Forest.root`).
-/
import Mathlib.Data.Finset.Card
import Mathlib.Logic.Function.Basic

namespace Cs330.Lib.Radix

variable {φ ι ω : Type}

section
variable (next : ω → Option φ)

def follow (m : φ → ι → ω) (g : φ) : List ι → Option φ
  | [] => some g
  | i :: is => (next (m g i)).bind fun h => follow m h is

/-- Tables at depth up to `n` are reached along one path. -/
def Forest (roots : φ → Prop) (n : Nat) (m : φ → ι → ω) : Prop :=
  ∀ g g' is js f, roots g → roots g' → is.length ≤ n → js.length ≤ n → follow next m g is = some f →
    follow next m g' js = some f → g = g' ∧ is = js

/-- Every frame that is reached satisfies `ok`. -/
def Within (ok : φ → Prop) (roots : φ → Prop) (n : Nat) (m : φ → ι → ω) : Prop :=
  ∀ g is f, roots g → is.length ≤ n → follow next m g is = some f → ok f

end

/-- A write of one word. -/
def put [DecidableEq φ] [DecidableEq ι] (m : φ → ι → ω) (f : φ) (i : ι) (w : ω) : φ → ι → ω :=
  Function.update m f (Function.update (m f) i w)

/-- A frame with the same word everywhere. -/
def fill [DecidableEq φ] (m : φ → ι → ω) (h : φ) (z : ω) : φ → ι → ω := Function.update m h fun _ => z

variable {next : ω → Option φ} {m m' : φ → ι → ω} {roots : φ → Prop} {ok : φ → Prop} {n : Nat} {g g' f h : φ} {i j : ι}
  {is js : List ι} {w z : ω}

theorem follow_concat : follow next m g (is ++ [i]) = (follow next m g is).bind fun f => next (m f i) := by
  induction is generalizing g with
  | nil =>
    show (next (m g i)).bind _ = next (m g i)
    cases next (m g i) <;> rfl
  | cons j is ih =>
    show (next (m g j)).bind _ = ((next (m g j)).bind _).bind _
    rw [Option.bind_assoc]
    exact congrArg _ (funext fun f => ih)

/-- What is above a path that leads somewhere leads somewhere. -/
theorem follow_append_none (h : follow next m g is = none) : follow next m g (is ++ js) = none := by
  induction js using List.reverseRecOn with
  | nil => rwa [List.append_nil]
  | append_singleton js j ih => rw [← List.append_assoc, follow_concat, ih]; rfl

/-- Two memories with the same words along a path. -/
theorem follow_congr (h : ∀ ks j f, (ks ++ [j]) <+: js → follow next m g ks = some f → next (m' f j) = next (m f j)) :
    follow next m' g js = follow next m g js := by
  induction js using List.reverseRecOn with
  | nil => rfl
  | append_singleton js j ih =>
    rw [follow_concat, follow_concat, ih fun ks k f hk => h ks k f (hk.trans (List.prefix_append ..))]
    cases hf : follow next m g js with
    | none => rfl
    | some f => exact h js j f (List.prefix_refl _) hf

section
variable [DecidableEq φ] [DecidableEq ι]

theorem put_self : put m f i w f i = w := by
  unfold put
  rw [Function.update_self, Function.update_self]

theorem put_other (hne : ¬ (h = f ∧ j = i)) : put m f i w h j = m h j := by
  unfold put
  by_cases hf : h = f
  · subst hf
    rw [Function.update_self, Function.update_of_ne fun hj => hne ⟨rfl, hj⟩]
  · rw [Function.update_of_ne hf]

theorem put_put {w' : ω} : put (put m f i w) f i w' = put m f i w' := by
  unfold put
  rw [Function.update_self, Function.update_idem, Function.update_idem]

/-- Filled once more, the frame is as it was. -/
theorem fill_put (hne : f ≠ h) : fill (put (fill m h z) f i w) h z = put (fill m h z) f i w := by
  funext a
  unfold fill
  by_cases ha : a = h
  · subst ha
    unfold put
    rw [Function.update_self, Function.update_of_ne hne.symm, Function.update_self]
  · rw [Function.update_of_ne ha]

/-- A word that refers to the same frame as before. -/
theorem follow_put_same (hw : next w = next (m f i)) : follow next (put m f i w) g js = follow next m g js := by
  apply follow_congr
  intro ks j h _ _
  by_cases hf : h = f ∧ j = i
  · obtain ⟨rfl, rfl⟩ := hf
    rw [put_self, hw]
  · rw [put_other hf]

/-- A word of a table is on the paths through it only. -/
theorem follow_put (hF : Forest next roots n m) (hg : roots g) (his : is.length ≤ n) (hf : follow next m g is = some f)
    (hg' : roots g') (hjs : js.length ≤ n + 1) (hne : ¬ (g' = g ∧ (is ++ [i]) <+: js)) :
    follow next (put m f i w) g' js = follow next m g' js := by
  apply follow_congr
  intro ks j h hk hh
  have hlen := hk.length_le
  rw [List.length_append, List.length_singleton] at hlen
  rw [put_other]
  intro hfi
  obtain ⟨rfl, rfl⟩ := hfi
  obtain ⟨rfl, rfl⟩ := hF g' g ks is h hg' hg (by omega) his hh hf
  exact hne ⟨rfl, hk⟩

theorem follow_put_self (hF : Forest next roots n m) (hg : roots g) (his : is.length ≤ n) (hf : follow next m g is = some f) :
    follow next (put m f i w) g (is ++ [i]) = next w := by
  have hsame : follow next (put m f i w) g is = some f := by
    rw [follow_put hF hg his hf hg (by omega), hf]
    intro h
    have hlen := h.2.length_le
    rw [List.length_append, List.length_singleton] at hlen
    omega
  rw [follow_concat, hsame]
  exact congrArg next put_self

omit [DecidableEq ι] in
/-- Nothing reaches the frame that is filled. -/
theorem follow_fill (hW : Within next ok roots n m) (hh : ¬ ok h) (hg : roots g) (hjs : js.length ≤ n + 1) :
    follow next (fill m h z) g js = follow next m g js := by
  apply follow_congr
  intro ks j f hk hf
  have hlen := hk.length_le
  rw [List.length_append, List.length_singleton] at hlen
  have hne : f ≠ h := fun he => hh (he ▸ hW g ks f hg (by omega) hf)
  unfold fill
  rw [Function.update_of_ne hne]

/-! ## The last level -/

theorem follow_leaf (hF : Forest next roots n m) (hg : roots g) (his : is.length = n) (hf : follow next m g is = some f)
    (hg' : roots g') (hjs : js.length ≤ n + 1) (hne : ¬ (g' = g ∧ js = is ++ [i])) :
    follow next (put m f i w) g' js = follow next m g' js := by
  apply follow_put hF hg (Nat.le_of_eq his) hf hg' hjs
  intro h
  refine hne ⟨h.1, (h.2.eq_of_length_le ?_).symm⟩
  rw [List.length_append, List.length_singleton]
  omega

theorem Forest.leaf (hF : Forest next roots n m) (hg : roots g) (his : is.length = n) (hf : follow next m g is = some f) :
    Forest next roots n (put m f i w) := by
  have hsame : ∀ g' js, roots g' → js.length ≤ n → follow next (put m f i w) g' js = follow next m g' js := by
    intro g' js hg' hjs
    apply follow_leaf hF hg his hf hg' (by omega)
    intro h
    have hlen := congrArg List.length h.2
    rw [List.length_append, List.length_singleton] at hlen
    omega
  intro a b ks ls e ha hb hk hl h1 h2
  rw [hsame a ks ha hk] at h1
  rw [hsame b ls hb hl] at h2
  exact hF a b ks ls e ha hb hk hl h1 h2

theorem Within.leaf (hW : Within next ok roots (n + 1) m) (hF : Forest next roots n m) (hg : roots g) (his : is.length = n)
    (hf : follow next m g is = some f) (hw : ∀ h, next w = some h → ok h) : Within next ok roots (n + 1) (put m f i w) := by
  intro g' js h hg' hjs hh
  by_cases he : g' = g ∧ js = is ++ [i]
  · obtain ⟨rfl, rfl⟩ := he
    rw [follow_put_self hF hg (Nat.le_of_eq his) hf] at hh
    exact hw h hh
  · rw [follow_leaf hF hg his hf hg' hjs he] at hh
    exact hW g' js h hg' hjs hh

omit [DecidableEq φ] [DecidableEq ι] in
theorem Within.shorter (hW : Within next ok roots (n + 1) m) : Within next ok roots n m := fun g' ks e hg' hk =>
  hW g' ks e hg' (Nat.le_succ_of_le hk)

/-! ## A new table -/

/-- One path more, to the new table. -/
theorem follow_link (hF : Forest next roots n m) (hW : Within next ok roots n m) (hh : ¬ ok h) (hz : next z = none)
    (hw : next w = some h) (hg : roots g) (his : is.length < n) (hf : follow next m g is = some f) (hnone : next (m f i) = none)
    (hg' : roots g') (hjs : js.length ≤ n + 1) :
    follow next (put (fill m h z) f i w) g' js = if g' = g ∧ js = is ++ [i] then some h else follow next m g' js := by
  have hfill : ∀ g' js, roots g' → js.length ≤ n + 1 → follow next (fill m h z) g' js = follow next m g' js := by
    intro g' js hg' hjs
    exact follow_fill hW hh hg' hjs
  have hF' : Forest next roots n (fill m h z) := by
    intro a b ks ls e ha hb hk hl h1 h2
    rw [hfill a ks ha (by omega)] at h1
    rw [hfill b ls hb (by omega)] at h2
    exact hF a b ks ls e ha hb hk hl h1 h2
  have hf' : follow next (fill m h z) g is = some f := by rw [hfill g is hg (by omega), hf]
  by_cases he : g' = g ∧ js = is ++ [i]
  · obtain ⟨rfl, rfl⟩ := he
    rw [if_pos ⟨rfl, rfl⟩, follow_put_self hF' hg (by omega) hf', hw]
  rw [if_neg he]
  by_cases hpre : g' = g ∧ (is ++ [i]) <+: js
  · -- below the new table there is nothing, and there was nothing
    obtain ⟨rfl, ks, rfl⟩ := hpre
    have hold : follow next m g' (is ++ [i]) = none := by rw [follow_concat, hf]; exact hnone
    rw [follow_append_none hold]
    cases ks with
    | nil => exact absurd ⟨rfl, List.append_nil _⟩ he
    | cons k ks =>
      have hnew : follow next (put (fill m h z) f i w) g' (is ++ [i] ++ [k]) = none := by
        rw [follow_concat, follow_put_self hF' hg (by omega) hf', hw]
        show next (put (fill m h z) f i w h k) = none
        have hne : h ≠ f := fun he => hh (he ▸ hW g' is f hg (by omega) hf)
        rw [put_other fun hx => hne hx.1]
        unfold fill
        rw [Function.update_self, hz]
      rw [List.append_cons]
      exact follow_append_none hnew
  · rw [follow_put hF' hg (by omega) hf' hg' hjs hpre, hfill g' js hg' hjs]

theorem Forest.link (hF : Forest next roots n m) (hW : Within next ok roots n m) (hh : ¬ ok h) (hz : next z = none)
    (hw : next w = some h) (hg : roots g) (his : is.length < n) (hf : follow next m g is = some f) (hnone : next (m f i) = none) :
    Forest next roots n (put (fill m h z) f i w) := by
  have hfollow := fun g' (js : List ι) (hg' : roots g') (hjs : js.length ≤ n + 1) =>
    follow_link hF hW hh hz hw hg his hf hnone hg' hjs
  have hnew : ∀ g' js, roots g' → js.length ≤ n → follow next m g' js ≠ some h := fun g' js hg' hjs he =>
    hh (hW g' js h hg' (by omega) he)
  intro a b ks ls e ha hb hk hl h1 h2
  rw [hfollow a ks ha (by omega)] at h1
  rw [hfollow b ls hb (by omega)] at h2
  split at h1
  · rename_i h1'
    cases h1
    split at h2
    · rename_i h2'
      exact ⟨h1'.1.trans h2'.1.symm, h1'.2.trans h2'.2.symm⟩
    · exact absurd h2 (hnew b ls hb hl)
  · split at h2
    · cases h2
      exact absurd h1 (hnew a ks ha hk)
    · exact hF a b ks ls e ha hb hk hl h1 h2

theorem Within.link {ok' : φ → Prop} (hW : Within next ok roots (n + 1) m) (hF : Forest next roots n m) (hh : ¬ ok h)
    (hz : next z = none) (hw : next w = some h) (hg : roots g) (his : is.length < n) (hf : follow next m g is = some f)
    (hnone : next (m f i) = none) (hok : ∀ e, ok e → ok' e) (hnew : ok' h) :
    Within next ok' roots (n + 1) (put (fill m h z) f i w) := by
  intro g' js e hg' hjs he
  rw [follow_link hF hW.shorter hh hz hw hg his hf hnone hg' hjs] at he
  split at he
  · cases he
    exact hnew
  · exact hok e (hW g' js e hg' hjs he)

/-! ## A new root -/

omit [DecidableEq ι]

theorem follow_root (hz : next z = none) (hjs : js ≠ []) : follow next (fill m h z) h js = none := by
  cases js with
  | nil => exact absurd rfl hjs
  | cons j js =>
    show (next (fill m h z h j)).bind _ = none
    unfold fill
    rw [Function.update_self, hz]
    rfl

theorem Forest.root (hF : Forest next roots n m) (hW : Within next ok roots (n + 1) m) (hh : ¬ ok h) (hz : next z = none) :
    Forest next (fun g => g = h ∨ roots g) n (fill m h z) := by
  have hfill : ∀ g js, roots g → js.length ≤ n → follow next (fill m h z) g js = follow next m g js := fun g js hg hjs =>
    follow_fill (fun a ks e ha hk => hW a ks e ha (by omega)) hh hg (by omega)
  have hnew : ∀ g js, roots g → js.length ≤ n → follow next (fill m h z) g js ≠ some h := fun g js hg hjs he =>
    hh (hW g js h hg (by omega) ((hfill g js hg hjs).symm.trans he))
  -- the new root reaches itself only
  have hself : ∀ js e, follow next (fill m h z) h js = some e → js = [] ∧ e = h := by
    intro js e he
    by_cases hjs : js = []
    · subst hjs
      cases he
      exact ⟨rfl, rfl⟩
    · rw [follow_root hz hjs] at he
      cases he
  intro a b ks ls e ha hb hk hl h1 h2
  rcases ha with rfl | ha
  · obtain ⟨rfl, rfl⟩ := hself ks e h1
    rcases hb with rfl | hb
    · exact ⟨rfl, (hself ls _ h2).1.symm⟩
    · exact absurd h2 (hnew b ls hb hl)
  · rcases hb with rfl | hb
    · obtain ⟨rfl, rfl⟩ := hself ls e h2
      exact absurd h1 (hnew a ks ha hk)
    · rw [hfill a ks ha hk] at h1
      rw [hfill b ls hb hl] at h2
      exact hF a b ks ls e ha hb hk hl h1 h2

theorem Within.root {ok' : φ → Prop} (hW : Within next ok roots (n + 1) m) (hh : ¬ ok h) (hz : next z = none)
    (hok : ∀ e, ok e → ok' e) (hnew : ok' h) : Within next ok' (fun g => g = h ∨ roots g) (n + 1) (fill m h z) := by
  intro g js e hg hjs he
  rcases hg with rfl | hg
  · cases js with
    | nil => cases he; exact hnew
    | cons j js => rw [follow_root hz (List.cons_ne_nil j js)] at he; cases he
  · rw [follow_fill (fun a ks e ha hk => hW a ks e ha (by omega)) hh hg hjs] at he
    exact hok e (hW g js e hg hjs he)

end

end Cs330.Lib.Radix
