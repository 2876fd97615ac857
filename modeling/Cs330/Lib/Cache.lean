/-
  Cs330.Lib.Cache — a cache in front of a map that changes behind it.

  `Coherent`: what the cache has is what the map has. Entries come by themselves, always
  with what the map has then (`coherent_fill`), and go by themselves. A change of the map
  keeps the cache coherent if what it changes is taken out of the cache, or was not in the
  map (`Follows`, `follows_drop`, `follows_absent`); then a lookup is one of the map
  (`Coherent.lookup_eq`).
-/
import Mathlib.Logic.Function.Basic

namespace Cs330.Lib.Cache

variable {κ ν : Type} {c c' c'' m m' m'' : κ → Option ν} {k : κ}

def Coherent (c m : κ → Option ν) : Prop := ∀ k v, c k = some v → m k = some v

/-- The cache first. -/
def lookup (c m : κ → Option ν) (k : κ) : Option ν := (c k).or (m k)

/-- The entries that stay are of keys whose value does. -/
def Follows (c m c' m' : κ → Option ν) : Prop := ∀ k v, c' k = some v → c k = some v ∧ (m k = some v → m' k = some v)

theorem Follows.refl (c m : κ → Option ν) : Follows c m c m := fun _ _ hv => ⟨hv, id⟩

theorem Follows.trans (h1 : Follows c m c' m') (h2 : Follows c' m' c'' m'') : Follows c m c'' m'' := by
  intro k v hv
  obtain ⟨hc', hm'⟩ := h2 k v hv
  obtain ⟨hc, hm⟩ := h1 k v hc'
  exact ⟨hc, fun h => hm' (hm h)⟩

theorem Coherent.follows (h : Coherent c m) (hf : Follows c m c' m') : Coherent c' m' := by
  intro k v hv
  obtain ⟨hc, hm⟩ := hf k v hv
  exact hm (h k v hc)

theorem coherent_empty (m : κ → Option ν) : Coherent (fun _ => none) m := nofun

theorem Coherent.lookup_eq (h : Coherent c m) (k : κ) : lookup c m k = m k := by
  unfold lookup
  cases hc : c k with
  | none => rfl
  | some v => exact (h k v hc).symm

/-- What changes is not in the map. -/
theorem follows_absent (h : ∀ k, m k ≠ none → m' k = m k) : Follows c m c m' := by
  refine fun k v hv => ⟨hv, fun hm => ?_⟩
  rw [h k (by rw [hm]; exact Option.some_ne_none v), hm]

section
variable [DecidableEq κ]

theorem coherent_fill (h : Coherent c m) (k : κ) : Coherent (Function.update c k (m k)) m := by
  intro j v hv
  by_cases hj : j = k
  · rw [hj, Function.update_self] at hv
    rw [hj, hv]
  · rw [Function.update_of_ne hj] at hv
    exact h j v hv

/-- Only key `k` changes, and is taken out. -/
theorem follows_drop (h : ∀ j, j ≠ k → m' j = m j) : Follows c m (Function.update c k none) m' := by
  intro j v hv
  by_cases hj : j = k
  · rw [hj, Function.update_self] at hv
    cases hv
  · rw [Function.update_of_ne hj] at hv
    exact ⟨hv, fun hm => (h j hj).trans hm⟩

theorem Coherent.evict (h : Coherent c m) (k : κ) : Coherent (Function.update c k none) m :=
  h.follows (follows_drop fun _ _ => rfl)

end

end Cs330.Lib.Cache
