/-
  Cs330.Lib.Relocate — copying pages of a space to other pages of the same space.

  A page reads what is in its frame. A copy writes the frame of the page it goes to, which
  may be a new one. If no other page has that frame (`Apart`), nothing else reads
  differently (`write_other`); so pages copied one after the other, each to a page of its
  own that is not a source, all read there what they read before (`Relocated.step`).
-/
import Cs330.Lib.Frames

namespace Cs330.Lib

variable {κ φ υ : Type}

structure Space (κ φ υ : Type) where
  map : κ → Option (Entry φ)
  data : φ → υ

namespace Space

def read (sp : Space κ φ υ) (k : κ) : Option υ := (sp.map k).map fun e => sp.data e.frame

/-- No page but `j` has frame `f`. -/
def Apart (sp : Space κ φ υ) (j : κ) (f : φ) : Prop := ∀ k, k ≠ j → ∀ d, sp.map k = some d → d.frame ≠ f

/-- No other page has the frame of `j`. -/
def Private (sp : Space κ φ υ) (j : κ) : Prop := ∀ e, sp.map j = some e → sp.Apart j e.frame

variable [DecidableEq κ] [DecidableEq φ] {sp sp' : Space κ φ υ} {i j k : κ} {d e : Entry φ} {v : υ}

/-- Page `j` gets an entry, and its frame is written. -/
def write (sp : Space κ φ υ) (j : κ) (e : Entry φ) (v : υ) : Space κ φ υ :=
  ⟨Function.update sp.map j (some e), Function.update sp.data e.frame v⟩

theorem write_map : (sp.write j e v).map j = some e := Function.update_self ..

theorem write_self : (sp.write j e v).read j = some v := by
  simp [write, read]

theorem write_other (h : sp.Apart j e.frame) (hk : k ≠ j) :
    (sp.write j e v).map k = sp.map k ∧ (sp.write j e v).read k = sp.read k := by
  have hmap : (sp.write j e v).map k = sp.map k := Function.update_of_ne hk ..
  refine ⟨hmap, ?_⟩
  unfold read
  rw [hmap]
  cases hd : sp.map k with
  | none => rfl
  | some d => exact congrArg some (Function.update_of_ne (h k hk d hd) ..)

theorem private_write (h : sp.Apart j e.frame) (hi : sp.Private i) : (sp.write j e v).Private i := by
  intro c hc k hk d hd
  by_cases hij : i = j
  · subst hij
    rw [write_map] at hc
    cases hc
    exact h k hk d ((write_other h hk).1.symm.trans hd)
  · have hold : sp.map i = some c := (write_other h hij).1.symm.trans hc
    by_cases hkj : k = j
    · subst hkj
      rw [write_map] at hd
      cases hd
      exact (h i hij c hold).symm
    · exact hi c hold k hk d ((write_other h hkj).1.symm.trans hd)

/-- What page `i` has, if anything, is copied to page `j`. -/
inductive Copies (sp : Space κ φ υ) (i j : κ) : Space κ φ υ → Prop where
  | absent (h : sp.map i = none) : Copies sp i j sp
  | copied {d e : Entry φ} (h : sp.map i = some d) (he : sp.Apart j e.frame) : Copies sp i j (sp.write j e (sp.data d.frame))

/-- The pages `done` of the sources have been copied, `sp` having become `sp'`. -/
structure Relocated (source : κ → Prop) (shift : κ → κ) (done : κ → Prop) (sp sp' : Space κ φ υ) : Prop where
  same : ∀ k, (∀ i, done i → k ≠ shift i) → sp'.map k = sp.map k ∧ sp'.read k = sp.read k
  copied : ∀ i, done i → ∀ v, sp.read i = some v → sp'.read (shift i) = some v
  own : ∀ i, source i → sp'.Private (shift i)

namespace Relocated

variable {source done : κ → Prop} {shift : κ → κ} {sp'' : Space κ φ υ}

omit [DecidableEq κ] [DecidableEq φ] in
theorem start (h : ∀ i, source i → sp.Private (shift i)) : Relocated source shift (fun _ => False) sp sp :=
  ⟨fun _ _ => ⟨rfl, rfl⟩, fun _ h => h.elim, h⟩

/-- One more page. -/
theorem step (hinj : ∀ a b, source a → source b → shift a = shift b → a = b) (hapart : ∀ a b, source a → source b → a ≠ shift b)
    (hdone : ∀ a, done a → source a) (hi : source i) (hnew : ¬ done i) (h : Relocated source shift done sp sp')
    (hc : Copies sp' i (shift i) sp'') : Relocated source shift (fun a => a = i ∨ done a) sp sp'' := by
  have hread : sp'.read i = sp.read i := (h.same i fun a ha => hapart i a hi (hdone a ha)).2
  have hne : ∀ a, done a → shift a ≠ shift i := fun a ha he => hnew (hinj a i (hdone a ha) hi he ▸ ha)
  cases hc with
  | absent hnone =>
    refine ⟨fun k hk => h.same k fun a ha => hk a (.inr ha), fun a ha v hv => ?_, h.own⟩
    rcases ha with rfl | ha
    · rw [← hread] at hv
      unfold read at hv
      rw [hnone] at hv
      cases hv
    · exact h.copied a ha v hv
  | copied hd he =>
    refine ⟨fun k hk => ?_, fun a ha v hv => ?_, fun a ha => private_write he (h.own a ha)⟩
    · obtain ⟨h1, h2⟩ := h.same k fun a ha => hk a (.inr ha)
      obtain ⟨h3, h4⟩ := write_other (v := sp'.data _) he (hk i (.inl rfl))
      exact ⟨h3.trans h1, h4.trans h2⟩
    · rcases ha with rfl | ha
      · rw [← hread] at hv
        unfold read at hv
        rw [hd] at hv
        cases hv
        exact write_self
      · exact (write_other he (hne a ha)).2.trans (h.copied a ha v hv)

end Relocated

end Space

end Cs330.Lib
