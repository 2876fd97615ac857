/-
  Cs330.Lib.Segments — sorted lists of disjoint half-open segments `[lo, hi)`, each with a
  value, as partial maps from points to values (`valueAt`).

  `Chain P top b l`: the segments of `l` lie between `b` and `top` in order, none is empty,
  and every boundary meets `P`. `Merged l`: two segments that touch have different values.
  `Fills b l l' r e v`: `l'` is `l` with the free range `[r, e)` given the value `v`. The
  four ways to do that to a list are `Fills.new` (a segment of its own), `Fills.up` and
  `Fills.down` (a neighbour grows) and `Fills.join` (the gap between two closes); each
  keeps a merged list merged if nothing it then touches has the value, and `Fills.cons`
  carries the result past a segment in front. `Clears b l l' r e`: `l'` is `l` with nothing
  left in `[r, e)`. `Vacant top b l r n`: nothing lies in `[r, r + n)`, a range between `b` and
  `top`. `pieces l` counts the segments that joining leaves.
-/
import Mathlib.Data.List.Chain

namespace Cs330.Lib

class Seg (σ : Type) (α : outParam Type) where
  lo : σ → Nat
  hi : σ → Nat
  val : σ → α

namespace Seg

variable {σ α : Type} [Seg σ α]

def valueAt : List σ → Nat → Option α
  | [], _ => none
  | a :: l, x => if lo a ≤ x ∧ x < hi a then some (val a) else valueAt l x

def Chain (P : Nat → Prop) (top : Nat) : Nat → List σ → Prop
  | b, [] => b ≤ top
  | b, a :: l => b ≤ lo a ∧ lo a < hi a ∧ P (lo a) ∧ P (hi a) ∧ Chain P top (hi a) l

instance Chain.decidable (P : Nat → Prop) [DecidablePred P] (top : Nat) : ∀ b (l : List σ), Decidable (Chain P top b l)
  | b, [] => inferInstanceAs (Decidable (b ≤ top))
  | b, a :: l =>
    have := Chain.decidable P top (hi a) l
    inferInstanceAs (Decidable (b ≤ lo a ∧ lo a < hi a ∧ P (lo a) ∧ P (hi a) ∧ Chain P top (hi a) l))

/-- A segment of value `f` that ends at `e` does not touch one of the same value in front
    of `l`. -/
def Apart (e : Nat) (f : α) : List σ → Prop
  | [] => True
  | a :: _ => lo a = e → val a ≠ f

def Merged : List σ → Prop
  | [] => True
  | a :: l => Apart (hi a) (val a) l ∧ Merged l

variable {P : Nat → Prop} {top b : Nat} {l l' : List σ} {a : σ}

theorem valueAt_head {x : Nat} (h : lo a ≤ x ∧ x < hi a) : valueAt (a :: l) x = some (val a) := if_pos h

theorem valueAt_tail {x : Nat} (h : ¬ (lo a ≤ x ∧ x < hi a)) : valueAt (a :: l) x = valueAt l x := if_neg h

theorem Chain.le_top (h : Chain P top b l) : b ≤ top := by
  induction l generalizing b with
  | nil => exact h
  | cons a l ih =>
    obtain ⟨h1, h2, -, -, h5⟩ := h
    have := ih h5
    omega

theorem Chain.lower (h : Chain P top b l) {b' : Nat} (hb : b' ≤ b) : Chain P top b' l := by
  cases l with
  | nil => exact Nat.le_trans hb h
  | cons a l => exact ⟨Nat.le_trans hb h.1, h.2⟩

/-- The first segment may begin later than the chain's bound. -/
theorem Chain.raise (h : Chain P top b (a :: l)) {b' : Nat} (hb : b' ≤ lo a) : Chain P top b' (a :: l) := ⟨hb, h.2⟩

theorem Chain.tail (h : Chain P top b (a :: l)) : Chain P top (hi a) l := h.2.2.2.2

theorem Chain.drop {l' : List σ} (h : Chain P top b (l ++ a :: l')) : Chain P top (hi a) l' := by
  induction l generalizing b with
  | nil => exact Chain.tail h
  | cons c l ih => exact ih (Chain.tail h)

theorem Chain.valueAt_below (h : Chain P top b l) {x : Nat} (hx : x < b) : valueAt l x = none := by
  induction l generalizing b with
  | nil => rfl
  | cons a l ih =>
    obtain ⟨h1, h2, -, -, h5⟩ := h
    rw [valueAt_tail (by omega)]
    exact ih h5 (by omega)

theorem Chain.valueAt_above (h : Chain P top b l) {x : Nat} (hx : top ≤ x) : valueAt l x = none := by
  induction l generalizing b with
  | nil => rfl
  | cons a l ih =>
    have := h.tail.le_top
    rw [valueAt_tail (by omega)]
    exact ih h.tail

theorem Chain.forall_mem (h : Chain P top b l) :
    ∀ a ∈ l, b ≤ lo a ∧ lo a < hi a ∧ hi a ≤ top ∧ P (lo a) ∧ P (hi a) := by
  induction l generalizing b with
  | nil => intro a ha; cases ha
  | cons c l ih =>
    obtain ⟨h1, h2, h3, h4, h5⟩ := h
    intro a ha
    rcases List.mem_cons.mp ha with e | ha
    · rw [e]; exact ⟨h1, h2, h5.le_top, h3, h4⟩
    · obtain ⟨g1, g2⟩ := ih h5 a ha
      exact ⟨by omega, g2⟩

theorem Chain.valueAt_mem (h : Chain P top b l) {x : Nat} (ha : a ∈ l) (hx : lo a ≤ x ∧ x < hi a) :
    valueAt l x = some (val a) := by
  induction l generalizing b with
  | nil => cases ha
  | cons c l ih =>
    rcases List.mem_cons.mp ha with e | ha
    · rw [← e]; exact valueAt_head hx
    · have := (h.tail.forall_mem a ha).1
      rw [valueAt_tail (by omega)]
      exact ih h.tail ha

theorem valueAt_append (l l' : List σ) (x : Nat) : valueAt (l ++ l') x = (valueAt l x).or (valueAt l' x) := by
  induction l with
  | nil => rfl
  | cons a l ih =>
    rw [List.cons_append, valueAt, valueAt, ih]
    split <;> rfl

/-- The part in front of a segment lies below it. -/
theorem Chain.valueAt_front {l' : List σ} (h : Chain P top b (l ++ a :: l')) {x : Nat} (hx : lo a ≤ x) : valueAt l x = none := by
  induction l generalizing b with
  | nil => rfl
  | cons c l ih =>
    have hle := (h.tail.forall_mem a (List.mem_append_right l List.mem_cons_self)).1
    rw [valueAt_tail (by omega)]
    exact ih h.tail

theorem Chain.front {l' : List σ} (h : Chain P top b (l ++ l')) : Chain P top b l := by
  induction l generalizing b with
  | nil => exact h.le_top
  | cons a l ih => exact ⟨h.1, h.2.1, h.2.2.1, h.2.2.2.1, ih h.tail⟩

theorem mem_of_valueAt {x : Nat} {v : α} (h : valueAt l x = some v) : ∃ a ∈ l, (lo a ≤ x ∧ x < hi a) ∧ val a = v := by
  induction l with
  | nil => cases h
  | cons c l ih =>
    by_cases hx : lo c ≤ x ∧ x < hi c
    · rw [valueAt_head hx] at h
      exact ⟨c, List.mem_cons_self, hx, Option.some.inj h⟩
    · rw [valueAt_tail hx] at h
      obtain ⟨a, ha, hr⟩ := ih h
      exact ⟨a, List.mem_cons_of_mem _ ha, hr⟩

theorem chain_iff : Chain P top b l ↔
    b ≤ top ∧ (∀ a ∈ l, b ≤ lo a ∧ lo a < hi a ∧ hi a ≤ top ∧ P (lo a) ∧ P (hi a)) ∧ l.Pairwise fun a c => hi a ≤ lo c := by
  constructor
  · intro h
    refine ⟨h.le_top, h.forall_mem, ?_⟩
    induction l generalizing b with
    | nil => exact List.Pairwise.nil
    | cons a l ih => exact List.pairwise_cons.mpr ⟨fun c hc => (h.tail.forall_mem c hc).1, ih h.tail⟩
  · intro h
    obtain ⟨hb, hmem, hpair⟩ := h
    induction l generalizing b with
    | nil => exact hb
    | cons a l ih =>
      obtain ⟨h1, h2, h3, h4, h5⟩ := hmem a List.mem_cons_self
      obtain ⟨g1, g2⟩ := List.pairwise_cons.mp hpair
      refine ⟨h1, h2, h4, h5, ih h3 (fun c hc => ?_) g2⟩
      exact ⟨g1 c hc, (hmem c (List.mem_cons_of_mem _ hc)).2⟩

theorem merged_iff : Merged l ↔ l.IsChain fun a c => hi a = lo c → val a ≠ val c := by
  induction l with
  | nil => simp [Merged]
  | cons a l ih =>
    cases l with
    | nil => simp [Merged, Apart]
    | cons c l =>
      rw [List.isChain_cons_cons, ← ih]
      exact and_congr_left fun _ => ⟨fun h he hv => h he.symm hv.symm, fun h he hv => h he.symm hv.symm⟩

theorem Apart.of_lt {e : Nat} {f : α} (h : Chain P top b l) (he : e < b) : Apart e f l := by
  cases l with
  | nil => trivial
  | cons a l => intro hl; have := h.1; omega

/-! ## Filling a free range -/

structure Fills (P : Nat → Prop) (top b : Nat) (l l' : List σ) (r e : Nat) (v : α) : Prop where
  chain : Chain P top b l'
  low : b ≤ r
  lt : r < e
  high : e ≤ top
  bounds : P r ∧ P e
  free : ∀ x, r ≤ x → x < e → valueAt l x = none
  value : ∀ x, valueAt l' x = if r ≤ x ∧ x < e then some v else valueAt l x
  merged : Merged l → Merged l'
  apart : ∀ h f, (h < r ∨ f ≠ v) → Apart h f l → Apart h f l'

namespace Fills

variable {r e : Nat} {v : α} {c a' : σ}

theorem new (hb : b ≤ r) (hlt : r < e) (hr : P r) (he : P e) (hc : Chain P top e l) (ha : Apart e v l)
    (h1 : lo a = r) (h2 : hi a = e) (h3 : val a = v) : Fills P top b l (a :: l) r e v := by
  subst h1 h2 h3
  refine ⟨⟨hb, hlt, hr, he, hc⟩, hb, hlt, hc.le_top, ⟨hr, he⟩, fun x _ hx => hc.valueAt_below hx, fun x => rfl,
    fun hm => ⟨ha, hm⟩, fun h f hor _ heq => ?_⟩
  rcases hor with h' | h'
  · omega
  · exact Ne.symm h'

/-- The segment behind the range grows down over it. -/
theorem down (hc : Chain P top b (a :: l)) (hb : b ≤ r) (hlt : r < lo a) (hr : P r)
    (h1 : lo a' = r) (h2 : hi a' = hi a) (h3 : val a' = val a) :
    Fills P top b (a :: l) (a' :: l) r (lo a) (val a) := by
  obtain ⟨c1, c2, c3, c4, c5⟩ := hc
  subst h1
  refine ⟨⟨hb, by omega, hr, h2 ▸ c4, h2 ▸ c5⟩, hb, hlt, ?_, ⟨hr, c3⟩, fun x _ hx => ?_, fun x => ?_, fun hm => ?_,
    fun h f hor _ heq => ?_⟩
  · have := c5.le_top; omega
  · rw [valueAt_tail (by omega)]; exact c5.valueAt_below (by omega)
  · by_cases hx : lo a' ≤ x ∧ x < lo a
    · rw [if_pos hx, valueAt_head (by omega), h3]
    · rw [if_neg hx]
      by_cases hx' : lo a ≤ x ∧ x < hi a
      · rw [valueAt_head (by omega), valueAt_head hx', h3]
      · rw [valueAt_tail (by omega), valueAt_tail hx']
  · rw [Merged, h2, h3]; exact hm
  · rw [h3]
    rcases hor with h' | h'
    · omega
    · exact Ne.symm h'

/-- The segment before the range grows up over it. -/
theorem up (hc : Chain P top b (a :: l)) (hlt : hi a < e) (he : P e) (hl : Chain P top e l) (ha : Apart e (val a) l)
    (h1 : lo a' = lo a) (h2 : hi a' = e) (h3 : val a' = val a) :
    Fills P top b (a :: l) (a' :: l) (hi a) e (val a) := by
  obtain ⟨c1, c2, c3, c4, c5⟩ := hc
  subst h2
  refine ⟨⟨by omega, by omega, h1 ▸ c3, he, hl⟩, by omega, hlt, hl.le_top, ⟨c4, he⟩, fun x hr hx => ?_, fun x => ?_,
    fun hm => ?_, fun h f _ hap heq => ?_⟩
  · rw [valueAt_tail (by omega)]; exact hl.valueAt_below hx
  · by_cases hx : hi a ≤ x ∧ x < hi a'
    · rw [if_pos hx, valueAt_head (by omega), h3]
    · rw [if_neg hx]
      by_cases hx' : lo a ≤ x ∧ x < hi a
      · rw [valueAt_head (by omega), valueAt_head hx', h3]
      · rw [valueAt_tail (by omega), valueAt_tail hx']
  · rw [Merged, h3]; exact ⟨ha, hm.2⟩
  · rw [h3]; exact hap (h1 ▸ heq)

/-- The range is the whole gap between two segments, and all three become one. -/
theorem join (hc : Chain P top b (a :: c :: l)) (hlt : hi a < lo c) (hv : val c = val a)
    (h1 : lo a' = lo a) (h2 : hi a' = hi c) (h3 : val a' = val a) :
    Fills P top b (a :: c :: l) (a' :: l) (hi a) (lo c) (val a) := by
  obtain ⟨c1, c2, c3, c4, d1, d2, d3, d4, d5⟩ := hc
  refine ⟨⟨by omega, by omega, h1 ▸ c3, h2 ▸ d4, h2 ▸ d5⟩, by omega, hlt, ?_, ⟨c4, d3⟩, fun x hr hx => ?_, fun x => ?_,
    fun hm => ?_, fun h f _ hap heq => ?_⟩
  · have := d5.le_top; omega
  · rw [valueAt_tail (by omega), valueAt_tail (by omega)]; exact d5.valueAt_below (by omega)
  · by_cases hx : hi a ≤ x ∧ x < lo c
    · rw [if_pos hx, valueAt_head (by omega), h3]
    · rw [if_neg hx]
      by_cases hx1 : lo a ≤ x ∧ x < hi a
      · rw [valueAt_head (by omega), valueAt_head hx1, h3]
      · rw [valueAt_tail hx1]
        by_cases hx2 : lo c ≤ x ∧ x < hi c
        · rw [valueAt_head (by omega), valueAt_head hx2, h3, hv]
        · rw [valueAt_tail (by omega), valueAt_tail hx2]
  · rw [Merged, h2, h3, ← hv]; exact hm.2
  · rw [h3]; exact hap (h1 ▸ heq)

/-- Past a segment that the range does not touch, or that has another value. -/
theorem cons (hc : Chain P top b (a :: l)) (h : Fills P top (hi a) l l' r e v) (hs : hi a < r ∨ val a ≠ v) :
    Fills P top b (a :: l) (a :: l') r e v := by
  obtain ⟨c1, c2, c3, c4, -⟩ := hc
  have hlow := h.low
  refine ⟨⟨c1, c2, c3, c4, h.chain⟩, by omega, h.lt, h.high, h.bounds, fun x hr hx => ?_, fun x => ?_, fun hm => ?_,
    fun _ _ _ hap => hap⟩
  · rw [valueAt_tail (by omega)]; exact h.free x hr hx
  · by_cases hx : lo a ≤ x ∧ x < hi a
    · rw [valueAt_head hx, valueAt_head hx, if_neg (by omega)]
    · rw [valueAt_tail hx, valueAt_tail hx, h.value]
  · exact ⟨h.apart _ _ hs hm.1, h.merged hm.2⟩

end Fills

/-! ## Clearing a range -/

/-- `l'` is `l` with nothing left in `[r, e)`. -/
structure Clears (P : Nat → Prop) (top b : Nat) (l l' : List σ) (r e : Nat) : Prop where
  chain : Chain P top b l'
  value : ∀ x, valueAt l' x = if r ≤ x ∧ x < e then none else valueAt l x
  merged : Merged l → Merged l'
  apart : ∀ h f, h ≤ r → Apart h f l → Apart h f l'

namespace Clears

variable {r e : Nat}

theorem refl (hc : Chain P top b l) (hfree : ∀ x, r ≤ x → x < e → valueAt l x = none) : Clears P top b l l r e := by
  refine ⟨hc, fun x => ?_, id, fun _ _ _ h => h⟩
  split
  · rename_i hx; exact hfree x hx.1 hx.2
  · rfl

theorem cons (hc : Chain P top b (a :: l)) (h : Clears P top (hi a) l l' r e) (hr : hi a ≤ r) :
    Clears P top b (a :: l) (a :: l') r e := by
  obtain ⟨c1, c2, c3, c4, -⟩ := hc
  refine ⟨⟨c1, c2, c3, c4, h.chain⟩, fun x => ?_, fun hm => ⟨h.apart _ _ hr hm.1, h.merged hm.2⟩, fun _ _ _ hap => hap⟩
  by_cases hx : lo a ≤ x ∧ x < hi a
  · rw [valueAt_head hx, valueAt_head hx, if_neg (by omega)]
  · rw [valueAt_tail hx, valueAt_tail hx, h.value]

end Clears

/-! ## Free ranges -/

def Vacant (top b : Nat) (l : List σ) (r n : Nat) : Prop :=
  b ≤ r ∧ r + n ≤ top ∧ ∀ x, r ≤ x → x < r + n → valueAt l x = none

section
variable {r n : Nat}

theorem vacant_nil : Vacant top b ([] : List σ) r n ↔ b ≤ r ∧ r + n ≤ top :=
  ⟨fun h => ⟨h.1, h.2.1⟩, fun h => ⟨h.1, h.2, fun _ _ _ => rfl⟩⟩

/-- In front of the first segment, or behind it. -/
theorem vacant_cons (hc : Chain P top b (a :: l)) (hn : 0 < n) :
    Vacant top b (a :: l) r n ↔ (b ≤ r ∧ r + n ≤ lo a) ∨ Vacant top (hi a) l r n := by
  obtain ⟨h1, h2, -, -, h5⟩ := hc
  constructor
  · intro h
    obtain ⟨hb, htop, hfree⟩ := h
    by_cases hle : r + n ≤ lo a
    · exact .inl ⟨hb, hle⟩
    have hr : hi a ≤ r := by
      by_contra hlt
      -- the segment has a point of the range
      have hx := hfree (max r (lo a)) (by omega) (by omega)
      rw [valueAt_head (by omega)] at hx
      cases hx
    refine .inr ⟨hr, htop, fun x hx1 hx2 => ?_⟩
    rw [← hfree x hx1 hx2, valueAt_tail (by omega)]
  · intro h
    rcases h with ⟨hb, hle⟩ | ⟨hr, htop, hfree⟩
    · refine ⟨hb, ?_, fun x hx1 hx2 => ?_⟩
      · have hle' := h5.le_top
        omega
      · rw [valueAt_tail (by omega)]
        exact h5.valueAt_below (by omega)
    · refine ⟨by omega, htop, fun x hx1 hx2 => ?_⟩
      rw [valueAt_tail (by omega)]
      exact hfree x hx1 hx2

end

/-! ## How many segments are left when those that touch and agree are joined -/

variable [DecidableEq α]

def pieces : List σ → Nat
  | [] => 0
  | [_] => 1
  | a :: c :: l => (if hi a = lo c ∧ val a = val c then 0 else 1) + pieces (c :: l)

theorem pieces_cons (a c : σ) (l : List σ) :
    pieces (a :: c :: l) = (if hi a = lo c ∧ val a = val c then 0 else 1) + pieces (c :: l) := rfl

/-- Only the end and the value of the first segment count. -/
theorem pieces_congr {c : σ} (hh : hi a = hi c) (hv : val a = val c) : pieces (a :: l) = pieces (c :: l) := by
  cases l with
  | nil => rfl
  | cons d l => rw [pieces_cons, pieces_cons, hh, hv]

theorem pieces_le (l : List σ) : pieces l ≤ l.length := by
  induction l with
  | nil => exact Nat.le_refl 0
  | cons a l ih =>
    cases l with
    | nil => exact Nat.le_refl 1
    | cons c l =>
      rw [pieces_cons, List.length_cons]
      split <;> omega

theorem pieces_merged (h : Merged l) : pieces l = l.length := by
  induction l with
  | nil => rfl
  | cons a l ih =>
    cases l with
    | nil => rfl
    | cons c l =>
      rw [pieces_cons, if_neg fun ht => h.1 ht.1.symm ht.2.symm, ih h.2, Nat.add_comm]
      rfl

theorem pieces_append (l : List σ) (a : σ) (l' : List σ) : pieces (l ++ a :: l') + 1 = pieces (l ++ [a]) + pieces (a :: l') := by
  induction l with
  | nil => exact Nat.add_comm ..
  | cons c l ih =>
    cases l with
    | nil =>
      show (if hi c = lo a ∧ val c = val a then 0 else 1) + pieces (a :: l') + 1 =
        (if hi c = lo a ∧ val c = val a then 0 else 1) + 1 + pieces (a :: l')
      omega
    | cons d l =>
      simp only [List.cons_append] at ih ⊢
      rw [pieces_cons, pieces_cons]
      omega

/-- A segment at the end is one more, unless it goes on with the one before. -/
theorem pieces_snoc (l : List σ) (a : σ) :
    pieces (l ++ [a]) = pieces l + if ∃ c ∈ l.getLast?, hi c = lo a ∧ val c = val a then 0 else 1 := by
  induction l with
  | nil => simp [pieces]
  | cons c l ih =>
    cases l with
    | nil => simp [pieces, Nat.add_comm]
    | cons d l =>
      simp only [List.cons_append] at ih ⊢
      rw [pieces_cons, pieces_cons, ih, List.getLast?_cons_cons, Nat.add_assoc]

/-- At most one more for each segment in front. -/
theorem pieces_append_le (l : List σ) (a : σ) (l' : List σ) : pieces (l ++ a :: l') ≤ l.length + pieces (a :: l') := by
  have happ := pieces_append l a l'
  have hle := pieces_le (l ++ [a])
  rw [List.length_append, List.length_singleton] at hle
  omega

/-- The parts of a merged list are merged, and what stands before a segment does not go on in it. -/
theorem pieces_split {l l' : List σ} (h : Merged (l ++ a :: l')) : pieces l = l.length ∧ pieces (l ++ [a]) = l.length + 1 ∧
    pieces (a :: l') = l'.length + 1 := by
  have hall := pieces_merged h
  have happ := pieces_append l a l'
  have hsnoc := pieces_snoc l a
  have h0 := pieces_le l
  have h1 := pieces_le (l ++ [a])
  have h2 := pieces_le (a :: l')
  simp only [List.length_append, List.length_cons, List.length_nil] at hall h1 h2
  split at hsnoc <;> omega

end Seg

end Cs330.Lib
