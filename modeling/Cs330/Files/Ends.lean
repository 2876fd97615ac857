/-
  Cs330.Files.Ends — what is left of each pipe.

  `Pipes s` says of every pipe that its is_ropen and is_wopen tell which of its two ends
  are file objects still, that one of them is, and that its buffer is its own. Closing an
  end's last reference frees the pipe exactly when the other end is gone
  (`Pipes.closeEnd`); all the rest of the calls leave the ends as they are
  (`Pipes.congr`), but for create_pipe (`Pipes.create`).
-/
import Cs330.Files.Counts

namespace Cs330.Files

open Lib Lib.CInt Function

/-- What closing an end of this mode clears. -/
def PipeInfo.isOpen (q : PipeInfo) (mode : UInt32) : Int := if mode = O_READ then q.isRopen else q.isWopen

namespace Kernel

structure Pipes (s : Kernel) : Prop where
  frees : ∀ p, s.count.pipeAllocs p = s.count.pipeFrees p + if s.use p = .pipe then 1 else 0
  mode : ∀ a p, s.End a p → (s.file a).mode = O_READ ∨ (s.file a).mode = O_WRITE
  live : ∀ a p, s.End a p → s.use p = .pipe
  some : ∀ p, s.use p = .pipe → ∃ a, s.End a p
  one : ∀ a b p, s.End a p → s.End b p → (s.file a).mode = (s.file b).mode → a = b
  isOpen : ∀ p mode, s.use p = .pipe → mode = O_READ ∨ mode = O_WRITE →
    ((s.pipe p).isOpen mode = 0 ↔ ∀ a, s.End a p → (s.file a).mode ≠ mode)
  buff : ∀ p, s.use p = .pipe → s.use (s.pipe p).buffPage = .buff p

section
variable {s t : Kernel} {a p : Nat}

/-- Only the ends, and what is in a pipe beside its bytes, matter. -/
theorem Pipes.congr (h : s.Pipes) (hEnd : ∀ b p, t.End b p ↔ s.End b p)
    (hmode : ∀ b p, s.End b p → (t.file b).mode = (s.file b).mode) (huse : ∀ p, t.use p = .pipe ↔ s.use p = .pipe)
    (hbuff : ∀ b p, s.use b = .buff p → t.use b = .buff p)
    (hpipe : ∀ p, s.use p = .pipe → (∀ m, (t.pipe p).isOpen m = (s.pipe p).isOpen m) ∧ (t.pipe p).buffPage = (s.pipe p).buffPage)
    (hallocs : t.count.pipeAllocs = s.count.pipeAllocs) (hfrees : t.count.pipeFrees = s.count.pipeFrees) : t.Pipes := by
  refine ⟨fun p => ?_, fun b p hb => ?_, fun b p hb => ?_, fun p hp => ?_, fun b c p hb hc he => ?_, fun p m hp hm => ?_,
    fun p hp => ?_⟩
  · rw [hallocs, hfrees]
    simp only [huse]
    exact h.frees p
  · rw [hEnd] at hb
    rw [hmode b p hb]
    exact h.mode b p hb
  · exact (huse p).mpr (h.live b p ((hEnd b p).mp hb))
  · obtain ⟨b, hb⟩ := h.some p ((huse p).mp hp)
    exact ⟨b, (hEnd b p).mpr hb⟩
  · rw [hEnd] at hb hc
    rw [hmode b p hb, hmode c p hc] at he
    exact h.one b c p hb hc he
  · rw [huse] at hp
    rw [(hpipe p hp).1, h.isOpen p m hp hm]
    refine forall_congr' fun b => ?_
    rw [hEnd]
    refine ⟨fun hne hb => ?_, fun hne hb => ?_⟩
    · rw [hmode b p hb]
      exact hne hb
    · rw [← hmode b p hb]
      exact hne hb
  · rw [huse] at hp
    rw [(hpipe p hp).2]
    exact hbuff _ p (h.buff p hp)

/-! ## Closing an end -/

theorem closeEnd_pipe_self (s : Kernel) {f : File} {mode : UInt32} (hf : f.mode = O_READ ∨ f.mode = O_WRITE)
    (hm : mode = O_READ ∨ mode = O_WRITE) :
    ((s.closeEnd f).pipe f.pipe).isOpen mode = if mode = f.mode then 0 else (s.pipe f.pipe).isOpen mode := by
  show (update s.pipe f.pipe _ f.pipe).isOpen mode = _
  have hne : ¬ O_READ = O_WRITE := by decide
  rw [update_self]
  unfold PipeInfo.isOpen
  obtain hf | hf := hf <;> obtain hm | hm := hm <;> simp [hf, hm, hne, Ne.symm hne]

theorem closeEnd_pipe_of_ne (s : Kernel) {f : File} (h : p ≠ f.pipe) : (s.closeEnd f).pipe p = s.pipe p := update_of_ne h ..

theorem closeEnd_buffPage (s : Kernel) (f : File) (p : Nat) : ((s.closeEnd f).pipe p).buffPage = (s.pipe p).buffPage := by
  by_cases e : p = f.pipe
  · show (update s.pipe f.pipe _ p).buffPage = _
    rw [e, update_self]
  · rw [closeEnd_pipe_of_ne s e]

theorem freeFileObject_use (s : Kernel) (a : Nat) (u : Use) (hu : u ≠ .free) (b : Nat) :
    (s.freeFileObject a).use b = u ↔ b ≠ a ∧ s.use b = u := by
  show update s.use a .free b = u ↔ _
  by_cases e : b = a
  · rw [e, update_self]
    exact iff_of_false (Ne.symm hu) fun hne => hne.1 rfl
  · rw [update_of_ne e]
    exact (and_iff_right e).symm

theorem freePipeInfo_use (s : Kernel) (p : Nat) (u : Use) (hu : u ≠ .free) (b : Nat) :
    (s.freePipeInfo p).use b = u ↔ (b ≠ p ∧ b ≠ (s.pipe p).buffPage) ∧ s.use b = u := by
  show update (update s.use (s.pipe p).buffPage .free) p .free b = u ↔ _
  by_cases e : b = p
  · rw [e, update_self]
    exact iff_of_false (Ne.symm hu) fun hne => hne.1.1 rfl
  · rw [update_of_ne e]
    by_cases e2 : b = (s.pipe p).buffPage
    · rw [e2, update_self]
      exact iff_of_false (Ne.symm hu) fun hne => hne.1.2 rfl
    · rw [update_of_ne e2]
      exact (and_iff_right ⟨e, e2⟩).symm

theorem freeFileObject_End (s : Kernel) (a b p : Nat) : (s.freeFileObject a).End b p ↔ b ≠ a ∧ s.End b p := by
  unfold End
  rw [freeFileObject_use s a .file nofun]
  exact and_assoc

/-- The ends of `p` other than `a`, and the flags closing `a` leaves. -/
theorem Pipes.closed (h : s.Pipes) (ha : s.End a p) {mode : UInt32} (hm : mode = O_READ ∨ mode = O_WRITE) :
    ((s.closeEnd (s.file a)).pipe p).isOpen mode = 0 ↔ ∀ b, b ≠ a → s.End b p → (s.file b).mode ≠ mode := by
  have hp := ha.2.2
  rw [← hp, closeEnd_pipe_self s (h.mode a p ha) hm, hp]
  by_cases e : mode = (s.file a).mode
  · rw [if_pos e]
    exact iff_of_true rfl fun b hne hb hmb => hne (h.one b a p hb ha (hmb.trans e))
  · rw [if_neg e, h.isOpen p mode (h.live a p ha) hm]
    refine forall_congr' fun b => ⟨fun hb _ => hb, fun hb => ?_⟩
    by_cases hba : b = a
    · rw [hba]
      exact fun _ => Ne.symm e
    · exact hb hba

/-- The other end is there still: the pipe stays. -/
theorem Pipes.closeEnd (h : s.Pipes) (ha : s.End a p) {b : Nat} (hb : s.End b p) (hne : b ≠ a) :
    ((s.closeEnd (s.file a)).freeFileObject a).Pipes := by
  have huse : ∀ p', ((s.closeEnd (s.file a)).freeFileObject a).use p' = .pipe ↔ s.use p' = .pipe := fun p' => by
    rw [freeFileObject_use _ a .pipe nofun]
    refine and_iff_right_of_imp fun hp e => ?_
    have hua : s.use p' = .file := e ▸ ha.1
    rw [show s.use p' = .pipe from hp] at hua
    cases hua
  have hEnd : ∀ c p', ((s.closeEnd (s.file a)).freeFileObject a).End c p' ↔ c ≠ a ∧ s.End c p' :=
    freeFileObject_End _ a
  refine ⟨fun p' => ?_, fun c p' hc => ?_, fun c p' hc => ?_, fun p' hp => ?_, fun c d p' hc hd he => ?_,
    fun p' m hp hm => ?_, fun p' hp => ?_⟩
  · simp only [huse]
    exact h.frees p'
  · exact h.mode c p' ((hEnd c p').mp hc).2
  · exact (huse p').mpr (h.live c p' ((hEnd c p').mp hc).2)
  · obtain ⟨c, hc⟩ := h.some p' ((huse p').mp hp)
    by_cases e : c = a
    · have hpp : p' = p := by rw [← hc.2.2, e, ha.2.2]
      exact ⟨b, (hEnd b p').mpr ⟨hne, hpp ▸ hb⟩⟩
    · exact ⟨c, (hEnd c p').mpr ⟨e, hc⟩⟩
  · exact h.one c d p' ((hEnd c p').mp hc).2 ((hEnd d p').mp hd).2 he
  · rw [huse] at hp
    simp only [hEnd]
    show ((s.closeEnd (s.file a)).pipe p').isOpen m = 0 ↔ ∀ c, _ → (s.file c).mode ≠ m
    by_cases e : p' = p
    · rw [e, h.closed ha hm]
      exact forall_congr' fun c => and_imp.symm
    · rw [closeEnd_pipe_of_ne s (by rw [ha.2.2]; exact e), h.isOpen p' m hp hm]
      refine forall_congr' fun c => ⟨fun hc hca => hc hca.2, fun hc hcp => hc ⟨fun hca => ?_, hcp⟩⟩
      exact e (by rw [← hcp.2.2, hca, ha.2.2])
  · rw [huse] at hp
    have hbuff := h.buff p' hp
    refine (freeFileObject_use _ a (.buff p') nofun _).mpr ⟨fun e => ?_, ?_⟩
    · have hua := ha.1
      rw [← e, show ((s.closeEnd (s.file a)).freeFileObject a).pipe p' = (s.closeEnd (s.file a)).pipe p' from rfl,
        closeEnd_buffPage, hbuff] at hua
      cases hua
    · show s.use ((s.closeEnd (s.file a)).pipe p').buffPage = _
      rw [closeEnd_buffPage]
      exact hbuff

/-- It was the last end: the pipe goes with it. -/
theorem Pipes.freePipe (h : s.Pipes) (ha : s.End a p) (hlast : ∀ b, s.End b p → b = a) :
    (((s.closeEnd (s.file a)).freePipeInfo p).freeFileObject a).Pipes := by
  have hp := h.live a p ha
  have hbp := h.buff p hp
  have huse : ∀ p', (((s.closeEnd (s.file a)).freePipeInfo p).freeFileObject a).use p' = .pipe ↔ p' ≠ p ∧ s.use p' = .pipe := by
    intro p'
    rw [freeFileObject_use _ a .pipe nofun, freePipeInfo_use _ p .pipe nofun, closeEnd_buffPage]
    refine ⟨fun hu => ⟨hu.2.1.1, hu.2.2⟩, fun hu => ⟨fun e => ?_, ⟨hu.1, fun e => ?_⟩, hu.2⟩⟩
    · have hua := hu.2
      rw [e, ha.1] at hua
      cases hua
    · have hua := hu.2
      rw [e, hbp] at hua
      cases hua
  have hfile : ∀ c, (((s.closeEnd (s.file a)).freePipeInfo p).freeFileObject a).use c = .file ↔ c ≠ a ∧ s.use c = .file := by
    intro c
    rw [freeFileObject_use _ a .file nofun, freePipeInfo_use _ p .file nofun, closeEnd_buffPage]
    refine and_congr_right fun _ => ⟨fun hu => hu.2, fun hu => ⟨⟨fun e => ?_, fun e => ?_⟩, hu⟩⟩
    · rw [e, hp] at hu
      cases hu
    · rw [e, hbp] at hu
      cases hu
  have hEnd : ∀ c p', (((s.closeEnd (s.file a)).freePipeInfo p).freeFileObject a).End c p' ↔ c ≠ a ∧ s.End c p' := by
    intro c p'
    unfold End
    rw [hfile]
    exact and_assoc
  have hne : ∀ c p', s.End c p' → c ≠ a → p' ≠ p := fun c p' hc hca e => hca (hlast c (e ▸ hc))
  have hback : ∀ c p', s.End c p' → p' ≠ p → c ≠ a := fun c p' hc hpp e => hpp (by rw [← hc.2.2, e, ha.2.2])
  refine ⟨fun p' => ?_, fun c p' hc => ?_, fun c p' hc => ?_, fun p' hp' => ?_, fun c d p' hc hd he => ?_,
    fun p' m hp' hm => ?_, fun p' hp' => ?_⟩
  · have hf := h.frees p'
    show s.count.pipeAllocs p' = bump s.count.pipeFrees p p' + _
    unfold bump
    by_cases e : p' = p
    · subst e
      rw [if_pos hp] at hf
      rw [update_self, if_neg fun hu => ((huse p').mp hu).1 rfl]
      exact hf
    · rw [update_of_ne e]
      simp only [huse, and_iff_right e]
      exact hf
  · exact h.mode c p' ((hEnd c p').mp hc).2
  · obtain ⟨hca, hc⟩ := (hEnd c p').mp hc
    exact (huse p').mpr ⟨hne c p' hc hca, h.live c p' hc⟩
  · obtain ⟨hpp, hp'⟩ := (huse p').mp hp'
    obtain ⟨c, hc⟩ := h.some p' hp'
    exact ⟨c, (hEnd c p').mpr ⟨hback c p' hc hpp, hc⟩⟩
  · exact h.one c d p' ((hEnd c p').mp hc).2 ((hEnd d p').mp hd).2 he
  · obtain ⟨hpp, hp'⟩ := (huse p').mp hp'
    simp only [hEnd]
    show ((s.closeEnd (s.file a)).pipe p').isOpen m = 0 ↔ ∀ c, _ → (s.file c).mode ≠ m
    rw [closeEnd_pipe_of_ne s (by rw [ha.2.2]; exact hpp), h.isOpen p' m hp' hm]
    exact forall_congr' fun c => ⟨fun hc hca => hc hca.2, fun hc hcp => hc ⟨hback c p' hcp hpp, hcp⟩⟩
  · obtain ⟨hpp, hp'⟩ := (huse p').mp hp'
    have hb := h.buff p' hp'
    show (((s.closeEnd (s.file a)).freePipeInfo p).freeFileObject a).use ((s.closeEnd (s.file a)).pipe p').buffPage = _
    rw [closeEnd_buffPage, freeFileObject_use _ a (.buff p') nofun, freePipeInfo_use _ p (.buff p') nofun, closeEnd_buffPage]
    refine ⟨fun e => ?_, ⟨fun e => ?_, fun e => ?_⟩, hb⟩
    · rw [e, ha.1] at hb
      cases hb
    · rw [e, hp] at hb
      cases hb
    · rw [e, hbp] at hb
      injection hb with hb
      exact hpp hb.symm

/-! ## create_pipe -/

/-- What create_pipe leaves when it finds two descriptors. -/
def madePipe (s : Kernel) (pid fd0 fd1 : Nat) (pages : PipePages) : Kernel :=
  let t := (((s.allocFile pages.file1 pages.junk1).allocFile pages.file2 pages.junk2).setSlot pid fd0
    (some pages.file1)).setSlot pid fd1 (some pages.file2)
  ((t.allocPipeInfo pages.info pages.buff pages.bytes).setFile pages.file1 (readEnd pages.info pages.junk1)).setFile
    pages.file2 (writeEnd pages.info pages.junk2)

variable {pid fd0 fd1 : Nat} {pages : PipePages}

theorem madePipe_use_of_used (hf : s.Fresh [pages.file1, pages.file2, pages.info, pages.buff]) {x : Nat} (hx : s.use x ≠ .free) :
    (s.madePipe pid fd0 fd1 pages).use x = s.use x := by
  have hne : ∀ page ∈ [pages.file1, pages.file2, pages.info, pages.buff], x ≠ page := fun page hm e =>
    hx (e ▸ (hf.2 page hm).1)
  simp only [List.mem_cons, List.not_mem_nil, or_false, forall_eq_or_imp, forall_eq] at hne
  show update (update (update (update s.use pages.file1 .file) pages.file2 .file) pages.info .pipe) pages.buff
    (.buff pages.info) x = _
  rw [update_of_ne hne.2.2.2, update_of_ne hne.2.2.1, update_of_ne hne.2.1, update_of_ne hne.1]

theorem madePipe_use_of_free (hf : s.Fresh [pages.file1, pages.file2, pages.info, pages.buff]) {x : Nat} (hx : s.use x = .free) :
    (s.madePipe pid fd0 fd1 pages).use x = if x = pages.buff then .buff pages.info else if x = pages.info then .pipe
      else if x = pages.file1 ∨ x = pages.file2 then .file else .free := by
  have hnd := hf.1
  simp only [List.nodup_cons, List.mem_cons, List.not_mem_nil, or_false, not_or] at hnd
  show update (update (update (update s.use pages.file1 .file) pages.file2 .file) pages.info .pipe) pages.buff
    (.buff pages.info) x = _
  by_cases e4 : x = pages.buff
  · rw [if_pos e4, e4, update_self]
  by_cases e3 : x = pages.info
  · rw [if_neg e4, if_pos e3, update_of_ne e4, e3, update_self]
  rw [if_neg e4, if_neg e3, update_of_ne e4, update_of_ne e3]
  by_cases e2 : x = pages.file2
  · rw [if_pos (Or.inr e2), e2, update_self]
  by_cases e1 : x = pages.file1
  · rw [if_pos (Or.inl e1), update_of_ne e2, e1, update_self]
  · rw [if_neg (by rintro (e | e); exacts [e1 e, e2 e]), update_of_ne e2, update_of_ne e1, hx]

theorem madePipe_file (hf : s.Fresh [pages.file1, pages.file2, pages.info, pages.buff]) {x : Nat} (hx : s.use x ≠ .free) :
    (s.madePipe pid fd0 fd1 pages).file x = s.file x := by
  have h1 : x ≠ pages.file1 := fun e => hx (e ▸ (hf.2 pages.file1 (by simp)).1)
  have h2 : x ≠ pages.file2 := fun e => hx (e ▸ (hf.2 pages.file2 (by simp)).1)
  show update (update (update (update s.file pages.file1 _) pages.file2 _) pages.file1 _) pages.file2 _ x = _
  rw [update_of_ne h2, update_of_ne h1, update_of_ne h2, update_of_ne h1]

theorem madePipe_file2 : (s.madePipe pid fd0 fd1 pages).file pages.file2 = writeEnd pages.info pages.junk2 := update_self ..

theorem madePipe_file1 (hf : s.Fresh [pages.file1, pages.file2, pages.info, pages.buff]) :
    (s.madePipe pid fd0 fd1 pages).file pages.file1 = readEnd pages.info pages.junk1 := by
  have hnd := hf.1
  simp only [List.nodup_cons, List.mem_cons, List.not_mem_nil, or_false, not_or] at hnd
  exact (update_of_ne hnd.1.1 ..).trans (update_self ..)

theorem madePipe_file_iff (hf : s.Fresh [pages.file1, pages.file2, pages.info, pages.buff]) (b : Nat) :
    (s.madePipe pid fd0 fd1 pages).use b = .file ↔ (b = pages.file1 ∨ b = pages.file2) ∨ s.use b = .file := by
  have hnd := hf.1
  simp only [List.nodup_cons, List.mem_cons, List.not_mem_nil, or_false, not_or] at hnd
  by_cases hb : s.use b = .free
  · rw [madePipe_use_of_free hf hb, hb]
    refine Iff.trans ?_ (or_iff_left nofun).symm
    by_cases e4 : b = pages.buff
    · rw [if_pos e4, e4]
      exact iff_of_false nofun fun h => h.elim (fun e => hnd.1.2.2 e.symm) fun e => hnd.2.1.2 e.symm
    by_cases e3 : b = pages.info
    · rw [if_neg e4, if_pos e3, e3]
      exact iff_of_false nofun fun h => h.elim (fun e => hnd.1.2.1 e.symm) fun e => hnd.2.1.1 e.symm
    by_cases e : b = pages.file1 ∨ b = pages.file2
    · rw [if_neg e4, if_neg e3, if_pos e]
      exact iff_of_true rfl e
    · rw [if_neg e4, if_neg e3, if_neg e]
      exact iff_of_false nofun e
  · rw [madePipe_use_of_used hf hb, or_iff_right]
    rintro (e | e)
    · exact hb (e ▸ (hf.2 pages.file1 (by simp)).1)
    · exact hb (e ▸ (hf.2 pages.file2 (by simp)).1)

theorem madePipe_pipe_iff (hf : s.Fresh [pages.file1, pages.file2, pages.info, pages.buff]) (p : Nat) :
    (s.madePipe pid fd0 fd1 pages).use p = .pipe ↔ p = pages.info ∨ s.use p = .pipe := by
  have hnd := hf.1
  simp only [List.nodup_cons, List.mem_cons, List.not_mem_nil, or_false, not_or] at hnd
  by_cases hb : s.use p = .free
  · rw [madePipe_use_of_free hf hb, hb]
    refine Iff.trans ?_ (or_iff_left nofun).symm
    by_cases e4 : p = pages.buff
    · rw [if_pos e4, e4]
      exact iff_of_false nofun fun e => hnd.2.2.1 e.symm
    by_cases e3 : p = pages.info
    · rw [if_neg e4, if_pos e3, e3]
      exact iff_of_true rfl rfl
    · rw [if_neg e4, if_neg e3]
      refine iff_of_false ?_ e3
      split <;> exact nofun
  · rw [madePipe_use_of_used hf hb, or_iff_right]
    exact fun e => hb (e ▸ (hf.2 pages.info (by simp)).1)

theorem madePipe_End (hf : s.Fresh [pages.file1, pages.file2, pages.info, pages.buff]) (b p : Nat) :
    (s.madePipe pid fd0 fd1 pages).End b p ↔ (p = pages.info ∧ (b = pages.file1 ∨ b = pages.file2)) ∨ s.End b p := by
  unfold End
  rw [madePipe_file_iff hf]
  by_cases hb : s.use b = .free
  · rw [hb]
    refine ⟨fun hE => Or.inl ?_, ?_⟩
    · obtain ⟨he | he, -, hp⟩ := hE
      · refine ⟨?_, he⟩
        obtain e | e := he
        · rw [e, madePipe_file1 hf] at hp
          exact hp.symm
        · rw [e, madePipe_file2] at hp
          exact hp.symm
      · cases he
    · rintro (⟨hp, he⟩ | he)
      · refine ⟨Or.inl he, ?_⟩
        obtain e | e := he
        · rw [e, madePipe_file1 hf]
          exact ⟨rfl, hp.symm⟩
        · rw [e, madePipe_file2]
          exact ⟨rfl, hp.symm⟩
      · cases he.1
  · have hne : ¬ (b = pages.file1 ∨ b = pages.file2) := by
      rintro (e | e)
      · exact hb (e ▸ (hf.2 pages.file1 (by simp)).1)
      · exact hb (e ▸ (hf.2 pages.file2 (by simp)).1)
    rw [madePipe_file hf hb, or_iff_right hne]
    exact (or_iff_right fun hp => hne hp.2).symm

theorem Pipes.create (h : s.Pipes) (hf : s.Fresh [pages.file1, pages.file2, pages.info, pages.buff]) :
    (s.madePipe pid fd0 fd1 pages).Pipes := by
  have hinfo : s.use pages.info = .free := (hf.2 pages.info (by simp)).1
  have hold : ∀ {b p}, s.End b p → p ≠ pages.info := fun hb e => by
    have hl := h.live _ _ hb
    rw [e, hinfo] at hl
    cases hl
  have hfile : ∀ {b p}, s.End b p → (s.madePipe pid fd0 fd1 pages).file b = s.file b := fun hb =>
    madePipe_file hf (by rw [hb.1]; exact nofun)
  have hpipe : ∀ {p}, p ≠ pages.info → (s.madePipe pid fd0 fd1 pages).pipe p = s.pipe p := fun hp => update_of_ne hp ..
  have hnew : (s.madePipe pid fd0 fd1 pages).pipe pages.info = newPipe pages.buff pages.bytes := update_self ..
  have huse := @madePipe_pipe_iff s pid fd0 fd1 pages hf
  have hEnd := @madePipe_End s pid fd0 fd1 pages hf
  have h1 := @madePipe_file1 s pid fd0 fd1 pages hf
  have h2 := @madePipe_file2 s pid fd0 fd1 pages
  have hrw : O_READ ≠ O_WRITE := by decide
  refine ⟨fun p => ?_, fun b p hb => ?_, fun b p hb => ?_, fun p hp => ?_, fun b c p hb hc he => ?_,
    fun p m hp hm => ?_, fun p hp => ?_⟩
  · have hp := h.frees p
    show bump s.count.pipeAllocs pages.info p = s.count.pipeFrees p + _
    unfold bump
    by_cases e : p = pages.info
    · rw [e, hinfo, if_neg nofun] at hp
      rw [e, update_self, if_pos ((huse _).mpr (Or.inl rfl)), hp]
    · rw [update_of_ne e]
      simp only [huse, or_iff_right e]
      exact hp
  · obtain ⟨-, e | e⟩ | hb := (hEnd b p).mp hb
    · rw [e, h1]
      exact Or.inl rfl
    · rw [e, h2]
      exact Or.inr rfl
    · rw [hfile hb]
      exact h.mode b p hb
  · refine (huse p).mpr (((hEnd b p).mp hb).imp And.left ?_)
    exact h.live b p
  · obtain e | hp := (huse p).mp hp
    · exact ⟨pages.file1, (hEnd _ p).mpr (Or.inl ⟨e, Or.inl rfl⟩)⟩
    · obtain ⟨b, hb⟩ := h.some p hp
      exact ⟨b, (hEnd b p).mpr (Or.inr hb)⟩
  · obtain ⟨ep, eb⟩ | hb := (hEnd b p).mp hb
    · obtain ⟨-, ec⟩ | hc := (hEnd c p).mp hc
      · obtain eb | eb := eb <;> obtain ec | ec := ec
        · exact eb.trans ec.symm
        · rw [eb, ec, h1, h2] at he
          exact absurd he hrw
        · rw [eb, ec, h1, h2] at he
          exact absurd he.symm hrw
        · exact eb.trans ec.symm
      · exact absurd ep (hold hc)
    · obtain ⟨ep, -⟩ | hc := (hEnd c p).mp hc
      · exact absurd ep (hold hb)
      · rw [hfile hb, hfile hc] at he
        exact h.one b c p hb hc he
  · by_cases e : p = pages.info
    · rw [e, hnew]
      refine iff_of_false ?_ fun hall => ?_
      · unfold PipeInfo.isOpen
        split <;> exact Int.one_ne_zero
      · obtain hm | hm := hm
        · have hne := hall pages.file1 ((hEnd _ _).mpr (Or.inl ⟨rfl, Or.inl rfl⟩))
          rw [h1] at hne
          exact hne hm.symm
        · have hne := hall pages.file2 ((hEnd _ _).mpr (Or.inl ⟨rfl, Or.inr rfl⟩))
          rw [h2] at hne
          exact hne hm.symm
    · rw [hpipe e, h.isOpen p m (((huse p).mp hp).resolve_left e) hm]
      refine forall_congr' fun b => ?_
      rw [hEnd, or_iff_right fun hp => e hp.1]
      refine ⟨fun hne hb => ?_, fun hne hb => ?_⟩
      · rw [hfile hb]
        exact hne hb
      · rw [← hfile hb]
        exact hne hb
  · by_cases e : p = pages.info
    · rw [e, hnew]
      show (s.madePipe pid fd0 fd1 pages).use pages.buff = _
      rw [madePipe_use_of_free hf (hf.2 pages.buff (by simp)).1, if_pos rfl]
    · have hb := h.buff p (((huse p).mp hp).resolve_left e)
      rw [hpipe e, madePipe_use_of_used hf (by rw [hb]; exact nofun)]
      exact hb

end

end Kernel

end Cs330.Files
