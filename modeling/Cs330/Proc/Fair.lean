/-
  Cs330.Proc.Fair — who runs next, and when at the latest.

  A tick, a sleep and an exit give the turn to the first READY context behind the one that
  runs, in a ring of the slots but that of the swapper; `do_vfork` gives it to the child,
  wherever its slot is. So a READY process is nearer after each turn that is not its own,
  and has the turn after at most five others, and five more for every vfork (`served`). The
  number of vforks does count: `starved`.

  In every run nobody but the process that has the turn is RUNNING, and the swapper has it
  only when nobody is READY (`reach_ordered`).
-/
import Mathlib.Algebra.BigOperators.Ring.List
import Cs330.Lib.Turns
import Cs330.Proc.Suspended

namespace Cs330.Proc

open Lib Lib.Ring Mm Function

/-- The events that ask pick_next_context. -/
def Ev.turns : Ev → Nat
  | .tick | .sleep _ | .exit => 1
  | _ => 0

def Ev.vforks : Ev → Nat
  | .vfork => 1
  | _ => 0

namespace Table

variable {t u : Table} {p pid : Nat} {e : Ev}

def machine : Machine Table Ev := ⟨Start, step⟩

/-! ## Runs -/

/-- Whoever is RUNNING has the turn, and if the swapper has it nobody is READY. -/
structure Ordered (t : Table) : Prop where
  running : ∀ i, (t.ctxList i).state = .running → t.current = some i
  current : t.Runs
  swapper : (t.ctxList 0).state = .ready ∨ (t.ctxList 0).state = .running
  idle : t.current = some 0 → ∀ i, 0 < i → i < MAX_PROCESSES → (t.ctxList i).state ≠ .ready

/-! ## The next turn -/

def isReady (t : Table) (i : Nat) : Bool := decide ((t.ctxList (i + 1)).state = .ready)

theorem pickNextContext_eq (t : Table) (pid : Nat) : t.pickNextContext pid =
    ((firstStop t.isReady (MAX_PROCESSES - 1) pid).map fun j => pos (MAX_PROCESSES - 1) pid j + 1).getD 0 := by
  unfold pickNextContext turns
  rw [List.find?_map]
  rfl

theorem pick_none : t.pickNextContext pid = 0 ↔ ∀ i, 0 < i → i < MAX_PROCESSES → (t.ctxList i).state ≠ .ready := by
  rw [pickNextContext_eq]
  constructor
  · intro h i h0 hi hr
    have hready : t.isReady (i - 1) = true := by
      unfold isReady
      rw [Nat.sub_add_cancel h0, hr]
      rfl
    obtain ⟨j, -, hj⟩ := firstStop_le pid (show i - 1 < MAX_PROCESSES - 1 by omega) hready
    rw [hj] at h
    cases h
  · intro h
    cases hj : firstStop t.isReady (MAX_PROCESSES - 1) pid with
    | none => rfl
    | some j =>
      have hlt : pos (MAX_PROCESSES - 1) pid j < MAX_PROCESSES - 1 := pos_lt (by decide) j
      have hready := (firstStop_some.mp hj).2.1
      exact absurd (of_decide_eq_true hready) (h _ (Nat.succ_pos _) (by omega))

/-- How many slots lie between the context that has the turn and `p`. -/
def distance (t : Table) (p : Nat) : Nat := ahead (MAX_PROCESSES - 1) (t.current.getD 0) (p - 1)

theorem distance_le (t : Table) (p : Nat) : t.distance p ≤ 5 := Nat.le_of_lt_succ (ahead_lt _ _ (by decide))

/-- `p` is READY, and another has the turn. -/
structure Waiting (t : Table) (p : Nat) : Prop where
  pos : 0 < p
  slot : p < MAX_PROCESSES
  ready : (t.ctxList p).state = .ready
  other : t.current ≠ some p

/-- The next turn is that of `p`, or of one that is nearer to it. -/
theorem pick_closer (h0 : 0 < p) (hp : p < MAX_PROCESSES) (hready : (t.ctxList p).state = .ready) (pid : Nat) :
    t.pickNextContext pid = p ∨
      ahead (MAX_PROCESSES - 1) (t.pickNextContext pid) (p - 1) < ahead (MAX_PROCESSES - 1) pid (p - 1) := by
  have hlt : p - 1 < MAX_PROCESSES - 1 := by omega
  have hr : t.isReady (p - 1) = true := by
    unfold isReady
    rw [Nat.sub_add_cancel h0, hready]
    rfl
  obtain ⟨j, -, hj⟩ := firstStop_le pid hlt hr
  rw [pickNextContext_eq, hj]
  rcases turn_closer hlt hr hj with heq | hcloser
  · refine .inl ?_
    show pos _ _ _ + 1 = p
    omega
  · exact .inr hcloser

/-- After a turn that is not its own `p` is nearer, and still waits. -/
theorem Waiting.turn (h0 : 0 < p) (hp : p < MAX_PROCESSES) (hready : (u.ctxList p).state = .ready)
    (hno : u.pickNextContext pid ≠ p) : (u.schedule (u.pickNextContext pid)).Waiting p ∧
      (u.schedule (u.pickNextContext pid)).distance p + 1 ≤ ahead (MAX_PROCESSES - 1) pid (p - 1) := by
  refine ⟨⟨h0, hp, ?_, fun he => hno (Option.some.inj he)⟩, ?_⟩
  · rw [schedule_ne (Ne.symm hno)]
    exact hready
  · exact (pick_closer h0 hp hready pid).resolve_left hno

theorem distance_of_current (hc : t.current = some pid) (p : Nat) : t.distance p = ahead (MAX_PROCESSES - 1) pid (p - 1) := by
  unfold distance
  rw [hc]
  rfl

/-- One step: a process that waits is served, or what it has to wait is less, a vfork apart. -/
theorem Waiting.step (h : t.Waiting p) (hs : t.step e = some u) (hno : u.current ≠ some p) :
    u.Waiting p ∧ u.distance p + e.turns ≤ t.distance p + 5 * e.vforks := by
  obtain ⟨pid, hcur, htook⟩ := step_took hs
  have hne : p ≠ pid := fun he => h.other (he ▸ hcur)
  rw [distance_of_current hcur]
  cases htook with
  | tick =>
    have hacc : (t.doSleepAccount.setState pid .ready).ctxList p = t.ctxList p := by
      rw [setState_ne hne]
      rcases sleepAccount_cases (t.ctxList p) with hs | ⟨hs, -, -⟩
      · exact hs
      · rw [h.ready] at hs
        cases hs
    obtain ⟨v, hv⟩ : ∃ v, v = t.doSleepAccount.setState pid .ready := ⟨_, rfl⟩
    rw [← hv] at hacc
    have hready : (v.ctxList p).state = .ready := by rw [hacc]; exact h.ready
    have htick : t.handleTimerTick pid = if v.pickNextContext pid = pid then v else v.schedule (v.pickNextContext pid) := by
      rw [hv]
      rfl
    -- the process that has the turn does not keep it
    have hother : v.pickNextContext pid ≠ pid := by
      intro he
      have hcl := pick_closer h.pos h.slot hready pid
      rw [he] at hcl
      rcases hcl with hp | hlt
      · exact hne hp.symm
      · exact absurd hlt (Nat.lt_irrefl _)
    rw [htick, if_neg hother] at hno ⊢
    exact Waiting.turn h.pos h.slot hready fun he => hno (by rw [he]; rfl)
  | sleep ticks =>
    have hready : ((t.setCtx pid { t.ctxList pid with ticksToSleep := ticks, state := .waiting }).ctxList p).state = .ready := by
      rw [setCtx_ne hne]
      exact h.ready
    exact Waiting.turn h.pos h.slot hready fun he => hno (by unfold doSleep; simp only; rw [he]; rfl)
  | exit =>
    obtain ⟨v, hv⟩ : ∃ v, v = (t.vforkExitHandle pid).setState pid .unused := ⟨_, rfl⟩
    have hready : (v.ctxList p).state = .ready := by
      rw [hv, setState_ne hne]
      unfold vforkExitHandle
      simp only
      split
      · exact h.ready
      · by_cases hpp : p = (t.ctxList pid).ppid
        · rw [← hpp, setCtx_self]
        · rw [setCtx_ne hpp]
          exact h.ready
    have hall : ¬ ∀ i ∈ List.range MAX_PROCESSES, i ≠ 0 → (v.ctxList i).state = .unused := by
      intro hall
      have hun := hall p (List.mem_range.mpr h.slot) (Nat.ne_of_gt h.pos)
      rw [hready] at hun
      cases hun
    have hexit : t.doExit pid = v.schedule (v.pickNextContext pid) := by
      unfold doExit
      simp only
      rw [← hv, if_neg hall]
    rw [hexit] at hno ⊢
    exact Waiting.turn h.pos h.slot hready fun he => hno (by rw [he]; rfl)
  | @make _ child c _ hmakes hun =>
    have hchild : p ≠ child := by
      intro he
      have hr := h.ready
      rw [he, hun] at hr
      cases hr
    have hcost : e.turns = 0 := by
      cases e <;> first | rfl | exact hmakes.elim
    refine ⟨⟨h.pos, h.slot, by rw [setCtx_ne hchild]; exact h.ready, hno⟩, ?_⟩
    rw [distance_of_current (t := t.setCtx child c) hcur, hcost]
    omega
  | @vfork child c _ hnew =>
    have hun := (getNewCtx_spec hnew).2
    have hchild : p ≠ child := by
      intro he
      have hr := h.ready
      rw [he, hun] at hr
      cases hr
    refine ⟨⟨h.pos, h.slot, ?_, hno⟩, ?_⟩
    · rw [schedule_ne hchild, setState_ne hne, setCtx_ne hchild]
      exact h.ready
    · have hle := distance_le (((t.setCtx child c).setState pid .waiting).schedule child) p
      show _ + 0 ≤ _ + 5 * 1
      omega
  | remap code rodata data stack vmArea =>
    refine ⟨⟨h.pos, h.slot, ?_, hno⟩, ?_⟩
    · unfold remap
      rw [setCtx_ne hne]
      exact h.ready
    · rw [distance_of_current (t := t.remap code rodata data stack vmArea pid) hcur]
      show _ + 0 ≤ _
      omega

/-- From any state and in any order of events. -/
theorem served (h0 : 0 < p) (hp : p < MAX_PROCESSES) (hready : (t.ctxList p).state = .ready) {es : List Ev}
    (hrun : machine.Run Machine.any t es u) (hlong : 5 * ((es.map Ev.vforks).sum + 1) < (es.map Ev.turns).sum) :
    ∃ fs gs v, es = fs ++ gs ∧ machine.Run Machine.any t fs v ∧ v.current = some p := by
  by_cases hcur : t.current = some p
  · exact ⟨[], es, t, rfl, .nil t, hcur⟩
  refine (hrun.until fun v => v.current = some p).resolve_right fun hr => ?_
  -- otherwise the distance pays for every turn, and the vforks for the distance
  have hpaid := (hr.amortized (I := fun t => t.Waiting p) (fun t => t.distance p) Ev.turns (fun e => 5 * e.vforks)
    (fun s e v hs ho he => hs.step he (ho v he)) ⟨h0, hp, hready, hcur⟩).2
  have hle := distance_le t p
  have hsum : (es.map fun e => 5 * e.vforks).sum = 5 * (es.map Ev.vforks).sum := List.sum_map_mul_left es Ev.vforks 5
  omega

theorem served_two : ∃ fs gs v, List.replicate 6 Ev.tick = fs ++ gs ∧
    machine.Run Machine.any { booted with ctxList := update booted.ctxList 2 { booted.ctxList 1 with state := .ready } } fs v ∧
      v.current = some 2 :=
  served (u := _) (by decide) (by decide) rfl (Machine.exec_run rfl) (by decide)

/-! ## Vforks -/

/-- Who has the turn, and what 1, 3 and 4 are, while 2 is READY and 5 and 6 are free. -/
structure Stand (t : Table) (turn : Nat) (first third fourth : ProcState) : Prop where
  current : t.current = some turn
  swapper : (t.ctxList 0).state = .ready
  first : (t.ctxList 1).state = first
  second : (t.ctxList 2).state = .ready
  third : (t.ctxList 3).state = third
  fourth : (t.ctxList 4).state = fourth
  fifth : (t.ctxList 5).state = .unused
  sixth : (t.ctxList 6).state = .unused

theorem caller_eq (hc : t.current = some pid) (h0 : pid ≠ 0) : t.caller = some pid := by
  unfold caller
  rw [hc]
  exact Option.filter_eq_some_iff.mpr ⟨rfl, decide_eq_true h0⟩

theorem Stand.vfork (h : t.Stand 1 .running .unused .ready) : ∃ u, t.step .vfork = some u ∧
    u.Stand 3 .waiting .running .ready ∧ (u.ctxList 3).ppid = 1 ∧ (u.ctxList 3).pgd = (u.ctxList 1).pgd := by
  obtain ⟨hcur, h0, h1, h2, h3, h4, h5, h6⟩ := h
  have hnew : t.getNewCtx = some 3 := by
    show List.find? _ [0, 1, 2, 3, 4, 5, 6] = _
    simp [h0, h1, h2, h3]
  show ∃ u, (t.caller.bind t.doVfork).map Prod.snd = some u ∧ _
  rw [caller_eq hcur (by decide)]
  show ∃ u, (t.doVfork 1).map Prod.snd = some u ∧ _
  unfold doVfork
  rw [hnew]
  refine ⟨_, rfl, ⟨rfl, ?_, ?_, ?_, ?_, ?_, ?_, ?_⟩, ?_, ?_⟩ <;> simp [schedule, setState, setCtx, *]

theorem Stand.exit (h : t.Stand 3 .waiting .running .ready) (hp : (t.ctxList 3).ppid = 1)
    (hg : (t.ctxList 3).pgd = (t.ctxList 1).pgd) : ∃ u, t.step .exit = some u ∧ u.Stand 4 .ready .unused .running := by
  obtain ⟨hcur, h0, h1, h2, h3, h4, h5, h6⟩ := h
  obtain ⟨v, hv⟩ : ∃ v, v = (t.vforkExitHandle 3).setState 3 .unused := ⟨_, rfl⟩
  have hvs : (v.ctxList 0).state = .ready ∧ (v.ctxList 1).state = .ready ∧ (v.ctxList 2).state = .ready ∧
      (v.ctxList 3).state = .unused ∧ (v.ctxList 4).state = .ready ∧ (v.ctxList 5).state = .unused ∧ (v.ctxList 6).state = .unused := by
    rw [hv]
    unfold vforkExitHandle
    simp [setState, setCtx, *]
  obtain ⟨v0, v1, v2, v3, v4, v5, v6⟩ := hvs
  -- the slots behind 3, in turn
  have hpick : v.pickNextContext 3 = 4 := by
    show (List.find? _ [4, 5, 6, 1, 2, 3]).getD 0 = 4
    simp [v4]
  have hexit : t.doExit 3 = v.schedule 4 := by
    unfold doExit
    simp only
    rw [← hv, if_neg fun hall => ?_, hpick]
    have h2 := hall 2 (by decide) (by decide)
    rw [v2] at h2
    cases h2
  show ∃ u, t.caller.map t.doExit = some u ∧ _
  rw [caller_eq hcur (by decide), Option.map_some, hexit]
  refine ⟨_, rfl, rfl, ?_, ?_, ?_, ?_, ?_, ?_, ?_⟩ <;> simp [schedule, setState, setCtx, v0, v1, v2, v3, v5, v6]

theorem Stand.tick (h : t.Stand 4 .ready .unused .running) : ∃ u, t.step .tick = some u ∧ u.Stand 1 .running .unused .ready := by
  obtain ⟨hcur, h0, h1, h2, h3, h4, h5, h6⟩ := h
  obtain ⟨v, hv⟩ : ∃ v, v = t.doSleepAccount.setState 4 .ready := ⟨_, rfl⟩
  have hvs : (v.ctxList 0).state = .ready ∧ (v.ctxList 1).state = .ready ∧ (v.ctxList 2).state = .ready ∧
      (v.ctxList 3).state = .unused ∧ (v.ctxList 4).state = .ready ∧ (v.ctxList 5).state = .unused ∧ (v.ctxList 6).state = .unused := by
    rw [hv]
    simp [setState, setCtx, doSleepAccount, sleepAccount, *]
  obtain ⟨v0, v1, v2, v3, v4, v5, v6⟩ := hvs
  have hpick : v.pickNextContext 4 = 1 := by
    show (List.find? _ [5, 6, 1, 2, 3, 4]).getD 0 = 1
    simp [v5, v6, v1]
  have htick : t.handleTimerTick 4 = v.schedule 1 := by
    unfold handleTimerTick
    simp only
    rw [← hv, hpick, if_neg (by decide)]
  show ∃ u, t.current.map t.handleTimerTick = some u ∧ _
  rw [hcur, Option.map_some, htick]
  refine ⟨_, rfl, rfl, ?_, ?_, ?_, ?_, ?_, ?_, ?_⟩ <;> simp [schedule, setState, setCtx, v0, v2, v3, v4, v5, v6]

/-- Process 2 stays READY, and another has the turn. -/
def PassesOver (t : Table) (e : Ev) : Prop := ∀ u, t.step e = some u → u.current ≠ some 2 ∧ (u.ctxList 2).state = .ready

theorem Stand.passes {turn : Nat} {s1 s3 s4 : ProcState} (h : u.Stand turn s1 s3 s4) (hs : t.step e = some u) (hne : turn ≠ 2) :
    t.PassesOver e := by
  intro v hv
  obtain rfl := Option.some.inj (hs.symm.trans hv)
  refine ⟨?_, h.second⟩
  rw [h.current]
  exact fun he => hne (Option.some.inj he)

/-- Process 1 vforks and the child, in slot 3, exits: the turn goes to 4, and a tick gives it back to 1. -/
theorem starved (h : t.Stand 1 .running .unused .ready) (n : Nat) : ∃ es u, machine.Run PassesOver t es u ∧
    u.Stand 1 .running .unused .ready ∧ (es.map Ev.turns).sum = 2 * n ∧ (es.map Ev.vforks).sum = n := by
  induction n generalizing t with
  | zero => exact ⟨[], t, .nil t, h, rfl, rfl⟩
  | succ n ih =>
    obtain ⟨t1, h1, hs1, hp, hg⟩ := h.vfork
    obtain ⟨t2, h2, hs2⟩ := hs1.exit hp hg
    obtain ⟨t3, h3, hs3⟩ := hs2.tick
    obtain ⟨es, u, hr, hu, hturns, hvforks⟩ := ih hs3
    refine ⟨.vfork :: .exit :: .tick :: es, u, ?_, hu, ?_, ?_⟩
    · exact .cons (hs1.passes h1 (by decide)) h1 (.cons (hs2.passes h2 (by decide)) h2 (.cons (hs3.passes h3 (by decide)) h3 hr))
    · simp only [List.map_cons, List.sum_cons, hturns, Ev.turns]
      omega
    · simp only [List.map_cons, List.sum_cons, hvforks, Ev.vforks]
      omega

/-- After boot, three forks and a few turns it stands so. -/
theorem stand_reached : ∃ t, machine.Reach Machine.any t ∧ t.Stand 1 .running .unused .ready := by
  have hrun : machine.exec booted [.fork 0x72, .fork 0x73, .fork 0x74, .tick, .tick, .exit, .tick] = some _ := rfl
  refine ⟨_, (Machine.exec_run hrun).reach (.init start_booted.1), ?_⟩
  constructor <;> decide +kernel

/-! ## Order -/

theorem Start.ordered (h : t.Start) : t.Ordered := by
  refine ⟨fun i hi => ?_, fun i hi => ?_, .inl h.swapper, fun h0 => ?_⟩
  · rw [h.current]
    by_cases h0 : i = 0
    · rw [h0, h.swapper] at hi
      cases hi
    · by_cases h1 : i = 1
      · rw [h1]
      · rw [h.rest i h0 h1] at hi
        cases hi
  · rw [h.current] at hi
    obtain rfl := Option.some.inj hi
    exact .inr h.first
  · rw [h.current] at h0
    cases h0

/-- The turn goes to the context that is picked; the one that had it is not RUNNING any more. -/
theorem ordered_schedule (hrun : ∀ i, (t.ctxList i).state ≠ .running)
    (hsw : (t.ctxList 0).state = .ready ∨ (t.ctxList 0).state = .running) (pid : Nat) :
    (t.schedule (t.pickNextContext pid)).Ordered := by
  refine ⟨fun i hi => ?_, runs_schedule _ _, ?_, fun h0 i hpos hlt => ?_⟩
  · by_cases he : i = t.pickNextContext pid
    · rw [he]
      rfl
    · rw [schedule_ne he] at hi
      exact absurd hi (hrun i)
  · by_cases he : 0 = t.pickNextContext pid
    · rw [← he, schedule_self]
      exact .inr rfl
    · rw [schedule_ne he]
      exact hsw
  · have h0 : t.pickNextContext pid = 0 := Option.some.inj h0
    rw [h0, schedule_ne (Nat.ne_of_gt hpos)]
    exact pick_none.mp h0 i hpos hlt

theorem Ordered.step (h : t.Ordered) (hs : t.step e = some u) : u.Ordered := by
  obtain ⟨pid, hcur, htook⟩ := step_took hs
  -- who is not the one that has the turn is not RUNNING
  have hrest : ∀ i, i ≠ pid → (t.ctxList i).state ≠ .running := fun i hi hrun =>
    hi (Option.some.inj ((h.running i hrun).symm.trans hcur))
  have hsw : (t.ctxList 0).state ≠ .unused := by
    rcases h.swapper with hs | hs <;> rw [hs] <;> exact ProcState.noConfusion
  cases htook with
  | tick =>
    obtain ⟨v, hv⟩ : ∃ v, v = t.doSleepAccount.setState pid .ready := ⟨_, rfl⟩
    have htick : t.handleTimerTick pid = if v.pickNextContext pid = pid then v else v.schedule (v.pickNextContext pid) := by
      rw [hv]
      rfl
    have hacc : ∀ i, i ≠ pid → v.ctxList i = sleepAccount (t.ctxList i) := fun i hi => by
      rw [hv, setState_ne hi]
      rfl
    have hself : (v.ctxList pid).state = .ready := by rw [hv, setState_self]
    have hrun : ∀ i, (v.ctxList i).state ≠ .running := by
      intro i
      by_cases hi : i = pid
      · rw [hi, hself]
        exact ProcState.noConfusion
      · rw [hacc i hi]
        rcases sleepAccount_cases (t.ctxList i) with hs | ⟨-, -, hs⟩
        · rw [hs]
          exact hrest i hi
        · rw [hs]
          simp only
          split <;> exact ProcState.noConfusion
    have hsw' : (v.ctxList 0).state = .ready ∨ (v.ctxList 0).state = .running := by
      by_cases hi : 0 = pid
      · rw [hi]
        exact .inl hself
      · rw [hacc 0 hi]
        rcases sleepAccount_cases (t.ctxList 0) with hs | ⟨hs, -, -⟩
        · rw [hs]
          exact h.swapper
        · rcases h.swapper with hr | hr <;> rw [hr] at hs <;> cases hs
    rw [htick]
    split
    · rename_i hsame
      have hvcur : v.current = some pid := by rw [hv]; exact hcur
      refine ⟨fun i hi => absurd hi (hrun i), fun i hi => ?_, hsw', fun h0 => ?_⟩
      · obtain rfl := Option.some.inj (hvcur.symm.trans hi)
        exact .inl hself
      · obtain rfl := Option.some.inj (hvcur.symm.trans h0)
        exact pick_none.mp hsame
    · exact ordered_schedule hrun hsw' pid
  | sleep ticks hne =>
    refine ordered_schedule (fun i => ?_) ?_ pid
    · by_cases hi : i = pid
      · rw [hi, setCtx_self]
        exact ProcState.noConfusion
      · rw [setCtx_ne hi]
        exact hrest i hi
    · rw [setCtx_ne hne.symm]
      exact h.swapper
  | exit hne =>
    obtain ⟨v, hv⟩ : ∃ v, v = (t.vforkExitHandle pid).setState pid .unused := ⟨_, rfl⟩
    have hstate : ∀ i, i ≠ pid → (v.ctxList i).state = (t.ctxList i).state ∨ (v.ctxList i).state = .ready := by
      intro i hi
      rw [hv, setState_ne hi]
      unfold vforkExitHandle
      simp only
      split
      · exact .inl rfl
      · by_cases hp : i = (t.ctxList pid).ppid
        · rw [hp, setCtx_self]
          exact .inr rfl
        · rw [setCtx_ne hp]
          exact .inl rfl
    have hrun : ∀ i, (v.ctxList i).state ≠ .running := by
      intro i
      by_cases hi : i = pid
      · rw [hi, hv, setState_self]
        exact ProcState.noConfusion
      · rcases hstate i hi with hs | hs <;> rw [hs]
        · exact hrest i hi
        · exact ProcState.noConfusion
    have hsw' : (v.ctxList 0).state = .ready ∨ (v.ctxList 0).state = .running := by
      rcases hstate 0 hne.symm with hs | hs
      · rw [hs]
        exact h.swapper
      · exact .inl hs
    unfold doExit
    simp only
    rw [← hv]
    split
    · exact ⟨fun i hi => absurd hi (hrun i), fun i hi => Option.noConfusion rfl (heq_of_eq hi), hsw',
        fun h0 => Option.noConfusion rfl (heq_of_eq h0)⟩
    · exact ordered_schedule hrun hsw' pid
  | @make _ child c hne _ hun hready =>
    have hpc : pid ≠ child := by
      intro he
      rcases h.current pid hcur with hs | hs <;> rw [he, hun] at hs <;> cases hs
    refine ⟨fun i hi => ?_, fun i hi => ?_, ?_, fun h0 => ?_⟩
    · by_cases hic : i = child
      · rw [hic, setCtx_self, hready] at hi
        cases hi
      · rw [setCtx_ne hic] at hi
        exact h.running i hi
    · obtain rfl := Option.some.inj (hcur.symm.trans hi)
      rw [setCtx_ne hpc]
      exact h.current pid hcur
    · have hc0 : 0 ≠ child := fun he => hsw (he ▸ hun)
      rw [setCtx_ne hc0]
      exact h.swapper
    · exact absurd (Option.some.inj (hcur.symm.trans h0)) hne
  | @vfork child c hne hnew =>
    have hun := (getNewCtx_spec hnew).2
    refine ⟨fun i hi => ?_, runs_schedule _ _, ?_, fun h0 => ?_⟩
    · by_cases hic : i = child
      · rw [hic]
        rfl
      · rw [schedule_ne hic] at hi
        by_cases hip : i = pid
        · rw [hip, setState_self] at hi
          cases hi
        · rw [setState_ne hip, setCtx_ne hic] at hi
          exact absurd hi (hrest i hip)
    · have hc0 : 0 ≠ child := fun he => hsw (he ▸ hun)
      rw [schedule_ne hc0, setState_ne hne.symm, setCtx_ne hc0]
      exact h.swapper
    · have h0 : child = 0 := Option.some.inj h0
      exact absurd (h0 ▸ hun) hsw
  | remap code rodata data stack vmArea hne =>
    refine ⟨fun i hi => ?_, fun i hi => ?_, ?_, fun h0 => ?_⟩
    · by_cases hip : i = pid
      · rw [hip]
        exact hcur
      · unfold remap at hi
        rw [setCtx_ne hip] at hi
        exact h.running i hi
    · obtain rfl := Option.some.inj (hcur.symm.trans hi)
      unfold remap
      rw [setCtx_self]
      exact h.current pid hcur
    · unfold remap
      rw [setCtx_ne hne.symm]
      exact h.swapper
    · exact absurd (Option.some.inj (hcur.symm.trans h0)) hne

/-- In every run. -/
theorem reach_ordered {ok : Table → Ev → Prop} (h : machine.Reach ok t) : t.Ordered :=
  h.inv Ordered (fun _ => Start.ordered) fun _ _ _ hi _ he => hi.step he

/-- The only process sleeps, and the swapper has the turn. -/
theorem reach_ordered_idle : ∃ t : Table, t.current = some 0 ∧ t.Ordered := by
  have hrun : machine.exec booted [.sleep 1] = some _ := rfl
  exact ⟨_, rfl, reach_ordered ((Machine.exec_run hrun).reach (.init start_booted.1))⟩

end Table

end Cs330.Proc
