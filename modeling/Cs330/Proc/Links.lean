/-
  Cs330.Proc.Links — a process and the vfork child it awaits name each other, in every run.

  While a process and the child of its last `do_vfork` are both alive, the slot of the child
  has the process for `ppid` and its page directory (`Links`): the exit of the child finds the
  parent. The context that runs is READY or RUNNING. Both hold in all runs (`reach_linked`),
  whatever slots are reused.
-/
import Cs330.Proc.Table

namespace Cs330.Proc

open Lib Mm Function

namespace Table

variable {t u : Table} {i pid child : Nat} {c : Context} {state : ProcState}

/-! ## The table -/

@[simp] theorem setCtx_self (t : Table) (pid : Nat) (c : Context) : (t.setCtx pid c).ctxList pid = c := update_self ..

theorem setCtx_ne (h : i ≠ pid) : (t.setCtx pid c).ctxList i = t.ctxList i := update_of_ne h ..

@[simp] theorem setState_self (t : Table) (pid : Nat) (state : ProcState) :
    (t.setState pid state).ctxList pid = { t.ctxList pid with state := state } := setCtx_self ..

theorem setState_ne (h : i ≠ pid) : (t.setState pid state).ctxList i = t.ctxList i := setCtx_ne h

@[simp] theorem schedule_self (t : Table) (pid : Nat) :
    (t.schedule pid).ctxList pid = { t.ctxList pid with state := .running } := setState_self ..

theorem schedule_ne (h : i ≠ pid) : (t.schedule pid).ctxList i = t.ctxList i := setState_ne h

theorem getNewCtx_spec (h : t.getNewCtx = some child) : child < MAX_PROCESSES ∧ (t.ctxList child).state = .unused := by
  obtain ⟨hun, hmem⟩ := List.find?_eq_some_iff_append.mp h
  obtain ⟨as, bs, heq, -⟩ := hmem
  have hin : child ∈ List.range MAX_PROCESSES := heq ▸ List.mem_append_right as List.mem_cons_self
  exact ⟨List.mem_range.mp hin, of_decide_eq_true hun⟩

/-- The swapper, or a context that is READY. -/
theorem pickNextContext_spec (t : Table) (pid : Nat) :
    t.pickNextContext pid = 0 ∨ (t.ctxList (t.pickNextContext pid)).state = .ready := by
  unfold pickNextContext
  cases h : (turns pid).find? fun i => (t.ctxList i).state = .ready with
  | none => exact .inl rfl
  | some i =>
    have hready := List.find?_some h
    exact .inr (of_decide_eq_true hready)

theorem caller_spec (h : t.caller = some pid) : t.current = some pid ∧ pid ≠ 0 := by
  obtain ⟨hc, hne⟩ := Option.filter_eq_some_iff.mp h
  exact ⟨hc, of_decide_eq_true hne⟩

/-! ## What a step keeps -/

/-- Ties of kin stay, and no context ends. -/
structure Keeps (t u : Table) (i : Nat) : Prop where
  ppid : (u.ctxList i).ppid = (t.ctxList i).ppid
  pgd : (u.ctxList i).pgd = (t.ctxList i).pgd
  alive : (t.ctxList i).state ≠ .unused → (u.ctxList i).state ≠ .unused

theorem Keeps.refl (t : Table) (i : Nat) : Keeps t t i := ⟨rfl, rfl, id⟩

theorem Keeps.of_eq (h : u.ctxList i = t.ctxList i) : Keeps t u i := by
  refine ⟨?_, ?_, ?_⟩ <;> rw [h]
  exact id

theorem Keeps.trans {v : Table} (h1 : Keeps t u i) (h2 : Keeps u v i) : Keeps t v i :=
  ⟨h2.ppid.trans h1.ppid, h2.pgd.trans h1.pgd, fun h => h2.alive (h1.alive h)⟩

theorem keeps_setCtx (hp : c.ppid = (t.ctxList pid).ppid) (hg : c.pgd = (t.ctxList pid).pgd) (hs : c.state ≠ .unused)
    (i : Nat) : Keeps t (t.setCtx pid c) i := by
  by_cases hi : i = pid
  · rw [hi]
    refine ⟨?_, ?_, fun _ => ?_⟩ <;> rw [setCtx_self] <;> assumption
  · exact .of_eq (setCtx_ne hi)

theorem keeps_setState (hs : state ≠ .unused) (i : Nat) : Keeps t (t.setState pid state) i :=
  keeps_setCtx (c := { t.ctxList pid with state := state }) rfl rfl hs i

theorem keeps_schedule (t : Table) (pid i : Nat) : Keeps t (t.schedule pid) i := by
  have h := @keeps_setState t pid .running ProcState.noConfusion i
  exact ⟨h.ppid, h.pgd, h.alive⟩

theorem sleepAccount_cases (c : Context) : sleepAccount c = c ∨
    (c.state = .waiting ∧ 0 < c.ticksToSleep ∧
      sleepAccount c = { c with ticksToSleep := c.ticksToSleep - 1, state := if c.ticksToSleep = 1 then .ready else .waiting }) := by
  unfold sleepAccount
  split
  · rename_i h
    refine .inr ⟨h.1, h.2, ?_⟩
    have hiff : c.ticksToSleep - 1 = 0 ↔ c.ticksToSleep = 1 := by grind
    simp only [hiff]
    split
    · rfl
    · rw [← h.1]
  · exact .inl rfl

theorem keeps_doSleepAccount (t : Table) (i : Nat) : Keeps t t.doSleepAccount i := by
  have hctx : t.doSleepAccount.ctxList i = sleepAccount (t.ctxList i) := rfl
  rcases sleepAccount_cases (t.ctxList i) with h | ⟨-, -, h⟩
  · exact .of_eq (hctx.trans h)
  · rw [h] at hctx
    refine ⟨?_, ?_, fun _ => ?_⟩ <;> rw [hctx]
    simp only
    split <;> exact ProcState.noConfusion

theorem keeps_handleTimerTick (t : Table) (pid i : Nat) : Keeps t (t.handleTimerTick pid) i := by
  have h := (keeps_doSleepAccount t i).trans (@keeps_setState t.doSleepAccount pid .ready ProcState.noConfusion i)
  unfold handleTimerTick
  simp only
  split
  · exact h
  · exact h.trans (keeps_schedule ..)

theorem keeps_doSleep (t : Table) (ticks : UInt32) (pid i : Nat) : Keeps t (t.doSleep ticks pid) i := by
  have h := @keeps_setCtx t pid { t.ctxList pid with ticksToSleep := ticks, state := .waiting } rfl rfl ProcState.noConfusion i
  exact h.trans (keeps_schedule ..)

theorem keeps_vforkExitHandle (t : Table) (pid i : Nat) : Keeps t (t.vforkExitHandle pid) i := by
  unfold vforkExitHandle
  simp only
  split
  · exact .refl t i
  · exact keeps_setCtx (c := { t.ctxList (t.ctxList pid).ppid with
      state := .ready, data := (t.ctxList pid).data, vmArea := (t.ctxList pid).vmArea }) rfl rfl ProcState.noConfusion i

/-- Only the context that exits ends. -/
theorem keeps_doExit (t : Table) {pid i : Nat} (h : i ≠ pid) : Keeps t (t.doExit pid) i := by
  have hstate : Keeps t ((t.vforkExitHandle pid).setState pid .unused) i :=
    (keeps_vforkExitHandle t pid i).trans (.of_eq (setState_ne h))
  unfold doExit
  simp only
  split
  · exact hstate.trans ⟨rfl, rfl, id⟩
  · exact hstate.trans (keeps_schedule ..)

/-! ## The steps, by case -/

end Table

/-- The calls that make a process and go on. -/
def Ev.Makes : Ev → Prop
  | .fork _ | .cfork _ _ | .clone => True
  | _ => False

namespace Table

variable {t u : Table}

/-- What the context `pid` did. -/
inductive Took (t : Table) (pid : Nat) : Ev → Table → Prop where
  | tick : Took t pid .tick (t.handleTimerTick pid)
  | sleep (ticks : UInt32) : pid ≠ 0 → Took t pid (.sleep ticks) (t.doSleep ticks pid)
  | exit : pid ≠ 0 → Took t pid .exit (t.doExit pid)
  | make {e : Ev} {child : Nat} {c : Context} : pid ≠ 0 → e.Makes → (t.ctxList child).state = .unused → c.state = .ready →
      Took t pid e (t.setCtx child c)
  | vfork {child : Nat} {c : Context} : pid ≠ 0 → t.getNewCtx = some child → c.ppid = pid → c.pgd = (t.ctxList pid).pgd →
      Took t pid .vfork (((t.setCtx child c).setState pid .waiting).schedule child)
  | remap (code rodata data stack : MmSegment) (vmArea : Nat) : pid ≠ 0 →
      Took t pid (.remap code rodata data stack vmArea) (t.remap code rodata data stack vmArea pid)

theorem step_took {e : Ev} (h : t.step e = some u) : ∃ pid, t.current = some pid ∧ Took t pid e u := by
  cases e with
  | tick =>
    obtain ⟨pid, hc, rfl⟩ := Option.map_eq_some_iff.mp h
    exact ⟨pid, hc, .tick⟩
  | sleep ticks =>
    obtain ⟨pid, hc, rfl⟩ := Option.map_eq_some_iff.mp h
    exact ⟨pid, (caller_spec hc).1, .sleep ticks (caller_spec hc).2⟩
  | exit =>
    obtain ⟨pid, hc, rfl⟩ := Option.map_eq_some_iff.mp h
    exact ⟨pid, (caller_spec hc).1, .exit (caller_spec hc).2⟩
  | fork pgd =>
    obtain ⟨r, hr, rfl⟩ := Option.map_eq_some_iff.mp h
    obtain ⟨pid, hc, hr⟩ := Option.bind_eq_some_iff.mp hr
    obtain ⟨child, hnew, rfl⟩ := Option.map_eq_some_iff.mp hr
    exact ⟨pid, (caller_spec hc).1, .make (caller_spec hc).2 trivial (getNewCtx_spec hnew).2 rfl⟩
  | cfork pgd vmArea =>
    obtain ⟨r, hr, rfl⟩ := Option.map_eq_some_iff.mp h
    obtain ⟨pid, hc, hr⟩ := Option.bind_eq_some_iff.mp hr
    obtain ⟨child, hnew, rfl⟩ := Option.map_eq_some_iff.mp hr
    exact ⟨pid, (caller_spec hc).1, .make (caller_spec hc).2 trivial (getNewCtx_spec hnew).2 rfl⟩
  | clone =>
    obtain ⟨r, hr, rfl⟩ := Option.map_eq_some_iff.mp h
    obtain ⟨pid, hc, hr⟩ := Option.bind_eq_some_iff.mp hr
    obtain ⟨child, hnew, rfl⟩ := Option.map_eq_some_iff.mp hr
    exact ⟨pid, (caller_spec hc).1, .make (caller_spec hc).2 trivial (getNewCtx_spec hnew).2 rfl⟩
  | vfork =>
    obtain ⟨r, hr, rfl⟩ := Option.map_eq_some_iff.mp h
    obtain ⟨pid, hc, hr⟩ := Option.bind_eq_some_iff.mp hr
    obtain ⟨child, hnew, rfl⟩ := Option.map_eq_some_iff.mp hr
    exact ⟨pid, (caller_spec hc).1, .vfork (caller_spec hc).2 hnew rfl rfl⟩
  | remap code rodata data stack vmArea =>
    obtain ⟨pid, hc, rfl⟩ := Option.map_eq_some_iff.mp h
    exact ⟨pid, (caller_spec hc).1, .remap code rodata data stack vmArea (caller_spec hc).2⟩

/-! ## Links -/

/-- Whoever is awaited names who awaits it, and has its page directory; both are alive. -/
structure Links (t : Table) (awaits : Nat → Option Nat) : Prop where
  caller : ∀ a c, awaits a = some c → a ≠ 0
  ppid : ∀ a c, awaits a = some c → (t.ctxList c).ppid = a
  pgd : ∀ a c, awaits a = some c → (t.ctxList c).pgd = (t.ctxList a).pgd
  parent : ∀ a c, awaits a = some c → (t.ctxList a).state ≠ .unused
  child : ∀ a c, awaits a = some c → (t.ctxList c).state ≠ .unused

/-- The context that runs is READY, after a tick that nobody else was there for, or RUNNING. -/
def Runs (t : Table) : Prop := ∀ i, t.current = some i → (t.ctxList i).state = .ready ∨ (t.ctxList i).state = .running

variable {t u : Table} {pid : Nat} {awaits : Nat → Option Nat}

theorem Links.keeps (h : Links t awaits) (hk : ∀ i, (∃ a c, awaits a = some c ∧ (i = a ∨ i = c)) → Keeps t u i) :
    Links u awaits := by
  refine ⟨h.caller, fun a c hc => ?_, fun a c hc => ?_, fun a c hc => ?_, fun a c hc => ?_⟩
  · exact (hk c ⟨a, c, hc, .inr rfl⟩).ppid.trans (h.ppid a c hc)
  · rw [(hk c ⟨a, c, hc, .inr rfl⟩).pgd, (hk a ⟨a, c, hc, .inl rfl⟩).pgd]
    exact h.pgd a c hc
  · exact (hk a ⟨a, c, hc, .inl rfl⟩).alive (h.parent a c hc)
  · exact (hk c ⟨a, c, hc, .inr rfl⟩).alive (h.child a c hc)

theorem Links.add (h : Links t awaits) {child : Nat} (hne : pid ≠ 0) (hp : (t.ctxList child).ppid = pid)
    (hg : (t.ctxList child).pgd = (t.ctxList pid).pgd) (ha : (t.ctxList pid).state ≠ .unused)
    (hc : (t.ctxList child).state ≠ .unused) : Links t (update awaits pid (some child)) := by
  have hcases : ∀ a c, update awaits pid (some child) a = some c → a = pid ∧ c = child ∨ awaits a = some c := by
    intro a c hac
    by_cases hap : a = pid
    · rw [hap, update_self] at hac
      exact .inl ⟨hap, (Option.some.inj hac).symm⟩
    · rw [update_of_ne hap] at hac
      exact .inr hac
  refine ⟨fun a c hac => ?_, fun a c hac => ?_, fun a c hac => ?_, fun a c hac => ?_, fun a c hac => ?_⟩ <;>
    rcases hcases a c hac with ⟨rfl, rfl⟩ | hac
  · exact hne
  · exact h.caller a c hac
  · exact hp
  · exact h.ppid a c hac
  · exact hg
  · exact h.pgd a c hac
  · exact ha
  · exact h.parent a c hac
  · exact hc
  · exact h.child a c hac

theorem runs_schedule (t : Table) (pid : Nat) : Runs (t.schedule pid) := fun i hi => by
  obtain rfl := Option.some.inj hi
  rw [schedule_self]
  exact .inr rfl

theorem runs_handleTimerTick (hc : t.current = some pid) : Runs (t.handleTimerTick pid) := by
  unfold handleTimerTick
  simp only
  split
  · intro i hi
    have hi : t.current = some i := hi
    obtain rfl := Option.some.inj (hc.symm.trans hi)
    rw [setState_self]
    exact .inl rfl
  · exact runs_schedule _ _

end Table

namespace Watch

open Table

variable {w w' : Watch} {e : Ev} {a c : Nat}

structure Linked (w : Watch) : Prop where
  links : w.table.Links w.awaits
  runs : w.table.Runs

theorem Start.linked (h : w.Start) : w.Linked := by
  obtain ⟨ht, hno⟩ := h
  have hnone : ∀ a c, w.awaits a ≠ some c := fun a c hc => by
    rw [hno] at hc
    cases hc
  refine ⟨⟨fun a c hc => ?_, fun a c hc => ?_, fun a c hc => ?_, fun a c hc => ?_, fun a c hc => ?_⟩, fun i hi => ?_⟩
  iterate 5 exact absurd hc (hnone a c)
  rw [ht.current] at hi
  obtain rfl := Option.some.inj hi
  exact .inr ht.first

theorem awaitsAfter_makes (w : Watch) (h : e.Makes) : w.awaitsAfter e = w.awaits := by
  cases e <;> first | rfl | exact h.elim

/-- An exit leaves those links alone in which the process has no part. -/
theorem awaitsAfter_exit {pid : Nat} (hcur : w.table.current = some pid) :
    w.awaitsAfter .exit a = some c ↔ a ≠ pid ∧ c ≠ pid ∧ w.awaits a = some c := by
  show (if w.table.current = some a ∨ w.awaits a = w.table.current then none else w.awaits a) = some c ↔ _
  rw [hcur]
  split
  · rename_i hor
    refine ⟨fun hn => Option.noConfusion rfl (heq_of_eq hn), fun ⟨ha, hc, hac⟩ => ?_⟩
    rcases hor with hor | hor
    · exact absurd (Option.some.inj hor).symm ha
    · exact absurd (Option.some.inj (hac.symm.trans hor)) hc
  · rename_i hor
    refine ⟨fun hac => ⟨fun ha => hor (.inl (by rw [ha])), fun hc => hor (.inr (by rw [hac, hc])), hac⟩, fun h => h.2.2⟩

theorem awaitsAfter_vfork {pid child : Nat} (hcur : w.table.current = some pid) (hnew : w.table.getNewCtx = some child) :
    w.awaitsAfter .vfork = update w.awaits pid (some child) := by
  funext a
  show (if w.table.current = some a then w.table.getNewCtx else w.awaits a) = _
  rw [hcur, hnew]
  by_cases ha : a = pid
  · rw [ha, update_self, if_pos rfl]
  · rw [update_of_ne ha, if_neg fun he => ha (Option.some.inj he).symm]

/-- A slot that is not in use has no part in a link. -/
theorem Linked.slot (h : w.Linked) {child : Nat} (hun : (w.table.ctxList child).state = .unused) {i : Nat}
    (hi : ∃ a c, w.awaits a = some c ∧ (i = a ∨ i = c)) : i ≠ child := by
  obtain ⟨a, c, hac, rfl | rfl⟩ := hi
  · exact fun he => h.links.parent i c hac (he ▸ hun)
  · exact fun he => h.links.child a i hac (he ▸ hun)

theorem Linked.current_alive (h : w.Linked) {pid : Nat} (hcur : w.table.current = some pid) :
    (w.table.ctxList pid).state ≠ .unused ∧ (w.table.ctxList pid).state ≠ .waiting := by
  rcases h.runs pid hcur with hs | hs <;> rw [hs] <;> exact ⟨ProcState.noConfusion, ProcState.noConfusion⟩

theorem Linked.step (h : w.Linked) (he : w.step e = some w') : w'.Linked := by
  obtain ⟨t, ht, rfl⟩ := Option.map_eq_some_iff.mp he
  obtain ⟨pid, hcur, htook⟩ := step_took ht
  have halive := (h.current_alive hcur).1
  cases htook with
  | tick => exact ⟨h.links.keeps fun i _ => keeps_handleTimerTick .., runs_handleTimerTick hcur⟩
  | sleep ticks hne => exact ⟨h.links.keeps fun i _ => keeps_doSleep .., runs_schedule _ _⟩
  | exit hne =>
    refine ⟨?_, ?_⟩
    · have hsub : Links w.table (w.awaitsAfter .exit) := by
        refine ⟨fun a c hc => ?_, fun a c hc => ?_, fun a c hc => ?_, fun a c hc => ?_, fun a c hc => ?_⟩
        · exact h.links.caller a c ((awaitsAfter_exit hcur).mp hc).2.2
        · exact h.links.ppid a c ((awaitsAfter_exit hcur).mp hc).2.2
        · exact h.links.pgd a c ((awaitsAfter_exit hcur).mp hc).2.2
        · exact h.links.parent a c ((awaitsAfter_exit hcur).mp hc).2.2
        · exact h.links.child a c ((awaitsAfter_exit hcur).mp hc).2.2
      refine hsub.keeps fun i hi => keeps_doExit _ ?_
      obtain ⟨a, c, hac, hor⟩ := hi
      obtain ⟨ha, hc, -⟩ := (awaitsAfter_exit hcur).mp hac
      rcases hor with rfl | rfl
      · exact ha
      · exact hc
    · show Runs (w.table.doExit pid)
      unfold doExit
      simp only
      split
      · exact fun i hi => Option.noConfusion rfl (heq_of_eq hi)
      · exact runs_schedule _ _
  | make hne hmakes hun hready =>
    rw [awaitsAfter_makes w hmakes]
    refine ⟨h.links.keeps fun i hi => .of_eq (setCtx_ne (h.slot hun hi)), fun i hi => ?_⟩
    obtain rfl := Option.some.inj (hcur.symm.trans hi)
    have hpc : pid ≠ _ := fun he => halive (he.symm ▸ hun)
    show _ ∨ _
    rw [setCtx_ne hpc]
    exact h.runs pid hcur
  | vfork hne hnew hppid hpgd =>
    rename_i child c
    have hun := (getNewCtx_spec hnew).2
    have hpc : pid ≠ child := fun he => halive (he.symm ▸ hun)
    have hoth : ∀ i, i ≠ child → Keeps w.table (((w.table.setCtx child c).setState pid .waiting).schedule child) i := fun i hi =>
      ((Keeps.of_eq (setCtx_ne hi)).trans (keeps_setState ProcState.noConfusion i)).trans (keeps_schedule ..)
    have hchild : (((w.table.setCtx child c).setState pid .waiting).schedule child).ctxList child = { c with state := .running } := by
      rw [schedule_self, setState_ne hpc.symm, setCtx_self]
    have hlinks := h.links.keeps fun i hi => hoth i (h.slot hun hi)
    rw [awaitsAfter_vfork hcur hnew]
    refine ⟨hlinks.add hne (by rw [hchild]; exact hppid) ?_ ((hoth pid hpc).alive halive) ?_, runs_schedule _ _⟩
    · rw [hchild, (hoth pid hpc).pgd]
      exact hpgd
    · rw [hchild]
      exact ProcState.noConfusion
  | remap code rodata data stack vmArea hne =>
    refine ⟨h.links.keeps fun i _ => keeps_setCtx (c := { w.table.ctxList pid with
      code := code, rodata := rodata, data := data, stack := stack, vmArea := vmArea }) rfl rfl halive i, fun i hi => ?_⟩
    obtain rfl := Option.some.inj (hcur.symm.trans hi)
    have hself : ((w.table.remap code rodata data stack vmArea pid).ctxList pid).state = (w.table.ctxList pid).state := by
      unfold remap
      rw [setCtx_self]
    show _ ∨ _
    rw [hself]
    exact h.runs pid hcur

/-- In every run. -/
theorem reach_linked {ok : Watch → Ev → Prop} (h : machine.Reach ok w) : w.Linked :=
  h.inv Linked (fun _ => Start.linked) fun _ _ _ hi _ he => hi.step he

end Watch

end Cs330.Proc
