/-
  Cs330.Text.Tee — the three processes of `./a.out $ pattern path output_file command`
  (Assignment1/Part_2/src/part2.c).

  main makes two pipes and two children and becomes the command: grep writes into the first
  pipe, the second child copies it byte by byte into the file and into the second pipe, and
  the command reads that. Every process has its descriptors, which a fork copies and an exit
  closes; a pipe holds at most `cap` bytes. A read of an empty pipe waits while anyone holds
  its writing end, and a write without a reader kills. Steps of the processes interleave in
  any way. grep writes what it likes in pieces of any size; the command reads, closes
  descriptors and exits when it likes, and starts no process.

  Proved, whatever grep writes and whatever the capacity of a pipe: what the command has read
  is a beginning of the file, and the file one of grep's output, and at the end of file all
  three are the same (`teed`); the program takes a bounded number of steps, and as long as the
  command reads it can be brought to the end of file, and when it has exited the others end
  too (`comes_through`). A command that closes its standard input and goes on is another
  matter: it has `newfd[0]` and `fd[0]` still, so nobody is killed, and the others wait in full
  pipes until it exits.

  The calls pipe, fork, execvp, creat and open succeed. Bytes on the terminal are left out.
-/
import Cs330.Lib.Machine

namespace Cs330.Tee

open Lib

inductive Pid where
  | main | grep | tee
  deriving DecidableEq

inductive Pipe where
  | fd | newfd
  deriving DecidableEq

/-- Where the program keeps a descriptor; stdin and stdout are 0 and 1. -/
inductive Desc where
  | stdin | stdout | fd0 | fd1 | newfd0 | newfd1 | created | file
  deriving DecidableEq

/-- What a descriptor stands for. -/
inductive End where
  | terminal
  | read (p : Pipe)
  | write (p : Pipe)
  | output
  deriving DecidableEq

inductive MainPc where
  | pipe | fork | closeFd1 | pipeNew | forkTee | closeNewfd1 | dupStdin | exec | command | exited
  deriving DecidableEq

inductive GrepPc where
  | unborn | closeFd0 | dupStdout | exec
  /-- grep runs, with this much to write. -/
  | writing (rest : List UInt8)
  | exited
  /-- By SIGPIPE, with this much not written. -/
  | killed (rest : List UInt8)
  deriving DecidableEq

inductive TeePc where
  | unborn | closeNewfd0 | dupStdout | creat | open | read
  | toFile (c : UInt8)
  | toPipe (c : UInt8)
  | close | exit | exited
  | killed (c : UInt8)
  deriving DecidableEq

abbrev Fds := Desc → Option End

structure Sys where
  main : MainPc
  grep : GrepPc
  tee : TeePc
  fds : Pid → Fds
  bytes : Pipe → List UInt8
  /-- The output file, from when it has been created. -/
  file : Option (List UInt8)
  /-- What the command has read, and whether it has read the end of file. -/
  got : List UInt8
  eof : Bool

def pids : List Pid := [.main, .grep, .tee]

def descs : List Desc := [.stdin, .stdout, .fd0, .fd1, .newfd0, .newfd1, .created, .file]

def Fds.set (f : Fds) (d : Desc) (e : Option End) : Fds := Function.update f d e

namespace Sys

variable (s : Sys)

def held (e : End) : Prop := ∃ pid ∈ pids, ∃ d ∈ descs, s.fds pid d = some e

instance (e : End) : Decidable (s.held e) := inferInstanceAs (Decidable (∃ _ ∈ _, _))

def setFds (pid : Pid) (f : Fds) : Sys := { s with fds := Function.update s.fds pid f }

def close (pid : Pid) (d : Desc) : Sys := s.setFds pid ((s.fds pid).set d none)

def dup2 (pid : Pid) (old new : Desc) : Sys := s.setFds pid ((s.fds pid).set new (s.fds pid old))

def pipe (pid : Pid) (p : Pipe) (r w : Desc) : Sys := s.setFds pid (((s.fds pid).set r (some (.read p))).set w (some (.write p)))

def fork (pid child : Pid) : Sys := s.setFds child (s.fds pid)

/-- Every descriptor of a process that ends is closed. -/
def gone (pid : Pid) : Sys := s.setFds pid fun _ => none

/-- A write of some bytes: `none` waits, and the flag says that there is no reader. -/
def write (pid : Pid) (d : Desc) (bytes : List UInt8) (cap : Nat) : Option (Sys × Bool) :=
  match s.fds pid d with
  | some (.write p) =>
    if ¬ s.held (.read p) then some (s, true)
    else if (s.bytes p).length + bytes.length ≤ cap then
      some ({ s with bytes := Function.update s.bytes p (s.bytes p ++ bytes) }, false)
    else none
  | some .output => some ({ s with file := some (s.file.getD [] ++ bytes) }, false)
  | _ => none

/-- A read of at most `n` bytes: `none` waits, and no bytes are the end of file. -/
def read (pid : Pid) (d : Desc) (n : Nat) : Option (Sys × List UInt8) :=
  match s.fds pid d with
  | some (.read p) =>
    if s.bytes p = [] then if s.held (.write p) then none else some (s, [])
    else some ({ s with bytes := Function.update s.bytes p ((s.bytes p).drop n) }, (s.bytes p).take n)
  | _ => none

end Sys

section
variable (s : Sys) (pid : Pid) (f : Fds)

@[simp] theorem setFds_main : (s.setFds pid f).main = s.main := rfl
@[simp] theorem setFds_grep : (s.setFds pid f).grep = s.grep := rfl
@[simp] theorem setFds_tee : (s.setFds pid f).tee = s.tee := rfl
@[simp] theorem setFds_bytes : (s.setFds pid f).bytes = s.bytes := rfl
@[simp] theorem setFds_file : (s.setFds pid f).file = s.file := rfl
@[simp] theorem setFds_got : (s.setFds pid f).got = s.got := rfl
@[simp] theorem setFds_eof : (s.setFds pid f).eof = s.eof := rfl
@[simp] theorem setFds_self : (s.setFds pid f).fds pid = f := Function.update_self ..

@[simp] theorem setFds_ne {p : Pid} (h : p ≠ pid) : (s.setFds pid f).fds p = s.fds p := Function.update_of_ne h ..

theorem setFds_same : s.setFds pid (s.fds pid) = s := by
  unfold Sys.setFds
  rw [Function.update_eq_self]

end

/-! ## The program -/

section
variable (cap : Nat) (out : List UInt8)

def stepMain (s : Sys) : Option Sys :=
  match s.main with
  | .pipe => some { s.pipe .main .fd .fd0 .fd1 with main := .fork }
  | .fork => some { s.fork .main .grep with main := .closeFd1, grep := .closeFd0 }
  | .closeFd1 => some { s.close .main .fd1 with main := .pipeNew }
  | .pipeNew => some { s.pipe .main .newfd .newfd0 .newfd1 with main := .forkTee }
  | .forkTee => some { s.fork .main .tee with main := .closeNewfd1, tee := .closeNewfd0 }
  | .closeNewfd1 => some { s.close .main .newfd1 with main := .dupStdin }
  | .dupStdin => some { s.dup2 .main .newfd0 .stdin with main := .exec }
  | .exec => some { s with main := .command }
  | .command | .exited => none

/-- The first child, and then grep, which writes `n` bytes. -/
def stepGrep (n : Nat) (s : Sys) : Option Sys :=
  match s.grep with
  | .closeFd0 => some { s.close .grep .fd0 with grep := .dupStdout }
  | .dupStdout => some { s.dup2 .grep .fd1 .stdout with grep := .exec }
  | .exec => some { s with grep := .writing out }
  | .writing rest =>
    if rest = [] then some { s.gone .grep with grep := .exited }
    else if 0 < n ∧ n ≤ rest.length then
      (s.write .grep .stdout (rest.take n) cap).map fun r =>
        if r.2 then { r.1.gone .grep with grep := .killed rest } else { r.1 with grep := .writing (rest.drop n) }
    else none
  | .unborn | .exited | .killed _ => none

/-- The second child. -/
def stepTee (s : Sys) : Option Sys :=
  match s.tee with
  | .closeNewfd0 => some { s.close .tee .newfd0 with tee := .dupStdout }
  | .dupStdout => some { s.dup2 .tee .newfd1 .stdout with tee := .creat }
  | .creat => some { s.setFds .tee ((s.fds .tee).set .created (some .output)) with file := some [], tee := .open }
  | .open => some { s.setFds .tee ((s.fds .tee).set .file (some .output)) with tee := .read }
  | .read => (s.read .tee .fd0 1).map fun r =>
    match r.2 with
    | [] => { r.1 with tee := .close }
    | c :: _ => { r.1 with tee := .toFile c }
  | .toFile c => (s.write .tee .file [c] cap).map fun r => { r.1 with tee := .toPipe c }
  | .toPipe c => (s.write .tee .stdout [c] cap).map fun r =>
    if r.2 then { r.1.gone .tee with tee := .killed c } else { r.1 with tee := .read }
  | .close => some { s.close .tee .file with tee := .exit }
  | .exit => some { s.gone .tee with tee := .exited }
  | .unborn | .exited | .killed _ => none

inductive Ev where
  | main
  | grep (n : Nat)
  | tee
  /-- The command reads at most `n` bytes of its standard input. -/
  | take (n : Nat)
  /-- It closes a descriptor. -/
  | drop (d : Desc)
  | leave
  deriving DecidableEq

def step (s : Sys) : Ev → Option Sys
  | .main => stepMain s
  | .grep n => stepGrep cap out n s
  | .tee => stepTee cap s
  | .take n =>
    if s.main = .command ∧ 0 < n then
      (s.read .main .stdin n).map fun r => { r.1 with got := s.got ++ r.2, eof := s.eof || r.2 = [] }
    else none
  | .drop d => if s.main = .command then some (s.close .main d) else none
  | .leave => if s.main = .command then some { s.gone .main with main := .exited } else none

/-- Only the standard descriptors are open. -/
def opened : Fds := fun d => if d = .stdin ∨ d = .stdout then some .terminal else none

def boot : Sys where
  main := .pipe
  grep := .unborn
  tee := .unborn
  fds pid := if pid = .main then opened else fun _ => none
  bytes _ := []
  file := none
  got := []
  eof := false

def machine : Machine Sys Ev := ⟨(· = boot), step cap out⟩

end

/-! ## Who holds what -/

/-- The descriptors of main where it is. A command may have closed some. -/
def MainPc.ends : MainPc → Fds
  | .pipe => opened
  | .fork | .closeFd1 => (opened.set .fd0 (some (.read .fd))).set .fd1 (some (.write .fd))
  | .pipeNew => opened.set .fd0 (some (.read .fd))
  | .forkTee | .closeNewfd1 =>
    ((opened.set .fd0 (some (.read .fd))).set .newfd0 (some (.read .newfd))).set .newfd1 (some (.write .newfd))
  | .dupStdin => (opened.set .fd0 (some (.read .fd))).set .newfd0 (some (.read .newfd))
  | .exec | .command =>
    ((opened.set .fd0 (some (.read .fd))).set .newfd0 (some (.read .newfd))).set .stdin (some (.read .newfd))
  | .exited => fun _ => none

def GrepPc.ends : GrepPc → Fds
  | .closeFd0 => MainPc.fork.ends
  | .dupStdout => MainPc.fork.ends.set .fd0 none
  | .exec | .writing _ => (MainPc.fork.ends.set .fd0 none).set .stdout (some (.write .fd))
  | .unborn | .exited | .killed _ => fun _ => none

def TeePc.ends : TeePc → Fds
  | .closeNewfd0 => MainPc.forkTee.ends
  | .dupStdout => MainPc.forkTee.ends.set .newfd0 none
  | .creat => (MainPc.forkTee.ends.set .newfd0 none).set .stdout (some (.write .newfd))
  | .open => ((MainPc.forkTee.ends.set .newfd0 none).set .stdout (some (.write .newfd))).set .created (some .output)
  | .read | .toFile _ | .toPipe _ | .close =>
    (((MainPc.forkTee.ends.set .newfd0 none).set .stdout (some (.write .newfd))).set .created (some .output)).set .file
      (some .output)
  | .exit => ((MainPc.forkTee.ends.set .newfd0 none).set .stdout (some (.write .newfd))).set .created (some .output)
  | .unborn | .exited | .killed _ => fun _ => none

/-- There no more. -/
def GrepPc.Done : GrepPc → Prop
  | .exited | .killed _ => True
  | _ => False

def TeePc.Alive : TeePc → Prop
  | .unborn | .exited | .killed _ => False
  | _ => True

/-- What grep has not written. -/
def GrepPc.left (out : List UInt8) : GrepPc → List UInt8
  | .unborn | .closeFd0 | .dupStdout | .exec => out
  | .writing rest | .killed rest => rest
  | .exited => []

/-- The byte that is not in the file yet. -/
def TeePc.hand : TeePc → List UInt8
  | .toFile c => [c]
  | _ => []

/-- The byte that is in the file, and not in the second pipe. -/
def TeePc.owed : TeePc → List UInt8
  | .toPipe c | .killed c => [c]
  | _ => []

/-! ## The work left -/

def MainPc.work : MainPc → Nat
  | .pipe => 8
  | .fork => 7
  | .closeFd1 => 6
  | .pipeNew => 5
  | .forkTee => 4
  | .closeNewfd1 => 3
  | .dupStdin => 2
  | .exec => 1
  | .command | .exited => 0

/-- A byte that grep writes is a step, and three of the second child. -/
def GrepPc.work (out : List UInt8) : GrepPc → Nat
  | .unborn | .closeFd0 => 4 + 4 * out.length
  | .dupStdout => 3 + 4 * out.length
  | .exec => 2 + 4 * out.length
  | .writing rest => 1 + 4 * rest.length
  | .exited | .killed _ => 0

def TeePc.work : TeePc → Nat
  | .unborn | .closeNewfd0 => 7
  | .dupStdout => 6
  | .creat => 5
  | .open => 4
  | .read => 3
  | .toFile _ => 5
  | .toPipe _ => 4
  | .close => 2
  | .exit => 1
  | .exited | .killed _ => 0

def Sys.work (out : List UInt8) (s : Sys) : Nat := s.main.work + s.grep.work out + s.tee.work + 3 * (s.bytes .fd).length

/-- A step of the program, not of the command. -/
def Ev.own : Ev → Nat
  | .main | .grep _ | .tee => 1
  | .take _ | .drop _ | .leave => 0

/-! ## Where a process is -/

theorem TeePc.Alive.fd0 {t : TeePc} (h : t.Alive) : t.ends .fd0 = some (.read .fd) := by
  cases t <;> first | rfl | exact h.elim

theorem TeePc.Alive.newfd1 {t : TeePc} (h : t.Alive) : t.ends .newfd1 = some (.write .newfd) := by
  cases t <;> first | rfl | exact h.elim

theorem GrepPc.fd1 {g : GrepPc} (hu : g ≠ .unborn) (hd : ¬ g.Done) : g.ends .fd1 = some (.write .fd) := by
  cases g <;> first | rfl | exact absurd rfl hu | exact absurd trivial hd

section
variable {s s' : Sys} {pid : Pid} {d : Desc} {e : End}

theorem held_iff : s.held e ↔ ∃ pid d, s.fds pid d = some e := by
  constructor
  · rintro ⟨pid, -, d, -, h⟩
    exact ⟨pid, d, h⟩
  · rintro ⟨pid, d, h⟩
    exact ⟨pid, by cases pid <;> decide, d, by cases d <;> decide, h⟩

theorem held_of {p : Pid} (h : s.fds p d = some e) : s.held e := held_iff.mpr ⟨p, d, h⟩

/-- Nobody gets an end by what a process does to descriptors it has. -/
theorem held_setFds {f : Fds} (hf : ∀ d e, f d = some e → s.held e) (h : (s.setFds pid f).held e) : s.held e := by
  obtain ⟨p, d, h⟩ := held_iff.mp h
  by_cases hp : p = pid
  · subst hp
    exact hf d e (by simpa [Sys.setFds] using h)
  · exact held_of (p := p) (d := d) (by simpa [Sys.setFds, hp] using h)

theorem held_close (h : (s.close pid d).held e) : s.held e := by
  refine held_setFds (fun d' e he => ?_) h
  unfold Fds.set at he
  by_cases hd : d' = d
  · simp [hd] at he
  · exact held_of (by simpa [hd] using he)

theorem held_dup2 {new : Desc} (h : (s.dup2 pid d new).held e) : s.held e := by
  refine held_setFds (fun d' e he => ?_) h
  unfold Fds.set at he
  by_cases hd : d' = new
  · exact held_of (by simpa [hd] using he)
  · exact held_of (by simpa [hd] using he)

theorem held_gone (h : (s.gone pid).held e) : s.held e := held_setFds (fun _ _ he => absurd he (by simp)) h

end

/-! ## The invariant -/

structure Inv (out : List UInt8) (s : Sys) : Prop where
  main : s.main ≠ .command → s.fds .main = s.main.ends
  command : s.main = .command → ∀ d, s.fds .main d = none ∨ s.fds .main d = MainPc.command.ends d
  grep : s.fds .grep = s.grep.ends
  tee : s.fds .tee = s.tee.ends
  grepUnborn : s.grep = .unborn ↔ s.main = .pipe ∨ s.main = .fork
  teeUnborn : s.tee = .unborn ↔ s.main = .pipe ∨ s.main = .fork ∨ s.main = .closeFd1 ∨ s.main = .pipeNew ∨ s.main = .forkTee
  created : s.file = none ↔ s.tee = .unborn ∨ s.tee = .closeNewfd0 ∨ s.tee = .dupStdout ∨ s.tee = .creat
  /-- What grep writes is in the file, on its way or to come. -/
  written : s.file.getD [] ++ s.tee.hand ++ s.bytes .fd ++ s.grep.left out = out
  /-- What is in the file the command has read, or it is on its way. -/
  sent : s.got ++ s.bytes .newfd ++ s.tee.owed = s.file.getD []
  drained : s.tee = .close ∨ s.tee = .exit ∨ s.tee = .exited → s.bytes .fd = [] ∧ s.grep.Done
  grepKilled : (∃ rest, s.grep = .killed rest) → ∃ c, s.tee = .killed c
  teeKilled : (∃ c, s.tee = .killed c) → ¬ s.held (.read .newfd)
  eof : s.eof = true → s.tee = .exited ∧ s.bytes .newfd = [] ∧ s.grep = .exited

theorem boot_inv (out : List UInt8) : Inv out boot where
  main _ := rfl
  command h := MainPc.noConfusion h
  grep := rfl
  tee := rfl
  grepUnborn := by decide
  teeUnborn := by decide
  created := by decide
  written := rfl
  sent := rfl
  drained h := by simp [boot] at h
  grepKilled h := by simp [boot] at h
  teeKilled h := by simp [boot] at h
  eof h := Bool.noConfusion h

section
variable {cap n : Nat} {out : List UInt8} {s s' : Sys}

theorem Inv.main_held (h : Inv out s) {pc : MainPc} (hm : s.main = pc) (hc : pc ≠ .command) {d : Desc} {e : End}
    (he : pc.ends d = some e) : s.held e := by
  refine held_of (p := .main) (d := d) ?_
  rw [h.main (hm ▸ hc), hm]
  exact he

/-- The second child is not killed before the command runs, since main reads from its pipe. -/
theorem Inv.not_killed (h : Inv out s) (hc : s.main ≠ .command) (hx : s.main ≠ .exited) : ¬ ∃ c, s.tee = .killed c := by
  intro hk
  have hunborn : s.tee ≠ .unborn := by
    obtain ⟨c, hk⟩ := hk
    simp [hk]
  rw [Ne, h.teeUnborn] at hunborn
  have hheld : s.held (.read .newfd) := by
    cases hm : s.main <;> simp [hm] at hunborn hc hx <;> exact h.main_held (d := .newfd0) hm (by decide) (by decide)
  exact h.teeKilled hk hheld

/-- main goes on, and its descriptors change. -/
theorem Inv.goes (h : Inv out s) {q : MainPc} (hc : s.main ≠ .command) (hx : s.main ≠ .exited) {f : Fds} (hf : f = q.ends)
    (hg : (q = .pipe ∨ q = .fork) ↔ (s.main = .pipe ∨ s.main = .fork))
    (ht : (q = .pipe ∨ q = .fork ∨ q = .closeFd1 ∨ q = .pipeNew ∨ q = .forkTee) ↔
      (s.main = .pipe ∨ s.main = .fork ∨ s.main = .closeFd1 ∨ s.main = .pipeNew ∨ s.main = .forkTee)) :
    Inv out { s.setFds .main f with main := q } where
  main _ := (setFds_self s .main f).trans hf
  command hp d := by
    have hp : q = .command := hp
    right
    rw [setFds_self, hf, hp]
  grep := by simpa using h.grep
  tee := by simpa using h.tee
  grepUnborn := h.grepUnborn.trans hg.symm
  teeUnborn := h.teeUnborn.trans ht.symm
  created := h.created
  written := h.written
  sent := h.sent
  drained := h.drained
  grepKilled := h.grepKilled
  teeKilled hk := absurd hk (h.not_killed hc hx)
  eof := h.eof

/-- The first child is born. -/
theorem Inv.forks (h : Inv out s) (hm : s.main = .fork) :
    Inv out { s.fork .main .grep with main := .closeFd1, grep := .closeFd0 } := by
  have hf : s.fds .main = MainPc.fork.ends := hm ▸ h.main (by simp [hm])
  have hu := h.grepUnborn.mpr (.inr hm)
  have ht := h.teeUnborn.mpr (.inr (.inl hm))
  constructor
  · exact fun _ => (setFds_ne s .grep (s.fds .main) (by decide)).trans hf
  · exact fun hc => MainPc.noConfusion hc
  · exact (setFds_self s .grep _).trans hf
  · exact (setFds_ne s .grep (s.fds .main) (by decide)).trans h.tee
  · simp
  · simp [Sys.fork, ht]
  · exact h.created
  · simpa [Sys.fork, hu, GrepPc.left] using h.written
  · exact h.sent
  · intro hd
    simp [Sys.fork, ht] at hd
  · intro hk
    simp at hk
  · intro hk
    simp [Sys.fork, ht] at hk
  · intro he
    exact absurd (h.eof he).2.2 (by simp [hu])

/-- The second child is born. -/
theorem Inv.forksTee (h : Inv out s) (hm : s.main = .forkTee) :
    Inv out { s.fork .main .tee with main := .closeNewfd1, tee := .closeNewfd0 } := by
  have hf : s.fds .main = MainPc.forkTee.ends := hm ▸ h.main (by simp [hm])
  have ht := h.teeUnborn.mpr (by simp [hm])
  constructor
  · exact fun _ => (setFds_ne s .tee (s.fds .main) (by decide)).trans hf
  · exact fun hc => MainPc.noConfusion hc
  · exact (setFds_ne s .tee (s.fds .main) (by decide)).trans h.grep
  · exact (setFds_self s .tee _).trans hf
  · simpa [Sys.fork, hm] using h.grepUnborn
  · simp
  · simpa [Sys.fork, ht] using h.created
  · simpa [Sys.fork, ht, TeePc.hand] using h.written
  · simpa [Sys.fork, ht, TeePc.owed] using h.sent
  · intro hd
    simp at hd
  · intro hk
    exact absurd (h.grepKilled hk) (by simp [ht])
  · intro hk
    simp at hk
  · intro he
    exact absurd (h.eof he).1 (by simp [ht])

theorem stepMain_inv (h : Inv out s) (hs : stepMain s = some s') : Inv out s' ∧ s'.work out < s.work out := by
  unfold stepMain at hs
  have hf := h.main
  cases hm : s.main with
  | fork =>
    rw [hm] at hs
    cases hs
    refine ⟨h.forks hm, ?_⟩
    have hu := h.grepUnborn.mpr (.inr hm)
    simp [Sys.work, Sys.fork, hm, hu, MainPc.work, GrepPc.work]
  | forkTee =>
    rw [hm] at hs
    cases hs
    refine ⟨h.forksTee hm, ?_⟩
    have ht := h.teeUnborn.mpr (by simp [hm])
    simp [Sys.work, Sys.fork, hm, ht, MainPc.work, TeePc.work]
  | command | exited =>
    rw [hm] at hs
    cases hs
  | exec =>
    rw [hm] at hs hf
    cases hs
    have hgoes := h.goes (q := .command) (by simp [hm]) (by simp [hm]) (hf (by simp)) (by simp [hm]) (by simp [hm])
    rw [setFds_same] at hgoes
    exact ⟨hgoes, by simp [Sys.work, hm, MainPc.work]⟩
  | pipe | closeFd1 | pipeNew | closeNewfd1 | dupStdin =>
    rw [hm] at hs hf
    cases hs
    refine ⟨h.goes (by simp [hm]) (by simp [hm]) ?_ (by simp [hm]) (by simp [hm]), ?_⟩
    · rw [hf (by simp)]
      funext d
      cases d <;> rfl
    · simp [Sys.work, Sys.pipe, Sys.close, Sys.dup2, hm, MainPc.work]

/-- grep goes on, and its descriptors change. -/
theorem Inv.grepGoes (h : Inv out s) (hu : s.grep ≠ .unborn) (hd : ¬ s.grep.Done) {g : GrepPc} (hg : g ≠ .unborn) {f : Fds}
    (hf : f = g.ends) (hheld : (s.setFds .grep f).held (.read .newfd) → s.held (.read .newfd)) (hleft : g.left out = s.grep.left out)
    (hk : (∃ rest, g = .killed rest) → ∃ c, s.tee = .killed c) : Inv out { s.setFds .grep f with grep := g } := by
  constructor
  · exact fun hc => (setFds_ne s .grep f (by decide)).trans (h.main hc)
  · intro hc d
    rw [setFds_ne s .grep f (by decide)]
    exact h.command hc d
  · exact (setFds_self s .grep f).trans hf
  · exact (setFds_ne s .grep f (by decide)).trans h.tee
  · exact ⟨fun hn => absurd hn hg, fun hn => absurd (h.grepUnborn.mpr hn) hu⟩
  · exact h.teeUnborn
  · exact h.created
  · exact hleft ▸ h.written
  · exact h.sent
  · exact fun ht => absurd (h.drained ht).2 hd
  · exact hk
  · exact fun ht hh => h.teeKilled ht (hheld hh)
  · intro he
    have hx := (h.eof he).2.2
    rw [hx] at hd
    exact absurd trivial hd

/-- Without a reader of the first pipe, the second child has been killed. -/
theorem Inv.no_reader (h : Inv out s) (hu : s.grep ≠ .unborn) (hd : ¬ s.grep.Done) (hr : ¬ s.held (.read .fd)) :
    ∃ c, s.tee = .killed c := by
  have hmain : s.main = .command ∨ s.main = .exited := by
    by_contra hm
    rw [Ne, h.grepUnborn] at hu
    refine hr ?_
    cases hc : s.main <;> simp [hc] at hm hu <;> exact h.main_held (d := .fd0) hc (by decide) (by decide)
  cases ht : s.tee with
  | killed c => exact ⟨c, rfl⟩
  | unborn =>
    rw [h.teeUnborn] at ht
    rcases hmain with hm | hm <;> simp [hm] at ht
  | exited => exact absurd (h.drained (.inr (.inr ht))).2 hd
  | _ =>
    refine absurd (held_of (p := .tee) (d := .fd0) ?_) hr
    rw [h.tee, ht]
    exact TeePc.Alive.fd0 trivial

/-- Bytes from grep are on their way. -/
theorem Inv.wrote (h : Inv out s) {rest : List UInt8} (hg : s.grep = .writing rest) :
    Inv out { s with bytes := Function.update s.bytes .fd (s.bytes .fd ++ rest.take n), grep := .writing (rest.drop n) } := by
  have hw := h.written
  constructor
  · exact h.main
  · exact h.command
  · exact h.grep.trans (hg ▸ rfl)
  · exact h.tee
  · exact ⟨fun hn => GrepPc.noConfusion hn, fun hn => absurd (h.grepUnborn.mpr hn) (by simp [hg])⟩
  · exact h.teeUnborn
  · exact h.created
  · simpa [hg, GrepPc.left] using hw
  · simpa using h.sent
  · exact fun hd => absurd (h.drained hd).2 (by simp [hg, GrepPc.Done])
  · intro hk
    simp at hk
  · exact h.teeKilled
  · exact fun he => absurd (h.eof he).2.2 (by simp [hg])

theorem stepGrep_inv (h : Inv out s) (hs : stepGrep cap out n s = some s') : Inv out s' ∧ s'.work out < s.work out := by
  unfold stepGrep at hs
  have hf := h.grep
  cases hg : s.grep with
  | unborn | exited | killed =>
    rw [hg] at hs
    cases hs
  | exec =>
    rw [hg] at hs hf
    cases hs
    have hgoes := h.grepGoes (g := .writing out) (f := s.fds .grep) (by simp [hg]) (by simp [hg, GrepPc.Done]) (by simp)
      hf (by rw [setFds_same]; exact id) (by simp [hg, GrepPc.left]) (by simp)
    rw [setFds_same] at hgoes
    exact ⟨hgoes, by simp [Sys.work, hg, GrepPc.work]⟩
  | closeFd0 =>
    rw [hg] at hs hf
    cases hs
    refine ⟨h.grepGoes (by simp [hg]) (by simp [hg, GrepPc.Done]) (by simp) ?_ held_close (by simp [hg, GrepPc.left])
      (by simp), ?_⟩
    · rw [hf]
      rfl
    · simp [Sys.work, Sys.close, hg, GrepPc.work]
  | dupStdout =>
    rw [hg] at hs hf
    cases hs
    refine ⟨h.grepGoes (by simp [hg]) (by simp [hg, GrepPc.Done]) (by simp) ?_ held_dup2 (by simp [hg, GrepPc.left])
      (by simp), ?_⟩
    · rw [hf]
      rfl
    · simp [Sys.work, Sys.dup2, hg, GrepPc.work]
  | writing rest =>
    rw [hg] at hs hf
    have hgone := fun g hn hf hl hk => h.grepGoes (g := g) (f := fun _ => none) (by simp [hg]) (by simp [hg, GrepPc.Done]) hn hf
      held_gone hl hk
    simp only at hs
    split at hs
    · rename_i hrest
      cases hs
      refine ⟨hgone .exited (by simp) rfl (by simp [hg, GrepPc.left, hrest]) (by simp), ?_⟩
      simp [Sys.work, Sys.gone, hg, GrepPc.work]
    · split at hs
      · rename_i hn
        obtain ⟨r, hw, rfl⟩ := Option.map_eq_some_iff.mp hs
        have hout : s.fds .grep .stdout = some (.write .fd) := by
          rw [hf]
          rfl
        unfold Sys.write at hw
        rw [hout] at hw
        simp only at hw
        split at hw
        · rename_i hr
          cases hw
          refine ⟨hgone (.killed rest) (by simp) rfl (by simp [hg, GrepPc.left]) fun _ => ?_, ?_⟩
          · exact h.no_reader (by simp [hg]) (by simp [hg, GrepPc.Done]) hr
          · simp [Sys.work, Sys.gone, hg, GrepPc.work]
        · split at hw
          · cases hw
            refine ⟨h.wrote hg, ?_⟩
            simp [Sys.work, hg, GrepPc.work]
            omega
          · cases hw
      · cases hs

/-- The second child has not opened the file. -/
def TeePc.Before (t : TeePc) : Prop := t = .unborn ∨ t = .closeNewfd0 ∨ t = .dupStdout ∨ t = .creat

/-- The second child goes on with its descriptors, and no byte moves. -/
theorem Inv.teeGoes (h : Inv out s) (ha : s.tee.Alive) {t : TeePc} (ht : t ≠ .unborn) {f : Fds} {o : Option (List UInt8)}
    (hf : f = t.ends) (hfile : o.getD [] = s.file.getD []) (hcr : o = none ↔ t.Before)
    (hhand : t.hand = s.tee.hand) (howed : t.owed = s.tee.owed)
    (hdr : t = .close ∨ t = .exit ∨ t = .exited → s.bytes .fd = [] ∧ s.grep.Done)
    (hk : (∃ c, t = .killed c) → ¬ (s.setFds .tee f).held (.read .newfd)) :
    Inv out { s.setFds .tee f with file := o, tee := t } := by
  have hu : s.tee ≠ .unborn := fun hu => by simp [hu, TeePc.Alive] at ha
  constructor
  · exact fun hc => (setFds_ne s .tee f (by decide)).trans (h.main hc)
  · intro hc d
    rw [setFds_ne s .tee f (by decide)]
    exact h.command hc d
  · exact (setFds_ne s .tee f (by decide)).trans h.grep
  · exact (setFds_self s .tee f).trans hf
  · exact h.grepUnborn
  · exact ⟨fun hn => absurd hn ht, fun hn => absurd (h.teeUnborn.mpr hn) hu⟩
  · exact hcr
  · simpa [hfile, hhand] using h.written
  · simpa [hfile, howed] using h.sent
  · exact hdr
  · intro hg
    obtain ⟨c, hc⟩ := h.grepKilled hg
    simp [hc, TeePc.Alive] at ha
  · exact hk
  · intro he
    have hx := (h.eof he).1
    simp [hx, TeePc.Alive] at ha

/-- The loop of the second child. -/
def TeePc.Copying : TeePc → Prop
  | .read | .toFile _ | .toPipe _ => True
  | _ => False

theorem TeePc.Copying.ends {t : TeePc} (h : t.Copying) : t.ends = TeePc.read.ends := by
  cases t <;> first | rfl | exact h.elim

/-- A step of the loop. -/
theorem Inv.copies (h : Inv out s) (hc : s.tee.Copying) {t : TeePc} (ht : t.Copying) {bytes : Pipe → List UInt8}
    {file : Option (List UInt8)} (hfile : file ≠ none) (hw : file.getD [] ++ t.hand ++ bytes .fd ++ s.grep.left out = out)
    (hs : s.got ++ bytes .newfd ++ t.owed = file.getD []) : Inv out { s with bytes := bytes, file := file, tee := t } := by
  have hnot : ∀ u : TeePc, ¬ u.Copying → s.tee ≠ u ∧ t ≠ u := fun u hu => ⟨fun he => hu (he ▸ hc), fun he => hu (he ▸ ht)⟩
  have hun := hnot .unborn id
  constructor
  · exact h.main
  · exact h.command
  · exact h.grep
  · exact h.tee.trans (hc.ends.trans ht.ends.symm)
  · exact h.grepUnborn
  · exact ⟨fun hn => absurd hn hun.2, fun hn => absurd (h.teeUnborn.mpr hn) hun.1⟩
  · refine ⟨fun hn => absurd hn hfile, ?_⟩
    rintro (hn | hn | hn | hn)
    · exact absurd hn hun.2
    · exact absurd hn (hnot .closeNewfd0 id).2
    · exact absurd hn (hnot .dupStdout id).2
    · exact absurd hn (hnot .creat id).2
  · exact hw
  · exact hs
  · rintro (hn | hn | hn)
    · exact absurd hn (hnot .close id).2
    · exact absurd hn (hnot .exit id).2
    · exact absurd hn (hnot .exited id).2
  · intro hg
    obtain ⟨c, hk⟩ := h.grepKilled hg
    exact absurd hk (hnot (.killed c) id).1
  · rintro ⟨c, hk⟩
    exact absurd hk (hnot (.killed c) id).2
  · exact fun he => absurd (h.eof he).1 (hnot .exited id).1

/-- At the end of the first pipe grep is done. -/
theorem Inv.no_writer (h : Inv out s) (ha : s.tee.Alive) (hw : ¬ s.held (.write .fd)) : s.grep.Done := by
  by_contra hd
  have hu : s.grep ≠ .unborn := by
    intro hu
    have hte := h.teeUnborn.mpr (by rcases h.grepUnborn.mp hu with hm | hm <;> simp [hm])
    simp [hte, TeePc.Alive] at ha
  refine hw (held_of (p := .grep) (d := .fd1) ?_)
  rw [h.grep]
  exact GrepPc.fd1 hu hd

theorem stepTee_inv (h : Inv out s) (hs : stepTee cap s = some s') : Inv out s' ∧ s'.work out < s.work out := by
  unfold stepTee at hs
  have hf := h.tee
  have hcr := h.created
  have hw := h.written
  have hsent := h.sent
  cases ht : s.tee with
  | unborn | exited | killed =>
    rw [ht] at hs
    cases hs
  | closeNewfd0 | dupStdout =>
    rw [ht] at hs hf
    cases hs
    refine ⟨h.teeGoes (by simp [ht, TeePc.Alive]) (by simp) ?_ rfl ?_ (by simp [ht, TeePc.hand]) (by simp [ht, TeePc.owed])
      (by simp) (by simp), ?_⟩
    · rw [hf]
      rfl
    · simpa [TeePc.Before, ht, Sys.close, Sys.dup2] using hcr
    · simp [Sys.work, Sys.close, Sys.dup2, ht, TeePc.work]
  | creat | «open» =>
    rw [ht] at hs hf
    cases hs
    simp [ht] at hcr
    refine ⟨h.teeGoes (by simp [ht, TeePc.Alive]) (by simp) ?_ ?_ ?_ (by simp [ht, TeePc.hand]) (by simp [ht, TeePc.owed])
      (by simp) (by simp), ?_⟩
    · rw [hf]
      rfl
    · simp [hcr]
    · simp [TeePc.Before, hcr]
    · simp [Sys.work, ht, TeePc.work]
  | read =>
    rw [ht] at hs hf hw hsent
    simp only [ht] at hcr
    obtain ⟨r, hr, rfl⟩ := Option.map_eq_some_iff.mp hs
    have hin : s.fds .tee .fd0 = some (.read .fd) := by
      rw [hf]
      rfl
    unfold Sys.read at hr
    rw [hin] at hr
    simp only at hr
    split at hr
    · rename_i hempty
      split at hr
      · cases hr
      · rename_i hno
        cases hr
        have hdone := h.no_writer (by simp [ht, TeePc.Alive]) hno
        have hgoes := h.teeGoes (t := .close) (f := s.fds .tee) (o := s.file) (by simp [ht, TeePc.Alive]) (by simp) hf rfl
          (by simpa [TeePc.Before] using hcr) (by simp [ht, TeePc.hand]) (by simp [ht, TeePc.owed])
          (fun _ => ⟨hempty, hdone⟩) (by simp)
        rw [setFds_same] at hgoes
        exact ⟨hgoes, by simp [Sys.work, ht, TeePc.work]⟩
    · rename_i hne
      cases hr
      obtain ⟨c, rest, hb⟩ := List.exists_cons_of_ne_nil hne
      simp only [hb, List.take_succ_cons, List.drop_succ_cons, List.drop_zero]
      refine ⟨h.copies (by simp [ht, TeePc.Copying]) (by simp [TeePc.Copying]) (by simpa using hcr) ?_ ?_, ?_⟩
      · simpa [hb, TeePc.hand] using hw
      · simpa [TeePc.owed] using hsent
      · simp [Sys.work, ht, hb, TeePc.work]
        omega
  | toFile c =>
    rw [ht] at hs hf hw hsent
    obtain ⟨r, hr, rfl⟩ := Option.map_eq_some_iff.mp hs
    have hout : s.fds .tee .file = some .output := by
      rw [hf]
      rfl
    unfold Sys.write at hr
    rw [hout] at hr
    cases hr
    refine ⟨h.copies (by simp [ht, TeePc.Copying]) (by simp [TeePc.Copying]) (by simp) ?_ ?_, ?_⟩
    · simpa [TeePc.hand] using hw
    · simp [TeePc.owed] at hsent
      simp [TeePc.owed, hsent]
    · simp [Sys.work, ht, TeePc.work]
  | toPipe c =>
    rw [ht] at hs hf hw hsent
    simp only [ht] at hcr
    obtain ⟨r, hr, rfl⟩ := Option.map_eq_some_iff.mp hs
    have hout : s.fds .tee .stdout = some (.write .newfd) := by
      rw [hf]
      rfl
    unfold Sys.write at hr
    rw [hout] at hr
    simp only at hr
    split at hr
    · rename_i hno
      cases hr
      refine ⟨h.teeGoes (by simp [ht, TeePc.Alive]) (by simp) rfl rfl ?_ (by simp [ht, TeePc.hand]) (by simp [ht, TeePc.owed])
        (by simp) fun _ hheld => hno (held_gone hheld), ?_⟩
      · simpa [TeePc.Before, Sys.gone] using hcr
      · simp [Sys.work, Sys.gone, ht, TeePc.work]
    · split at hr
      · cases hr
        refine ⟨h.copies (by simp [ht, TeePc.Copying]) (by simp [TeePc.Copying]) (by simpa using hcr) ?_ ?_, ?_⟩
        · simpa [TeePc.hand] using hw
        · simpa [TeePc.owed] using hsent
        · simp [Sys.work, ht, TeePc.work]
      · cases hr
  | close =>
    rw [ht] at hs hf
    cases hs
    have hdr := h.drained (.inl ht)
    refine ⟨h.teeGoes (by simp [ht, TeePc.Alive]) (by simp) ?_ rfl ?_ (by simp [ht, TeePc.hand]) (by simp [ht, TeePc.owed])
      (fun _ => hdr) (by simp), ?_⟩
    · rw [hf]
      funext d
      cases d <;> rfl
    · simpa [TeePc.Before, ht, Sys.close] using hcr
    · simp [Sys.work, Sys.close, ht, TeePc.work]
  | exit =>
    rw [ht] at hs
    cases hs
    have hdr := h.drained (.inr (.inl ht))
    refine ⟨h.teeGoes (by simp [ht, TeePc.Alive]) (by simp) rfl rfl ?_ (by simp [ht, TeePc.hand]) (by simp [ht, TeePc.owed])
      (fun _ => hdr) (by simp), ?_⟩
    · simpa [TeePc.Before, ht, Sys.gone] using hcr
    · simp [Sys.work, Sys.gone, ht, TeePc.work]

/-! ## The command -/

/-- The command has closed some descriptors, or is gone. -/
theorem Inv.leaves (h : Inv out s) (hm : s.main = .command) {q : MainPc} {f : Fds}
    (hf : (q = .command ∧ ∀ d, f d = none ∨ f d = s.fds .main d) ∨ (q = .exited ∧ f = fun _ => none)) :
    Inv out { s.setFds .main f with main := q } := by
  have hgrep := h.grepUnborn
  have htee := h.teeUnborn
  simp only [hm] at hgrep htee
  have hsub : ∀ d e, f d = some e → s.held e := by
    intro d e he
    rcases hf with ⟨-, hd⟩ | ⟨-, hn⟩
    · rcases hd d with hd | hd
      · simp [hd] at he
      · exact held_of (hd ▸ he)
    · simp [hn] at he
  constructor
  · intro hc
    rcases hf with ⟨hp, -⟩ | ⟨hp, hn⟩
    · exact absurd hp hc
    · rw [setFds_self, hn, hp]
      rfl
  · intro hc d
    rw [setFds_self]
    rcases hf with ⟨-, hd⟩ | ⟨hp, hn⟩
    · rcases hd d with hd | hd
      · exact .inl hd
      · exact hd ▸ h.command hm d
    · exact .inl (by rw [hn])
  · exact (setFds_ne s .main f (by decide)).trans h.grep
  · exact (setFds_ne s .main f (by decide)).trans h.tee
  · rcases hf with ⟨rfl, -⟩ | ⟨rfl, -⟩ <;> simpa using hgrep
  · rcases hf with ⟨rfl, -⟩ | ⟨rfl, -⟩ <;> simpa using htee
  · exact h.created
  · exact h.written
  · exact h.sent
  · exact h.drained
  · exact h.grepKilled
  · exact fun hk hh => h.teeKilled hk (held_setFds hsub hh)
  · exact h.eof

/-- At the end of the second pipe its writer has ended by itself, and so has grep. -/
theorem Inv.ended (h : Inv out s) (hm : s.main = .command) (hr : s.held (.read .newfd)) (hw : ¬ s.held (.write .newfd)) :
    s.tee = .exited ∧ s.grep = .exited := by
  have htee : s.tee = .exited := by
    cases ht : s.tee with
    | exited => rfl
    | unborn =>
      rw [h.teeUnborn] at ht
      simp [hm] at ht
    | killed c => exact absurd hr (h.teeKilled ⟨c, ht⟩)
    | _ =>
      refine absurd (held_of (p := .tee) (d := .newfd1) ?_) hw
      rw [h.tee, ht]
      exact TeePc.Alive.newfd1 trivial
  refine ⟨htee, ?_⟩
  have hdone := (h.drained (.inr (.inr htee))).2
  cases hg : s.grep with
  | exited => rfl
  | killed rest =>
    obtain ⟨c, hk⟩ := h.grepKilled ⟨rest, hg⟩
    simp [htee] at hk
  | _ => simp [hg, GrepPc.Done] at hdone

theorem take_inv (h : Inv out s) (hs : step cap out s (.take n) = some s') : Inv out s' ∧ s'.work out = s.work out := by
  unfold step at hs
  simp only at hs
  split at hs
  · rename_i hm
    obtain ⟨hm, hn⟩ := hm
    obtain ⟨r, hr, rfl⟩ := Option.map_eq_some_iff.mp hs
    have hsent := h.sent
    unfold Sys.read at hr
    rcases h.command hm .stdin with hin | hin
    · rw [hin] at hr
      cases hr
    · rw [hin] at hr
      rw [show MainPc.command.ends .stdin = some (.read .newfd) from rfl] at hr hin
      simp only at hr
      split at hr
      · rename_i hempty
        split at hr
        · cases hr
        · rename_i hno
          cases hr
          obtain ⟨htee, hgrep⟩ := h.ended hm (held_of hin) hno
          refine ⟨{ h with sent := ?_, eof := fun _ => ⟨htee, hempty, hgrep⟩ }, rfl⟩
          simpa using hsent
      · rename_i hne
        cases hr
        refine ⟨{ h with written := ?_, sent := ?_, drained := fun hd => ?_, eof := fun he => ?_ }, ?_⟩
        · simpa using h.written
        · simpa using hsent
        · simpa using h.drained hd
        · simp only [List.take_eq_nil_iff, Bool.or_eq_true, decide_eq_true_eq] at he
          rcases he with he | rfl | he
          · exact absurd (h.eof he).2.1 hne
          · exact absurd hn (Nat.lt_irrefl 0)
          · exact absurd he hne
        · simp [Sys.work]
  · cases hs

/-- A step keeps the invariant, and one of the program has its price. -/
theorem step_inv (h : Inv out s) {e : Ev} (hs : step cap out s e = some s') : Inv out s' ∧ s'.work out + e.own ≤ s.work out := by
  cases e with
  | main => exact stepMain_inv h hs
  | grep n => exact stepGrep_inv h hs
  | tee => exact stepTee_inv h hs
  | take n =>
    obtain ⟨hi, hw⟩ := take_inv h hs
    exact ⟨hi, Nat.le_of_eq hw⟩
  | drop d =>
    unfold step at hs
    simp only at hs
    split at hs
    · rename_i hm
      cases hs
      have hleft := h.leaves hm (q := .command) (f := (s.fds .main).set d none) (.inl ⟨rfl, fun d' => ?_⟩)
      · rw [← hm] at hleft
        exact ⟨hleft, Nat.le_refl _⟩
      · unfold Fds.set
        by_cases hd : d' = d <;> simp [hd]
    · cases hs
  | leave =>
    unfold step at hs
    simp only at hs
    split at hs
    · rename_i hm
      cases hs
      exact ⟨h.leaves hm (.inr ⟨rfl, rfl⟩), by simp [Sys.work, Sys.gone, Ev.own, hm, MainPc.work]⟩
    · cases hs

theorem reach_inv (h : (machine cap out).Reach Machine.any s) : Inv out s :=
  h.inv (Inv out) (by rintro _ rfl; exact boot_inv out) fun _ _ _ hi _ hs => (step_inv hi hs).1

/-- At the end of file everything is in the file, and has been read. -/
theorem Inv.at_eof (h : Inv out s) (he : s.eof = true) : s.got = out ∧ s.file = some out ∧ s.grep = .exited ∧ s.tee = .exited := by
  have hw := h.written
  have hs := h.sent
  have hcr := h.created
  obtain ⟨htee, hempty, hgrep⟩ := h.eof he
  have hbytes := (h.drained (.inr (.inr htee))).1
  simp only [htee] at hcr
  obtain ⟨file, hfile⟩ : ∃ file, s.file = some file := Option.ne_none_iff_exists'.mp (by simpa using hcr)
  rw [htee, hgrep, hbytes, hfile] at hw
  rw [htee, hempty, hfile] at hs
  simp [TeePc.hand, GrepPc.left, TeePc.owed] at hw hs
  exact ⟨hs.trans hw, by rw [hfile, hw], hgrep, htee⟩

/-- The command has read a beginning of the file, and that is a beginning of what grep writes; at the end of file it has
    read it all, it is all in the file, and the two others have ended by themselves. -/
theorem teed (h : (machine cap out).Reach Machine.any s) : s.got <+: s.file.getD [] ∧ s.file.getD [] <+: out ∧
    (s.eof = true → s.got = out ∧ s.file = some out ∧ s.grep = .exited ∧ s.tee = .exited) := by
  have hi := reach_inv h
  have hw := hi.written
  refine ⟨⟨_, (List.append_assoc ..).symm.trans hi.sent⟩, ⟨s.tee.hand ++ s.bytes .fd ++ s.grep.left out, ?_⟩, hi.at_eof⟩
  simpa using hw

/-- Two bytes through pipes of one byte, up to the second in the file. -/
def copying : List Ev :=
  [.main, .main, .main, .main, .main, .grep 0, .grep 0, .grep 0, .grep 1, .tee, .tee, .tee, .tee, .tee, .grep 1, .main, .main, .main,
    .tee, .tee, .take 4, .tee, .tee]

theorem teed_copying : ∃ s : Sys, (machine 1 [104, 105]).Run Machine.any boot copying s ∧ s.got = [104] ∧ s.file = some [104, 105] ∧
    s.got <+: s.file.getD [] ∧ s.file.getD [] <+: [104, 105] := by
  have hrun : (machine 1 [104, 105]).Run Machine.any boot copying _ := Machine.exec_run rfl
  obtain ⟨h1, h2, -⟩ := teed (hrun.reach (.init rfl))
  exact ⟨_, hrun, rfl, rfl, h1, h2⟩

/-! ## It comes to an end -/

/-- The command has its standard input, or will have it. -/
def Reading (s : Sys) : Prop := s.main ≠ .exited ∧ (s.main = .command → s.fds .main .stdin = some (.read .newfd))

theorem command_ends {d : Desc} {e : End} (he : MainPc.command.ends d = some e) : e = .terminal ∨ e = .read .fd ∨ e = .read .newfd := by
  revert he
  cases d <;> rintro ⟨⟩ <;> simp

theorem TeePc.ends_not (t : TeePc) (d : Desc) : t.ends d ≠ some (.write .fd) := by
  cases t <;> cases d <;> exact fun he => by simp [TeePc.ends, MainPc.ends, Fds.set, opened] at he

theorem GrepPc.ends_not (g : GrepPc) (d : Desc) : g.ends d ≠ some (.write .newfd) ∧ g.ends d ≠ some (.read .newfd) := by
  cases g <;> cases d <;> simp [GrepPc.ends, MainPc.ends, Fds.set, opened]

/-- Once main is the command, it writes into no pipe. -/
theorem Inv.main_ends (h : Inv out s) (hm : s.main = .command ∨ s.main = .exited) {d : Desc} {e : End}
    (he : s.fds .main d = some e) : s.main = .command ∧ (e = .terminal ∨ e = .read .fd ∨ e = .read .newfd) := by
  rcases hm with hm | hm
  · rcases h.command hm d with hd | hd
    · simp [hd] at he
    · exact ⟨hm, command_ends (hd ▸ he)⟩
  · rw [h.main (by simp [hm]), hm] at he
    cases he

/-- Who may write into the first pipe then is grep, and it can. -/
theorem Inv.grep_moves (h : Inv out s) (hcap : 0 < cap) (hm : s.main = .command ∨ s.main = .exited) (hd : ¬ s.grep.Done)
    (hroom : ∀ rest, s.grep = .writing rest → s.held (.read .fd) → s.bytes .fd = []) :
    ∃ s', step cap out s (.grep 1) = some s' := by
  have hf := h.grep
  unfold step stepGrep
  cases hg : s.grep with
  | unborn =>
    rw [h.grepUnborn] at hg
    rcases hm with hm | hm <;> simp [hm] at hg
  | exited | killed => simp [hg, GrepPc.Done] at hd
  | closeFd0 | dupStdout | exec => exact ⟨_, rfl⟩
  | writing rest =>
    have hout : s.fds .grep .stdout = some (.write .fd) := by
      rw [hf, hg]
      rfl
    simp only
    split
    · exact ⟨_, rfl⟩
    · rename_i hne
      have hlen : 1 ≤ rest.length := List.length_pos_iff.mpr hne
      unfold Sys.write
      rw [if_pos ⟨Nat.one_pos, hlen⟩, hout]
      simp only
      by_cases hr : s.held (.read .fd)
      · rw [if_neg (not_not.mpr hr), hroom rest hg hr, if_pos (by simp; omega)]
        exact ⟨_, rfl⟩
      · rw [if_pos hr]
        exact ⟨_, rfl⟩

/-- The second child moves, or waits for grep, which moves. -/
theorem Inv.tee_moves (h : Inv out s) (hcap : 0 < cap) (hm : s.main = .command ∨ s.main = .exited) (ha : s.tee.Alive)
    (hroom : s.main = .command → s.bytes .newfd = []) : ∃ e s', 0 < e.own ∧ step cap out s e = some s' := by
  have hf := h.tee
  cases ht : s.tee with
  | unborn | exited | killed => simp [ht, TeePc.Alive] at ha
  | closeNewfd0 | dupStdout | creat | «open» | close | exit =>
    exact ⟨.tee, by simp [step, stepTee, ht, Ev.own]⟩
  | toFile c =>
    have hout : s.fds .tee .file = some .output := by
      rw [hf, ht]
      rfl
    exact ⟨.tee, by simp [step, stepTee, ht, Ev.own, Sys.write, hout]⟩
  | toPipe c =>
    have hout : s.fds .tee .stdout = some (.write .newfd) := by
      rw [hf, ht]
      rfl
    refine ⟨.tee, ?_⟩
    unfold step stepTee Sys.write
    simp only [ht, hout]
    by_cases hr : s.held (.read .newfd)
    · have hcom : s.main = .command := by
        obtain ⟨pid, d, hd⟩ := held_iff.mp hr
        cases pid with
        | main => exact (h.main_ends hm hd).1
        | grep => exact absurd (h.grep ▸ hd) (s.grep.ends_not d).2
        | tee =>
          rw [hf, ht] at hd
          cases d <;> simp [TeePc.ends, MainPc.ends, Fds.set, opened] at hd
      rw [if_neg (not_not.mpr hr), hroom hcom, if_pos (by simp; omega)]
      exact ⟨_, Nat.one_pos, rfl⟩
    · rw [if_pos hr]
      exact ⟨_, Nat.one_pos, rfl⟩
  | read =>
    have hin : s.fds .tee .fd0 = some (.read .fd) := by
      rw [hf, ht]
      rfl
    by_cases hempty : s.bytes .fd = []
    · by_cases hw : s.held (.write .fd)
      · have hd : ¬ s.grep.Done := by
          intro hd
          obtain ⟨pid, d, hp⟩ := held_iff.mp hw
          cases pid with
          | main =>
            have hends := (h.main_ends hm hp).2
            simp at hends
          | tee => exact s.tee.ends_not d (hf ▸ hp)
          | grep =>
            rw [h.grep] at hp
            cases hg : s.grep <;> simp [hg, GrepPc.Done] at hd <;> simp [hg, GrepPc.ends] at hp
        obtain ⟨s', hs⟩ := h.grep_moves hcap hm hd fun _ _ _ => hempty
        exact ⟨.grep 1, s', Nat.one_pos, hs⟩
      · exact ⟨.tee, by simp [step, stepTee, ht, Ev.own, Sys.read, hin, hempty, hw]⟩
    · exact ⟨.tee, by simp [step, stepTee, ht, Ev.own, Sys.read, hin, hempty]⟩

/-- Bytes that move leave the command as it is. -/
structure Same (s t : Sys) : Prop where
  main : t.main = s.main
  fds : t.fds .main = s.fds .main
  got : t.got = s.got
  eof : t.eof = s.eof

theorem write_same {pid : Pid} {d : Desc} {bytes : List UInt8} {r : Sys × Bool} (hw : s.write pid d bytes cap = some r) : Same s r.1 := by
  unfold Sys.write at hw
  split at hw
  · split at hw
    · cases hw
      exact ⟨rfl, rfl, rfl, rfl⟩
    · split at hw
      · cases hw
        exact ⟨rfl, rfl, rfl, rfl⟩
      · cases hw
  · cases hw
    exact ⟨rfl, rfl, rfl, rfl⟩
  · cases hw

theorem read_same {pid : Pid} {d : Desc} {r : Sys × List UInt8} (hr : s.read pid d n = some r) : Same s r.1 := by
  unfold Sys.read at hr
  split at hr
  · split at hr
    · split at hr
      · cases hr
      · cases hr
        exact ⟨rfl, rfl, rfl, rfl⟩
    · cases hr
      exact ⟨rfl, rfl, rfl, rfl⟩
  · cases hr

theorem Same.setFds {t : Sys} (h : Same s t) {p : Pid} (hp : p ≠ .main) (f : Fds) : Same s (t.setFds p f) :=
  ⟨h.main, (setFds_ne t p f (Ne.symm hp)).trans h.fds, h.got, h.eof⟩

theorem Same.withGrep {t : Sys} (h : Same s t) (g : GrepPc) : Same s { t with grep := g } := ⟨h.main, h.fds, h.got, h.eof⟩

theorem Same.withTee {t : Sys} (h : Same s t) (file : Option (List UInt8)) (u : TeePc) : Same s { t with file := file, tee := u } :=
  ⟨h.main, h.fds, h.got, h.eof⟩

theorem stepGrep_same (hs : stepGrep cap out n s = some s') : Same s s' := by
  have hown := fun f => Same.setFds (s := s) ⟨rfl, rfl, rfl, rfl⟩ (p := .grep) (by decide) f
  unfold stepGrep at hs
  cases hg : s.grep with
  | unborn | exited | killed =>
    rw [hg] at hs
    cases hs
  | closeFd0 | dupStdout =>
    rw [hg] at hs
    cases hs
    exact (hown _).withGrep _
  | exec =>
    rw [hg] at hs
    cases hs
    exact ⟨rfl, rfl, rfl, rfl⟩
  | writing rest =>
    rw [hg] at hs
    simp only at hs
    split at hs
    · cases hs
      exact (hown _).withGrep _
    · split at hs
      · obtain ⟨r, hw, rfl⟩ := Option.map_eq_some_iff.mp hs
        have hsame := write_same hw
        split
        · exact (hsame.setFds (by decide) _).withGrep _
        · exact hsame.withGrep _
      · cases hs

theorem stepTee_same (hs : stepTee cap s = some s') : Same s s' := by
  have hown := fun f => Same.setFds (s := s) ⟨rfl, rfl, rfl, rfl⟩ (p := .tee) (by decide) f
  unfold stepTee at hs
  cases ht : s.tee with
  | unborn | exited | killed =>
    rw [ht] at hs
    cases hs
  | closeNewfd0 | dupStdout | creat | «open» | close | exit =>
    rw [ht] at hs
    cases hs
    exact (hown _).withTee _ _
  | read =>
    rw [ht] at hs
    obtain ⟨r, hr, rfl⟩ := Option.map_eq_some_iff.mp hs
    have hsame := read_same hr
    cases r.2 <;> exact hsame.withTee _ _
  | toFile c =>
    rw [ht] at hs
    obtain ⟨r, hw, rfl⟩ := Option.map_eq_some_iff.mp hs
    exact (write_same hw).withTee _ _
  | toPipe c =>
    rw [ht] at hs
    obtain ⟨r, hw, rfl⟩ := Option.map_eq_some_iff.mp hs
    have hsame := write_same hw
    cases r.2
    · exact hsame.withTee _ _
    · exact (hsame.setFds (by decide) _).withTee _ _

/-- The program's own steps leave it to the command what it has read, and its standard input. -/
theorem own_same (h : Inv out s) {e : Ev} (ho : 0 < e.own) (hs : step cap out s e = some s') :
    s'.got = s.got ∧ s'.eof = s.eof ∧ (s.main = .exited → s'.main = .exited) ∧ (Reading s → Reading s') := by
  cases e with
  | take n | drop d | leave => cases ho
  | grep n =>
    obtain ⟨hm, hf, hg, he⟩ := stepGrep_same hs
    unfold Reading
    rw [hm, hf]
    exact ⟨hg, he, id, id⟩
  | tee =>
    obtain ⟨hm, hf, hg, he⟩ := stepTee_same hs
    unfold Reading
    rw [hm, hf]
    exact ⟨hg, he, id, id⟩
  | main =>
    have hf := h.main
    unfold step stepMain at hs
    cases hm : s.main with
    | command | exited =>
      rw [hm] at hs
      cases hs
    | exec =>
      rw [hm] at hs hf
      cases hs
      refine ⟨rfl, rfl, fun hx => MainPc.noConfusion hx, fun _ => ⟨fun hx => MainPc.noConfusion hx, fun _ => ?_⟩⟩
      show s.fds .main .stdin = _
      rw [hf (by simp)]
      rfl
    | _ =>
      rw [hm] at hs
      cases hs
      exact ⟨rfl, rfl, fun hx => MainPc.noConfusion hx, fun _ => ⟨fun hx => MainPc.noConfusion hx, fun hx => MainPc.noConfusion hx⟩⟩

/-- Before the command runs main moves. -/
theorem main_moves (cap : Nat) (out : List UInt8) (hc : s.main ≠ .command) (hx : s.main ≠ .exited) :
    ∃ s', step cap out s .main = some s' := by
  unfold step stepMain
  cases hm : s.main with
  | command => exact absurd hm hc
  | exited => exact absurd hm hx
  | _ => exact ⟨_, rfl⟩

/-- What there is to do, with the bytes that the command has not read. -/
def Sys.ahead (out : List UInt8) (s : Sys) : Nat := s.work out + (out.length - s.got.length) + if s.eof then 0 else 1

theorem Inv.got_le (h : Inv out s) : s.got.length ≤ out.length := by
  have hw := congrArg List.length h.written
  have hs := congrArg List.length h.sent
  simp only [List.length_append] at hw hs
  omega

theorem own_ahead (h : Inv out s) {e : Ev} (ho : 0 < e.own) (hs : step cap out s e = some s') : s'.ahead out < s.ahead out := by
  obtain ⟨-, hw⟩ := step_inv h hs
  obtain ⟨hg, he, -⟩ := own_same h ho hs
  unfold Sys.ahead
  rw [hg, he]
  omega

/-- Without the second child nobody writes into the second pipe. -/
theorem Inv.no_sender (h : Inv out s) (hm : s.main = .command ∨ s.main = .exited) (ha : ¬ s.tee.Alive) : ¬ s.held (.write .newfd) := by
  intro hw
  obtain ⟨pid, d, hp⟩ := held_iff.mp hw
  cases pid with
  | main =>
    have hends := (h.main_ends hm hp).2
    simp at hends
  | grep => exact (s.grep.ends_not d).1 (h.grep ▸ hp)
  | tee =>
    rw [h.tee] at hp
    cases ht : s.tee <;> simp [ht, TeePc.Alive] at ha <;> simp [ht, TeePc.ends] at hp

/-- A command that reads comes closer to the end of file. -/
theorem Inv.reading_moves (h : Inv out s) (hcap : 0 < cap) (hr : Reading s) : s.eof = true ∨ ∃ e s', step cap out s e = some s' ∧
    Reading s' ∧ s'.ahead out < s.ahead out := by
  by_cases hm : s.main = .command
  · have hin := hr.2 hm
    have htake : ∀ r, s.read .main .stdin 1 = some r →
        step cap out s (.take 1) = some { r.1 with got := s.got ++ r.2, eof := s.eof || r.2 = [] } := by
      intro r hread
      unfold step
      simp only [hm, hread]
      rfl
    by_cases hempty : s.bytes .newfd = []
    · by_cases ha : s.tee.Alive
      · obtain ⟨e, s', ho, hs⟩ := h.tee_moves hcap (.inl hm) ha fun _ => hempty
        obtain ⟨-, -, -, hk⟩ := own_same h ho hs
        exact .inr ⟨e, s', hs, hk hr, own_ahead h ho hs⟩
      · cases he : s.eof with
        | true => exact .inl rfl
        | false =>
          have hno := h.no_sender (.inl hm) ha
          have hread : s.read .main .stdin 1 = some (s, []) := by
            unfold Sys.read
            rw [hin]
            simp only [hempty, hno, if_true, if_false]
          refine .inr ⟨.take 1, _, htake _ hread, ⟨by simp [hm], fun _ => hin⟩, ?_⟩
          simp [Sys.ahead, Sys.work, he]
    · have hread : s.read .main .stdin 1 =
          some ({ s with bytes := Function.update s.bytes .newfd ((s.bytes .newfd).drop 1) }, (s.bytes .newfd).take 1) := by
        unfold Sys.read
        rw [hin]
        simp only [hempty, if_false]
      have hstep := htake _ hread
      have hle := (take_inv h hstep).1.got_le
      refine .inr ⟨.take 1, _, hstep, ⟨by simp [hm], fun _ => hin⟩, ?_⟩
      obtain ⟨c, rest, hb⟩ := List.exists_cons_of_ne_nil hempty
      simp [hb] at hle
      simp [Sys.ahead, Sys.work, hb]
      omega
  · obtain ⟨s', hs⟩ := main_moves cap out hm hr.1
    obtain ⟨-, -, -, hk⟩ := own_same h (e := .main) Nat.one_pos hs
    exact .inr ⟨.main, s', hs, hk hr, own_ahead h (e := .main) Nat.one_pos hs⟩

/-- When the command is gone, the two others move until they are done. -/
theorem Inv.exited_moves (h : Inv out s) (hcap : 0 < cap) (hx : s.main = .exited) : (s.grep.Done ∧ ¬ s.tee.Alive) ∨
    ∃ e s', step cap out s e = some s' ∧ s'.main = .exited ∧ s'.work out < s.work out := by
  have hmove : ∀ {e s'}, 0 < e.own → step cap out s e = some s' → s'.main = .exited ∧ s'.work out < s.work out := by
    intro e s' ho hs
    have hw := (step_inv h hs).2
    exact ⟨(own_same h ho hs).2.2.1 hx, by omega⟩
  by_cases ha : s.tee.Alive
  · obtain ⟨e, s', ho, hs⟩ := h.tee_moves hcap (.inr hx) ha fun hm => by simp [hx] at hm
    exact .inr ⟨e, s', hs, hmove ho hs⟩
  · by_cases hd : s.grep.Done
    · exact .inl ⟨hd, ha⟩
    · -- nobody reads from the first pipe any more
      obtain ⟨s', hs⟩ := h.grep_moves hcap (.inr hx) hd fun rest hg hr => by
        obtain ⟨pid, d, hp⟩ := held_iff.mp hr
        cases pid with
        | main => exact absurd (h.main_ends (.inr hx) hp).1 (by simp [hx])
        | grep =>
          rw [h.grep, hg] at hp
          cases d <;> simp [GrepPc.ends, MainPc.ends, Fds.set, opened] at hp
        | tee =>
          rw [h.tee] at hp
          cases ht : s.tee <;> simp [ht, TeePc.Alive] at ha <;> simp [ht, TeePc.ends] at hp
      exact .inr ⟨.grep 1, s', hs, hmove (e := .grep 1) Nat.one_pos hs⟩

/-- Every run has at most `4 * n + 19` steps of the program, of `n` bytes that grep writes. A command that reads on has, from
    every state, a run to the end of file; and when it has gone there is one in which the two others end. -/
theorem comes_through (hcap : 0 < cap) (h : (machine cap out).Reach Machine.any s) :
    (∀ es t, (machine cap out).Run Machine.any boot es t → (es.map Ev.own).sum ≤ 4 * out.length + 19) ∧
      (Reading s → ∃ es t, (machine cap out).Run Machine.any s es t ∧ t.eof = true ∧ t.got = out ∧ t.file = some out ∧
        t.grep = .exited ∧ t.tee = .exited) ∧
      (s.main = .exited → ∃ es t, (machine cap out).Run Machine.any s es t ∧ t.grep.Done ∧ ¬ t.tee.Alive) := by
  have hi := reach_inv h
  refine ⟨fun es t hr => ?_, fun hr => ?_, fun hx => ?_⟩
  · have hpaid := (hr.amortized (I := Inv out) (Sys.work out) Ev.own (fun _ => 0)
      (fun s e t hi _ hs => step_inv hi hs) (boot_inv out)).2
    have hzero : (es.map fun _ => 0).sum = 0 := by simp
    have hboot : boot.work out = 4 * out.length + 19 := by
      simp [Sys.work, boot, MainPc.work, GrepPc.work, TeePc.work]
      omega
    omega
  · have hdrain : ∃ es t, (machine cap out).Run Machine.any s es t ∧ (Inv out t ∧ Reading t) ∧ t.eof = true := by
      refine Machine.drain (I := fun s => Inv out s ∧ Reading s) (Sys.ahead out) (fun s hs => ?_) ⟨hi, hr⟩
      obtain ⟨hi, hr⟩ := hs
      rcases hi.reading_moves hcap hr with he | ⟨e, s', hs, hr', hlt⟩
      · exact .inl he
      · exact .inr ⟨[e], s', .cons trivial hs (.nil s'), ⟨(step_inv hi hs).1, hr'⟩, hlt⟩
    obtain ⟨es, t, hrun, ⟨hti, -⟩, ht⟩ := hdrain
    exact ⟨es, t, hrun, ht, hti.at_eof ht⟩
  · have hdrain : ∃ es t, (machine cap out).Run Machine.any s es t ∧ (Inv out t ∧ t.main = .exited) ∧
        t.grep.Done ∧ ¬ t.tee.Alive := by
      refine Machine.drain (I := fun s => Inv out s ∧ s.main = .exited) (Sys.work out) (fun s hs => ?_) ⟨hi, hx⟩
      obtain ⟨hi, hx⟩ := hs
      rcases hi.exited_moves hcap hx with he | ⟨e, s', hs, hx', hlt⟩
      · exact .inl he
      · exact .inr ⟨[e], s', .cons trivial hs (.nil s'), ⟨(step_inv hi hs).1, hx'⟩, hlt⟩
    obtain ⟨es, t, hrun, -, ht⟩ := hdrain
    exact ⟨es, t, hrun, ht⟩

/-- From the second byte in the file on. -/
theorem comes_through_copying : ∃ s : Sys, s.got = [104] ∧ ∃ es t, (machine 1 [104, 105]).Run Machine.any s es t ∧ t.eof = true ∧
    t.got = [104, 105] ∧ t.file = some [104, 105] := by
  have hrun : (machine 1 [104, 105]).Run Machine.any boot copying _ := Machine.exec_run rfl
  obtain ⟨-, hreads, -⟩ := comes_through Nat.one_pos (hrun.reach (.init rfl))
  obtain ⟨es, t, hrest, heof, hgot, hfile, -⟩ := hreads ⟨by decide, fun _ => rfl⟩
  exact ⟨_, rfl, es, t, hrest, heof, hgot, hfile⟩

end

end Cs330.Tee
