/-
  Cs330.Tree.Sizes — the sizes of a directory's subdirectories and of itself
  (Assignment1/Part_3/src/part3.c).

  main forks for each subdirectory; the child calls `recurse`, prints its line, and sends
  the size through a pipe. `recurse` adds up in a long long and returns an int, so at every
  level below main's own the sum keeps its low 32 bits only (`recurse_spec`); the pipe and
  main's own sum are of 64 bits. Proved: the lines are all right if and only if no
  immediate subdirectory has 2^31 bytes or more (`lines_right_iff`); `wrapped_total` is one
  that has.

  What the system gives is `World`: the tree, and for each directory the order in which
  readdir lists it. A process is in a path of the tree, and chdir moves it. The parent
  waits in read for what the child writes after its line is out, so the lines come in the
  order of the forks. Whether a pipe or a fork succeeds is `System`; the other calls
  (opendir, open, read, write) succeed.
-/
import Cs330.Hash.Input
import Cs330.Lib.CInt
import Mathlib.Algebra.BigOperators.Ring.Finset
import Mathlib.Algebra.Order.BigOperators.Group.List

namespace Cs330.Tree

open Lib.CInt

abbrev Name := List UInt8
abbrev Path := List Name

/-- `.` and `..` -/
def dot : Name := [46]
def dotdot : Name := [46, 46]

inductive Node where
  | file (size : Nat)
  | dir (names : List Name) (child : Name → Node)

namespace Node

/-- The sizes of all files below, added up. -/
def total : Node → Nat
  | file size => size
  | dir names child => (names.map fun name => (child name).total).sum

def depth : Node → Nat
  | file _ => 0
  | dir names child => (names.map fun name => (child name).depth).foldr max 0 + 1

def isDir : Node → Bool
  | file _ => false
  | dir .. => true

/-- What is at a path below. -/
def find : Node → Path → Option Node
  | n, [] => some n
  | file _, _ :: _ => none
  | dir names child, name :: path => if name ∈ names then (child name).find path else none

/-- No directory has two entries of one name, or one called `.` or `..`. -/
def Proper : Node → Prop
  | file _ => True
  | dir names child => names.Nodup ∧ dot ∉ names ∧ dotdot ∉ names ∧ ∀ name ∈ names, (child name).Proper

end Node

/-- The tree under the directory the program is given, and what readdir makes of it. -/
structure World where
  root : Node
  listing : Path → List Name
  proper : root.Proper
  readdir : ∀ path names child, root.find path = some (.dir names child) → (listing path).Perm (dot :: dotdot :: names)

/-! ## The program -/

namespace World

variable (w : World)

def chdir (cwd : Path) (dir : Name) : Path :=
  if dir = dotdot then cwd.dropLast
  else
    match w.root.find (cwd ++ [dir]) with
    | some (.dir ..) => cwd ++ [dir]
    | _ => cwd

def isDir (cwd : Path) (loc : Name) : Bool :=
  match w.root.find (cwd ++ [loc]) with
  | some n => n.isDir
  | none => false

/-- `lseek(open(name, O_RDONLY), 0, SEEK_END)` -/
def fileSize (cwd : Path) (name : Name) : Int :=
  match w.root.find (cwd ++ [name]) with
  | some (.file size) => size
  | _ => -1

/-- The size that `recurse` returns, and the directory it comes back to. -/
def recurse : Nat → Path → Name → Option (Int × Path)
  | 0, _, _ => none
  | fuel + 1, cwd, dir => do
    let cwd := w.chdir cwd dir
    let r ← (w.listing cwd).foldlM (fun (s : Int × Path) name =>
      if name = dot ∨ name = dotdot then some s
      else if w.isDir s.2 name then do
        let r ← recurse fuel s.2 name
        return (int64 (s.1 + r.1), r.2)
      else some (int64 (s.1 + w.fileSize s.2 name), s.2)) (0, cwd)
    return (int32 r.1, w.chdir r.2 dotdot)

end World

/-- Which calls of pipe and fork succeed, by their number. -/
structure System where
  pipe : Nat → Bool
  fork : Nat → Bool

inductive Out where
  /-- `printf("%s %lld\n", name, size)` -/
  | line (name : Name) (size : Int)
  | text (s : String)
  deriving DecidableEq

/-- What is on stdout when the program is done, and its status. -/
structure Exit where
  out : List Out
  status : Nat
  deriving DecidableEq

def extract (path : Name) : Name :=
  let reversed := if path.getLast? = some 47 then path.dropLast.reverse else path.reverse
  (reversed.takeWhile (· ≠ 47)).reverse

namespace World

variable (w : World)

/-- The child process of a subdirectory: its output, and what it writes into the pipe. -/
def child (fuel : Nat) (name : Name) : Option (List Out × List UInt8) := do
  let r ← w.recurse fuel [] name
  let thisSize := int64 r.1
  return ([.line name thisSize], Hash.leBytes 8 (u64 thisSize))

/-- `read(fd[0], &tp, sizeof(tp))` -/
def received (bytes : List UInt8) : Int := int64 (Hash.leAt bytes 0 8)

structure State where
  ans : Int
  out : List Out
  forks : Nat

/-- The loop of main over what readdir has left, and the last line. -/
def mainLoop (sys : System) (fuel : Nat) (path : Name) : List Name → State → Option Exit
  | [], s => some ⟨s.out ++ [.line (extract path) s.ans], 0⟩
  | name :: rest, s =>
    if name = dot ∨ name = dotdot then mainLoop sys fuel path rest s
    else if w.isDir [] name then
      if !sys.pipe s.forks then some ⟨s.out ++ [.text "Error in pipe occured\n"], 1⟩
      else if !sys.fork s.forks then some ⟨s.out, 1⟩
      else do
        let c ← w.child fuel name
        mainLoop sys fuel path rest ⟨int64 (s.ans + received c.2), s.out ++ c.1, s.forks + 1⟩
    else mainLoop sys fuel path rest { s with ans := int64 (s.ans + w.fileSize [] name) }

def main (sys : System) (fuel : Nat) : List Name → Option Exit
  | [path] => w.mainLoop sys fuel path (w.listing []) ⟨0, [], 0⟩
  | _ => some ⟨[.text "You should enter only 1 argument"], 1⟩

end World

/-! ## Paths -/

namespace Node

theorem find_cons (names : List Name) (child : Name → Node) (name : Name) (path : Path) :
    (dir names child).find (name :: path) = if name ∈ names then (child name).find path else none := rfl

theorem find_append (n : Node) (p q : Path) : n.find (p ++ q) = (n.find p).bind (·.find q) := by
  induction p generalizing n with
  | nil => cases n <;> rfl
  | cons name p ih =>
    cases n with
    | file size => rfl
    | dir names child =>
      by_cases h : name ∈ names
      · simp only [List.cons_append, find_cons, if_pos h, ih]
      · simp only [List.cons_append, find_cons, if_neg h, Option.bind_none]

theorem find_entry {n : Node} {p : Path} {names : List Name} {child : Name → Node} (h : n.find p = some (.dir names child))
    {name : Name} (hname : name ∈ names) : n.find (p ++ [name]) = some (child name) := by
  rw [find_append, h, Option.bind_some, find_cons, if_pos hname]
  cases child name <;> rfl

theorem Proper.find {n m : Node} (hn : n.Proper) {p : Path} (h : n.find p = some m) : m.Proper := by
  induction p generalizing n with
  | nil =>
    cases n <;> cases h <;> exact hn
  | cons name p ih =>
    cases n with
    | file size => cases h
    | dir names child =>
      rw [find_cons] at h
      split at h
      · rename_i hmem
        exact ih (hn.2.2.2 name hmem) h
      · cases h

theorem le_foldr_max {l : List Nat} {k : Nat} (h : k ∈ l) : k ≤ l.foldr max 0 := by
  induction l with
  | nil => cases h
  | cons a l ih =>
    rw [List.foldr_cons]
    rcases List.mem_cons.mp h with rfl | h
    · exact Nat.le_max_left _ _
    · exact Nat.le_trans (ih h) (Nat.le_max_right _ _)

theorem depth_entry {names : List Name} {child : Name → Node} {name : Name} (h : name ∈ names) :
    (child name).depth < (Node.dir names child).depth := by
  have hle := le_foldr_max (List.mem_map_of_mem (f := fun name => (child name).depth) h)
  show (child name).depth < (names.map fun name => (child name).depth).foldr max 0 + 1
  exact Nat.lt_succ_of_le hle

end Node

/-! ## Numbers -/

theorem int32_of_mod {x y : Int} (h : x % 2 ^ 32 = y % 2 ^ 32) : int32 x = int32 y := by
  unfold int32
  omega

theorem int64_mod (x : Int) : int64 x % 2 ^ 32 = x % 2 ^ 32 := by
  unfold int64
  omega

theorem int32_mod (x : Int) : int32 x % 2 ^ 32 = x % 2 ^ 32 := by
  unfold int32
  omega

theorem int64_add (x y : Int) : int64 (int64 x + y) = int64 (x + y) := by
  unfold int64
  omega

theorem int64_int32 (x : Int) : int64 (int32 x) = int32 x := by
  unfold int64 int32
  omega

theorem sum_mod {α : Type} {f g : α → Int} {m : Int} {l : List α} (h : ∀ x ∈ l, f x % m = g x % m) :
    (l.map f).sum % m = (l.map g).sum % m := by
  induction l with
  | nil => rfl
  | cons x l ih =>
    simp only [List.map_cons, List.sum_cons]
    rw [Int.add_emod, h x List.mem_cons_self, ih fun y hy => h y (List.mem_cons_of_mem _ hy), ← Int.add_emod]

/-- A long long sent as its eight bytes. -/
theorem received_sent (x : Int) : World.received (Hash.leBytes 8 (u64 x)) = int64 x := by
  have h := Hash.leAt_leBytes 8 (u64 x) [] (by unfold u64; omega)
  rw [List.append_nil] at h
  unfold World.received
  rw [h]
  unfold int64 u64
  omega

/-! ## recurse -/

/-- What an entry of a directory adds to the exact sum. -/
def exactOf (child : Name → Node) (name : Name) : Int := if name = dot ∨ name = dotdot then 0 else (child name).total

/-- What it adds to the program's. -/
def countedOf (child : Name → Node) (name : Name) : Int :=
  if name = dot ∨ name = dotdot then 0
  else if (child name).isDir then int32 (child name).total else (child name).total

theorem countedOf_mod (child : Name → Node) (name : Name) : countedOf child name % 2 ^ 32 = exactOf child name % 2 ^ 32 := by
  unfold countedOf exactOf
  split
  · rfl
  split
  · exact int32_mod _
  · rfl

namespace World

variable {w : World} {p : Path} {names : List Name} {child : Name → Node}

theorem proper_at (h : w.root.find p = some (.dir names child)) : (Node.dir names child).Proper := w.proper.find h

theorem mem_listing (h : w.root.find p = some (.dir names child)) {name : Name} :
    name ∈ w.listing p ↔ name = dot ∨ name = dotdot ∨ name ∈ names := by
  rw [(w.readdir p names child h).mem_iff]
  simp

theorem not_dots (h : w.root.find p = some (.dir names child)) {name : Name} (hname : name ∈ names) :
    ¬ (name = dot ∨ name = dotdot) := by
  obtain ⟨-, hdot, hdotdot, -⟩ := proper_at h
  rintro (rfl | rfl)
  · exact hdot hname
  · exact hdotdot hname

/-- The exact sizes of what is listed add up to the directory's total. -/
theorem sum_exact (h : w.root.find p = some (.dir names child)) :
    ((w.listing p).map (exactOf child)).sum = (Node.dir names child).total := by
  rw [((w.readdir p names child h).map (exactOf child)).sum_eq]
  have hnames : names.map (exactOf child) = names.map fun name => ((child name).total : Int) := by
    refine List.map_congr_left fun name hname => ?_
    unfold exactOf
    rw [if_neg (not_dots h hname)]
  simp only [List.map_cons, List.sum_cons, hnames]
  rw [show exactOf child dot = 0 from rfl, show exactOf child dotdot = 0 from rfl, Int.zero_add, Int.zero_add, Node.total,
    Nat.cast_list_sum, List.map_map]
  rfl

theorem chdir_entry (h : w.root.find p = some (.dir names child)) {name : Name} (hname : name ∈ names)
    (hdir : (child name).isDir = true) : w.chdir p name = p ++ [name] := by
  have hfind := Node.find_entry h hname
  unfold chdir
  rw [if_neg fun he => not_dots h hname (.inr he), hfind]
  cases hc : child name with
  | file size => simp [hc, Node.isDir] at hdir
  | dir ns ch => rfl

theorem chdir_back (w : World) (p : Path) (name : Name) : w.chdir (p ++ [name]) dotdot = p := by
  unfold chdir
  rw [if_pos rfl, List.dropLast_concat]

theorem isDir_entry (h : w.root.find p = some (.dir names child)) {name : Name} (hname : name ∈ names) :
    w.isDir p name = (child name).isDir := by
  unfold isDir
  rw [Node.find_entry h hname]

theorem fileSize_entry (h : w.root.find p = some (.dir names child)) {name : Name} (hname : name ∈ names)
    (hfile : (child name).isDir = false) : w.fileSize p name = (child name).total := by
  unfold fileSize
  rw [Node.find_entry h hname]
  cases hc : child name with
  | file size => rfl
  | dir ns ch => simp [hc, Node.isDir] at hfile

/-- `recurse` returns the low 32 bits of the directory's total, as an int, and comes back. -/
theorem recurse_spec (w : World) : ∀ (fuel : Nat) (p : Path) (names : List Name) (child : Name → Node),
    w.root.find p = some (.dir names child) → ∀ name ∈ names, (child name).isDir = true → (child name).depth ≤ fuel →
      w.recurse fuel p name = some (int32 (child name).total, p) := by
  intro fuel
  induction fuel with
  | zero =>
    intro p names child _ name _ hdir hfuel
    cases hc : child name with
    | file size => simp [hc, Node.isDir] at hdir
    | dir ns ch => simp [hc, Node.depth] at hfuel
  | succ fuel ih =>
    intro p names child h name hname hdir hfuel
    obtain ⟨ns, ch, hc⟩ : ∃ ns ch, child name = .dir ns ch := by
      cases hc : child name with
      | file size => simp [hc, Node.isDir] at hdir
      | dir ns ch => exact ⟨ns, ch, rfl⟩
    have hat : w.root.find (p ++ [name]) = some (.dir ns ch) := hc ▸ Node.find_entry h hname
    -- the loop adds what the entries count, modulo 2^64
    have hloop : ∀ l : List Name, (∀ x ∈ l, x = dot ∨ x = dotdot ∨ x ∈ ns) → ∀ acc : Int,
        l.foldlM (fun (s : Int × Path) name =>
          if name = dot ∨ name = dotdot then some s
          else if w.isDir s.2 name then do
            let r ← w.recurse fuel s.2 name
            return (int64 (s.1 + r.1), r.2)
          else some (int64 (s.1 + w.fileSize s.2 name), s.2)) (int64 acc, p ++ [name]) =
        some (int64 (acc + (l.map (countedOf ch)).sum), p ++ [name]) := by
      intro l
      induction l with
      | nil =>
        intro _ acc
        simp
      | cons x l ihl =>
        intro hl acc
        have hrest := ihl fun y hy => hl y (List.mem_cons_of_mem _ hy)
        rw [List.foldlM_cons, List.map_cons, List.sum_cons, ← Int.add_assoc]
        by_cases hx : x = dot ∨ x = dotdot
        · rw [if_pos hx, show countedOf ch x = 0 from if_pos hx, Int.add_zero]
          exact hrest acc
        · have hmem : x ∈ ns := by
            rcases hl x List.mem_cons_self with hd | hd | hd
            · exact absurd (.inl hd) hx
            · exact absurd (.inr hd) hx
            · exact hd
          rw [if_neg hx]
          dsimp only
          rw [isDir_entry hat hmem]
          by_cases hd : (ch x).isDir = true
          · have hdepth : (ch x).depth < (Node.dir ns ch).depth := Node.depth_entry hmem
            rw [← hc] at hdepth
            have hrec := ih (p ++ [name]) ns ch hat x hmem hd (by omega)
            rw [if_pos hd, hrec, show countedOf ch x = int32 (ch x).total from (if_neg hx).trans (if_pos hd)]
            have hnext := hrest (acc + int32 (ch x).total)
            rw [← int64_add acc (int32 (ch x).total)] at hnext
            exact hnext
          · have hfile := Bool.eq_false_iff.mpr hd
            rw [if_neg hd, fileSize_entry hat hmem hfile, show countedOf ch x = (ch x).total from (if_neg hx).trans (if_neg hd)]
            have hnext := hrest (acc + (ch x).total)
            rw [← int64_add acc (ch x).total] at hnext
            exact hnext
    have hlist := hloop (w.listing (p ++ [name])) (fun x hx => (mem_listing hat).mp hx) 0
    rw [Int.zero_add] at hlist
    unfold recurse
    rw [chdir_entry h hname hdir]
    dsimp only
    rw [show (0 : Int) = int64 0 from rfl, hlist]
    simp only [Option.bind_eq_bind, Option.bind_some, chdir_back]
    refine congrArg (fun x => some (x, p)) (int32_of_mod ?_)
    rw [int64_mod, sum_mod fun x _ => countedOf_mod ch x, sum_exact hat, hc]

/-! ## main -/

/-- The subdirectories in a list of entries. -/
def subdirs (child : Name → Node) (l : List Name) : List Name :=
  l.filter fun name => decide (¬ (name = dot ∨ name = dotdot)) && (child name).isDir

theorem mainLoop_spec {sys : System} (hsys : ∀ k, sys.pipe k = true ∧ sys.fork k = true) {fuel : Nat}
    (h : w.root.find [] = some (.dir names child)) (hfuel : ∀ name ∈ names, (child name).depth ≤ fuel) (path : Name) :
    ∀ l : List Name, (∀ x ∈ l, x = dot ∨ x = dotdot ∨ x ∈ names) → ∀ (acc : Int) (out : List Out) (k : Nat),
      w.mainLoop sys fuel path l ⟨int64 acc, out, k⟩ =
        some ⟨out ++ (subdirs child l).map (fun name => .line name (int32 (child name).total)) ++
          [.line (extract path) (int64 (acc + (l.map (countedOf child)).sum))], 0⟩ := by
  intro l
  induction l with
  | nil =>
    intro _ acc out k
    simp [mainLoop, subdirs]
  | cons x l ih =>
    intro hl acc out k
    have hrest := ih fun y hy => hl y (List.mem_cons_of_mem _ hy)
    rw [List.map_cons, List.sum_cons, ← Int.add_assoc]
    unfold mainLoop
    by_cases hx : x = dot ∨ x = dotdot
    · rw [if_pos hx, show countedOf child x = 0 from if_pos hx, Int.add_zero,
        show subdirs child (x :: l) = subdirs child l from List.filter_cons_of_neg (by simp [hx])]
      exact hrest acc out k
    · have hmem : x ∈ names := by
        rcases hl x List.mem_cons_self with hd | hd | hd
        · exact absurd (.inl hd) hx
        · exact absurd (.inr hd) hx
        · exact hd
      rw [if_neg hx, isDir_entry h hmem]
      by_cases hd : (child x).isDir = true
      · have hchild : w.child fuel x =
            some ([.line x (int32 (child x).total)], Hash.leBytes 8 (u64 (int32 (child x).total))) := by
          unfold World.child
          rw [recurse_spec w fuel [] names child h x hmem hd (hfuel x hmem)]
          simp only [Option.bind_eq_bind, Option.bind_some, int64_int32]
          rfl
        have hnext := hrest (acc + int32 (child x).total) (out ++ [.line x (int32 (child x).total)]) (k + 1)
        rw [← int64_add acc (int32 (child x).total)] at hnext
        rw [if_pos hd, (hsys k).1, (hsys k).2, hchild, show countedOf child x = int32 (child x).total from
            (if_neg hx).trans (if_pos hd),
          show subdirs child (x :: l) = x :: subdirs child l from List.filter_cons_of_pos (by simp [hx, hd])]
        simp only [Bool.not_true, Bool.false_eq_true, if_false, Option.bind_eq_bind, Option.bind_some, received_sent,
          int64_int32, hnext, List.map_cons, List.append_assoc, List.cons_append, List.nil_append]
      · have hfile := Bool.eq_false_iff.mpr hd
        have hnext := hrest (acc + (child x).total) out k
        rw [← int64_add acc (child x).total] at hnext
        rw [if_neg hd, fileSize_entry h hmem hfile, show countedOf child x = (child x).total from
            (if_neg hx).trans (if_neg hd),
          show subdirs child (x :: l) = subdirs child l from List.filter_cons_of_neg (by simp [hd])]
        exact hnext

end World

/-! ## Which lines are right -/

/-- Every immediate subdirectory has fewer than 2^31 bytes. -/
def SmallBelow (names : List Name) (child : Name → Node) : Prop :=
  ∀ name ∈ names, (child name).isDir = true → (child name).total < 2 ^ 31

theorem int32_nat_iff (t : Nat) : int32 t = t ↔ t < 2 ^ 31 := by
  unfold int32
  omega

/-- An int never shows more than what was cut down to it, nor less than its negative. -/
theorem int32_le (t : Nat) : int32 t ≤ t ∧ -(t : Int) ≤ int32 t := by
  unfold int32
  omega

theorem countedOf_le (child : Name → Node) (name : Name) :
    countedOf child name ≤ exactOf child name ∧ -exactOf child name ≤ countedOf child name := by
  unfold countedOf exactOf
  split
  · omega
  split
  · exact int32_le _
  · omega

/-- Sums of smaller terms are equal only if the terms are. -/
theorem sum_eq_iff {α : Type} {f g : α → Int} {l : List α} (h : ∀ x ∈ l, f x ≤ g x) :
    (l.map f).sum = (l.map g).sum ↔ ∀ x ∈ l, f x = g x := by
  induction l with
  | nil => simp
  | cons x l ih =>
    have hx := h x List.mem_cons_self
    have hl : (l.map f).sum ≤ (l.map g).sum := List.sum_le_sum fun y hy => h y (List.mem_cons_of_mem _ hy)
    simp only [List.map_cons, List.sum_cons, List.forall_mem_cons, ← ih fun y hy => h y (List.mem_cons_of_mem _ hy)]
    omega

section
variable {w : World} {names : List Name} {child : Name → Node} (h : w.root.find [] = some (.dir names child))
include h

theorem counted_exact_iff : (∀ name ∈ w.listing [], countedOf child name = exactOf child name) ↔ SmallBelow names child := by
  constructor
  · intro heq name hname hdir
    have hn := World.not_dots h hname
    have := heq name ((World.mem_listing h).mpr (.inr (.inr hname)))
    rw [show countedOf child name = int32 (child name).total from (if_neg hn).trans (if_pos hdir),
      show exactOf child name = (child name).total from if_neg hn] at this
    exact (int32_nat_iff _).mp this
  · intro hsmall name hname
    unfold countedOf exactOf
    by_cases hn : name = dot ∨ name = dotdot
    · rw [if_pos hn, if_pos hn]
    · rw [if_neg hn, if_neg hn]
      have hmem : name ∈ names := by
        rcases (World.mem_listing h).mp hname with hd | hd | hd
        · exact absurd (.inl hd) hn
        · exact absurd (.inr hd) hn
        · exact hd
      split
      · rename_i hdir
        exact (int32_nat_iff _).mpr (hsmall name hmem hdir)
      · rfl

/-- The last line is right if and only if the subdirectories are small. -/
theorem root_right_iff (htotal : (Node.dir names child).total < 2 ^ 63) :
    int64 (0 + ((w.listing []).map (countedOf child)).sum) = (Node.dir names child).total ↔ SmallBelow names child := by
  have hexact := World.sum_exact h
  have hle : ((w.listing []).map (countedOf child)).sum ≤ ((w.listing []).map (exactOf child)).sum :=
    List.sum_le_sum fun x _ => (countedOf_le child x).1
  have hge : ((w.listing []).map fun x => -exactOf child x).sum ≤ ((w.listing []).map (countedOf child)).sum :=
    List.sum_le_sum fun x _ => (countedOf_le child x).2
  have hneg : ((w.listing []).map fun x => -exactOf child x).sum = -((w.listing []).map (exactOf child)).sum := by
    rw [List.sum_neg, List.map_map]
    rfl
  rw [Int.zero_add, int64_eq (by omega) (by omega), ← hexact, sum_eq_iff fun x _ => (countedOf_le child x).1,
    counted_exact_iff h]

/-- The lines of the subdirectories that are due. -/
def dueLines (names : List Name) (child : Name → Node) : List Out :=
  (names.filter fun name => (child name).isDir).map fun name => .line name (child name).total

/-- The others are right if and only if the subdirectories are small. -/
theorem subdirs_right_iff : ((World.subdirs child (w.listing [])).map fun name => Out.line name (int32 (child name).total)).Perm
    (dueLines names child) ↔ SmallBelow names child := by
  have hperm : (World.subdirs child (w.listing [])).Perm (names.filter fun name => (child name).isDir) := by
    refine ((w.readdir [] names child h).filter _).trans ?_
    rw [List.filter_cons_of_neg (by simp), List.filter_cons_of_neg (by simp)]
    refine List.Perm.of_eq (List.filter_congr fun name hname => ?_)
    simp [World.not_dots h hname]
  constructor
  · intro hlines name hname hdir
    have hmem : Out.line name (int32 (child name).total) ∈ dueLines names child := by
      refine ((hperm.map _).symm.trans hlines).mem_iff.mp (List.mem_map.mpr ⟨name, ?_, rfl⟩)
      exact List.mem_filter.mpr ⟨hname, hdir⟩
    obtain ⟨m, -, hm⟩ := List.mem_map.mp hmem
    obtain ⟨rfl, hval⟩ := Out.line.inj hm
    exact (int32_nat_iff _).mp hval.symm
  · intro hsmall
    refine (hperm.map _).trans (List.Perm.of_eq (List.map_congr_left fun name hname => ?_))
    obtain ⟨hname, hdir⟩ := List.mem_filter.mp hname
    rw [(int32_nat_iff _).mpr (hsmall name hname hdir)]

end

/-- The program gives a line for each subdirectory and one for the directory itself. These are
    the exact sums if and only if every immediate subdirectory has fewer than 2^31 bytes; the
    subdirectories' lines and the last line each for themselves. -/
theorem lines_right_iff (w : World) {names : List Name} {child : Name → Node} (h : w.root = .dir names child)
    (htotal : w.root.total < 2 ^ 63) {sys : System} (hsys : ∀ k, sys.pipe k = true ∧ sys.fork k = true) {fuel : Nat}
    (hfuel : w.root.depth ≤ fuel) (path : Name) :
    ∃ (lines : List Out) (v : Int), w.main sys fuel [path] = some ⟨lines ++ [.line (extract path) v], 0⟩ ∧
      (lines.Perm (dueLines names child) ↔ SmallBelow names child) ∧ (v = w.root.total ↔ SmallBelow names child) := by
  have hfind : w.root.find [] = some (.dir names child) := by
    rw [h]
    rfl
  have hdepth : ∀ name ∈ names, (child name).depth ≤ fuel := by
    intro name hname
    have hlt : (child name).depth < (Node.dir names child).depth := Node.depth_entry hname
    rw [← h] at hlt
    omega
  refine ⟨_, _, World.mainLoop_spec hsys hfind hdepth path (w.listing []) (fun x hx => (World.mem_listing hfind).mp hx) 0 [] 0,
    ?_, ?_⟩
  · exact subdirs_right_iff hfind
  · rw [h] at htotal ⊢
    exact root_right_iff hfind htotal

/-- readdir lists `.` and `..` first. -/
def plainWorld (root : Node) (proper : root.Proper) : World where
  root := root
  listing path :=
    match root.find path with
    | some (.dir names _) => dot :: dotdot :: names
    | _ => []
  proper := proper
  readdir path names child h := by simp [h]

def allGood : System := ⟨fun _ => true, fun _ => true⟩

/-- A directory with a file of 5 bytes and a subdirectory with a file of `size`. -/
def nested (size : Nat) : Node :=
  .dir [[97], [98]] fun name => if name = [97] then .file 5 else .dir [[99]] fun _ => .file size

theorem nested_proper (size : Nat) : (nested size).Proper := by
  refine ⟨by decide, by decide, by decide, fun name _ => ?_⟩
  dsimp only
  split
  · trivial
  · exact ⟨by decide, by decide, by decide, fun _ _ => trivial⟩

theorem lines_right_iff_small : (nested 7).total < 2 ^ 63 ∧ ∃ (lines : List Out) (v : Int),
    (plainWorld (nested 7) (nested_proper 7)).main allGood 2 [[114, 47]] = some ⟨lines ++ [.line (extract [114, 47]) v], 0⟩ ∧
      lines.Perm (dueLines [[97], [98]] fun name => if name = [97] then .file 5 else .dir [[99]] fun _ => .file 7) ∧
      v = (nested 7).total := by
  have htotal : (nested 7).total < 2 ^ 63 := by decide
  obtain ⟨lines, v, hmain, hlines, hv⟩ := lines_right_iff (plainWorld (nested 7) (nested_proper 7)) rfl htotal
    (show ∀ k, allGood.pipe k = true ∧ allGood.fork k = true from fun _ => ⟨rfl, rfl⟩)
    (show (nested 7).depth ≤ 2 by decide) [114, 47]
  have hsmall : SmallBelow [[97], [98]] fun name => if name = [97] then Node.file 5 else .dir [[99]] fun _ => .file 7 := by
    intro name _ _
    dsimp only
    split
    · decide
    · decide
  exact ⟨htotal, lines, v, hmain, hlines.mpr hsmall, hv.mpr hsmall⟩

/-- A file of 2^31 bytes below a subdirectory. -/
theorem wrapped_total : (nested 2147483648).total = 2147483653 ∧
    (plainWorld (nested 2147483648) (nested_proper _)).main allGood 2 [[114, 47]] =
      some ⟨[.line [98] (-2147483648), .line [114] (-2147483643)], 0⟩ := by
  constructor <;> decide +kernel

end Cs330.Tree
