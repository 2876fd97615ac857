/-
  Cs330.Text.Recurse — grep over a tree (recurse and main of Assignment1/Part_1/src/part1.c).

  recurse goes down with chdir and comes back with chdir(".."), and prints every matching line
  of every regular file with the path that it builds in `loc[5000]`. main then asks whether
  its argument is a regular file, and by now the process is in the parent of the directory,
  which is where it started only if the argument is one name.

  The file system is a tree of directories and regular files, without links, with its root at
  the empty path; a path is looked up name by name. A call of stat that fails leaves the
  `struct stat` as it was (`Stale`). A `loc` or a `line` that does not fit is `none`, and so is
  an exit of grep in the middle of the tree. Memory and descriptors suffice.
-/
import Cs330.Text.Grep
import Cs330.Tree.Sizes

namespace Cs330.Text

open Cs330.Tree

local instance : LawfulBEq Name := inferInstance

def SLASH : UInt8 := 47

/-- The size of `loc`. -/
def LOC_SIZE : Nat := 5000

/-- The names below are names. -/
def Named : Node → Prop
  | .file _ => True
  | .dir names child => ∀ name ∈ names, (name ≠ [] ∧ SLASH ∉ name) ∧ Named (child name)

structure Disk extends World where
  /-- Of a regular file. -/
  content : Path → List UInt8
  named : Named root

/-- What a `struct stat` that nobody has written looks like to is_file and to is_dir. -/
structure Stale where
  file : Bool
  dir : Bool

/-- `loc` for an entry of a directory. -/
def join (complete name : List UInt8) : List UInt8 :=
  (if complete.getLast? = some SLASH then complete else complete ++ [SLASH]) ++ name

namespace Disk

variable (w : Disk)

/-- One name of a path, from a directory. -/
def walk (here : Path) (name : Name) : Option Path :=
  match w.root.find here with
  | some (.dir names _) =>
    if name = [] ∨ name = dot then some here
    else if name = dotdot then some here.dropLast
    else if name ∈ names then some (here ++ [name])
    else none
  | _ => none

def resolve (cwd : Path) (path : List UInt8) : Option Path :=
  if path = [] then none
  else (path.splitOn SLASH).foldlM w.walk (if path.head? = some SLASH then [] else cwd)

/-- The node that stat finds. -/
def stat (cwd : Path) (path : List UInt8) : Option Node := (w.resolve cwd path).bind w.root.find

def isFile (stale : Stale) (cwd : Path) (loc : List UInt8) : Bool :=
  match w.stat cwd loc with
  | some n => !n.isDir
  | none => stale.file

def isDir (stale : Stale) (cwd : Path) (loc : List UInt8) : Bool :=
  match w.stat cwd loc with
  | some n => n.isDir
  | none => stale.dir

def chdir (cwd : Path) (dir : List UInt8) : Path :=
  match w.resolve cwd dir with
  | some p => if (w.root.find p).elim false Node.isDir then p else cwd
  | none => cwd

/-- `grep(pattern, name, loc, fileordir)`; the flag is `exit(1)`. -/
def grepAt (pattern : List UInt8) (junk : Path → Nat → UInt8) (cwd : Path) (name loc : List UInt8) (fileordir : Bool) :
    Option (List UInt8 × Bool) :=
  match w.resolve cwd name with
  | some p => (grep pattern loc fileordir (junk p) (w.content p)).map (·, false)
  | none => some ([], true)

/-- The body of the loop of recurse, with the call for a subdirectory. -/
def entry (pattern : List UInt8) (junk : Path → Nat → UInt8) (stale : Stale) (complete : List UInt8)
    (call : Path → List UInt8 → List UInt8 → Option (List UInt8 × Path)) (s : List UInt8 × Path) (name : Name) :
    Option (List UInt8 × Path) :=
  if name = dot ∨ name = dotdot then some s
  else do
    let loc := join complete name
    guard (complete ≠ [] ∧ loc.length < LOC_SIZE)
    let g ← if w.isFile stale s.2 name then w.grepAt pattern junk s.2 name loc false else some ([], false)
    -- the rest of the tree is not printed then
    guard (g.2 = false)
    if w.isDir stale s.2 name then do
      let r ← call s.2 name loc
      return (s.1 ++ g.1 ++ r.1, r.2)
    else return (s.1 ++ g.1, s.2)

/-- What recurse prints, and the directory it leaves the process in. -/
def recurse (pattern : List UInt8) (junk : Path → Nat → UInt8) (stale : Stale) :
    Nat → Path → List UInt8 → List UInt8 → Option (List UInt8 × Path)
  | 0, _, _, _ => none
  | fuel + 1, cwd, dir, complete => do
    let cwd := w.chdir cwd dir
    let r ← (w.listing cwd).foldlM (w.entry pattern junk stale complete (recurse pattern junk stale fuel)) ([], cwd)
    return (r.1, w.chdir r.2 dotdot)

/-- `main` with two arguments: the output and the status. -/
def main (pattern arg : List UInt8) (junk : Path → Nat → UInt8) (stale : Stale) (fuel : Nat) (cwd : Path) :
    Option (List UInt8 × Nat) := do
  let r ← if w.isDir stale cwd arg then w.recurse pattern junk stale fuel cwd arg arg else some ([], cwd)
  if w.isFile stale r.2 arg then do
    let g ← w.grepAt pattern junk r.2 arg arg true
    return (r.1 ++ g.1, if g.2 then 1 else 0)
  else return (r.1, 0)

end Disk

/-! ## What it is for -/

namespace Disk

variable (w : Disk)

/-- The matching lines of a file. -/
def lines (pattern loc : List UInt8) (fileordir : Bool) (p : Path) : List UInt8 :=
  (due pattern ((w.content p).splitOn NEWLINE)).flatMap (printed loc fileordir)

/-- Those of all files below, each with its path, in the order of the listings. -/
def below (pattern : List UInt8) : Node → Path → List UInt8 → List UInt8
  | .file _, p, label => w.lines pattern label false p
  | .dir names child, p, label => (w.listing p).flatMap fun name =>
    if name ∈ names then below pattern (child name) (p ++ [name]) (join label name) else []

/-- What main adds when it looks its argument up from the parent of the directory. -/
def again (pattern arg : List UInt8) (stale : Stale) (above : Path) : List UInt8 × Nat :=
  match w.stat above arg with
  | some (.file _) => (w.lines pattern arg true ((w.resolve above arg).getD []), 0)
  | some (.dir ..) => ([], 0)
  | none => ([], if stale.file then 1 else 0)

/-- The lines fit into `line`, and are text. -/
def Readable (p : Path) : Prop := 0 ∉ w.content p ∧ ∀ line ∈ (w.content p).splitOn NEWLINE, line.length ≤ 1000008

/-- Everything below fits. -/
def Fits : Node → Path → List UInt8 → Prop
  | .file _, p, _ => w.Readable p
  | .dir names child, p, label => ∀ name ∈ names, (join label name).length < LOC_SIZE ∧ Fits (child name) (p ++ [name]) (join label name)

end Disk

namespace Disk

variable {w : Disk} {p cwd : Path} {names : List Name} {child : Name → Node}

/-! ## Paths -/

theorem named_find {n m : Node} (hn : Named n) (h : n.find p = some m) : Named m := by
  induction p generalizing n with
  | nil => cases n <;> cases h <;> exact hn
  | cons name p ih =>
    cases n with
    | file size => cases h
    | dir names child =>
      rw [Node.find_cons] at h
      split at h
      · rename_i hmem
        exact ih (hn name hmem).2 h
      · cases h

/-- A path without a slash is one name. -/
theorem resolve_name {arg : List UInt8} (hne : arg ≠ []) (hslash : SLASH ∉ arg) : w.resolve cwd arg = w.walk cwd arg := by
  have hhead : arg.head? ≠ some SLASH := fun he => hslash (List.mem_of_head? he)
  unfold resolve
  rw [if_neg hne, if_neg hhead, List.splitOn_eq_singleton hslash, List.foldlM_cons]
  cases w.walk cwd arg <;> rfl

theorem resolve_entry (h : w.root.find p = some (.dir names child)) {name : Name} (hname : name ∈ names) :
    w.resolve p name = some (p ++ [name]) := by
  obtain ⟨hne, hslash⟩ := (named_find w.named h name hname).1
  have hdots := World.not_dots (w := w.toWorld) h hname
  rw [resolve_name hne hslash]
  unfold walk
  rw [h]
  simp only [not_or] at hdots
  simp [hne, hdots.1, hdots.2, hname]

theorem stat_entry (h : w.root.find p = some (.dir names child)) {name : Name} (hname : name ∈ names) :
    w.stat p name = some (child name) := by
  unfold stat
  rw [resolve_entry h hname]
  exact Node.find_entry h hname

theorem isFile_entry (h : w.root.find p = some (.dir names child)) {name : Name} (hname : name ∈ names) (stale : Stale) :
    w.isFile stale p name = !(child name).isDir := by
  unfold isFile
  rw [stat_entry h hname]

theorem isDir_entry (h : w.root.find p = some (.dir names child)) {name : Name} (hname : name ∈ names) (stale : Stale) :
    w.isDir stale p name = (child name).isDir := by
  unfold isDir
  rw [stat_entry h hname]

theorem chdir_entry (h : w.root.find p = some (.dir names child)) {name : Name} (hname : name ∈ names)
    (hdir : (child name).isDir = true) : w.chdir p name = p ++ [name] := by
  unfold chdir
  rw [resolve_entry h hname]
  simp only [Node.find_entry h hname, Option.elim_some, hdir, if_true]

/-- What is above a directory is a directory. -/
theorem parent_dir (h : w.root.find p = some (.dir names child)) : ∃ ns ch, w.root.find p.dropLast = some (.dir ns ch) := by
  rcases List.eq_nil_or_concat p with rfl | ⟨q, name, rfl⟩
  · exact ⟨names, child, h⟩
  · rw [List.concat_eq_append] at h ⊢
    rw [List.dropLast_concat]
    rw [Node.find_append] at h
    cases hq : w.root.find q with
    | none => simp [hq] at h
    | some n =>
      cases n with
      | file size =>
        rw [hq, Option.bind_some] at h
        cases h
      | dir ns ch => exact ⟨ns, ch, rfl⟩

theorem resolve_up (h : w.root.find p = some (.dir names child)) : w.resolve p dotdot = some p.dropLast := by
  rw [resolve_name (by decide) (by decide)]
  unfold walk
  rw [h]
  rfl

theorem chdir_up (h : w.root.find p = some (.dir names child)) : w.chdir p dotdot = p.dropLast := by
  obtain ⟨ns, ch, hup⟩ := parent_dir h
  unfold chdir
  rw [resolve_up h]
  simp only [hup, Option.elim_some, Node.isDir, if_true]

/-! ## recurse -/

variable {pattern : List UInt8} {stale : Stale}

theorem grepAt_spec (pattern : List UInt8) (junk : Path → Nat → UInt8) {q : Path} {name : List UInt8}
    (h : w.resolve cwd name = some q) (hread : w.Readable q) (loc : List UInt8) (fileordir : Bool) :
    w.grepAt pattern junk cwd name loc fileordir = some (w.lines pattern loc fileordir q, false) := by
  obtain ⟨hnul, hlong⟩ := hread
  have hfit : ∀ line ∈ ([] ++ w.content q).splitOn NEWLINE, line.length < LINE_SIZE := by
    intro line hline
    have := hlong line hline
    unfold LINE_SIZE
    omega
  have hrun : grep pattern loc fileordir (junk q) (w.content q) = some (w.lines pattern loc fileordir q) :=
    run_prints pattern loc fileordir (w.content q) [] ⟨junk q, 0, []⟩ ⟨rfl, fun i hi => absurd hi (Nat.not_lt_zero i)⟩
      List.not_mem_nil hnul hfit
  unfold grepAt
  simp only [h, hrun]
  rfl

theorem join_ne_nil (complete name : List UInt8) : join complete name ≠ [] := by
  unfold join
  split
  · rename_i hlast
    cases complete with
    | nil => cases hlast
    | cons b complete => simp
  · simp

/-- recurse prints what is below, and leaves the process above. -/
theorem recurse_spec (w : Disk) (pattern : List UInt8) (junk : Path → Nat → UInt8) (stale : Stale) : ∀ (fuel : Nat) (n : Node)
    (cwd p : Path) (dir complete : List UInt8), w.root.find p = some n → n.isDir = true → w.chdir cwd dir = p → complete ≠ [] →
      w.Fits n p complete → n.depth ≤ fuel →
        w.recurse pattern junk stale fuel cwd dir complete = some (w.below pattern n p complete, p.dropLast) := by
  intro fuel
  induction fuel with
  | zero =>
    intro n cwd p dir complete _ hdir _ _ _ hfuel
    cases n with
    | file size => cases hdir
    | dir names child => simp [Node.depth] at hfuel
  | succ fuel ih =>
    intro n cwd p dir complete hat hdir hcd hne hfits hfuel
    cases n with
    | file size => cases hdir
    | dir names child =>
      -- the loop prints what is below the entries it has had
      have hloop : ∀ l : List Name, (∀ x ∈ l, x = dot ∨ x = dotdot ∨ x ∈ names) → ∀ acc : List UInt8,
          l.foldlM (w.entry pattern junk stale complete (w.recurse pattern junk stale fuel)) (acc, p) =
          some (acc ++ l.flatMap (fun name =>
            if name ∈ names then w.below pattern (child name) (p ++ [name]) (join complete name) else []), p) := by
        intro l
        induction l with
        | nil =>
          intro _ acc
          simp
        | cons x l ihl =>
          intro hl acc
          have hrest := ihl fun y hy => hl y (List.mem_cons_of_mem _ hy)
          rw [List.foldlM_cons, List.flatMap_cons, ← List.append_assoc]
          by_cases hx : x = dot ∨ x = dotdot
          · have hnot : x ∉ names := fun hmem => World.not_dots (w := w.toWorld) hat hmem hx
            rw [if_neg hnot, List.append_nil, show w.entry pattern junk stale complete _ (acc, p) x = some (acc, p) from if_pos hx]
            exact hrest acc
          · have hmem : x ∈ names := by
              rcases hl x List.mem_cons_self with hd | hd | hd
              · exact absurd (.inl hd) hx
              · exact absurd (.inr hd) hx
              · exact hd
            obtain ⟨hlen, hfit⟩ := hfits x hmem
            have hfile := isFile_entry hat hmem stale
            have hdir := isDir_entry hat hmem stale
            rw [if_pos hmem]
            cases hn : child x with
            | file size =>
              rw [hn] at hfit hfile hdir
              have hgrep := grepAt_spec pattern junk (resolve_entry hat hmem) hfit (join complete x) false
              have hnext := hrest (acc ++ w.lines pattern (join complete x) false (p ++ [x]))
              simpa [entry, hx, guard, hne, hlen, hfile, hdir, Node.isDir, hgrep, below] using hnext
            | dir ns ch =>
              have hdepth : (child x).depth < (Node.dir names child).depth := Node.depth_entry hmem
              have hent := Node.find_entry hat hmem
              have hcd' := chdir_entry hat hmem (by rw [hn]; rfl)
              rw [hn] at hfit hfile hdir hent hdepth
              have hrec := ih (.dir ns ch) p (p ++ [x]) x (join complete x) hent rfl hcd' (join_ne_nil _ _) hfit (by omega)
              rw [List.dropLast_concat] at hrec
              have hnext := hrest (acc ++ w.below pattern (.dir ns ch) (p ++ [x]) (join complete x))
              simpa [entry, hx, guard, hne, hlen, hfile, hdir, Node.isDir, hrec] using hnext
      have hlist := hloop (w.listing p) (fun x hx => (World.mem_listing (w := w.toWorld) hat).mp hx) []
      unfold recurse
      rw [hcd]
      simp only [hlist, Option.bind_eq_bind, Option.bind_some, chdir_up hat, List.nil_append]
      rfl

/-! ## main -/

theorem walk_some {here q : Path} {name : Name} (h : w.walk here name = some q) : ∃ n, w.root.find q = some n := by
  unfold walk at h
  split at h
  · rename_i names child hdir
    split at h
    · cases h
      exact ⟨_, hdir⟩
    · split at h
      · cases h
        obtain ⟨ns, ch, hup⟩ := parent_dir hdir
        exact ⟨_, hup⟩
      · split at h
        · rename_i hmem
          cases h
          exact ⟨_, Node.find_entry hdir hmem⟩
        · cases h
  · cases h

/-- A path that is found is that of something. -/
theorem resolve_some {arg : List UInt8} (h : w.resolve cwd arg = some p) : ∃ n, w.root.find p = some n := by
  have hfold : ∀ (l : List Name) (here q : Path), l ≠ [] → l.foldlM w.walk here = some q → ∃ n, w.root.find q = some n := by
    intro l
    induction l with
    | nil => exact fun _ _ hne => absurd rfl hne
    | cons name l ih =>
      intro here q _ hq
      rw [List.foldlM_cons] at hq
      obtain ⟨mid, hmid, hq⟩ := Option.bind_eq_some_iff.mp hq
      cases l with
      | nil =>
        cases hq
        exact walk_some hmid
      | cons next l => exact ih mid q (List.cons_ne_nil _ _) hq
  unfold resolve at h
  split at h
  · cases h
  · exact hfold _ _ _ (List.splitOn_ne_nil _ _) h

/-- A name that leads to a directory leads to one from above that directory too. -/
theorem name_again {arg : List UInt8} (hslash : SLASH ∉ arg) (h : w.resolve cwd arg = some p)
    (hn : w.root.find p = some (.dir names child)) :
    ∃ q ns ch, w.resolve p.dropLast arg = some q ∧ w.root.find q = some (.dir ns ch) := by
  have hne : arg ≠ [] := by
    rintro rfl
    cases h
  obtain ⟨ns, ch, hup⟩ := parent_dir hn
  have hwalk := h
  rw [resolve_name hne hslash] at hwalk
  unfold walk at hwalk
  split at hwalk
  · rename_i hcwd
    split at hwalk
    · rename_i hdot
      cases hwalk
      refine ⟨_, ns, ch, ?_, hup⟩
      rw [resolve_name hne hslash]
      unfold walk
      rw [hup]
      exact if_pos hdot
    · split at hwalk
      · rename_i hdotdot
        subst hdotdot
        obtain ⟨ns', ch', hup'⟩ := parent_dir hup
        exact ⟨_, ns', ch', resolve_up hup, hup'⟩
      · split at hwalk
        · cases hwalk
          rw [List.dropLast_concat]
          exact ⟨_, names, child, h, hn⟩
        · cases hwalk
  · cases hwalk

theorem again_nothing {arg : List UInt8} (harg : SLASH ∉ arg ∨ arg.head? = some SLASH) (h : w.resolve cwd arg = some p)
    (hn : w.root.find p = some (.dir names child)) : w.again pattern arg stale p.dropLast = ([], 0) := by
  obtain ⟨q, ns, ch, hq, hfind⟩ : ∃ q ns ch, w.resolve p.dropLast arg = some q ∧ w.root.find q = some (.dir ns ch) := by
    rcases harg with hslash | habs
    · exact name_again hslash h hn
    · refine ⟨p, names, child, ?_, hn⟩
      unfold resolve at h ⊢
      rw [if_pos habs] at h ⊢
      exact h
  unfold again stat
  rw [hq]
  simp only [Option.bind_some, hfind]

/-- With a directory main prints what is below, with status 0, and what it finds when it looks the argument up again from the
    parent of the directory; that is nothing if the argument is a name or starts with a slash. -/
theorem greps_tree (w : Disk) (pattern arg : List UInt8) (junk : Path → Nat → UInt8) (stale : Stale) (fuel : Nat) (cwd : Path)
    {p : Path} {n : Node} (hres : w.resolve cwd arg = some p) (hn : w.root.find p = some n) (hdir : n.isDir = true)
    (hfits : w.Fits n p arg) (hfuel : n.depth ≤ fuel)
    (hread : ∀ q size, w.resolve p.dropLast arg = some q → w.root.find q = some (.file size) → w.Readable q) :
    w.main pattern arg junk stale fuel cwd =
      some (w.below pattern n p arg ++ (w.again pattern arg stale p.dropLast).1, (w.again pattern arg stale p.dropLast).2) ∧
    (SLASH ∉ arg ∨ arg.head? = some SLASH → w.again pattern arg stale p.dropLast = ([], 0)) := by
  have hne : arg ≠ [] := by
    rintro rfl
    cases hres
  have hstat : w.stat cwd arg = some n := by
    unfold stat
    rw [hres]
    exact hn
  have hcd : w.chdir cwd arg = p := by
    unfold chdir
    rw [hres]
    simp only [hn, Option.elim_some, hdir, if_true]
  have hisdir : w.isDir stale cwd arg = true := by
    unfold isDir
    rw [hstat]
    exact hdir
  have hrec := recurse_spec w pattern junk stale fuel n cwd p arg arg hn hdir hcd hne hfits hfuel
  constructor
  · unfold main
    rw [if_pos hisdir, hrec]
    simp only [Option.bind_eq_bind, Option.bind_some]
    unfold again isFile
    cases hagain : w.stat p.dropLast arg with
    | none =>
      have hnone : w.resolve p.dropLast arg = none := by
        cases hq : w.resolve p.dropLast arg with
        | none => rfl
        | some q =>
          obtain ⟨m, hm⟩ := resolve_some hq
          simp [stat, hq, hm] at hagain
      unfold grepAt
      rw [hnone]
      cases stale.file <;> simp
    | some m =>
      cases m with
      | dir names child => simp [Node.isDir]
      | file size =>
        obtain ⟨q, hq, hm⟩ := Option.bind_eq_some_iff.mp hagain
        have hgrep := grepAt_spec pattern junk hq (hread q size hq hm) arg true
        simp [Node.isDir, hgrep, hq]
  · intro harg
    cases n with
    | file size => cases hdir
    | dir names child => exact again_nothing harg hres hn

/-- `a/b/f` has a line `xy`; and there is a file `a/a/b`, with `xx`. -/
def twice : Node :=
  .dir [[97]] fun _ => .dir [[98], [97]] fun name => if name = [98] then .dir [[102]] fun _ => .file 3 else .dir [[98]] fun _ => .file 3

theorem twice_proper : twice.Proper := by
  refine ⟨by decide, by decide, by decide, fun _ _ => ⟨by decide, by decide, by decide, fun name _ => ?_⟩⟩
  dsimp only
  split <;> exact ⟨by decide, by decide, by decide, fun _ _ => trivial⟩

theorem twice_named : Named twice := by
  intro name hname
  refine ⟨by revert name; decide, fun name' hname' => ⟨by revert name'; decide, ?_⟩⟩
  dsimp only
  split <;> exact fun x hx => ⟨by revert x; decide, trivial⟩

def twiceDisk : Disk :=
  { plainWorld twice twice_proper with
    content := fun p => if p = [[97], [98], [102]] then [120, 121, 10] else [120, 120, 10]
    named := twice_named }

/-- From the root, `x a/b` prints the line below `a/b`, and then that of `a/a/b`. -/
theorem greps_tree_twice : twiceDisk.main [120] [97, 47, 98] (fun _ _ => 120) ⟨true, true⟩ 2 [] =
    some ([97, 47, 98, 47, 102, 58, 120, 121, 10] ++ [120, 120, 10], 0) := by
  have hread : ∀ p, twiceDisk.Readable p := by
    intro p
    unfold Disk.Readable
    have hc : twiceDisk.content p = [120, 121, 10] ∨ twiceDisk.content p = [120, 120, 10] := by
      show (if _ then _ else _) = _ ∨ (if _ then _ else _) = _
      split
      · exact .inl rfl
      · exact .inr rfl
    rcases hc with hc | hc <;> rw [hc] <;> exact ⟨by decide, by decide⟩
  obtain ⟨h, -⟩ := greps_tree twiceDisk [120] [97, 47, 98] (fun _ _ => 120) ⟨true, true⟩ 2 [] (p := [[97], [98]])
    (n := .dir [[102]] fun _ => .file 3) (by decide) rfl rfl
    (fun name hname => ⟨by revert name; decide, hread _⟩) (by decide) fun q _ _ _ => hread q
  exact h.trans (by rfl)

end Disk

end Cs330.Text
