import Mathlib.Data.List.Forall2
import Xv6.Lib.Except
import Xv6.Fs.Inode

/-! # Path names: `skipelem`, `namex` and their callers

`namex` with its container branches, `namei`, `nameiparent`, and the two calls that move a
process in the tree, `cm_setroot` and `chdir`.
-/

namespace Xv6.Fs

abbrev slash : UInt8 := 47

abbrev dot : CString := [46]
abbrev dotdot : CString := [46, 46]

def skipSlashes (path : CString) : CString := path.dropWhile (· == slash)

def elemChar (c : UInt8) : Bool := c != slash && c != 0

/-- `skipelem(path, name)`: the rest of the path and the buffer `name` after the call. -/
def skipelem (path name : CString) : Option (CString × CString) :=
  let s := skipSlashes path
  if s.headD 0 = 0 then none
  else
    let elem := s.takeWhile elemChar
    let name :=
      if elem.length ≥ dirSiz then elem.take dirSiz ++ name.drop dirSiz
      else elem ++ 0 :: name.drop (elem.length + 1)
    some (skipSlashes (s.dropWhile elemChar), name)

/-- The fields of `struct proc` that path lookup reads. -/
structure Proc where
  cwd : Slot
  inNewroot : Int
  newrootInode : Option Slot

/-- The loop of `namex`. Each round shortens the path, so the length of the path and one
more round is enough fuel. -/
def namexLoop (p : Proc) (nameiparent : Bool) :
    Nat → CString → CString → Slot → FsState → Except String (Option Slot × CString × FsState)
  | 0, _, _, _, _ => .error "namex: out of fuel"
  | fuel + 1, path, name, ip, s =>
    match skipelem path name with
    | none => if nameiparent then .ok (none, name, iput s ip) else .ok (some ip, name, s)
    | some (path, name) =>
      match ilock s ip with
      | .error e => .error e
      | .ok s =>
        if (s.icache ip).copy.type ≠ tDir then .ok (none, name, iput s ip)
        else if p.inNewroot ≠ 0 ∧ p.newrootInode = some ip ∧ namecmp name dotdot = 0 then
          if nameiparent ∧ path.headD 0 = 0 then .ok (some ip, name, s)
          else namexLoop p nameiparent fuel path name ip (iput (idup s ip) ip)
        else if nameiparent ∧ path.headD 0 = 0 then .ok (some ip, name, s)
        else
          match dirlookup s ip name with
          | .error e => .error e
          | .ok (none, s) => .ok (none, name, iput s ip)
          | .ok (some (next, _), s) =>
            namexLoop p nameiparent fuel path name next (iput s ip)

def namexStart (p : Proc) (path : CString) (s : FsState) : Except String (Slot × FsState) :=
  if p.inNewroot = 1 then
    if path.headD 0 = slash then iget s (s.icache p.cwd).dev (s.icache p.cwd).inum
    else .ok (p.cwd, idup s p.cwd)
  else
    if path.headD 0 = slash then iget s rootDev rootIno else .ok (p.cwd, idup s p.cwd)

def namex (p : Proc) (path : CString) (nameiparent : Bool) (name : CString) (s : FsState) :
    Except String (Option Slot × CString × FsState) :=
  match namexStart p path s with
  | .error e => .error e
  | .ok (ip, s) => namexLoop p nameiparent (path.length + 1) path name ip s

/-- `namei(path)`; its buffer for components starts with arbitrary bytes. -/
def namei (p : Proc) (path name : CString) (s : FsState) : Except String (Option Slot × FsState) :=
  match namex p path false name s with
  | .error e => .error e
  | .ok (ip, _, s) => .ok (ip, s)

def nameiparent (p : Proc) (path name : CString) (s : FsState) :
    Except String (Option Slot × CString × FsState) :=
  namex p path true name s

def sysChdir (p : Proc) (path name : CString) (s : FsState) : Except String (Int × Proc × FsState) :=
  match namei p path name s with
  | .error e => .error e
  | .ok (none, s) => .ok (-1, p, s)
  | .ok (some ip, s) =>
    match ilock s ip with
    | .error e => .error e
    | .ok s =>
      if (s.icache ip).copy.type ≠ tDir then .ok (-1, p, iput s ip)
      else .ok (0, { p with cwd := ip }, iput s p.cwd)

def isInodeDirectory (s : FsState) (ip : Slot) : Except String (Bool × FsState) :=
  match ilock s ip with
  | .error e => .error e
  | .ok s => .ok ((s.icache ip).copy.type == tDir, s)

def doSetroot (p : Proc) (path name : CString) (pathLen : Int) (s : FsState) :
    Except String (Int × Proc × FsState) :=
  if p.inNewroot ≠ 0 then .ok (-1, p, s)
  else if path.headD 0 ≠ slash ∨ pathLen ≥ maxPath then .ok (-1, p, s)
  else
    match namei p path name s with
    | .error e => .error e
    | .ok (none, s) => .ok (-1, p, s)
    | .ok (some ip, s) =>
      match isInodeDirectory s ip with
      | .error e => .error e
      | .ok (false, s) => .ok (-1, p, s)
      | .ok (true, s) => .ok (0, { p with newrootInode := some ip, inNewroot := 1 }, s)

/-! ## How a lookup can fail -/

/-- The panics of a lookup, and its fuel. -/
def lookupPanics : List String :=
  ["iget: no inodes", "ilock", "ilock: no type", "dirlookup read", "dirlookup not DIR", "namex: out of fuel"]

section Lookup

open Lib

variable {s : FsState} {ip : Slot} {p : Proc} {path name : CString}

theorem iget_gives {dev inum : Nat} : Gives (iget s dev inum) (fun _ => True) (· ∈ lookupPanics) := by
  unfold iget
  split
  · exact .ok trivial
  · exact .ok trivial
  · exact .error (by decide)

theorem ilock_gives : Gives (ilock s ip) (fun _ => True) (· ∈ lookupPanics) :=
  gives_ite (fun _ => .error (by decide)) fun _ => gives_ite (fun _ => .ok trivial) fun _ =>
    gives_ite (fun _ => .error (by decide)) fun _ => .ok trivial

theorem scanDirents_gives {fuel off : Nat} {bytes : List UInt8} :
    Gives (scanDirents name fuel bytes off) (fun _ => True) (· ∈ lookupPanics) := by
  induction fuel generalizing bytes off with
  | zero => exact .ok trivial
  | succ fuel ih =>
    exact gives_ite (fun _ => .ok trivial) fun _ => gives_ite (fun _ => .error (by decide)) fun _ =>
      gives_ite (fun _ => ih) fun _ => gives_ite (fun _ => .ok trivial) fun _ => ih

theorem dirlookup_gives : Gives (dirlookup s ip name) (fun _ => True) (· ∈ lookupPanics) := by
  refine gives_ite (fun _ => .error (by decide)) fun _ => ?_
  split
  · exact .error (scanDirents_gives.fault ‹_›)
  · exact .ok trivial
  split
  · exact .error (iget_gives.fault ‹_›)
  · exact .ok trivial

theorem namexLoop_gives {parent : Bool} {fuel : Nat} :
    Gives (namexLoop p parent fuel path name ip s) (fun _ => True) (· ∈ lookupPanics) := by
  induction fuel generalizing path name ip s with
  | zero => exact .error (by decide)
  | succ fuel ih =>
    unfold namexLoop
    split
    · exact gives_ite (fun _ => .ok trivial) fun _ => .ok trivial
    split
    · exact .error (ilock_gives.fault ‹_›)
    refine gives_ite (fun _ => .ok trivial) fun _ => gives_ite (fun _ => gives_ite (fun _ => .ok trivial)
      fun _ => ih) fun _ => gives_ite (fun _ => .ok trivial) fun _ => ?_
    split
    · exact .error (dirlookup_gives.fault ‹_›)
    · exact .ok trivial
    · exact ih

theorem namei_gives : Gives (namei p path name s) (fun _ => True) (· ∈ lookupPanics) := by
  have hstart : Gives (namexStart p path s) (fun _ => True) (· ∈ lookupPanics) :=
    gives_ite (fun _ => gives_ite (fun _ => iget_gives) fun _ => .ok trivial) fun _ =>
      gives_ite (fun _ => iget_gives) fun _ => .ok trivial
  unfold namei namex
  cases hip : namexStart p path s with
  | error e => exact .error (hstart.fault hip)
  | ok x =>
    split
    · exact .error (namexLoop_gives.fault ‹_›)
    · exact .ok trivial

end Lookup

/-! ## The components of a path -/

/-- The contents of the buffer `name`, one for each round of `namex`. -/
def components : Nat → CString → CString → List CString
  | 0, _, _ => []
  | fuel + 1, path, name =>
    match skipelem path name with
    | none => []
    | some (path, name) => name :: components fuel path name

theorem skipSlashes_idem (path : CString) : skipSlashes (skipSlashes path) = skipSlashes path := by
  unfold skipSlashes
  induction path with
  | nil => rfl
  | cons c path ih =>
    by_cases hc : (c == slash) = true
    · simpa [hc] using ih
    · simp [hc]

theorem length_skipSlashes_le (path : CString) : (skipSlashes path).length ≤ path.length :=
  (List.dropWhile_suffix _).length_le

theorem skipSlashes_ne {path cs : CString} {c : UInt8} (h : skipSlashes path = c :: cs) : c ≠ slash := by
  rintro rfl
  have hid := skipSlashes_idem path
  rw [h] at hid
  have hlen := length_skipSlashes_le cs
  have heq : skipSlashes (slash :: cs) = skipSlashes cs := List.dropWhile_cons_of_pos rfl
  rw [← heq, hid] at hlen
  exact absurd hlen (Nat.not_succ_le_self _)

/-- The buffer holds the element, cut to its first `DIRSIZ` bytes or with a `NUL` behind it. -/
def IsName (buf elem : CString) : Prop :=
  if elem.length ≥ dirSiz then buf.take dirSiz = elem.take dirSiz
  else buf.take (elem.length + 1) = elem ++ [0]

/-- `skipelem` finds no element, or it passes the slashes, the element and the slashes behind it. -/
theorem skipelem_cases (path name : CString) :
    (skipelem path name = none ∧ (skipSlashes path).headD 0 = 0) ∨
      ∃ c cs name', skipSlashes path = c :: cs ∧ elemChar c = true ∧
        skipelem path name = some (skipSlashes (cs.dropWhile elemChar), name') ∧
        IsName name' (c :: cs.takeWhile elemChar) := by
  unfold skipelem
  cases hs : skipSlashes path with
  | nil => exact .inl ⟨rfl, rfl⟩
  | cons c cs =>
    by_cases hc : c = 0
    · exact .inl ⟨if_pos hc, hc⟩
    have hchar : elemChar c = true := by simp [elemChar, hc, skipSlashes_ne hs]
    simp only [List.headD_cons, hc, if_false, List.takeWhile_cons_of_pos hchar,
      List.dropWhile_cons_of_pos hchar]
    refine .inr ⟨c, cs, _, rfl, hchar, rfl, ?_⟩
    unfold IsName
    split
    · rename_i hlong
      exact List.take_left' (by rw [List.length_take, Nat.min_eq_left hlong])
    · rw [List.append_cons]
      exact List.take_left' List.length_append

theorem length_skipelem_lt {path name rest name' : CString}
    (h : skipelem path name = some (rest, name')) : rest.length < path.length := by
  rcases skipelem_cases path name with ⟨hnone, -⟩ | ⟨c, cs, _, hs, -, hsome, -⟩
  · rw [hnone] at h
    cases h
  rw [hsome] at h
  cases h
  have hle := length_skipSlashes_le path
  rw [hs] at hle
  calc (skipSlashes (cs.dropWhile elemChar)).length ≤ (cs.dropWhile elemChar).length :=
        length_skipSlashes_le _
    _ ≤ cs.length := (List.dropWhile_suffix _).length_le
    _ < path.length := hle

theorem skipelem_rest {path name rest name' : CString}
    (h : skipelem path name = some (rest, name')) (buf : CString) :
    skipelem rest buf = none ↔ rest.headD 0 = 0 := by
  simp only [skipelem] at h
  split at h
  · cases h
  · simp only [Option.some.injEq, Prod.mk.injEq] at h
    have hid : skipSlashes rest = rest := by rw [← h.1, skipSlashes_idem]
    simp only [skipelem, hid]
    split <;> simp_all

/-! ## The elements of a path -/

/-- The maximal parts of a path without a slash, up to its `NUL`, that are not empty. -/
def elements (path : CString) : List CString :=
  ((path.takeWhile (· != 0)).splitOn slash).filter (· ≠ [])

theorem elements_slash (path : CString) : elements (slash :: path) = elements path := by
  unfold elements
  rw [List.takeWhile_cons_of_pos rfl, List.splitOn, List.splitOnP_cons_eq_if_modifyHead,
    if_pos (beq_self_eq_true slash)]
  rfl

theorem elements_skipSlashes (path : CString) : elements (skipSlashes path) = elements path := by
  unfold skipSlashes
  induction path with
  | nil => rfl
  | cons c path ih =>
    by_cases hc : c = slash
    · rw [hc, elements_slash, List.dropWhile_cons_of_pos rfl, ih]
    · rw [List.dropWhile_cons_of_neg (by simpa using hc)]

theorem elements_of_headD {path : CString} (h : path.headD 0 = 0) : elements path = [] := by
  cases path with
  | nil => rfl
  | cons c path =>
    rw [List.headD_cons] at h
    rw [h]
    rfl

theorem elements_cons {c : UInt8} (cs : CString) (hc : elemChar c = true) :
    elements (c :: cs) = (c :: cs.takeWhile elemChar) :: elements (cs.dropWhile elemChar) := by
  have hchars : ∀ x ∈ c :: cs.takeWhile elemChar, (x == slash) = false ∧ (x != 0) = true := by
    rw [← List.takeWhile_cons_of_pos hc]
    intro x hx
    have hx' := List.all_eq_true.mp List.all_takeWhile x hx
    simpa [elemChar] using hx'
  have hfirst : elements (c :: cs) = (((c :: cs.takeWhile elemChar) ++
      (cs.dropWhile elemChar).takeWhile (· != 0)).splitOn slash).filter (· ≠ []) := by
    rw [← List.takeWhile_append_of_pos fun x hx => (hchars x hx).2, List.cons_append,
      List.takeWhile_append_dropWhile]
    rfl
  have hsingle := List.splitOnP_eq_singleton fun x hx => (hchars x hx).1
  rw [hfirst]
  -- behind the element there is the end of the string or a slash
  cases hrest : cs.dropWhile elemChar with
  | nil =>
    rw [List.takeWhile_nil, List.append_nil, List.splitOn, hsingle]
    rfl
  | cons d ds =>
    have hd : elemChar d = false := by
      have := List.head?_dropWhile_not elemChar cs
      rw [hrest] at this
      exact this
    by_cases hnul : d = 0
    · rw [hnul, List.takeWhile_cons_of_neg (by decide), List.append_nil, List.splitOn, hsingle]
      rfl
    · have hslash : d = slash := by simpa [elemChar, hnul] using hd
      rw [hslash, elements_slash, List.takeWhile_cons_of_pos rfl, List.splitOn,
        List.splitOnP_append_cons_of_forall_mem (fun x hx => (hchars x hx).1) slash rfl]
      rfl

theorem skipelem_eq_none_iff (path name : CString) : skipelem path name = none ↔ elements path = [] := by
  rw [← elements_skipSlashes]
  rcases skipelem_cases path name with ⟨hnone, hend⟩ | ⟨c, cs, _, hs, hc, hsome, -⟩
  · exact iff_of_true hnone (elements_of_headD hend)
  · rw [hsome, hs, elements_cons cs hc]
    exact iff_of_false nofun nofun

/-- What `skipelem` returns, round by round, until it returns `0`. -/
def skipelems : Nat → CString → CString → Option (List (CString × CString))
  | 0, _, _ => none
  | fuel + 1, path, name =>
    match skipelem path name with
    | none => some []
    | some (path, name) => (skipelems fuel path name).map ((path, name) :: ·)

/-- The rounds put the elements of the path into the buffer, one after the other, and what a round
leaves of the path is the empty string exactly in the last one. -/
structure Splits (path : CString) (rounds : List (CString × CString)) : Prop where
  names : List.Forall₂ (fun round elem => IsName round.2 elem) rounds (elements path)
  last : ∀ i round, rounds[i]? = some round → (round.1.headD 0 = 0 ↔ i + 1 = rounds.length)

theorem skipelems_splits {fuel : Nat} {path : CString} (name : CString) (hfuel : path.length < fuel) :
    ∃ rounds, skipelems fuel path name = some rounds ∧ components fuel path name = rounds.map Prod.snd ∧
      Splits path rounds := by
  induction fuel generalizing path name with
  | zero => exact absurd hfuel (Nat.not_lt_zero _)
  | succ fuel ih =>
    unfold skipelems components
    rcases skipelem_cases path name with ⟨hnone, hend⟩ | ⟨c, cs, name', hs, hc, hsome, hname⟩
    · have hnil := (skipelem_eq_none_iff path name).mp hnone
      rw [hnone]
      exact ⟨[], rfl, rfl, by rw [hnil]; exact .nil, nofun⟩
    have hlt := length_skipelem_lt hsome
    have helems := elements_cons cs hc
    rw [← hs, elements_skipSlashes] at helems
    rw [hsome]
    generalize hrest : skipSlashes (cs.dropWhile elemChar) = rest at hsome hlt ⊢
    obtain ⟨rounds, hrounds, hcomponents, hall, hlast⟩ :=
      ih name' (Nat.lt_of_lt_of_le hlt (Nat.le_of_lt_succ hfuel))
    rw [← hrest, elements_skipSlashes] at hall
    refine ⟨(rest, name') :: rounds, ?_, ?_, helems ▸ .cons hname hall, fun i round hround => ?_⟩
    · dsimp only
      rw [hrounds]
      rfl
    · dsimp only
      rw [hcomponents]
      rfl
    cases i with
    | succ i => exact (hlast i round hround).trans (Nat.add_right_cancel_iff (n := 1)).symm
    | zero =>
      cases hround
      rw [← skipelem_rest hsome name', skipelem_eq_none_iff, ← hrest, elements_skipSlashes,
        ← List.length_eq_zero_iff, ← hall.length_eq, List.length_cons]
      omega

/-- More fuel than the path has characters changes nothing in the loop of `namex`. -/
theorem namexLoop_fuel {p : Proc} {parent : Bool} {fuel fuel' : Nat} {path name : CString} {ip : Slot}
    {s : FsState} (hfuel : path.length < fuel) (hfuel' : path.length < fuel') :
    namexLoop p parent fuel path name ip s = namexLoop p parent fuel' path name ip s := by
  induction fuel generalizing fuel' path name ip s with
  | zero => exact absurd hfuel (Nat.not_lt_zero _)
  | succ fuel ih =>
    cases fuel' with
    | zero => exact absurd hfuel' (Nat.not_lt_zero _)
    | succ fuel' =>
      simp only [namexLoop]
      cases hskip : skipelem path name with
      | none => rfl
      | some r =>
        have hlt := length_skipelem_lt hskip
        have hround : ∀ ip s, namexLoop p parent fuel r.1 r.2 ip s = namexLoop p parent fuel' r.1 r.2 ip s :=
          fun ip s => ih (by omega) (by omega)
        simp only [hround]

/-- Iterated as `namex` does it, `skipelem` comes to an end, and its rounds are the elements of the
path. -/
theorem path_splitting (path name : CString) :
    (∃ rounds, skipelems (path.length + 1) path name = some rounds ∧
      components (path.length + 1) path name = rounds.map Prod.snd ∧ Splits path rounds) ∧
    ∀ p parent ip s fuel, path.length < fuel →
      namexLoop p parent fuel path name ip s = namexLoop p parent (path.length + 1) path name ip s :=
  ⟨skipelems_splits name (Nat.lt_succ_self _), fun _ _ _ _ _ hfuel =>
    namexLoop_fuel hfuel (Nat.lt_succ_self _)⟩

-- "//a//bb/"
example : elements [47, 47, 97, 47, 47, 98, 98, 47] = [[97], [98, 98]] := by decide

end Xv6.Fs
