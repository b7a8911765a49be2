import Xv6.Fs.Walk

/-! # Path lookup inside a container

A process in a container walks from its working directory, for absolute paths too, and stays
at the container root on `".."`. In a well-formed tree it can therefore not leave the part
below the container root, but an absolute path starts there only while the working directory is
the container root.
-/

namespace Xv6.Fs

open Lib

variable {dev n : Nat}

/-- A process in a container whose root is the directory cached at `r`. -/
structure Container (p : Proc) (s : FsState) (dev : Nat) (r : Slot) : Prop where
  cache : CacheOk s
  whole : WholeEntries s.disk dev
  inNewroot : p.inNewroot = 1
  newroot : p.newrootInode = some r
  root_held : 0 < (s.icache r).ref
  root_dev : (s.icache r).dev = dev
  root_dir : (s.disk dev (s.icache r).inum).type = tDir
  cwd_held : 0 < (s.icache p.cwd).ref

/-- The lookup comes back, with `0` or an inode that is `good`, or it stops in a `panic`: one
for want of a second free cache entry, or one at an entry that names a free inode. -/
def Returns (s : FsState) (dev : Nat) (good : Option Nat → Prop) :
    Except String (Option Slot × FsState) → Prop
  | .ok (none, _) => good none
  | .ok (some ip, t) => (t.icache ip).dev = dev ∧ good (some (t.icache ip).inum)
  | .error e =>
    (e = "iget: no inodes" ∧ ¬ Room s) ∨ (e = "ilock: no type" ∧ ¬ Linked s.disk dev)

theorem Outcome.returns {s : FsState} {target : Option Nat} {good : Option Nat → Prop}
    {r : Except String (Option Slot × CString × FsState)} (h : Outcome s dev (Linked s.disk dev) target r)
    (hgood : good target) : Returns s dev good (r.map fun x => (x.1, x.2.2)) := by
  cases h with
  | noInodes hroom => exact .inl ⟨rfl, hroom⟩
  | noType hlink => exact .inr ⟨rfl, hlink⟩
  | nothing _ htarget =>
    rw [htarget] at hgood
    exact hgood
  | inode hstands htarget =>
    refine ⟨hstands.dev_eq, ?_⟩
    rw [hstands.inum_eq, ← htarget]
    exact hgood

theorem namei_eq_map (p : Proc) (path name : CString) (s : FsState) :
    namei p path name s = (namex p path false name s).map fun x => (x.1, x.2.2) := by
  unfold namei
  cases namex p path false name s <;> rfl

section Container

variable {p : Proc} {s : FsState} {dev : Nat} {r : Slot}

/-- Absolute or not, a path starts at the working directory. -/
theorem Container.namexStart_eq (h : Container p s dev r) (path : CString) :
    namexStart p path s = .ok (p.cwd, idup s p.cwd) := by
  unfold namexStart
  rw [if_pos h.inNewroot, iget_hit h.cache h.cwd_held]
  split <;> rfl

theorem Container.confinedTo_eq (h : Container p s dev r) :
    confinedTo p s = some (s.icache r).inum := by
  have hin : p.inNewroot ≠ 0 := by
    rw [h.inNewroot]
    decide
  unfold confinedTo
  rw [if_neg hin, h.newroot]
  rfl

theorem Container.rootHeld (h : Container p s dev r) : RootHeld p s dev := by
  intro i _ hi
  rw [h.newroot] at hi
  cases hi
  exact ⟨h.root_held, h.root_dev⟩

theorem Container.stands (h : Container p s dev r) (hdev : (s.icache p.cwd).dev = dev)
    (halloc : Linked s.disk dev → (s.disk dev (s.icache p.cwd).inum).type ≠ 0) :
    Stands s dev (Linked s.disk dev) (idup s p.cwd) p.cwd (s.icache p.cwd).inum := by
  have hok : CacheOk (idup s p.cwd) := h.cache.setRef h.cwd_held (· + 1) (by
    have := h.cwd_held
    omega)
  refine ⟨⟨hok, fun i => ?_, fun i _ => ?_, fun _ _ => .inl rfl⟩, ?_, ?_, fun hlink => ?_⟩
  · by_cases hi : i = p.cwd
    · subst hi
      simp [idup]
    · rw [if_neg hi, Int.add_zero]
      exact congrArg Inode.ref (set_of_ne s _ hi)
  · by_cases hi : i = p.cwd
    · subst hi
      simp [idup]
    · have hsame : (idup s p.cwd).icache i = s.icache i := set_of_ne s _ hi
      rw [hsame]
      exact ⟨rfl, rfl⟩
  · simp [idup, hdev]
  · simp [idup]
  · exact ⟨rfl, halloc hlink, .inr h.cwd_held⟩

/-- `namex` in a container is the walk from the working directory, confined to the
container root. -/
theorem Container.namex_outcome (h : Container p s dev r) (hdev : (s.icache p.cwd).dev = dev)
    (halloc : Linked s.disk dev → (s.disk dev (s.icache p.cwd).inum).type ≠ 0)
    (path : CString) (par : Bool) (name : CString) :
    Outcome s dev (Linked s.disk dev)
      (goal par (tree s.disk dev) (some (s.icache r).inum) (s.icache p.cwd).inum
        (components (path.length + 1) path name))
      (namex p path par name s) := by
  unfold namex
  rw [h.namexStart_eq path, ← h.confinedTo_eq]
  exact namexLoop_outcome h.cache h.whole h.rootHeld id name (Nat.lt_succ_self _)
    (h.stands hdev halloc)

end Container

/-! ## A container at `/a` -/

/-- The directories `/`, `/a` and `/a/b` as inodes `1`, `2` and `3`. -/
def nestedEntries : Nat → List (Nat × CString)
  | 1 => [(1, dot), (1, dotdot), (2, [97])]
  | 2 => [(2, dot), (1, dotdot), (3, [98])]
  | 3 => [(3, dot), (2, dotdot)]
  | _ => []

def nestedDisk (_ n : Nat) : Dinode :=
  if 1 ≤ n ∧ n ≤ 3 then ⟨tDir, 1, (nestedEntries n).flatMap fun e => dirent e.1 e.2⟩ else ⟨0, 0, []⟩

theorem nested_isDir (h : (tree nestedDisk dev).isDir n = true) : n = 1 ∨ n = 2 ∨ n = 3 := by
  by_contra hn
  have : ¬ (1 ≤ n ∧ n ≤ 3) := by omega
  simp [tree, nestedDisk, this] at h

theorem nested_lookup (h : n = 1 ∨ n = 2 ∨ n = 3) (a : CString) : (tree nestedDisk dev).lookup n a =
      ((nestedEntries n).find? fun e => chars dirSiz a == chars dirSiz e.2).map Prod.fst := by
  have hcontent : (nestedDisk dev n).content = (nestedEntries n).flatMap fun e => dirent e.1 e.2 := by
    unfold nestedDisk
    rw [if_pos (by omega)]
  show lookupIn (nestedDisk dev n).content a = _
  rw [hcontent]
  apply lookupIn_entries
  rcases h with rfl | rfl | rfl <;> decide

theorem nested_wellFormed (dev : Nat) : (tree nestedDisk dev).WellFormed where
  here := by
    intro d a hdir ha
    have hd := nested_isDir hdir
    have hchars : chars dirSiz a = chars dirSiz dot := (strncmp_eq_zero_iff ..).mp (beq_iff_eq.mp ha)
    rw [nested_lookup hd]
    rcases hd with rfl | rfl | rfl <;> (simp only [hchars]; decide)
  up := by
    intro d a c b hdir ha hu hlook hcdir hb
    have hd := nested_isDir hdir
    have hnot : chars dirSiz a ≠ chars dirSiz dot ∧ chars dirSiz a ≠ chars dirSiz dotdot :=
      ⟨fun h => beq_eq_false_iff_ne.mp ha ((strncmp_eq_zero_iff ..).mpr h),
        fun h => beq_eq_false_iff_ne.mp hu ((strncmp_eq_zero_iff ..).mpr h)⟩
    have hup : chars dirSiz b = chars dirSiz dotdot := (strncmp_eq_zero_iff ..).mp (beq_iff_eq.mp hb)
    rw [nested_lookup (nested_isDir hcdir), hup]
    rw [nested_lookup hd] at hlook
    have hc : (d = 1 ∧ c = 2) ∨ (d = 2 ∧ c = 3) := by
      rcases hd with rfl | rfl | rfl <;>
        simp only [nestedEntries, List.find?_cons, beq_eq_false_iff_ne.mpr hnot.1,
          beq_eq_false_iff_ne.mpr hnot.2, List.find?_nil] at hlook
      · split at hlook <;> simp_all
      · split at hlook <;> simp_all
      · cases hlook
    rcases hc with ⟨rfl, rfl⟩ | ⟨rfl, rfl⟩ <;> decide

/-- A process in `/a/b`, in a container at `/a`. -/
def nestedState : FsState where
  icache := fun i =>
    if i = 0 then ⟨1, 2, 1, false, ⟨0, 0, []⟩⟩
    else if i = 1 then ⟨1, 3, 1, false, ⟨0, 0, []⟩⟩
    else ⟨0, 0, 0, false, ⟨0, 0, []⟩⟩
  disk := nestedDisk

theorem nested_cache : CacheOk nestedState where
  ref_nonneg := by decide +kernel
  unique := by decide +kernel
  coherent := by decide +kernel

theorem nested_container : Container ⟨1, 1, some 0⟩ nestedState 1 0 where
  cache := nested_cache
  whole := by
    intro n hdir
    have hn : n = 1 ∨ n = 2 ∨ n = 3 := @nested_isDir 1 n (beq_iff_eq.mpr hdir)
    rcases hn with rfl | rfl | rfl <;> decide +kernel
  inNewroot := rfl
  newroot := rfl
  root_held := by decide
  root_dev := rfl
  root_dir := rfl
  cwd_held := by decide

/-! ## Confinement -/

theorem Linked.allocated_below {disk : Nat → Nat → Dinode} {root : Nat} (hlink : Linked disk dev)
    (hroot : (disk dev root).type = tDir) (h : (tree disk dev).Below root n) : (disk dev n).type ≠ 0 := by
  cases h with
  | root =>
    rw [hroot]
    decide
  | entry hd hdir hhere hup hlook => exact (hlink _ _ _ (beq_iff_eq.mp hdir) hlook).1

theorem goal_below {T : NameTree Nat CString} (hT : T.WellFormed) {root m : Nat} (par : Bool)
    {as : List CString} (h : T.Below root n) (hm : goal par T (some root) n as = some m) : T.Below root m := by
  cases par with
  | false => exact NameTree.resolve_below hT h hm
  | true => exact NameTree.resolveParent_below hT h hm

/-- A process in a container cannot name an inode outside of it: from a working directory
below the container root, `namei` and `nameiparent` return `0` or an inode below it, whatever
the path and the bytes in the buffer for its components. -/
theorem lookup_confined {p : Proc} {s : FsState} {dev : Nat} {r : Slot} (h : Container p s dev r)
    (hT : (tree s.disk dev).WellFormed) (hdev : (s.icache p.cwd).dev = dev)
    (hcwd : (tree s.disk dev).Below (s.icache r).inum (s.icache p.cwd).inum) (path name : CString) :
    Returns s dev (fun t => ∀ n, t = some n → (tree s.disk dev).Below (s.icache r).inum n)
      (namei p path name s) ∧
    Returns s dev (fun t => ∀ n, t = some n → (tree s.disk dev).Below (s.icache r).inum n)
      ((nameiparent p path name s).map fun x => (x.1, x.2.2)) := by
  have halloc : Linked s.disk dev → (s.disk dev (s.icache p.cwd).inum).type ≠ 0 := fun hlink =>
    hlink.allocated_below h.root_dir hcwd
  have hwalk := h.namex_outcome hdev halloc path
  constructor
  · rw [namei_eq_map]
    apply (hwalk false name).returns
    intro n hn
    exact goal_below hT false hcwd hn
  · unfold nameiparent
    apply (hwalk true name).returns
    intro n hn
    exact goal_below hT true hcwd hn

/-- `"/../.."` from `/a/b`. -/
theorem lookup_confined_nested :
    (tree nestedDisk 1).Below 2 3 ∧
    Returns nestedState 1 (fun t => ∀ n, t = some n → (tree nestedDisk 1).Below 2 n)
      (namei ⟨1, 1, some 0⟩ (slash :: dotdot ++ slash :: dotdot) [] nestedState) := by
  have hbelow : (tree nestedDisk 1).Below 2 3 :=
    .entry (a := [98]) .root (by decide) (by decide) (by decide) (nested_lookup (by decide) _)
  exact ⟨hbelow, (lookup_confined nested_container (nested_wellFormed 1) rfl hbelow
    (slash :: dotdot ++ slash :: dotdot) []).1⟩

/-! ## Absolute paths -/

/-- The walk an absolute path of a container stands for. -/
def absoluteTarget (s : FsState) (dev : Nat) (r : Slot) (path name : CString) : Option Nat :=
  (tree s.disk dev).resolve (some (s.icache r).inum) (s.icache r).inum
    (components (path.length + 1) path name)

theorem namei_slash {p : Proc} {s : FsState} {r : Slot} (h : Container p s dev r) (name : CString) :
    namei p [slash] name s = .ok (some p.cwd, idup s p.cwd) := by
  unfold namei namex
  rw [h.namexStart_eq]
  rfl

/-- Absolute paths start at the container root exactly while the working directory is the
container root. -/
theorem absolute_from_newroot_iff {p : Proc} {s : FsState} {dev : Nat} {r : Slot}
    (h : Container p s dev r) :
    (∀ path name, path.headD 0 = slash →
      Returns s dev (· = absoluteTarget s dev r path name) (namei p path name s)) ↔ p.cwd = r := by
  constructor
  · intro hall
    have hslash := hall [slash] [] rfl
    rw [namei_slash h] at hslash
    obtain ⟨hdev, htarget⟩ := hslash
    simp only [idup, set_self] at hdev htarget
    have hinum : (s.icache p.cwd).inum = (s.icache r).inum := Option.some.inj htarget
    exact h.cache.unique p.cwd r h.cwd_held h.root_held (hdev.trans h.root_dev.symm) hinum
  · intro hcwd path name _
    have hdev : (s.icache p.cwd).dev = dev := by rw [hcwd, h.root_dev]
    have halloc : Linked s.disk dev → (s.disk dev (s.icache p.cwd).inum).type ≠ 0 := by
      intro _
      rw [hcwd, h.root_dir]
      decide
    have hwalk := h.namex_outcome hdev halloc path false name
    rw [namei_eq_map]
    apply hwalk.returns
    rw [hcwd]
    rfl

theorem absolute_from_newroot_nested : ¬ ∀ path name, path.headD 0 = slash →
      Returns nestedState 1 (· = absoluteTarget nestedState 1 0 path name)
        (namei ⟨1, 1, some 0⟩ path name nestedState) := fun hall =>
  absurd ((absolute_from_newroot_iff nested_container).mp hall) (by decide)

/-- The cache after `userinit`: only the root directory is held, as working directory. -/
def bootFs : FsState where
  icache := fun i =>
    if i = 0 then ⟨rootDev, rootIno, 1, false, ⟨0, 0, []⟩⟩ else ⟨0, 0, 0, false, ⟨0, 0, []⟩⟩
  disk := nestedDisk

/-- `cm_setroot("/a")`, `chdir("/a")`, `chdir("b")`. -/
def nestedSession : Except String (Proc × FsState) := do
  let (_, p, s) ← doSetroot ⟨0, 0, none⟩ [slash, 97] [] 2 bootFs
  let (_, p, s) ← sysChdir p [slash, 97] [] s
  let (_, p, s) ← sysChdir p [98] [] s
  return (p, s)

/-- After these calls the container root is inode `2`, and `"/"` is inode `3`. -/
theorem absolute_from_cwd :
    (nestedSession.toOption.bind fun (p, s) => confinedTo p s) = some 2 ∧
    (nestedSession.toOption.bind fun (p, s) => (namei p [slash] [] s).toOption.bind fun (ip, t) =>
      ip.map fun ip => (t.icache ip).inum) = some 3 := by
  decide +kernel

end Xv6.Fs
