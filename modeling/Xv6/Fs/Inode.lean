import Mathlib.Logic.Function.Basic
import Xv6.CString
import Xv6.Lib.Search

/-! # The inode cache and directories of `fs.c`

An inode on disk is its type, its link count and its content; the cache keeps a copy of it
once it has been locked. System calls run one at a time here, so the sleep locks of inodes
are free when a call takes them and are left out. A `panic` is an error with its message.
-/

namespace Xv6.Fs

open Function
open Lib

abbrev tDir : Nat := 1
abbrev tFile : Nat := 2
abbrev tDev : Nat := 3

abbrev direntSize : Nat := 16

/-- `struct dinode`; `size` is the length of the content. -/
structure Dinode where
  type : Nat
  nlink : Int
  content : List UInt8
  deriving DecidableEq

/-- An index into `icache.inode`: a `struct inode *`. -/
abbrev Slot := Fin nInode

/-- `struct inode`, with the copy of the disk inode that `valid` announces. -/
structure Inode where
  dev : Nat
  inum : Nat
  ref : Int
  valid : Bool
  copy : Dinode

structure FsState where
  icache : Slot → Inode
  disk : Nat → Nat → Dinode

def FsState.set (s : FsState) (i : Slot) (f : Inode → Inode) : FsState :=
  { s with icache := update s.icache i (f (s.icache i)) }

inductive Scan
  | cached (i : Slot)
  | empty (i : Slot)
  | full

/-- The loop of `iget`: the entry already cached, or the first free one. -/
def scanCache (ref : Slot → Int) (names : Slot → Bool) : Scan :=
  match (List.finRange nInode).find? fun i => 0 < ref i && names i with
  | some i => .cached i
  | none =>
    match (List.finRange nInode).find? fun i => ref i == 0 with
    | some i => .empty i
    | none => .full

def iget (s : FsState) (dev inum : Nat) : Except String (Slot × FsState) :=
  match scanCache (fun i => (s.icache i).ref)
      fun i => (s.icache i).dev == dev && (s.icache i).inum == inum with
  | .cached i => .ok (i, s.set i fun ip => { ip with ref := ip.ref + 1 })
  | .empty i =>
    .ok (i, s.set i fun ip => { ip with dev := dev, inum := inum, ref := 1, valid := false })
  | .full => .error "iget: no inodes"

def idup (s : FsState) (ip : Slot) : FsState :=
  s.set ip fun x => { x with ref := x.ref + 1 }

def ilock (s : FsState) (ip : Slot) : Except String FsState :=
  if (s.icache ip).ref < 1 then .error "ilock"
  else if (s.icache ip).valid then .ok s
  else
    let dip := s.disk (s.icache ip).dev (s.icache ip).inum
    if dip.type = 0 then .error "ilock: no type"
    else .ok (s.set ip fun x => { x with copy := dip, valid := true })

/-- `itrunc(ip)`, `ip->type = 0` and `iupdate(ip)`: the inode is free on disk. -/
def ifree (s : FsState) (ip : Slot) : FsState :=
  let dip := { (s.icache ip).copy with type := 0, content := [] }
  { icache := update s.icache ip { s.icache ip with copy := dip, valid := false }
    disk := update s.disk (s.icache ip).dev
      (update (s.disk (s.icache ip).dev) (s.icache ip).inum dip) }

def iput (s : FsState) (ip : Slot) : FsState :=
  let x := s.icache ip
  let s := if x.valid ∧ x.copy.nlink = 0 ∧ x.ref = 1 then ifree s ip else s
  s.set ip fun x => { x with ref := x.ref - 1 }

/-! ## Directories -/

def namecmp (s t : CString) : Int := strncmp s t dirSiz

/-- `de.inum` of the entry that starts at the given bytes. -/
def direntInum (bytes : List UInt8) : Nat := ushortAt bytes 0

def direntName (bytes : List UInt8) : CString := (bytes.take direntSize).drop 2

/-- The loop of `dirlookup` from offset `off` on; the fuel is at least the bytes left. -/
def scanDirents (name : CString) : Nat → List UInt8 → Nat → Except String (Option (Nat × Nat))
  | 0, _, _ => .ok none
  | fuel + 1, bytes, off =>
    if bytes = [] then .ok none
    else if bytes.length < direntSize then .error "dirlookup read"
    else if direntInum bytes = 0 then
      scanDirents name fuel (bytes.drop direntSize) (off + direntSize)
    else if namecmp name (direntName bytes) = 0 then .ok (some (direntInum bytes, off))
    else scanDirents name fuel (bytes.drop direntSize) (off + direntSize)

def dirlookup (s : FsState) (dp : Slot) (name : CString) :
    Except String (Option (Slot × Nat) × FsState) :=
  let x := s.icache dp
  if x.copy.type ≠ tDir then .error "dirlookup not DIR"
  else match scanDirents name x.copy.content.length x.copy.content 0 with
    | .error e => .error e
    | .ok none => .ok (none, s)
    | .ok (some (inum, off)) =>
      match iget s x.dev inum with
      | .error e => .error e
      | .ok (ip, s) => .ok (some (ip, off), s)

/-! ## What the cache guarantees -/

/-- Entries in use name different inodes, and a copy announced as valid is the allocated
inode on disk. -/
structure CacheOk (s : FsState) : Prop where
  ref_nonneg : ∀ i, 0 ≤ (s.icache i).ref
  unique : ∀ i j, 0 < (s.icache i).ref → 0 < (s.icache j).ref →
    (s.icache i).dev = (s.icache j).dev → (s.icache i).inum = (s.icache j).inum → i = j
  coherent : ∀ i, 0 < (s.icache i).ref → (s.icache i).valid = true →
    (s.icache i).copy = s.disk (s.icache i).dev (s.icache i).inum ∧ (s.icache i).copy.type ≠ 0

variable {i ip : Slot} {s : FsState}

@[simp] theorem set_self (s : FsState) (i : Slot) (f : Inode → Inode) :
    (s.set i f).icache i = f (s.icache i) := update_self ..

theorem set_of_ne (s : FsState) {j : Slot} (f : Inode → Inode) (h : j ≠ i) :
    (s.set i f).icache j = s.icache j := update_of_ne h ..

theorem CacheOk.set (h : CacheOk s) (i : Slot) (f : Inode → Inode) (href : 0 ≤ (f (s.icache i)).ref)
    (hother : 0 < (f (s.icache i)).ref → ∀ j, j ≠ i → 0 < (s.icache j).ref →
      ¬ ((f (s.icache i)).dev = (s.icache j).dev ∧ (f (s.icache i)).inum = (s.icache j).inum))
    (hcopy : 0 < (f (s.icache i)).ref → (f (s.icache i)).valid = true →
      (f (s.icache i)).copy = s.disk (f (s.icache i)).dev (f (s.icache i)).inum ∧
        (f (s.icache i)).copy.type ≠ 0) : CacheOk (s.set i f) := by
  constructor
  · intro j
    by_cases hj : j = i
    · subst hj
      simpa using href
    · rw [set_of_ne s f hj]
      exact h.ref_nonneg j
  · intro j k hj hk hdev hinum
    by_cases hji : j = i
    · by_cases hki : k = i
      · exact hji.trans hki.symm
      · subst hji
        rw [set_self] at hj hdev hinum
        rw [set_of_ne s f hki] at hk hdev hinum
        exact absurd ⟨hdev, hinum⟩ (hother hj k hki hk)
    · by_cases hki : k = i
      · subst hki
        rw [set_self] at hk hdev hinum
        rw [set_of_ne s f hji] at hj hdev hinum
        exact absurd ⟨hdev.symm, hinum.symm⟩ (hother hk j hji hj)
      · rw [set_of_ne s f hji] at hj hdev hinum
        rw [set_of_ne s f hki] at hk hdev hinum
        exact h.unique j k hj hk hdev hinum
  · intro j hj hv
    by_cases hji : j = i
    · subst hji
      rw [set_self] at hj hv ⊢
      exact hcopy hj hv
    · rw [set_of_ne s f hji] at hj hv ⊢
      exact h.coherent j hj hv

theorem CacheOk.setRef (h : CacheOk s) (hi : 0 < (s.icache i).ref) (r : Int → Int)
    (hr : 0 ≤ r (s.icache i).ref) : CacheOk (s.set i fun x => { x with ref := r x.ref }) :=
  h.set i _ hr (fun _ j hj hjr hid => hj (h.unique j i hjr hi hid.1.symm hid.2.symm))
    (fun _ => h.coherent i hi)

theorem scanCache_cases (ref : Slot → Int) (names : Slot → Bool) :
    (∃ i, scanCache ref names = .cached i ∧ 0 < ref i ∧ names i = true) ∨
      (∃ i, scanCache ref names = .empty i ∧ ref i = 0 ∧ ∀ j, 0 < ref j → names j = false) ∨
      (scanCache ref names = .full ∧ (∀ i, ref i ≠ 0) ∧ ∀ j, 0 < ref j → names j = false) := by
  unfold scanCache
  cases hf : (List.finRange nInode).find? fun i => 0 < ref i && names i with
  | some i => exact .inl ⟨i, rfl, by simpa using List.find?_some hf⟩
  | none =>
    have hnone : ∀ j, 0 < ref j → names j = false := fun j hj => by
      simpa [hj] using find?_finRange_eq_none.mp hf j
    cases he : (List.finRange nInode).find? fun i => ref i == 0 with
    | some i => exact .inr (.inl ⟨i, rfl, by simpa using List.find?_some he, hnone⟩)
    | none => exact .inr (.inr ⟨rfl, fun i => by simpa using find?_finRange_eq_none.mp he i, hnone⟩)

theorem iget_hit (h : CacheOk s) (hi : 0 < (s.icache i).ref) :
    iget s (s.icache i).dev (s.icache i).inum =
      .ok (i, s.set i fun ip => { ip with ref := ip.ref + 1 }) := by
  unfold iget
  rcases scanCache_cases (fun j => (s.icache j).ref) fun j =>
      (s.icache j).dev == (s.icache i).dev && (s.icache j).inum == (s.icache i).inum with
    ⟨j, hscan, hj, hid⟩ | ⟨_, -, -, hnone⟩ | ⟨-, -, hnone⟩
  · simp only [Bool.and_eq_true, beq_iff_eq] at hid
    rw [hscan, h.unique j i hj hi hid.1 hid.2]
  · exact absurd (hnone i hi) (by simp)
  · exact absurd (hnone i hi) (by simp)

theorem iget_cases (s : FsState) (h : CacheOk s) (dev inum : Nat) :
    (iget s dev inum = .error "iget: no inodes" ∧ ∀ i, (s.icache i).ref ≠ 0) ∨
    ∃ i s', iget s dev inum = .ok (i, s') ∧ CacheOk s' ∧ s'.disk = s.disk ∧
      (s'.icache i).dev = dev ∧ (s'.icache i).inum = inum ∧
      (s'.icache i).ref = (s.icache i).ref + 1 ∧
      (0 < (s.icache i).ref → (s.icache i).dev = dev ∧ (s.icache i).inum = inum) ∧
      ∀ j, j ≠ i → s'.icache j = s.icache j := by
  unfold iget
  rcases scanCache_cases (fun i => (s.icache i).ref) fun i =>
      (s.icache i).dev == dev && (s.icache i).inum == inum with
    ⟨i, hscan, hpos, hid⟩ | ⟨i, hscan, hz, hnone⟩ | ⟨hscan, hfull, -⟩
  · simp only [Bool.and_eq_true, beq_iff_eq] at hid
    rw [hscan]
    exact .inr ⟨i, _, rfl, h.setRef hpos (· + 1) (by omega), rfl, by simp [hid], by simp [hid], by simp,
      fun _ => hid, fun j hj => set_of_ne s _ hj⟩
  · simp only [Bool.and_eq_false_iff, beq_eq_false_iff_ne] at hnone
    have hok : CacheOk (s.set i fun ip =>
        { ip with dev := dev, inum := inum, ref := 1, valid := false }) := by
      refine h.set i _ (by simp) (fun _ j _ hjr hid => ?_) (fun _ hv => nomatch hv)
      exact (hnone j hjr).elim (· hid.1.symm) (· hid.2.symm)
    rw [hscan]
    exact .inr ⟨i, _, rfl, hok, rfl, by simp, by simp, by simp [hz], fun hpos => absurd hz (by omega),
      fun j hj => set_of_ne s _ hj⟩
  · rw [hscan]
    exact .inl ⟨rfl, hfull⟩

theorem ilock_cases (s : FsState) (h : CacheOk s) (hip : 0 < (s.icache ip).ref) :
    (ilock s ip = .error "ilock: no type" ∧
      (s.disk (s.icache ip).dev (s.icache ip).inum).type = 0) ∨
    ∃ s', ilock s ip = .ok s' ∧ CacheOk s' ∧ s'.disk = s.disk ∧
      (∀ j, (s'.icache j).dev = (s.icache j).dev ∧ (s'.icache j).inum = (s.icache j).inum ∧
        (s'.icache j).ref = (s.icache j).ref) ∧
      (s'.icache ip).valid = true ∧
      (s'.icache ip).copy = s.disk (s.icache ip).dev (s.icache ip).inum ∧
      (s'.icache ip).copy.type ≠ 0 := by
  have href : ¬ (s.icache ip).ref < 1 := by omega
  unfold ilock
  rw [if_neg href]
  by_cases hv : (s.icache ip).valid = true
  · rw [if_pos hv]
    have hco := h.coherent ip hip hv
    exact .inr ⟨s, rfl, h, rfl, fun _ => ⟨rfl, rfl, rfl⟩, hv, hco.1, hco.2⟩
  rw [if_neg hv]
  by_cases ht : (s.disk (s.icache ip).dev (s.icache ip).inum).type = 0
  · rw [if_pos ht]
    exact .inl ⟨rfl, ht⟩
  rw [if_neg ht]
  refine .inr ⟨_, rfl, h.set ip _ (h.ref_nonneg ip) ?_ fun _ _ => ⟨rfl, ht⟩, rfl, ?_, ?_, ?_, ?_⟩
  · intro _ j hj hjr hid
    exact hj (h.unique j ip hjr hip hid.1.symm hid.2.symm)
  · intro j
    by_cases hj : j = ip
    · subst hj
      simp
    · rw [set_of_ne s _ hj]
      exact ⟨rfl, rfl, rfl⟩
  · simp
  · simp
  · simpa using ht

theorem ifree_ident (s : FsState) (ip j : Slot) : ((ifree s ip).icache j).ref = (s.icache j).ref ∧
    ((ifree s ip).icache j).dev = (s.icache j).dev ∧
    ((ifree s ip).icache j).inum = (s.icache j).inum := by
  by_cases hj : j = ip
  · subst hj
    simp [ifree]
  · have : (ifree s ip).icache j = s.icache j := update_of_ne hj ..
    rw [this]
    exact ⟨rfl, rfl, rfl⟩

theorem CacheOk.ifree (h : CacheOk s) (hip : 0 < (s.icache ip).ref) : CacheOk (ifree s ip) := by
  have hentry : ∀ j, j ≠ ip → (Fs.ifree s ip).icache j = s.icache j := fun j hj =>
    update_of_ne hj ..
  have hident := ifree_ident s ip
  constructor
  · intro j
    rw [(hident j).1]
    exact h.ref_nonneg j
  · intro j k hj hk hdev hinum
    rw [(hident j).1] at hj
    rw [(hident k).1] at hk
    rw [(hident j).2.1, (hident k).2.1] at hdev
    rw [(hident j).2.2, (hident k).2.2] at hinum
    exact h.unique j k hj hk hdev hinum
  · intro j hj hv
    by_cases hji : j = ip
    · subst hji
      simp [Fs.ifree] at hv
    rw [hentry j hji] at hj hv ⊢
    have hdisk : (Fs.ifree s ip).disk (s.icache j).dev (s.icache j).inum =
        s.disk (s.icache j).dev (s.icache j).inum := by
      unfold Fs.ifree
      dsimp only
      by_cases hdev : (s.icache j).dev = (s.icache ip).dev
      · have hinum : (s.icache j).inum ≠ (s.icache ip).inum := fun hinum =>
          hji (h.unique j ip hj hip hdev hinum)
        rw [hdev, update_self, update_of_ne hinum]
      · rw [update_of_ne hdev]
    rw [hdisk]
    exact h.coherent j hj hv

theorem iput_spec (h : CacheOk s) (hip : 0 < (s.icache ip).ref) :
    CacheOk (iput s ip) ∧
    (∀ j, ((iput s ip).icache j).ref = (s.icache j).ref - if j = ip then 1 else 0) ∧
    (∀ j, ((iput s ip).icache j).dev = (s.icache j).dev ∧
      ((iput s ip).icache j).inum = (s.icache j).inum) ∧
    ((iput s ip).disk = s.disk ∨
      (s.icache ip).valid = true ∧ (s.icache ip).copy.nlink = 0 ∧ (s.icache ip).ref = 1 ∧
        (iput s ip).disk = (ifree s ip).disk) := by
  have hset : ∀ t : FsState, CacheOk t → (∀ j, (t.icache j).ref = (s.icache j).ref ∧
      (t.icache j).dev = (s.icache j).dev ∧ (t.icache j).inum = (s.icache j).inum) →
      let u := t.set ip fun x => { x with ref := x.ref - 1 }
      CacheOk u ∧ (∀ j, (u.icache j).ref = (s.icache j).ref - if j = ip then 1 else 0) ∧
        ∀ j, (u.icache j).dev = (s.icache j).dev ∧ (u.icache j).inum = (s.icache j).inum := by
    intro t ht hsame u
    have hpos : 0 < (t.icache ip).ref := by rw [(hsame ip).1]; exact hip
    refine ⟨ht.setRef hpos (· - 1) (by omega), fun j => ?_, fun j => ?_⟩
    · by_cases hj : j = ip
      · subst hj
        simp [u, (hsame j).1]
      · rw [if_neg hj, Int.sub_zero, ← (hsame j).1]
        exact congrArg Inode.ref (set_of_ne t _ hj)
    · by_cases hj : j = ip
      · subst hj
        simp [u, (hsame j).2]
      · have := set_of_ne t (fun x => { x with ref := x.ref - 1 }) hj
        rw [← (hsame j).2.1, ← (hsame j).2.2]
        exact ⟨congrArg Inode.dev this, congrArg Inode.inum this⟩
  unfold iput
  dsimp only
  by_cases hfree : (s.icache ip).valid = true ∧ (s.icache ip).copy.nlink = 0 ∧ (s.icache ip).ref = 1
  · rw [if_pos hfree]
    obtain ⟨hok, href, hid⟩ := hset _ (h.ifree hip) (ifree_ident s ip)
    exact ⟨hok, href, hid, .inr ⟨hfree.1, hfree.2.1, hfree.2.2, rfl⟩⟩
  · rw [if_neg hfree]
    obtain ⟨hok, href, hid⟩ := hset s h fun _ => ⟨rfl, rfl, rfl⟩
    exact ⟨hok, href, hid, .inl rfl⟩

end Xv6.Fs
