import Xv6.Lib.NameTree
import Xv6.Fs.Path

/-! # `namex` walks the tree of names on disk

The tree of a device is read off its inodes. The loop of `namex` keeps the cache in order,
holds exactly one reference of its own, and, unless it stops in a `panic`, ends at the
inode that the abstract walk over the components of the path ends at. An inode that loses its last
reference without a link is freed on the way; a later visit to it is such a `panic`.
-/

namespace Xv6.Fs

open Lib

variable {fuel n : Nat} {name : CString} {s s0 s' : FsState} {ip : Slot}

/-- The inode number that a directory with the given content lists under a name. -/
def lookupIn (content : List UInt8) (name : CString) : Option Nat :=
  match scanDirents name content.length content 0 with
  | .ok (some (inum, _)) => some inum
  | _ => none

def tree (disk : Nat → Nat → Dinode) (dev : Nat) : NameTree Nat CString where
  isDir := fun n => (disk dev n).type == tDir
  lookup := fun n name => lookupIn (disk dev n).content name
  isHere := fun name => namecmp name dot == 0
  isUp := fun name => namecmp name dotdot == 0

def WholeEntries (disk : Nat → Nat → Dinode) (dev : Nat) : Prop :=
  ∀ n, (disk dev n).type = tDir → direntSize ∣ (disk dev n).content.length

/-- Every entry names an allocated inode with a link. -/
def Linked (disk : Nat → Nat → Dinode) (dev : Nat) : Prop :=
  ∀ n name m, (disk dev n).type = tDir → lookupIn (disk dev n).content name = some m →
    (disk dev m).type ≠ 0 ∧ (disk dev m).nlink ≠ 0

theorem scanDirents_whole (name : CString) {bytes : List UInt8} (off : Nat) (hfuel : bytes.length ≤ fuel)
    (hwhole : direntSize ∣ bytes.length) : ∃ r, scanDirents name fuel bytes off = .ok r := by
  induction fuel generalizing bytes off with
  | zero => exact ⟨none, rfl⟩
  | succ fuel ih =>
    simp only [scanDirents]
    by_cases hnil : bytes = []
    · rw [if_pos hnil]
      exact ⟨none, rfl⟩
    have hpos := List.length_pos_iff.mpr hnil
    have hge : ¬ bytes.length < direntSize := fun hlt =>
      absurd (Nat.le_of_dvd hpos hwhole) (by omega)
    rw [if_neg hnil, if_neg hge]
    have hdrop : (bytes.drop direntSize).length = bytes.length - direntSize :=
      List.length_drop
    have hrest : ∃ r, scanDirents name fuel (bytes.drop direntSize) (off + direntSize) = .ok r :=
      ih (off + direntSize) (by rw [hdrop]; simp only [direntSize] at hge ⊢; omega)
        (by rw [hdrop]; exact Nat.dvd_sub hwhole (Nat.dvd_refl _))
    split
    · exact hrest
    · split
      · exact ⟨_, rfl⟩
      · exact hrest

/-! ## Directories made of entries -/

/-- A directory entry as it lies in the content of its directory. -/
def dirent (inum : Nat) (name : CString) : List UInt8 :=
  UInt8.ofNat inum :: UInt8.ofNat (inum / 256) :: (name ++ List.replicate (dirSiz - name.length) 0)

theorem direntInum_dirent {inum : Nat} (h : inum < 65536) (name rest : CString) :
    direntInum (dirent inum name ++ rest) = inum := by
  simp only [direntInum, ushortAt, dirent, List.cons_append, List.getD_cons_zero, List.getD_cons_succ,
    UInt8.toNat_ofNat']
  omega

theorem length_dirent (h : name.length ≤ dirSiz) (inum : Nat) : (dirent inum name).length = direntSize := by
  simp only [dirent, List.length_cons, List.length_append, List.length_replicate]
  simp only [dirSiz, direntSize] at *
  omega

theorem direntName_dirent (h : name.length ≤ dirSiz) (inum : Nat) (rest : CString) :
    chars dirSiz (direntName (dirent inum name ++ rest)) = chars dirSiz name := by
  unfold direntName
  rw [← length_dirent h inum, List.take_left]
  exact chars_append_nul ..

/-- Among entries, with nothing behind them that is found, the first one with the name is found. -/
theorem scanDirents_entries (name : CString) (entries : List (Nat × CString)) {rest : List UInt8}
    (h : ∀ e ∈ entries, 0 < e.1 ∧ e.1 < 65536 ∧ e.2.length ≤ dirSiz)
    (hrest : ∀ fuel off, scanDirents name fuel rest off = .ok none) (off : Nat)
    (hfuel : (entries.flatMap fun e => dirent e.1 e.2).length ≤ fuel) :
    ∃ off', scanDirents name fuel ((entries.flatMap fun e => dirent e.1 e.2) ++ rest) off =
      .ok ((entries.find? fun e => chars dirSiz name == chars dirSiz e.2).map fun e => (e.1, off')) := by
  induction entries generalizing fuel off with
  | nil => exact ⟨0, hrest fuel off⟩
  | cons e entries ih =>
    obtain ⟨hpos, hlt, hlen⟩ := h e List.mem_cons_self
    have hsize := length_dirent hlen e.1
    rw [List.flatMap_cons] at hfuel ⊢
    rw [List.length_append, hsize] at hfuel
    rw [List.append_assoc]
    generalize hbytes : (entries.flatMap fun e => dirent e.1 e.2) ++ rest = bytes at ih ⊢
    cases fuel with
    | zero => simp [direntSize] at hfuel
    | succ fuel =>
      have hne : dirent e.1 e.2 ++ bytes ≠ [] := by simp [dirent]
      have hge : ¬ (dirent e.1 e.2 ++ bytes).length < direntSize := by
        rw [List.length_append, hsize]
        omega
      have hdrop : (dirent e.1 e.2 ++ bytes).drop direntSize = bytes := by
        rw [← hsize, List.drop_left]
      simp only [scanDirents]
      rw [if_neg hne, if_neg hge, direntInum_dirent hlt, if_neg (by omega), hdrop, List.find?_cons]
      by_cases hname : namecmp name (direntName (dirent e.1 e.2 ++ bytes)) = 0
      · rw [if_pos hname]
        rw [namecmp, strncmp_eq_zero_iff, direntName_dirent hlen] at hname
        rw [beq_iff_eq.mpr hname]
        exact ⟨off, rfl⟩
      rw [if_neg hname]
      rw [namecmp, strncmp_eq_zero_iff, direntName_dirent hlen] at hname
      rw [beq_eq_false_iff_ne.mpr hname]
      apply ih (fun e he => h e (List.mem_cons_of_mem _ he))
      simp only [direntSize] at hfuel
      omega

theorem lookupIn_entries (entries : List (Nat × CString))
    (h : ∀ e ∈ entries, 0 < e.1 ∧ e.1 < 65536 ∧ e.2.length ≤ dirSiz) :
    lookupIn (entries.flatMap fun e => dirent e.1 e.2) name =
      (entries.find? fun e => chars dirSiz name == chars dirSiz e.2).map Prod.fst := by
  have hnil : ∀ fuel off, scanDirents name fuel [] off = .ok none := by
    intro fuel off
    cases fuel <;> rfl
  obtain ⟨off, hoff⟩ := scanDirents_entries name entries h hnil 0 (Nat.le_refl _)
  rw [List.append_nil] at hoff
  unfold lookupIn
  rw [hoff]
  cases entries.find? fun e => chars dirSiz name == chars dirSiz e.2 <;> rfl

/-! ## Lookup in a locked directory -/

theorem dirlookup_cases (h : CacheOk s) {dp : Slot} (name : CString) (hdir : (s.icache dp).copy.type = tDir)
    (hwhole : direntSize ∣ (s.icache dp).copy.content.length) :
    (dirlookup s dp name = .ok (none, s) ∧ lookupIn (s.icache dp).copy.content name = none) ∨
    ∃ inum, lookupIn (s.icache dp).copy.content name = some inum ∧
      ((dirlookup s dp name = .error "iget: no inodes" ∧ ∀ i, (s.icache i).ref ≠ 0) ∨
       ∃ i off s', dirlookup s dp name = .ok (some (i, off), s') ∧
        iget s (s.icache dp).dev inum = .ok (i, s')) := by
  obtain ⟨r, hr⟩ := scanDirents_whole name 0 (Nat.le_refl _) hwhole
  unfold dirlookup lookupIn
  simp only [hdir, ne_eq, not_true, if_false, hr]
  cases r with
  | none => exact .inl ⟨rfl, rfl⟩
  | some hit =>
    obtain ⟨inum, off⟩ := hit
    refine .inr ⟨inum, rfl, ?_⟩
    rcases iget_cases s h (s.icache dp).dev inum with ⟨herr, hfull⟩ | ⟨i, s', hok, -⟩
    · exact .inl ⟨by simp only [herr], hfull⟩
    · exact .inr ⟨i, off, s', by simp only [hok], hok⟩

/-! ## The loop -/

/-- The state in the middle of a walk that started in `s0` and stands at `ip`: one
reference more, at `ip`, and no inode changed on disk but freed ones. -/
structure Walking (s0 s : FsState) (ip : Slot) : Prop where
  ok : CacheOk s
  ref_eq : ∀ i, (s.icache i).ref = (s0.icache i).ref + if i = ip then 1 else 0
  kept : ∀ i, 0 < (s0.icache i).ref →
    (s.icache i).dev = (s0.icache i).dev ∧ (s.icache i).inum = (s0.icache i).inum
  disk : ∀ d n, s.disk d n = s0.disk d n ∨ (s.disk d n).type = 0

/-- The state after a walk that came back without an inode. -/
structure Returned (s0 s : FsState) : Prop where
  ok : CacheOk s
  ref_eq : ∀ i, (s.icache i).ref = (s0.icache i).ref
  kept : ∀ i, 0 < (s0.icache i).ref →
    (s.icache i).dev = (s0.icache i).dev ∧ (s.icache i).inum = (s0.icache i).inum
  disk : ∀ d n, s.disk d n = s0.disk d n ∨ (s.disk d n).type = 0

theorem Walking.ref_pos (h0 : CacheOk s0) (h : Walking s0 s ip) : 0 < (s.icache ip).ref := by
  have := h0.ref_nonneg ip
  rw [h.ref_eq ip, if_pos rfl]
  omega

theorem Walking.ilock (h : Walking s0 s ip) (hok : CacheOk s') (hdisk : s'.disk = s.disk)
    (hident : ∀ j, (s'.icache j).dev = (s.icache j).dev ∧
      (s'.icache j).inum = (s.icache j).inum ∧ (s'.icache j).ref = (s.icache j).ref) : Walking s0 s' ip where
  ok := hok
  ref_eq := fun i => (hident i).2.2.trans (h.ref_eq i)
  kept := fun i hi => ⟨(hident i).1.trans (h.kept i hi).1, (hident i).2.1.trans (h.kept i hi).2⟩
  disk := fun d n => by rw [hdisk]; exact h.disk d n

theorem ifree_disk (s : FsState) (ip : Slot) (d n : Nat) :
    (ifree s ip).disk d n = s.disk d n ∨ ((ifree s ip).disk d n).type = 0 := by
  unfold ifree
  dsimp only
  by_cases hd : d = (s.icache ip).dev
  · subst hd
    rw [Function.update_self]
    by_cases hn : n = (s.icache ip).inum
    · subst hn
      rw [Function.update_self]
      exact .inr rfl
    · rw [Function.update_of_ne hn]
      exact .inl rfl
  · rw [Function.update_of_ne hd]
    exact .inl rfl

theorem iput_disk (h : CacheOk s) (hip : 0 < (s.icache ip).ref) (d n : Nat) :
    (iput s ip).disk d n = s.disk d n ∨ ((iput s ip).disk d n).type = 0 := by
  rcases (iput_spec h hip).2.2.2 with heq | ⟨-, -, -, heq⟩
  · rw [heq]
    exact .inl rfl
  · rw [heq]
    exact ifree_disk s ip d n

theorem Walking.iput (h0 : CacheOk s0) (h : Walking s0 s ip) : Returned s0 (iput s ip) := by
  have hpos := h.ref_pos h0
  obtain ⟨hok, href, hident, _⟩ := iput_spec h.ok hpos
  refine ⟨hok, fun i => ?_, fun i hi => ?_, fun d n => ?_⟩
  · rw [href i, h.ref_eq i]
    omega
  · rw [(hident i).1, (hident i).2]
    exact h.kept i hi
  · rcases iput_disk h.ok hpos d n with heq | hfree
    · rw [heq]
      exact h.disk d n
    · exact .inr hfree

theorem Walking.move {next : Slot} (h0 : CacheOk s0) (h : Walking s0 s ip) (hok : CacheOk s')
    (hdisk : s'.disk = s.disk) (href : (s'.icache next).ref = (s.icache next).ref + 1)
    (hhit : 0 < (s.icache next).ref → (s'.icache next).dev = (s.icache next).dev ∧
      (s'.icache next).inum = (s.icache next).inum) (hother : ∀ j, j ≠ next → s'.icache j = s.icache j) :
    Walking s0 (Fs.iput s' ip) next ∧
      ((Fs.iput s' ip).icache next).dev = (s'.icache next).dev ∧
      ((Fs.iput s' ip).icache next).inum = (s'.icache next).inum := by
  have hpos : 0 < (s'.icache ip).ref := by
    have := h.ref_pos h0
    by_cases hip : ip = next
    · subst hip
      omega
    · rw [hother ip hip]
      exact this
  obtain ⟨hok', href', hident', _⟩ := iput_spec hok hpos
  refine ⟨⟨hok', fun i => ?_, fun i hi => ?_, fun d n => ?_⟩, hident' next⟩
  · have hi := h.ref_eq i
    rw [href' i]
    by_cases hin : i = next
    · subst hin
      rw [href, hi, if_pos rfl]
      omega
    · rw [hother i hin, hi, if_neg hin]
      omega
  · rw [(hident' i).1, (hident' i).2]
    have hlive : 0 < (s.icache i).ref := by
      rw [h.ref_eq i]
      split <;> omega
    by_cases hin : i = next
    · subst hin
      rw [(hhit hlive).1, (hhit hlive).2]
      exact h.kept i hi
    · rw [hother i hin]
      exact h.kept i hi
  · rcases iput_disk hok hpos d n with heq | hfree
    · rw [heq, hdisk]
      exact h.disk d n
    · exact .inr hfree

/-- An inode with a link, or with another reference, is not freed. -/
theorem iput_keeps (h : CacheOk s) (hip : 0 < (s.icache ip).ref)
    (hlink : (s.disk (s.icache ip).dev (s.icache ip).inum).nlink ≠ 0 ∨ 1 < (s.icache ip).ref) :
    (iput s ip).disk = s.disk := by
  rcases (iput_spec h hip).2.2.2 with heq | ⟨hv, hz, hone, -⟩
  · exact heq
  · rw [(h.coherent ip hip hv).1] at hz
    rcases hlink with hne | hmore
    · exact absurd hz hne
    · omega

/-- The inode number a process is confined to, if it is. -/
def confinedTo (p : Proc) (s : FsState) : Option Nat :=
  if p.inNewroot = 0 then none else p.newrootInode.map fun r => (s.icache r).inum

/-- The container root, if there is one, is held by the cache on the device of the walk. -/
def RootHeld (p : Proc) (s : FsState) (dev : Nat) : Prop :=
  ∀ r, p.inNewroot ≠ 0 → p.newrootInode = some r → 0 < (s.icache r).ref ∧ (s.icache r).dev = dev

theorem Walking.at_root_iff {p : Proc} {dev : Nat} (h0 : CacheOk s0) (h : Walking s0 s ip)
    (hdev : (s.icache ip).dev = dev) (hroot : RootHeld p s0 dev) :
    (p.inNewroot ≠ 0 ∧ p.newrootInode = some ip) ↔ confinedTo p s0 = some (s.icache ip).inum := by
  unfold confinedTo
  constructor
  · rintro ⟨hin, hptr⟩
    obtain ⟨hlive, _⟩ := hroot ip hin hptr
    rw [if_neg hin, hptr, Option.map_some, (h.kept ip hlive).2]
  intro hid
  split at hid
  · cases hid
  rename_i hin
  obtain ⟨r, hr, hinum⟩ := Option.map_eq_some_iff.mp hid
  obtain ⟨hlive, hrdev⟩ := hroot r hin hr
  have hkept := h.kept r hlive
  have hrpos : 0 < (s.icache r).ref := by
    rw [h.ref_eq r]
    split <;> omega
  have hrip : r = ip := h.ok.unique r ip hrpos (h.ref_pos h0)
    (by rw [hkept.1, hrdev, hdev]) (by rw [hkept.2, hinum])
  exact ⟨hin, hrip ▸ hr⟩

/-- Two entries of the cache are free, enough for a walk. -/
def Room (s : FsState) : Prop :=
  ∃ i j, i ≠ j ∧ (s.icache i).ref = 0 ∧ (s.icache j).ref = 0

theorem Walking.not_room (h : Walking s0 s ip) (hfull : ∀ i, (s.icache i).ref ≠ 0) : ¬ Room s0 := by
  rintro ⟨i, j, hij, hi, hj⟩
  have hat : ∀ k, (s0.icache k).ref = 0 → k = ip := by
    intro k hk
    by_contra hne
    apply hfull k
    rw [h.ref_eq k, hk, if_neg hne]
    rfl
  exact hij ((hat i hi).trans (hat j hj).symm)

/-- What the walk over the remaining components ends at. -/
def goal (par : Bool) (T : NameTree Nat CString) (root : Option Nat) (n : Nat) (as : List CString) :
    Option Nat :=
  if par then T.resolveParent root n as else T.resolve root n as

theorem goal_cons (par : Bool) (T : NameTree Nat CString) (root : Option Nat) (n : Nat)
    (a : CString) (as : List CString) (h : ¬ (par = true ∧ as = [])) :
    goal par T root n (a :: as) = (T.advance root n a).bind fun m => goal par T root m as := by
  cases par with
  | false => rfl
  | true =>
    cases as with
    | nil => exact absurd ⟨rfl, rfl⟩ h
    | cons b as => rfl

theorem goal_not_dir (par : Bool) {T : NameTree Nat CString} (root : Option Nat) (a : CString)
    (as : List CString) (h : T.isDir n = false) : goal par T root n (a :: as) = none := by
  have hadv : T.advance root n a = none := by
    unfold NameTree.advance
    rw [h]
    rfl
  by_cases hlast : par = true ∧ as = []
  · rw [hlast.1, hlast.2]
    show (if T.isDir n then some n else none) = none
    rw [h]
    rfl
  · rw [goal_cons par T root n a as hlast, hadv]
    rfl

theorem components_nil_iff {path rest name' : CString} (h : skipelem path name = some (rest, name'))
    (hn : 0 < n) : components n rest name' = [] ↔ rest.headD 0 = 0 := by
  rw [← skipelem_rest h name']
  cases n with
  | zero => omega
  | succ n =>
    simp only [components]
    cases skipelem rest name' <;> simp

/-! ## One round -/

/-- The walk stands at inode `n` of the device. As long as all entries are `fine`, nothing
has been freed, and `n` is allocated and has a link or another holder. -/
structure Stands (s0 : FsState) (dev : Nat) (fine : Prop) (s : FsState) (ip : Slot) (n : Nat) :
    Prop where
  walking : Walking s0 s ip
  dev_eq : (s.icache ip).dev = dev
  inum_eq : (s.icache ip).inum = n
  linked : fine → s.disk = s0.disk ∧ (s0.disk dev n).type ≠ 0 ∧
    ((s0.disk dev n).nlink ≠ 0 ∨ 0 < (s0.icache ip).ref)

section Round

variable {s0 s : FsState} {dev : Nat} {fine : Prop} {ip : Slot} {n : Nat}

theorem Stands.ilock_cases (h0 : CacheOk s0) (h : Stands s0 dev fine s ip n) :
    (ilock s ip = .error "ilock: no type" ∧ ¬ fine) ∨
    ∃ s', ilock s ip = .ok s' ∧ Stands s0 dev fine s' ip n ∧
      (s'.icache ip).copy = s0.disk dev n := by
  have hpos := h.walking.ref_pos h0
  rcases Fs.ilock_cases s h.walking.ok hpos with
    ⟨hno, hzero⟩ | ⟨s', hlock, hok, hdisk, hident, -, hcopy, htype⟩
  · refine .inl ⟨hno, fun hf => ?_⟩
    obtain ⟨hsame, ht, _⟩ := h.linked hf
    rw [hsame, h.dev_eq, h.inum_eq] at hzero
    exact ht hzero
  have hstands : Stands s0 dev fine s' ip n :=
    ⟨h.walking.ilock hok hdisk hident, (hident ip).1.trans h.dev_eq,
      (hident ip).2.1.trans h.inum_eq, by rw [hdisk]; exact h.linked⟩
  rw [h.dev_eq, h.inum_eq] at hcopy
  rw [hcopy] at htype
  exact .inr ⟨s', hlock, hstands, hcopy.trans ((h.walking.disk dev n).resolve_right htype)⟩

theorem Stands.move {next : Slot} {m : Nat} (h0 : CacheOk s0) (h : Stands s0 dev fine s ip n)
    (hok : CacheOk s') (hdisk : s'.disk = s.disk) (hdev : (s'.icache next).dev = dev)
    (hinum : (s'.icache next).inum = m) (href : (s'.icache next).ref = (s.icache next).ref + 1)
    (hhit : 0 < (s.icache next).ref → (s.icache next).dev = dev ∧ (s.icache next).inum = m)
    (hother : ∀ j, j ≠ next → s'.icache j = s.icache j) (hm : fine → (s0.disk dev m).type ≠ 0 ∧
      ((s0.disk dev m).nlink ≠ 0 ∨ 0 < (s0.icache next).ref)) : Stands s0 dev fine (iput s' ip) next m := by
  have hlive := h.walking.ref_pos h0
  obtain ⟨hwalk, hdev', hinum'⟩ := h.walking.move h0 hok hdisk href
    (fun hpos => ⟨hdev.trans (hhit hpos).1.symm, hinum.trans (hhit hpos).2.symm⟩) hother
  refine ⟨hwalk, hdev'.trans hdev, hinum'.trans hinum, fun hf => ⟨?_, hm hf⟩⟩
  obtain ⟨hsame, _, hnlink⟩ := h.linked hf
  have hat : (s.icache ip).ref ≤ (s'.icache ip).ref ∧ (s'.icache ip).dev = dev ∧
      (s'.icache ip).inum = n := by
    by_cases hip : ip = next
    · subst hip
      have hid := hhit hlive
      exact ⟨by omega, hdev, by rw [hinum, ← hid.2, h.inum_eq]⟩
    · rw [hother ip hip]
      exact ⟨Int.le_refl _, h.dev_eq, h.inum_eq⟩
  have hkeep : (iput s' ip).disk = s'.disk := by
    apply iput_keeps hok (by omega)
    rw [hat.2.1, hat.2.2, hdisk, hsame]
    have hown := h.walking.ref_eq ip
    rw [if_pos rfl] at hown
    exact hnlink.imp_right fun hheld => by omega
  rw [hkeep, hdisk, hsame]

/-- The round that `".."` spends at the container root. -/
theorem Stands.stay (h0 : CacheOk s0) (h : Stands s0 dev fine s ip n) :
    Stands s0 dev fine (iput (idup s ip) ip) ip n := by
  have hlive := h.walking.ref_pos h0
  have hok : CacheOk (idup s ip) := h.walking.ok.setRef hlive (· + 1) (by omega)
  apply h.move h0 hok rfl
  · simp [idup, h.dev_eq]
  · simp [idup, h.inum_eq]
  · simp [idup]
  · exact fun _ => ⟨h.dev_eq, h.inum_eq⟩
  · exact fun j hj => set_of_ne s _ hj
  · exact fun hf => (h.linked hf).2

theorem Stands.dirlookup_cases (h0 : CacheOk s0) (hwhole : WholeEntries s0.disk dev)
    (hlink : fine → Linked s0.disk dev) (h : Stands s0 dev fine s ip n)
    (hcopy : (s.icache ip).copy = s0.disk dev n) (hdir : (s0.disk dev n).type = tDir)
    (name : CString) :
    (dirlookup s ip name = .error "iget: no inodes" ∧ ¬ Room s0) ∨
    (dirlookup s ip name = .ok (none, s) ∧ (tree s0.disk dev).lookup n name = none) ∨
    ∃ next off s' m, dirlookup s ip name = .ok (some (next, off), s') ∧
      (tree s0.disk dev).lookup n name = some m ∧ Stands s0 dev fine (iput s' ip) next m := by
  have hcases := Fs.dirlookup_cases h.walking.ok name (by rw [hcopy]; exact hdir)
    (by rw [hcopy]; exact hwhole n hdir)
  rw [hcopy] at hcases
  rcases hcases with hnone | ⟨m, hm, ⟨herr, hfull⟩ | ⟨next, off, s', hlook, hget⟩⟩
  · exact .inr (.inl hnone)
  · exact .inl ⟨herr, h.walking.not_room hfull⟩
  rw [h.dev_eq] at hget
  rcases iget_cases s h.walking.ok dev m with
    ⟨herr, -⟩ | ⟨i, t, hget', hok, hdisk, hdev, hinum, href, hhit, hother⟩
  · rw [herr] at hget
    cases hget
  rw [hget'] at hget
  cases hget
  have hmove := h.move h0 hok hdisk hdev hinum href hhit hother
    fun hf => (hlink hf n name m hdir hm).imp_right .inl
  exact .inr (.inr ⟨next, off, s', m, hlook, hm, hmove⟩)

end Round

/-! ## The loop -/

/-- What a walk from `s0` may come to: a `panic` for want of a cache entry, one at a free
inode, nothing, or an inode. -/
inductive Outcome (s0 : FsState) (dev : Nat) (fine : Prop) (target : Option Nat) :
    Except String (Option Slot × CString × FsState) → Prop
  | noInodes : ¬ Room s0 → Outcome s0 dev fine target (.error "iget: no inodes")
  | noType : ¬ fine → Outcome s0 dev fine target (.error "ilock: no type")
  | nothing {name : CString} {s : FsState} : Returned s0 s → target = none →
      Outcome s0 dev fine target (.ok (none, name, s))
  | inode {ip : Slot} {name : CString} {s : FsState} {n : Nat} : Stands s0 dev fine s ip n →
      target = some n → Outcome s0 dev fine target (.ok (some ip, name, s))

/-- The loop of `namex` is the walk over the components. -/
theorem namexLoop_outcome {p : Proc} {par : Bool} {dev : Nat} {fine : Prop} (h0 : CacheOk s0)
    (hwhole : WholeEntries s0.disk dev) (hroot : RootHeld p s0 dev) (hlink : fine → Linked s0.disk dev)
    {path : CString} (name : CString) (hfuel : path.length < fuel) (h : Stands s0 dev fine s ip n) :
    Outcome s0 dev fine
      (goal par (tree s0.disk dev) (confinedTo p s0) n (components fuel path name))
      (namexLoop p par fuel path name ip s) := by
  induction fuel generalizing path name ip s n with
  | zero => omega
  | succ fuel ih =>
    simp only [namexLoop, components]
    cases hskip : skipelem path name with
    | none =>
      cases par with
      | true => exact .nothing (h.walking.iput h0) rfl
      | false => exact .inode h rfl
    | some next =>
      obtain ⟨rest, name'⟩ := next
      have hshort := length_skipelem_lt hskip
      have hlast := components_nil_iff (n := fuel) hskip (by omega)
      rcases h.ilock_cases h0 with ⟨hno, hbad⟩ | ⟨s', hlock, h', hcopy⟩
      · rw [hno]
        exact .noType hbad
      rw [hlock]
      dsimp only
      rw [hcopy]
      have hatroot := h'.walking.at_root_iff h0 h'.dev_eq hroot
      rw [h'.inum_eq] at hatroot
      by_cases hdir : (s0.disk dev n).type = tDir
      · have hisDir : (tree s0.disk dev).isDir n = true := beq_iff_eq.mpr hdir
        rw [if_neg (not_not_intro hdir)]
        by_cases hstop : par = true ∧ rest.headD 0 = 0
        · -- the parent is asked for, and this was the last component
          have htarget : goal par (tree s0.disk dev) (confinedTo p s0) n
              (name' :: components fuel rest name') = some n := by
            rw [hlast.mpr hstop.2, hstop.1]
            show (if (tree s0.disk dev).isDir n then some n else none) = some n
            rw [if_pos hisDir]
          rw [if_pos hstop, if_pos hstop, ite_self]
          exact .inode h' htarget
        · have hcons := goal_cons par (tree s0.disk dev) (confinedTo p s0) n name'
            (components fuel rest name') (fun hc => hstop ⟨hc.1, hlast.mp hc.2⟩)
          rw [if_neg hstop, if_neg hstop, hcons]
          unfold NameTree.advance
          rw [if_pos hisDir]
          by_cases hclamp : p.inNewroot ≠ 0 ∧ p.newrootInode = some ip ∧ namecmp name' dotdot = 0
          · rw [if_pos hclamp, if_pos ⟨hatroot.mp ⟨hclamp.1, hclamp.2.1⟩, beq_iff_eq.mpr hclamp.2.2⟩]
            exact ih name' (by omega) (h'.stay h0)
          have hnoclamp : ¬ (confinedTo p s0 = some n ∧ (tree s0.disk dev).isUp name' = true) :=
            fun hc => hclamp ⟨(hatroot.mpr hc.1).1, (hatroot.mpr hc.1).2, beq_iff_eq.mp hc.2⟩
          rw [if_neg hclamp, if_neg hnoclamp]
          rcases h'.dirlookup_cases h0 hwhole hlink hcopy hdir name' with
            ⟨herr, hfull⟩ | ⟨hlook, hnone⟩ | ⟨next, off, t, m, hlook, hsome, hnext⟩
          · rw [herr]
            exact .noInodes hfull
          · rw [hlook, hnone]
            exact .nothing (h'.walking.iput h0) rfl
          · rw [hlook, hsome]
            exact ih name' (by omega) hnext
      · have hnot : (tree s0.disk dev).isDir n = false := beq_eq_false_iff_ne.mpr hdir
        rw [if_pos hdir, goal_not_dir par (confinedTo p s0) name' _ hnot]
        exact .nothing (h'.walking.iput h0) rfl

end Xv6.Fs
