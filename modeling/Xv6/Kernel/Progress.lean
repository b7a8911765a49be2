import Xv6.Fs.Walk
import Xv6.Vm.Resizing
import Xv6.Kernel.AddressSpace
import Xv6.Kernel.CopyRounds
import Xv6.Kernel.Lifecycle

/-! # When the calls succeed

With room in memory `growproc`, `shm_get` of a page that exists, `exec` of a program without
segments and `fork` come back with success.
-/

namespace Xv6.Kernel

open Lib Vm

variable {d pgdir : PgDir} {c : Nat} {L : Layout} {k : State} {a : Slot} {m : Mem}

theorem walk_of_present {va : Nat} (h : (d.entry va).present = true) : d.walk va = some (d.entry va) := by
  unfold PgDir.entry at *
  cases hwalk : d.walk va with
  | none =>
    rw [hwalk] at h
    cases h
  | some pte => rfl

/-! ## `growproc` and `shm_get` -/

theorem growproc_total {n : Nat} (h : (k.procs a).Spans) (hd : (k.procs a).pgdir = some d) (hn : 0 < n)
    (hnew : (k.procs a).sz + n < kernBase)
    (hroom : Room d k.mem (c + ((k.procs a).sz + n + pgSize - 1 - pgRoundUp (k.procs a).sz) / pgSize)) :
    ∃ k' d', growproc L k a n = .ok (0, k') ∧
      k'.procs a = { k.procs a with pgdir := some d', sz := (k.procs a).sz + n } ∧
      k'.shared = k.shared ∧ Room d' k'.mem c := by
  obtain ⟨hsz, d0, hd0, hspan⟩ := h
  rw [hd] at hd0
  cases hd0
  obtain ⟨d', m', halloc, hroom', _⟩ := allocuvm_total (L := L) hnew (Nat.le_add_right _ n)
    (hspan.vacant hsz hnew) hroom
  have hsum : ((((k.procs a).sz : Int) + (n : Int)) % uintMod).toNat = (k.procs a).sz + n := by
    simp only [kernBase, uintMod] at *
    omega
  have hresize : resize L d (k.procs a).sz n k.mem = .ok ((k.procs a).sz + n, d', m') := by
    unfold resize
    rw [if_pos (by omega), hsum]
    exact halloc
  refine ⟨{ k.update a fun p => { p with pgdir := some d', sz := (k.procs a).sz + n } with mem := m' },
    d', ?_, by rw [update_self], rfl, hroom'⟩
  unfold growproc
  rw [hd]
  dsimp only
  rw [hresize]
  dsimp only [bind, Except.bind]
  rw [if_neg (by omega)]
  simp only [State.update, Function.update_self, Function.update_idem]
  rfl

theorem shmGet_total {name : CString} {i : Fin shmMaxNum} (h : (k.procs a).Spans)
    (hd : (k.procs a).pgdir = some d) (hnew : (k.procs a).sz + pgSize < kernBase)
    (hi : findShm k.shared name = some i) (hpa : (k.shared.mems i).pa ≠ 0) (hroom : Room d k.mem c) :
    ∃ k' d', shmGet L k a (some name) = .ok ((pgRoundUp (k.procs a).sz : Nat), k') ∧
      k'.procs a = { k.procs a with
        pgdir := some d'
        sz := (k.procs a).sz + pgSize
        shm := recordMapping (k.procs a).shm name (k.procs a).sz } ∧
      k'.shared = k.shared.update i (fun b => { b with ref := b.ref + 1 }) ∧ Room d' k'.mem c := by
  obtain ⟨hsz, d0, hd0, hspan⟩ := h
  rw [hd] at hd0
  cases hd0
  have hwrap : ((k.procs a).sz + pgSize) % uintMod = (k.procs a).sz + pgSize := by
    simp only [pgSize, kernBase, uintMod] at *
    omega
  have hvacant : (d.entry (pgRoundUp (k.procs a).sz)).present = false := by
    rw [pgRoundUp_eq hsz, Bool.eq_false_iff, Ne, hspan]
    · exact Nat.lt_irrefl _
    · simp only [sizeUp, pgSize, kernBase] at *
      omega
  obtain ⟨d', m', hmap⟩ := mappage_total (k.shared.mems i).pa .wu hvacant hroom
  refine ⟨{ k.update a fun p =>
      { p with pgdir := some d', sz := p.sz + pgSize, shm := recordMapping p.shm name p.sz } with
    mem := m'
    shared := k.shared.update i fun b => { b with ref := b.ref + 1 } },
    d', ?_, by rw [update_self], rfl, hroom.maps (mappage_maps hmap)⟩
  simp only [shmGet]
  rw [if_neg (by rw [hwrap]; omega), hd]
  simp only [shmAttach, hi]
  rw [if_neg hpa]
  unfold shmMap
  dsimp only
  rw [mappages_one (pgRoundUp_dvd _), hmap]
  dsimp only [bind, Except.bind]
  rw [if_pos rfl, hwrap, if_pos (by simp only [pgSize]; omega)]
  simp only [State.update, Function.update_self, Function.update_idem]
  rfl

theorem shmRem_total {name : CString} {i j : Fin shmMaxNum} (hi : mappingOf (k.procs a) name = some i)
    (hd : (k.procs a).pgdir = some d) (hj : findShm k.shared name = some j)
    (href : (k.shared.mems j).ref ≠ 1) :
    ∃ k', shmRem L k a (some name) = .ok (0, k') ∧ k'.procs a = (k.procs a).removed d i ∧
      k'.mem = k.mem := by
  have hmore : ((k.shared.update j fun b => { b with ref := b.ref - 1 }).mems j).ref ≠ 0 := by
    simp only [SharedMemory.update, Function.update_self]
    omega
  refine ⟨{ k.update a fun p => p.removed d i with
    shared := k.shared.update j fun b => { b with ref := b.ref - 1 } }, ?_, by rw [update_self], rfl⟩
  unfold mappingOf at hi
  simp only [shmRem]
  rw [hi, hd]
  unfold shmDetach
  dsimp only
  have hshared : ∀ f, (k.update a f).shared = k.shared := fun _ => rfl
  rw [hshared, hj]
  dsimp only
  rw [if_neg hmore]
  rfl

/-! ## `exec` -/

theorem exec_of_image {path buf : CString} {argv : List CString} {cwd ip : Fs.Slot} {fs fs' : Fs.FsState}
    {old : PgDir} {sz sp : Nat} {m' : Mem} (hcwd : (k.procs a).cwd = some cwd)
    (hold : (k.procs a).pgdir = some old)
    (hname : Fs.namei ((k.procs a).toFs cwd) path buf k.fs = .ok (some ip, fs))
    (hlock : Fs.ilock fs ip = .ok fs')
    (himage : execImage L (fs'.icache ip).copy.content argv k.mem = .ok (some (d, sz, sp), m))
    (hfree : freevm L old m = .ok m') : exec L k a path buf argv = .ok (0, { k.update a fun p =>
        { p with
          name := (lastElem path).take 15
          procMutexes := fun _ => -1
          pgdir := some d
          sz := sz
          tf := { p.tf with eip := uintAt (fs'.icache ip).copy.content 24, esp := sp } } with
      mem := m'
      fs := Fs.iput fs' ip }) := by
  unfold exec
  rw [hcwd, hold]
  dsimp only
  rw [hname]
  dsimp only [bind, Except.bind]
  rw [hlock]
  dsimp only
  rw [himage]
  dsimp only
  rw [hfree]
  rfl

theorem pushStack_stub {pa : Nat} (h : d.walk pgSize = some ⟨pa, true, .wu⟩) (m : Mem) :
    ∃ m', pushStack d [] (2 * pgSize) m = .ok (some (2 * pgSize - 16), m') ∧ m'.free = m.free := by
  have huva : uva2ka d (pgRoundDown (2 * pgSize - 16)) = .ok (some pa) := by
    have hround : pgRoundDown (2 * pgSize - 16) = pgSize := by decide
    unfold uva2ka
    rw [hround, h]
    rfl
  have hcopy : ∀ bytes : List UInt8, bytes.length = 16 →
      copyout d (2 * pgSize - 16) bytes m = .ok (true, m.memmove (pa + 4080) bytes) := by
    intro bytes hlen
    unfold copyout
    rw [hlen]
    have hne : bytes ≠ [] := by
      rintro rfl
      cases hlen
    simp only [copyoutLoop]
    rw [if_neg hne, huva]
    have hmin : min (pgSize - (2 * pgSize - 16 - pgRoundDown (2 * pgSize - 16))) bytes.length = 16 := by
      rw [hlen]
      decide
    have hdrop : bytes.drop 16 = [] := List.drop_eq_nil_of_le (Nat.le_of_eq hlen)
    have htake : bytes.take 16 = bytes := List.take_of_length_le (Nat.le_of_eq hlen)
    rw [hmin, hdrop, htake]
    rfl
  have hsp : (2 * pgSize + uintMod - (3 + 0 + 1) * 4) % uintMod = 2 * pgSize - 16 := by decide
  refine ⟨m.memmove (pa + 4080) (([0xffffffff, 0, (2 * pgSize + uintMod - (0 + 1) * 4) % uintMod] ++
    [] ++ [0]).flatMap toLe32), ?_, rfl⟩
  unfold pushStack
  dsimp only [pushArgs, bind, Except.bind]
  rw [List.length_nil, hsp, hcopy _ rfl]
  rfl

theorem execImage_stub {file : List UInt8} (hlen : elfHdrSize ≤ file.length)
    (hmagic : uintAt file 0 = elfMagic) (hnum : ushortAt file 44 = 0)
    (hroom : npdEntries + 1 + (c + 2) ≤ m.free.length) :
    ∃ d sp m', execImage L file [] m = .ok (some (d, 2 * pgSize, sp), m') ∧ Room d m' c := by
  obtain ⟨d1, m1, hsetup, hroom1⟩ := setupkvm_total L hroom
  have hempty := (setupkvm_ok hsetup).1 d1 rfl
  have hvacant : ∀ b, b < uintMod → InRange (pgRoundUp 0) (2 * pgSize) b →
      (d1.entry b).present = false := by
    intro b _ hin
    have hb : b < kernBase := by
      have := hin.2
      simp only [pgRoundDown, pgSize, kernBase] at *
      omega
    rw [hempty.1 b hb]
  obtain ⟨d2, m2, halloc, hroom2, hfill, _⟩ := allocuvm_total (L := L) (c := c) (by decide) (by decide)
    hvacant hroom1
  obtain ⟨pa0, hentry0⟩ := hfill 0 (by decide) ⟨by decide, by decide⟩
  obtain ⟨pa1, hentry1⟩ := hfill pgSize (by decide) ⟨by decide, by decide⟩
  have hwalk0 : d2.walk 0 = some (d2.entry 0) := walk_of_present (by rw [hentry0])
  have hclear : clearpteu d2 (2 * pgSize - 2 * pgSize) =
      .ok (d2.set 0 ⟨pa0, true, ⟨true, false⟩⟩) := by
    unfold clearpteu
    rw [Nat.sub_self, hwalk0, hentry0]
  have hwalk1 : (d2.set 0 ⟨pa0, true, ⟨true, false⟩⟩).walk pgSize = some ⟨pa1, true, .wu⟩ := by
    rw [walk_set (by rw [hwalk0]; simp), if_neg (by decide), ← hentry1]
    exact walk_of_present (by rw [hentry1])
  obtain ⟨m3, hpush, hfree3⟩ := pushStack_stub hwalk1 m2
  refine ⟨d2.set 0 ⟨pa0, true, ⟨true, false⟩⟩, 2 * pgSize - 16, m3, ?_, ?_⟩
  · unfold execImage
    rw [if_neg (by rw [hmagic]; omega), hsetup]
    dsimp only [bind, Except.bind]
    rw [hnum]
    dsimp only [loadSegments]
    have hround : pgRoundUp 0 = 0 := by decide
    have htop : (0 + 2 * pgSize) % uintMod = 2 * pgSize := by decide
    rw [if_neg (by decide), hround, htop, halloc]
    dsimp only
    rw [if_neg (by decide), hclear]
    dsimp only
    rw [hpush]
    rfl
  · unfold Room
    rw [absent_set, hfree3]
    exact hroom2

/-! ## `fork` -/

/-- A round with room for its page leaves room for the others. -/
theorem copyRound_room {d' : PgDir} {v : Nat} {s s' : SharedMemory} {m' : Mem} (hv : v * pgSize < kernBase)
    (hvacant : ∀ b, v * pgSize ≤ b → b < kernBase → (d.entry b).present = false) (hroom : Room d m (c + 1))
    (h : CopyRound pgdir (v * pgSize) d s m d' s' m') :
    (∀ b, (v + 1) * pgSize ≤ b → b < kernBase → (d'.entry b).present = false) ∧ Room d' m' c := by
  have hnext : ∀ b, (v + 1) * pgSize ≤ b → v * pgSize ≤ b := by
    intro b hb
    rw [Nat.succ_mul] at hb
    exact Nat.le_trans (Nat.le_add_right ..) hb
  have hmapped : ∀ {x d1 m0 m1}, MapsPage d m0 (v * pgSize) x d1 m1 → ∀ b, (v + 1) * pgSize ≤ b → b < kernBase →
      (d1.entry b).present = false := by
    intro x d1 m0 m1 hmaps b hle hb
    rw [hmaps.entry_eq b, if_neg]
    · exact hvacant b (hnext b hle) hb
    · intro hsame
      have hpage := (samePage_iff (lt_uintMod hb) (lt_uintMod hv)).mp hsame
      simp only [pgSize] at *
      omega
  have hless : Room d m c := Nat.le_trans (Nat.le_succ _) hroom
  cases h with
  | hole => exact ⟨fun b hle => hvacant b (hnext b hle), hless⟩
  | shared hpresent hshm hmap => exact ⟨hmapped (mappage_maps hmap), hless.maps (mappage_maps hmap)⟩
  | copied hpresent hshm hk hmap =>
    refine ⟨hmapped (mappage_maps hmap), Room.maps ?_ (mappage_maps hmap)⟩
    unfold Room at hroom
    rw [(kalloc_some hk).1, List.length_cons] at hroom
    exact Nat.le_of_succ_le_succ hroom

theorem not_copyFails {i : Nat} {s : SharedMemory} {m1 : Mem} (hroom : Room d m (c + 1)) :
    ¬ CopyFails pgdir i d s m m1 := by
  intro h
  unfold Room at hroom
  cases h with
  | shared hpresent hshm hnone hempty | page hpresent hshm hempty =>
    rw [hempty, List.length_nil] at hroom
    omega
  | table hpresent hshm hk hnone hempty =>
    have hpos := absent_pos hnone
    rw [(kalloc_some hk).1, hempty, List.length_singleton] at hroom
    omega

theorem copyuvm_total {sz : Nat} (s : SharedMemory) (hsz : sz ≤ kernBase)
    (hwalk : ∀ j, j < sizeUp sz → pgdir.walk j ≠ none)
    (hroom : npdEntries + 1 + sizeUp sz / pgSize ≤ m.free.length) :
    ∃ d' s' m', copyuvm L pgdir sz s m = .ok (some d', s', m') := by
  obtain ⟨d, m1, hsetup, hroom1⟩ := setupkvm_total L hroom
  obtain ⟨hempty, _⟩ := (setupkvm_ok hsetup).1 d rfl
  have hbelow : ∀ v, v < sizeUp sz / pgSize → v * pgSize < sizeUp sz ∧ v * pgSize < kernBase := by
    intro v hv
    simp only [sizeUp, pgSize, kernBase] at *
    omega
  have hless : ∀ v, v < sizeUp sz / pgSize → sizeUp sz / pgSize - v = sizeUp sz / pgSize - (v + 1) + 1 := by
    omega
  unfold copyuvm
  rw [hsetup, ← sizeUp_div, ← Nat.zero_mul pgSize]
  rcases copyuvmLoop_outcome (L := L) (n := sizeUp sz / pgSize) (v := 0) (d := d) (s := s) (m := m1)
      (P := fun v d _ m => (∀ b, v * pgSize ≤ b → b < kernBase → (d.entry b).present = false) ∧
        Room d m (sizeUp sz / pgSize - v))
      (fun v _ _ _ d' _ _ hv hP (hround : CopyRound pgdir _ _ _ _ d' _ _) =>
        copyRound_room (hbelow v hv).2 hP.1 (by rw [← hless v hv]; exact hP.2) hround)
      (Nat.zero_add _) ⟨fun b _ hb => by rw [hempty b hb], hroom1⟩ with
    ⟨d', s', m', -, heq⟩ | ⟨v, d', s', m', hv, ⟨hvacant, hroom'⟩, hends⟩
  · exact ⟨d', s', m', heq⟩
  rw [hless v hv] at hroom'
  generalize copyuvmLoop L pgdir _ (0 * pgSize) d s m1 = res at hends
  cases hends with
  | short hfails => exact absurd hfails (not_copyFails hroom')
  | missing hnone => exact absurd hnone (hwalk _ (hbelow v hv).1)
  | remap hpresent =>
    rw [hvacant _ (Nat.le_refl _) (hbelow v hv).2] at hpresent
    cases hpresent

/-- With a free slot and room for a copy `fork` makes a process. -/
theorem fork_total (hrun : (k.procs a).CanRun) (hslot : ∃ np, (k.procs np).state = .unused)
    (hd : (k.procs a).pgdir = some d) (hsz : (k.procs a).sz ≤ kernBase)
    (hwalk : ∀ j, j < sizeUp (k.procs a).sz → d.walk j ≠ none)
    (hroom : npdEntries + 2 + sizeUp (k.procs a).sz / pgSize ≤ k.mem.free.length) :
    ∃ k', fork L k a = .ok (k.nextpid, k') := by
  obtain ⟨q, k1, halloc⟩ : ∃ q k1, allocproc k = (some q, k1) := by
    unfold allocproc
    cases hfind : freeSlot fun p => (k.procs p).state with
    | none =>
      obtain ⟨np, hnp⟩ := hslot
      exact absurd hnp (used_of_freeSlot hfind np)
    | some q =>
      dsimp only
      unfold kalloc
      cases hfree : k.mem.free with
      | nil =>
        rw [hfree, List.length_nil] at hroom
        exact absurd (Nat.le_trans (Nat.le_add_right _ _) hroom) (by decide)
      | cons pa free => exact ⟨q, _, rfl⟩
  rcases allocproc_ok halloc with ⟨hr, -⟩ | ⟨np', kstack, m, hr, hunused, hk, hmem, hshared, -, hsame,
    hkstack, hpid⟩
  · cases hr
  cases hr
  have hne : a ≠ q := by
    rintro rfl
    exact hrun.used hunused
  have hlen : npdEntries + 1 + sizeUp (k.procs a).sz / pgSize ≤ m.free.length := by
    rw [(kalloc_some hk).1, List.length_cons] at hroom
    omega
  obtain ⟨d', s', m', hcopy⟩ := copyuvm_total (L := L) k.shared hsz hwalk hlen
  unfold fork
  rw [halloc]
  dsimp only
  rw [hsame a hne, hd, update_self]
  rw [hkstack]
  dsimp only
  have hshared' : ∀ f, (k1.update q f).shared = k.shared := fun _ => hshared
  have hmem' : ∀ f, (k1.update q f).mem = m := fun _ => hmem
  rw [hshared', hmem', hcopy]
  dsimp only [bind, Except.bind]
  rw [update_self]
  rw [update_self]
  rw [hpid]
  exact ⟨_, rfl⟩

/-! ## A small machine

Two processes: `init`, which has a shared page `"a"` at its second address, and a child of
`init` with one page. The file `/a` is a program without segments. The kernel halves of the two
directories are left empty.
-/

def initDir : PgDir :=
  (lonePage 0x400000 0).set pgSize ⟨0x404000, true, .wu⟩

abbrev childDir : PgDir := lonePage 0x405000 0

def unusedProc : Proc where
  sz := 0
  pgdir := none
  kstack := none
  state := .unused
  pid := 0
  parent := none
  tf := ⟨0, 0, 0⟩
  chan := none
  killed := false
  cwd := none
  name := []
  maxproc := 0
  maxprocset := 0
  newrootInode := none
  inNewroot := 0
  inContainer := 0
  nameSpace := 0
  procMutexes := fun _ => -1
  shm := fun _ => ⟨[], 0⟩
  fpPriority := 0
  hfsPriority := 0
  queueType := 0

def initProc : Proc :=
  { unusedProc with
    sz := 2 * pgSize
    pgdir := some initDir
    kstack := some 0x40a000
    state := .runnable
    pid := 1
    cwd := some 0
    shm := fun i => if i = 0 then ⟨[97], pgSize⟩ else ⟨[], 0⟩ }

def childProc : Proc :=
  { unusedProc with
    sz := pgSize
    pgdir := some childDir
    kstack := some 0x409000
    state := .running
    pid := 2
    parent := some 0
    cwd := some 0 }

def stubFile : List UInt8 := [0x7f, 0x45, 0x4c, 0x46] ++ List.replicate 48 0

def smallFs : Fs.FsState where
  icache := fun i =>
    if i = 0 then ⟨rootDev, rootIno, 2, false, ⟨0, 0, []⟩⟩ else ⟨0, 0, 0, false, ⟨0, 0, []⟩⟩
  disk := fun _ n =>
    if n = rootIno then
      ⟨Fs.tDir, 1, Fs.dirent 1 Fs.dot ++ Fs.dirent 1 Fs.dotdot ++ Fs.dirent 2 [97]⟩
    else if n = 2 then ⟨Fs.tFile, 1, stubFile⟩
    else ⟨0, 0, []⟩

def smallMachine : State where
  procs := fun p => if p = 0 then initProc else if p = 1 then childProc else unusedProc
  nextpid := 3
  initproc := 0
  queues := .empty fun _ _ => 0
  mem := ⟨(List.range 1100).map fun i => 0x500000 + i * pgSize, fun _ => 0⟩
  shared := ⟨1, fun i => if i = 0 then ⟨[97], 0x404000, 1, 0⟩ else ⟨[], 0, 0, 0⟩⟩
  mutexes := Function.update Sync.mutexInit 0 { Sync.mutexInit 0 with used := 1 }
  fs := smallFs

theorem childDir_freevm (m : Mem) : ∃ m', freevm smallLayout childDir m = .ok m' := by
  refine freevm_total (lonePage_freeable (by decide) 0 0 kernBase) (fun i pg hi => ?_) (by decide) m
  unfold lonePage at hi
  dsimp only at hi
  split at hi
  · cases hi
    decide
  · split at hi
    · cases hi
      decide
    · cases hi

theorem childDir_fork (hrun : (k.procs a).CanRun) (hslot : ∃ np, (k.procs np).state = .unused)
    (hd : (k.procs a).pgdir = some childDir) (hsz : (k.procs a).sz = pgSize)
    (hmem : k.mem = smallMachine.mem) : ∃ k', fork smallLayout k a = .ok (k.nextpid, k') := by
  refine fork_total hrun hslot hd (by rw [hsz]; decide) (fun j hj => ?_) ?_
  · rw [hsz] at hj
    have hlt : j < 4096 := hj
    rw [Ne, walk_eq_none_iff]
    have hpdx : pdx j = 0 := by
      simp only [pdx]
      omega
    rw [hpdx]
    intro hnone
    cases hnone
  · have hfree : k.mem.free.length = 1100 := by
      simp only [hmem, smallMachine, List.length_map, List.length_range]
    rw [hfree, hsz]
    decide

end Xv6.Kernel
