import Xv6.Lib.Transition
import Xv6.Kernel.Calls

/-! # What `fork`, `exec`, `exit` and `wait` do when they come back

The parts of these calls that move pages or processes, and a frame relation for all that they
do besides: waking, queueing and reparenting leave address spaces, memory and the shared pages
alone.
-/

namespace Xv6.Kernel

open Lib Vm

variable {p p' : Proc} {k k' : State} {a : Slot} {n r : Int} {L : Layout}

/-! ## A frame -/

theorem Proc.CanRun.used (h : p.CanRun) : p.state ≠ .unused := by
  intro hc
  unfold Proc.CanRun at h
  rw [hc] at h
  rcases h with h | h <;> cases h

def Proc.Alive (p : Proc) : Prop := p.state ≠ .unused ∧ p.state ≠ .zombie

/-- Two processes in use with the same address space and kernel stack, or two that are not
in use. -/
structure SameSpace (p p' : Proc) : Prop where
  unused : p'.state = .unused ↔ p.state = .unused
  sz : p.state ≠ .unused → p'.sz = p.sz
  pgdir : p.state ≠ .unused → p'.pgdir = p.pgdir
  kstack : p.state ≠ .unused → p'.kstack = p.kstack
  shm : p.state ≠ .unused → p'.shm = p.shm

theorem SameSpace.refl (p : Proc) : SameSpace p p :=
  ⟨Iff.rfl, fun _ => rfl, fun _ => rfl, fun _ => rfl, fun _ => rfl⟩

theorem SameSpace.trans {p'' : Proc} (h : SameSpace p p') (h' : SameSpace p' p'') : SameSpace p p'' := by
  have hused : p.state ≠ .unused → p'.state ≠ .unused := fun hp hp' => hp (h.unused.mp hp')
  exact
    { unused := h'.unused.trans h.unused
      sz := fun hp => (h'.sz (hused hp)).trans (h.sz hp)
      pgdir := fun hp => (h'.pgdir (hused hp)).trans (h.pgdir hp)
      kstack := fun hp => (h'.kstack (hused hp)).trans (h.kstack hp)
      shm := fun hp => (h'.shm (hused hp)).trans (h.shm hp) }

theorem SameSpace.of_eq (hstate : p'.state = .unused ↔ p.state = .unused) (hsz : p'.sz = p.sz)
    (hpgdir : p'.pgdir = p.pgdir) (hkstack : p'.kstack = p.kstack) (hshm : p'.shm = p.shm) : SameSpace p p' :=
  ⟨hstate, fun _ => hsz, fun _ => hpgdir, fun _ => hkstack, fun _ => hshm⟩

structure SameSpaces (k k' : State) : Prop where
  procs : ∀ q, SameSpace (k.procs q) (k'.procs q)
  mem : k'.mem = k.mem
  shared : k'.shared = k.shared

theorem SameSpaces.refl (k : State) : SameSpaces k k :=
  ⟨fun _ => SameSpace.refl _, rfl, rfl⟩

theorem SameSpaces.trans {k'' : State} (h : SameSpaces k k') (h' : SameSpaces k' k'') : SameSpaces k k'' :=
  ⟨fun q => (h.procs q).trans (h'.procs q), h'.mem.trans h.mem, h'.shared.trans h.shared⟩

theorem SameSpaces.update (k : State) {f : Proc → Proc} (h : SameSpace (k.procs a) (f (k.procs a))) :
    SameSpaces k (k.update a f) where
  procs := by
    intro q
    by_cases hq : q = a
    · rw [hq, update_self]
      exact h
    · rw [update_of_ne k f hq]
      exact SameSpace.refl _
  mem := rfl
  shared := rfl

/-! ## Bookkeeping -/

/-- A process without what waking, sleeping, queueing and reparenting change. -/
def Proc.settled (p : Proc) : Proc :=
  { p with
    state := .unused
    chan := none
    parent := none
    fpPriority := 0
    hfsPriority := 0
    queueType := 0 }

structure Moved (p p' : Proc) : Prop where
  unused : p'.state = .unused ↔ p.state = .unused
  zombie : p'.state = .zombie ↔ p.state = .zombie
  settled : p'.settled = p.settled

theorem Moved.refl (p : Proc) : Moved p p := ⟨Iff.rfl, Iff.rfl, rfl⟩

theorem Moved.trans {p'' : Proc} (h : Moved p p') (h' : Moved p' p'') : Moved p p'' :=
  ⟨h'.unused.trans h.unused, h'.zombie.trans h.zombie, h'.settled.trans h.settled⟩

theorem Moved.keeps {α : Type} (h : Moved p p') (f : Proc → α) (hf : ∀ x : Proc, f x.settled = f x) :
    f p' = f p := by
  rw [← hf p', h.settled, hf p]

theorem Moved.space (h : Moved p p') : SameSpace p p' :=
  SameSpace.of_eq h.unused (h.keeps Proc.sz fun _ => rfl) (h.keeps Proc.pgdir fun _ => rfl)
    (h.keeps Proc.kstack fun _ => rfl) (h.keeps Proc.shm fun _ => rfl)

/-- States that differ in where the processes wait and whose children they are. -/
structure Shuffled (k k' : State) : Prop where
  procs : ∀ q, Moved (k.procs q) (k'.procs q)
  mem : k'.mem = k.mem
  shared : k'.shared = k.shared
  fs : k'.fs = k.fs

theorem Shuffled.refl (k : State) : Shuffled k k := ⟨fun _ => Moved.refl _, rfl, rfl, rfl⟩

theorem Shuffled.trans {k'' : State} (h : Shuffled k k') (h' : Shuffled k' k'') : Shuffled k k'' :=
  ⟨fun q => (h.procs q).trans (h'.procs q), h'.mem.trans h.mem, h'.shared.trans h.shared,
    h'.fs.trans h.fs⟩

theorem Shuffled.spaces (h : Shuffled k k') : SameSpaces k k' :=
  ⟨fun q => (h.procs q).space, h.mem, h.shared⟩

theorem Shuffled.update (k : State) {f : Proc → Proc} (h : Moved (k.procs a) (f (k.procs a))) :
    Shuffled k (k.update a f) where
  procs := by
    intro q
    by_cases hq : q = a
    · rw [hq, update_self]
      exact h
    · rw [update_of_ne k f hq]
      exact Moved.refl _
  mem := rfl
  shared := rfl
  fs := rfl

theorem Shuffled.requeue (h : Shuffled k k') (queues : Sched.ReadyQueues Slot) :
    Shuffled k { k' with queues := queues } := ⟨h.procs, h.mem, h.shared, h.fs⟩

theorem Shuffled.foldl {f : State → Slot → State} (h : ∀ k p, Shuffled k (f k p))
    (ps : List Slot) (k : State) : Shuffled k (ps.foldl f k) := by
  induction ps generalizing k with
  | nil => exact Shuffled.refl k
  | cons p ps ih => exact (h k p).trans (ih (f k p))

theorem wakeSlot_shuffled (chan : Option Slot) (k : State) (p : Slot) :
    Shuffled k (wakeSlot chan k p) := by
  unfold wakeSlot
  have hwake : Shuffled k (if (k.procs p).state = .sleeping ∧ (k.procs p).chan = chan then
      k.update p fun x => { x with state := .runnable } else k) := by
    split
    · rename_i hsleep
      have hunused : ProcState.runnable = .unused ↔ (k.procs p).state = .unused := by
        rw [hsleep.1]
        decide
      have hzombie : ProcState.runnable = .zombie ↔ (k.procs p).state = .zombie := by
        rw [hsleep.1]
        decide
      exact Shuffled.update k ⟨hunused, hzombie, rfl⟩
    · exact Shuffled.refl k
  generalize (if (k.procs p).state = .sleeping ∧ (k.procs p).chan = chan then
      k.update p fun x => { x with state := .runnable } else k) = k1 at hwake ⊢
  dsimp only
  split
  · exact hwake.requeue _
  · split
    · apply (hwake.trans _).requeue
      exact Shuffled.update k1 ⟨Iff.rfl, Iff.rfl, rfl⟩
    · exact hwake

theorem wakeup1_shuffled (chan : Option Slot) (k : State) : Shuffled k (wakeup1 chan k) :=
  Shuffled.foldl (wakeSlot_shuffled chan) _ k

theorem reparentSlot_shuffled (a : Slot) (k : State) (p : Slot) :
    Shuffled k (reparentSlot a k p) := by
  unfold reparentSlot
  split
  · have hparent : Shuffled k (k.update p fun x => { x with parent := some k.initproc }) :=
      Shuffled.update k ⟨Iff.rfl, Iff.rfl, rfl⟩
    dsimp only
    split
    · exact hparent.trans (wakeup1_shuffled _ _)
    · exact hparent
  · exact Shuffled.refl k

theorem forkEnqueue_shuffled (k : State) (np parent : Slot) :
    Shuffled k (forkEnqueue k np parent) ∧ SameBut np k (forkEnqueue k np parent) := by
  unfold forkEnqueue
  dsimp only
  split
  · exact ⟨(Shuffled.update k ⟨Iff.rfl, Iff.rfl, rfl⟩).requeue _,
      fun b hb => by rw [update_of_ne k _ hb]⟩
  · split
    · exact ⟨(Shuffled.update k ⟨Iff.rfl, Iff.rfl, rfl⟩).requeue _,
        fun b hb => by rw [update_of_ne k _ hb]⟩
    · exact ⟨Shuffled.refl k, fun _ _ => rfl⟩

/-! ## `cm_maxproc` -/

theorem doMaxproc_ok (h : doMaxproc k a n = .ok (r, k')) : (r = -1 ∧ k' = k) ∨
      (r = 0 ∧ k' = k.update a fun p => { p with maxproc := n, maxprocset := 1 }) := by
  unfold doMaxproc at h
  obtain ⟨set, _, hret⟩ := bind_eq_ok.mp h
  cases set with
  | true =>
    cases hret
    exact .inl ⟨rfl, rfl⟩
  | false =>
    cases hret
    exact .inr ⟨rfl, rfl⟩

theorem doMaxproc_spaces (h : doMaxproc k a n = .ok (r, k')) : SameSpaces k k' := by
  rcases doMaxproc_ok h with ⟨-, rfl⟩ | ⟨-, rfl⟩
  · exact SameSpaces.refl _
  · exact SameSpaces.update k (SameSpace.of_eq Iff.rfl rfl rfl rfl rfl)

/-! ## The calls on an address space -/

/-- A process without its address space. -/
def Proc.outside (p : Proc) : Proc :=
  { p with sz := 0, pgdir := none, shm := fun _ => ⟨[], 0⟩ }

/-- Of the processes and the file system, only the address space of `a` is changed. -/
structure AtSpace (a : Slot) (k k' : State) : Prop where
  others : SameBut a k k'
  self : (k'.procs a).outside = (k.procs a).outside
  fs : k'.fs = k.fs

theorem AtSpace.of_procs (hprocs : k'.procs = k.procs) (hfs : k'.fs = k.fs) : AtSpace a k k' :=
  ⟨fun b _ => congrFun hprocs b, by rw [hprocs], hfs⟩

theorem AtSpace.refl (a : Slot) (k : State) : AtSpace a k k := .of_procs rfl rfl

theorem AtSpace.trans {k'' : State} (h : AtSpace a k k') (h' : AtSpace a k' k'') : AtSpace a k k'' :=
  ⟨fun b hb => (h'.others b hb).trans (h.others b hb), h'.self.trans h.self, h'.fs.trans h.fs⟩

theorem AtSpace.keeps {α : Type} (h : AtSpace a k k') (f : Proc → α) (hf : ∀ x : Proc, f x.outside = f x)
    (q : Slot) : f (k'.procs q) = f (k.procs q) := by
  by_cases hq : q = a
  · rw [hq, ← hf (k'.procs a), h.self, hf]
  · rw [h.others q hq]

theorem AtSpace.state (h : AtSpace a k k') (q : Slot) : (k'.procs q).state = (k.procs q).state :=
  h.keeps Proc.state (fun _ => rfl) q

theorem growproc_at (h : growproc L k a n = .ok (r, k')) : AtSpace a k k' := by
  obtain ⟨_, _, _, _, _, hret, hbut, -, hfs⟩ := growproc_ok h
  refine ⟨hbut, ?_, hfs⟩
  rcases hret with ⟨-, -, -, hproc⟩ | ⟨-, -, hproc⟩ <;> simp only [hproc, Proc.outside]

theorem shmMap_at {d : PgDir} {name : CString} {pa : Nat} (h : shmMap L k a d name pa = .ok (r, k')) :
    AtSpace a k k' := by
  obtain ⟨hbut, ⟨-, -, hfs⟩, _, _, _, _, hcase⟩ := shmMap_ok h
  refine ⟨hbut, ?_, hfs⟩
  rcases hcase with ⟨-, -, ⟨-, -, hproc⟩ | ⟨-, -, hproc⟩⟩ | ⟨-, -, -, hproc⟩ <;> simp only [hproc, Proc.outside]

theorem shmGet_at {name : Option CString} (h : shmGet L k a name = .ok (r, k')) : AtSpace a k k' := by
  cases name with
  | none =>
    cases h
    exact .refl a k
  | some name =>
    rcases shmGet_ok h with ⟨-, -, rfl⟩ | ⟨-, d, -, ⟨-, hmap⟩ | ⟨-, x, k1, hcreate, hcase⟩⟩
    · exact .refl a _
    · exact ⟨(shmMap_at hmap).others, (shmMap_at hmap).self, (shmMap_at hmap).fs⟩
    · obtain ⟨hprocs, hfs, _⟩ := shmCreate_ok hcreate
      rcases hcase with ⟨-, -, rfl⟩ | ⟨pa, -, hmap⟩
      · exact .of_procs hprocs hfs
      · exact .trans (.of_procs hprocs hfs) (shmMap_at hmap)

theorem shmRem_at {name : Option CString} (h : shmRem L k a name = .ok (r, k')) : AtSpace a k k' := by
  cases name with
  | none =>
    cases h
    exact .refl a k
  | some name =>
    rcases shmRem_ok h with ⟨-, -, rfl⟩ | ⟨i, d, -, -, hproc, hbut, hdetach⟩
    · exact .refl a _
    · exact ⟨hbut, by simp only [hproc, Proc.removed, Proc.outside], (shmDetach_ok hdetach).2.1⟩

theorem exitShm_at {is : List (Fin shmMaxNum)} (h : exitShm L a is k = .ok k') : AtSpace a k k' := by
  induction is generalizing k with
  | nil =>
    cases h
    exact .refl a _
  | cons i is ih =>
    simp only [exitShm] at h
    split at h
    · obtain ⟨⟨r, k1⟩, hrem, hrest⟩ := bind_eq_ok.mp h
      exact (shmRem_at hrem).trans (ih hrest)
    · exact ih h

/-! ## `fork` -/

/-- A process that has failed to come into being left the others as they are. -/
structure Untaken (k k' : State) : Prop where
  used : ∀ p, (k.procs p).state ≠ .unused → k'.procs p = k.procs p
  unused : ∀ p, (k.procs p).state = .unused → (k'.procs p).state = .unused
  mem : k'.mem = k.mem
  shared : k'.shared = k.shared
  fs : k'.fs = k.fs

theorem Untaken.state (h : Untaken k k') (q : Slot) : (k'.procs q).state = (k.procs q).state := by
  by_cases hq : (k.procs q).state = .unused
  · rw [h.unused q hq, hq]
  · rw [h.used q hq]

theorem Untaken.spaces (h : Untaken k k') : SameSpaces k k' := by
  refine ⟨fun q => ?_, h.mem, h.shared⟩
  have heq : ∀ {α : Type} (f : Proc → α), (k.procs q).state ≠ .unused → f (k'.procs q) = f (k.procs q) :=
    fun f hq => by rw [h.used q hq]
  exact ⟨by rw [h.state], heq _, heq _, heq _, heq _⟩

theorem allocproc_ok {k1 : State} {r : Option Slot} (h : allocproc k = (r, k1)) :
    (r = none ∧ Untaken k k1 ∧ ((∀ p, (k.procs p).state ≠ .unused) ∨ kalloc k.mem = none)) ∨
      ∃ np kstack m, r = some np ∧ (k.procs np).state = .unused ∧
        kalloc k.mem = some (kstack, m) ∧ k1.mem = m ∧ k1.shared = k.shared ∧ k1.fs = k.fs ∧
        SameBut np k k1 ∧ (k1.procs np).kstack = some kstack ∧ (k1.procs np).pid = k.nextpid := by
  unfold allocproc at h
  split at h
  · rename_i hnone
    cases h
    exact .inl ⟨rfl, ⟨fun _ _ => rfl, fun _ hp => hp, rfl, rfl, rfl⟩, .inl (used_of_freeSlot hnone)⟩
  rename_i np hnp
  have hunused := unused_of_freeSlot hnp
  dsimp only at h
  split at h
  · rename_i hk
    cases h
    refine .inl ⟨rfl, ⟨fun p hp => ?_, fun p hp => ?_, rfl, rfl, rfl⟩, .inr hk⟩
    · exact update_of_ne _ _ fun hpn : p = np => hp (hpn ▸ hunused)
    · by_cases hpn : p = np
      · rw [hpn, update_self]
      · rw [update_of_ne _ _ hpn]
        exact hp
  · rename_i kstack m hk
    cases h
    refine .inr ⟨np, kstack, m, rfl, hunused, hk, rfl, rfl, rfl, fun b hb => ?_, ?_, ?_⟩
    · rw [update_of_ne _ _ hb]
    · rw [update_self]
    · rw [update_self]

/-- The container root that `fork` hands to the child. -/
def Proc.rootForChild (p : Proc) : Option Fs.Slot :=
  if p.inNewroot ≠ 0 then p.newrootInode else none

/-- A new process with what `fork` copies from its parent `cur`, in slot `a`. -/
def Proc.childOf (p cur : Proc) (a : Slot) (d : PgDir) : Proc :=
  { p with
    maxprocset := cur.maxprocset
    maxproc := cur.maxproc
    inNewroot := cur.inNewroot
    inContainer := cur.inContainer
    nameSpace := cur.nameSpace
    newrootInode := cur.rootForChild
    pgdir := some d
    sz := cur.sz
    parent := some a
    tf := { cur.tf with eax := 0 }
    shm := cur.shm
    cwd := cur.cwd
    name := cur.name
    state := .runnable }

/-- `fork` finds no slot or no page for it; or the copy of the address space fails; or there is
a new process. The reference on the container root comes before the copy. -/
theorem fork_cases (hrun : (k.procs a).CanRun) (h : fork L k a = .ok (r, k')) :
    (r = -1 ∧ Untaken k k' ∧ ((∀ p, (k.procs p).state ≠ .unused) ∨ kalloc k.mem = none)) ∨
      ∃ np d kstack m, (k.procs np).state = .unused ∧ (k.procs a).pgdir = some d ∧
        kalloc k.mem = some (kstack, m) ∧ SameBut np k k' ∧
        ((∃ m1, r = -1 ∧ copyuvm L d (k.procs a).sz k.shared m = .ok (none, k'.shared, m1) ∧
            kfree L m1 kstack = .ok k'.mem ∧ (k'.procs np).state = .unused ∧
            k'.fs = idup? k.fs (k.procs a).rootForChild) ∨
          ∃ d' x, r = k.nextpid ∧ copyuvm L d (k.procs a).sz k.shared m = .ok (some d', k'.shared, k'.mem) ∧
            Moved (Proc.childOf x (k.procs a) a d') (k'.procs np) ∧ x.kstack = some kstack ∧
            k'.fs = idup? (idup? k.fs (k.procs a).rootForChild) (k.procs a).cwd) := by
  unfold fork at h
  split at h
  · rename_i k1 halloc
    cases h
    rcases allocproc_ok halloc with ⟨-, hsame, hshort⟩ | ⟨_, _, _, hnp, -⟩
    · exact .inl ⟨rfl, hsame, hshort⟩
    · cases hnp
  rename_i np k1 halloc
  rcases allocproc_ok halloc with ⟨hr, -⟩ | ⟨np', kstack, m1, hr, hunused, hk, hmem, hshared, hfs, hsame,
    hkstack, hpid⟩
  · cases hr
  cases hr
  have hne : a ≠ np := by
    rintro rfl
    exact hrun.used hunused
  rw [hsame a hne] at h
  dsimp only at h
  split at h
  · rename_i d kst hd hkst
    rw [update_self] at hkst
    obtain rfl : kstack = kst := Option.some.inj (hkstack.symm.trans hkst)
    obtain ⟨⟨x, s', m⟩, hcopy, hrest⟩ := bind_eq_ok.mp h
    change copyuvm L d (k.procs a).sz k1.shared k1.mem = _ at hcopy
    rw [hmem, hshared] at hcopy
    refine .inr ⟨np, d, kstack, m1, hunused, hd, hk, ?_⟩
    cases x with
    | none =>
      obtain ⟨m', hfree, hret⟩ := bind_eq_ok.mp hrest
      cases hret
      refine ⟨fun b hb => ?_, .inl ⟨m, rfl, hcopy, hfree, ?_, congrArg (idup? · _) hfs⟩⟩
      · rw [update_of_ne _ _ hb]
        rw [update_of_ne _ _ hb]
        exact hsame b hb
      · rw [update_self]
    | some d' =>
      simp only [pure, Except.pure, Except.ok.injEq, Prod.mk.injEq] at hrest
      obtain ⟨hr, hk'⟩ := hrest
      generalize hK : State.update _ np _ = K at hr hk'
      obtain ⟨hshuffled, hbut⟩ := forkEnqueue_shuffled K np a
      rw [hk'] at hshuffled hbut
      have hchild : K.procs np = (k1.procs np).childOf (k.procs a) a d' := by
        rw [← hK, update_self]
        rw [update_self]
        rfl
      refine ⟨fun b hb => ?_, .inr ⟨d', k1.procs np, ?_, ?_, ?_, hkstack, ?_⟩⟩
      · rw [hbut b hb, ← hK, update_of_ne _ _ hb]
        rw [update_of_ne _ _ hb]
        exact hsame b hb
      · rw [← hr, hchild]
        exact hpid
      · rw [hshuffled.shared, hshuffled.mem, ← hK]
        exact hcopy
      · rw [← hchild]
        exact hshuffled.procs np
      · rw [hshuffled.fs, ← hK, ← hfs]
        rfl
  · cases h

theorem Moved.child {x cur p : Proc} {d : PgDir} (h : Moved (x.childOf cur a d) p) : p.state ≠ .unused ∧
    p.pgdir = some d ∧ p.sz = cur.sz ∧ p.kstack = x.kstack ∧ p.shm = cur.shm :=
  ⟨fun hc => (by cases h.unused.mp hc), h.space.pgdir nofun, h.space.sz nofun, h.space.kstack nofun,
    h.space.shm nofun⟩

/-! ## `exit` and `wait` -/

theorem exit_cases (h : exit L k a = .ok k') : ∃ k1 k2 cwd, exitShm L a (List.finRange shmMaxNum) k = .ok k1 ∧
      (k1.procs a).cwd = some cwd ∧
      Shuffled { k1.update a fun p => { p with cwd := none } with fs := Fs.iput k1.fs cwd } k2 ∧
      k' = k2.update a fun p => { p with state := .zombie } := by
  unfold exit at h
  split at h
  · cases h
  obtain ⟨k1, hshm, hrest⟩ := bind_eq_ok.mp h
  split at hrest
  · cases hrest
  · rename_i cwd hcwd
    exact ⟨k1, _, cwd, hshm, hcwd, (wakeup1_shuffled _ _).trans
      (Shuffled.foldl (reparentSlot_shuffled a) _ _), (Except.ok.inj hrest).symm⟩

/-- Besides its calls of `shm_rem`, `exit` keeps all address spaces. -/
theorem exit_ok (hrun : (k.procs a).CanRun) (h : exit L k a = .ok k') :
    ∃ k1, exitShm L a (List.finRange shmMaxNum) k = .ok k1 ∧ SameSpaces k1 k' := by
  obtain ⟨k1, k2, cwd, hshm, _, hshuffled, hk'⟩ := exit_cases h
  have hcwd : SameSpaces k1
      { k1.update a fun p => { p with cwd := none } with fs := Fs.iput k1.fs cwd } := by
    have hupdate := SameSpaces.update k1 (a := a) (f := fun p => { p with cwd := none })
      (SameSpace.of_eq Iff.rfl rfl rfl rfl rfl)
    exact ⟨hupdate.procs, rfl, rfl⟩
  have hmoved := hcwd.trans hshuffled.spaces
  have hused : (k2.procs a).state ≠ .unused := by
    rw [Ne, (hmoved.procs a).unused, (exitShm_at hshm).state a]
    exact hrun.used
  refine ⟨k1, hshm, ?_⟩
  rw [hk']
  exact hmoved.trans (SameSpaces.update k2 (SameSpace.of_eq ⟨nofun, (absurd · hused)⟩ rfl rfl rfl rfl))

theorem wait_ok {r : Option Int} (hrun : (k.procs a).CanRun) (h : wait L k a = .ok (r, k')) :
    Shuffled k k' ∨ ∃ p kstack d m, (k.procs p).state = .zombie ∧
      (k.procs p).parent = some a ∧ (k.procs p).kstack = some kstack ∧
      (k.procs p).pgdir = some d ∧ kfree L k.mem kstack = .ok m ∧ freevm L d m = .ok k'.mem ∧
      k'.shared = k.shared ∧ k'.fs = k.fs ∧ SameBut p k k' ∧ (k'.procs p).state = .unused := by
  unfold wait at h
  split at h
  · rename_i p hp
    have hfound := zombieChild_some hp
    split at h
    · cases h
    · cases h
    rename_i kstack d hkstack hd
    obtain ⟨m, hstack, hrest⟩ := bind_eq_ok.mp h
    obtain ⟨m', hfree, hret⟩ := bind_eq_ok.mp hrest
    cases hret
    refine .inr ⟨p, kstack, d, m, hfound.2, hfound.1, hkstack, hd, hstack, hfree, rfl, rfl,
      fun b hb => ?_, ?_⟩
    · rw [update_of_ne _ _ hb]
    · rw [update_self]
  · left
    dsimp only at h
    split at h
    · cases h
      exact Shuffled.refl k
    cases h
    unfold Proc.CanRun at hrun
    refine Shuffled.update k ⟨?_, ?_, rfl⟩
    all_goals rcases hrun with hc | hc <;> simp [hc]

/-! ## A call of a run -/

/-- The call that a step makes, without what it returns. -/
inductive Did (L : Layout) (k : State) (a : Slot) (k' : State) : Call → Prop
  | shmGet {name : Option CString} {r : Int} : shmGet L k a name = .ok (r, k') →
      Did L k a k' (.shmGet name)
  | shmRem {name : Option CString} {r : Int} : shmRem L k a name = .ok (r, k') →
      Did L k a k' (.shmRem name)
  | growproc {n r : Int} : growproc L k a n = .ok (r, k') → Did L k a k' (.growproc n)
  | fork {r : Int} : fork L k a = .ok (r, k') → Did L k a k' .fork
  | exec {path buf : CString} {argv : List CString} {r : Int} :
      exec L k a path buf argv = .ok (r, k') → Did L k a k' (.exec path buf argv)
  | exit : exit L k a = .ok k' → Did L k a k' .exit
  | wait {r : Option Int} : wait L k a = .ok (r, k') → Did L k a k' .wait
  | maxproc {n r : Int} : doMaxproc k a n = .ok (r, k') → Did L k a k' (.maxproc n)

theorem call_did {c : Call} {r : Option Int} (h : call L k a c = .ok (r, k')) : Did L k a k' c := by
  cases c with
  | shmGet name =>
    obtain ⟨⟨r, k1⟩, hget, hret⟩ := bind_eq_ok.mp h
    cases hret
    exact .shmGet hget
  | shmRem name =>
    obtain ⟨⟨r, k1⟩, hrem, hret⟩ := bind_eq_ok.mp h
    cases hret
    exact .shmRem hrem
  | growproc n =>
    obtain ⟨⟨r, k1⟩, hgrow, hret⟩ := bind_eq_ok.mp h
    cases hret
    exact .growproc hgrow
  | fork =>
    obtain ⟨⟨r, k1⟩, hfork, hret⟩ := bind_eq_ok.mp h
    cases hret
    exact .fork hfork
  | exec path buf argv =>
    obtain ⟨⟨r, k1⟩, hexec, hret⟩ := bind_eq_ok.mp h
    cases hret
    exact .exec hexec
  | exit =>
    obtain ⟨k1, hexit, hret⟩ := bind_eq_ok.mp h
    cases hret
    exact .exit hexit
  | wait => exact .wait h
  | maxproc n =>
    obtain ⟨⟨r, k1⟩, hmax, hret⟩ := bind_eq_ok.mp h
    cases hret
    exact .maxproc hmax

/-- The state after a call that returns what the event says. -/
def next (L : Layout) (k : State) (e : Event) : Option State :=
  if (k.procs e.slot).CanRun then
    match call L k e.slot e.call with
    | .ok (r, k') => if r = e.ret then some k' else none
    | .error _ => none
  else none

theorem step_of_next {e : Event} (h : next L k e = some k') : Step L k e k' := by
  unfold next at h
  split at h
  · rename_i hrun
    split at h
    · rename_i r k1 hcall
      split at h
      · rename_i hret
        cases h
        subst hret
        exact ⟨hrun, hcall⟩
      · cases h
    · cases h
  · cases h

end Xv6.Kernel
