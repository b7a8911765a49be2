import Xv6.Lib.Count
import Xv6.Ptable.Namespaces
import Xv6.Kernel.Bindings
import Xv6.Kernel.ProcessLimit

/-! # Containers

`cm_setroot` and `cm_create_and_enter` join the calls here. A container attribute is set once:
it stays until the process is reaped and passes to all that is forked from it, and its setter
refuses from then on. The root of a container keeps its inode because every process in it counts
for one reference, which nobody ever gives back.
-/

namespace Xv6.Kernel

open Lib Vm

variable {k k' : State} {a q : Slot} {p : Proc} {n r : Int} {L : Layout}

/-! ## `cm_setroot` and `cm_create_and_enter` -/

/-- `do_setroot(path, path_len)` by `a`. A relative path is refused, so the working directory is
not read. -/
def doSetroot (k : State) (a : Slot) (path buf : CString) (pathLen : Int) :
    Except String (Int × State) := do
  let cur := k.procs a
  let (r, p, fs) ← Fs.doSetroot (cur.toFs (cur.cwd.getD 0)) path buf pathLen k.fs
  return (r, { k.update a fun x =>
    { x with inNewroot := p.inNewroot, newrootInode := p.newrootInode } with fs := fs })

/-- The processes of `proc.c` with its `namespace_id`. -/
structure CmState where
  kernel : State
  namespaceId : Int

def taken (k : State) (id : Int) : Bool :=
  (List.finRange nproc).any fun p => (k.procs p).state != .unused && (k.procs p).nameSpace == id

variable {s t : CmState} {path buf : CString}

theorem freeNamespace_exists (k : State) (id : Int) :
    (firstFree Ptable.incr (taken k) (nproc + 1) id).isSome := by
  refine firstFree_isSome id (fun q => (k.procs q).nameSpace) (fun y hy => ?_)
    (Ptable.incr_iterate_injective id)
  obtain ⟨q, -, hq⟩ := List.any_eq_true.mp hy
  simp only [Bool.and_eq_true, beq_iff_eq] at hq
  exact ⟨q, hq.2⟩

def freeNamespace (k : State) (id : Int) : Int :=
  (firstFree Ptable.incr (taken k) (nproc + 1) id).get (freeNamespace_exists k id)

def doCe (s : CmState) (a : Slot) : Int × CmState :=
  if (s.kernel.procs a).inContainer ≠ 0 then (-1, s)
  else
    let id := freeNamespace s.kernel s.namespaceId
    (0, ⟨s.kernel.update a fun p => { p with inContainer := 1, nameSpace := id }, Ptable.incr id⟩)

inductive CmCall
  | call (c : Call)
  | setroot (path buf : CString) (pathLen : Int)
  | createAndEnter

/-- A call by `a`, with what it returns if it returns now. -/
def cmCall (L : Layout) (s : CmState) (a : Slot) : CmCall → Except String (Option Int × CmState)
  | .call c => do let (r, k) ← call L s.kernel a c; return (r, { s with kernel := k })
  | .setroot path buf pathLen => do
    let (r, k) ← doSetroot s.kernel a path buf pathLen
    return (some r, { s with kernel := k })
  | .createAndEnter => let (r, s) := doCe s a; .ok (some r, s)

structure CmEvent where
  slot : Slot
  call : CmCall
  ret : Option Int

def CmStep (L : Layout) (s : CmState) (e : CmEvent) (t : CmState) : Prop :=
  (s.kernel.procs e.slot).CanRun ∧ cmCall L s e.slot e.call = .ok (e.ret, t)

/-! ## The setters refuse -/

theorem doMaxproc_refuses (h : (k.procs a).maxprocset ≠ 0) (n : Int) : doMaxproc k a n = .ok (-1, k) := by
  have hset : lineageSet k nproc (some a) = .ok true := by
    unfold lineageSet
    exact if_pos h
  unfold doMaxproc
  rw [hset]
  rfl

theorem update_same {f : Proc → Proc} (h : f (k.procs a) = k.procs a) : k.update a f = k := by
  unfold State.update
  rw [h, Function.update_eq_self]

theorem doSetroot_refuses (h : (k.procs a).inNewroot ≠ 0) (path buf : CString) (pathLen : Int) :
    doSetroot k a path buf pathLen = .ok (-1, k) := by
  have hrefuse : Fs.doSetroot ((k.procs a).toFs ((k.procs a).cwd.getD 0)) path buf pathLen k.fs =
      .ok (-1, (k.procs a).toFs ((k.procs a).cwd.getD 0), k.fs) := by
    unfold Fs.doSetroot
    exact if_pos h
  unfold doSetroot
  dsimp only
  rw [hrefuse]
  dsimp only [bind, Except.bind]
  rw [update_same rfl]
  rfl

theorem doCe_refuses (h : (s.kernel.procs a).inContainer ≠ 0) : doCe s a = (-1, s) := if_pos h

/-! ## What is passed on -/

/-- Attributes that are set stay as they are. -/
structure Bindings.Keeps (b b' : Bindings) : Prop where
  maxproc : b.maxprocset ≠ 0 → b'.maxprocset = b.maxprocset ∧ b'.maxproc = b.maxproc
  newroot : b.inNewroot ≠ 0 → b'.inNewroot = b.inNewroot ∧ b'.newrootInode = b.newrootInode
  nameSpace : b.inContainer ≠ 0 → b'.inContainer = b.inContainer ∧ b'.nameSpace = b.nameSpace

theorem Bindings.Keeps.refl (b : Bindings) : b.Keeps b :=
  ⟨fun _ => ⟨rfl, rfl⟩, fun _ => ⟨rfl, rfl⟩, fun _ => ⟨rfl, rfl⟩⟩

theorem Bindings.Keeps.trans {b b' b'' : Bindings} (h : b.Keeps b') (h' : b'.Keeps b'') :
    b.Keeps b'' := by
  refine ⟨fun hb => ?_, fun hb => ?_, fun hb => ?_⟩
  · obtain ⟨hset, hval⟩ := h.maxproc hb
    obtain ⟨hset', hval'⟩ := h'.maxproc (by rw [hset]; exact hb)
    exact ⟨hset'.trans hset, hval'.trans hval⟩
  · obtain ⟨hset, hval⟩ := h.newroot hb
    obtain ⟨hset', hval'⟩ := h'.newroot (by rw [hset]; exact hb)
    exact ⟨hset'.trans hset, hval'.trans hval⟩
  · obtain ⟨hset, hval⟩ := h.nameSpace hb
    obtain ⟨hset', hval'⟩ := h'.nameSpace (by rw [hset]; exact hb)
    exact ⟨hset'.trans hset, hval'.trans hval⟩

theorem Bindings.keeps_forChild (b : Bindings) : b.Keeps b.forChild :=
  ⟨fun _ => ⟨rfl, rfl⟩, fun hb => ⟨rfl, if_pos hb⟩, fun _ => ⟨rfl, rfl⟩⟩

/-- The references that a process with these bindings stands for. -/
def Bindings.holds (b : Bindings) (i : Fs.Slot) : Int :=
  (if b.cwd = some i then 1 else 0) + if b.inNewroot ≠ 0 ∧ b.newrootInode = some i then 1 else 0

theorem Bindings.holds_enter {b : Bindings} (h : b.inNewroot = 0) (ip i : Fs.Slot) :
    Bindings.holds { b with inNewroot := 1, newrootInode := some ip } i =
      b.holds i + if i = ip then 1 else 0 := by
  simp [holds, h, eq_comm]

theorem Bindings.holds_forChild (b : Bindings) (i : Fs.Slot) :
    b.forChild.holds i =
      (if b.cwd = some i then 1 else 0) + if b.forChild.newrootInode = some i then 1 else 0 := by
  by_cases h : b.inNewroot = 0 <;> simp [holds, forChild, h]

theorem Bindings.holds_ended (b : Bindings) (i : Fs.Slot) :
    Bindings.holds { b with cwd := none } i = b.holds i - if b.cwd = some i then 1 else 0 := by
  simp [holds]

def Proc.holds (p : Proc) (i : Fs.Slot) : Int :=
  if p.state = .unused then 0 else p.bindings.holds i

theorem Bindings.holds_nonneg (b : Bindings) (i : Fs.Slot) : 0 ≤ b.holds i := by
  unfold holds
  split <;> split <;> decide

theorem Proc.holds_nonneg (p : Proc) (i : Fs.Slot) : 0 ≤ p.holds i := by
  unfold holds
  split
  · exact Int.le_refl 0
  · exact Bindings.holds_nonneg _ i

theorem Proc.holds_used (h : p.state ≠ .unused) (i : Fs.Slot) : p.holds i = p.bindings.holds i := if_neg h

theorem Proc.holds_unused (h : p.state = .unused) (i : Fs.Slot) : p.holds i = 0 := if_pos h

/-- A process in a container has a root, and one that has not ended has a working directory. -/
structure Proc.Bound (p : Proc) : Prop where
  newroot : p.state ≠ .unused → p.inNewroot ≠ 0 → p.newrootInode ≠ none
  cwd : p.Alive → p.cwd ≠ none

/-- The cache has a reference for each pointer of a process to an inode. -/
structure Held (k : State) : Prop where
  ok : Fs.CacheOk k.fs
  counted : ∀ i, ∑ q, (k.procs q).holds i ≤ (k.fs.icache i).ref
  bound : ∀ q, (k.procs q).Bound

theorem SameBinding.holds {p' : Proc} (h : SameBinding p p') (i : Fs.Slot) : p'.holds i = p.holds i := by
  by_cases hp : p.state = .unused
  · rw [Proc.holds_unused hp, Proc.holds_unused (h.unused.mpr hp)]
  · rw [Proc.holds_used hp, Proc.holds_used fun hp' => hp (h.unused.mp hp'), h.bindings hp]

theorem SameBinding.bound {p' : Proc} (h : SameBinding p p') (hp : p.Bound) : p'.Bound := by
  refine ⟨fun hused => ?_, fun halive => ?_⟩
  · have hused' : p.state ≠ .unused := fun hc => hused (h.unused.mpr hc)
    have hb := h.bindings hused'
    have hin : p'.inNewroot = p.inNewroot := congrArg Bindings.inNewroot hb
    have hroot : p'.newrootInode = p.newrootInode := congrArg Bindings.newrootInode hb
    rw [hin, hroot]
    exact hp.newroot hused'
  · have halive' : p.Alive :=
      ⟨fun hc => halive.1 (h.unused.mpr hc), fun hc => halive.2 (h.zombie.mpr hc)⟩
    have hcwd : p'.cwd = p.cwd := congrArg Bindings.cwd (h.bindings halive'.1)
    rw [hcwd]
    exact hp.cwd halive'

theorem Held.ref_pos (h : Held k) (hq : (k.procs q).state ≠ .unused) {i : Fs.Slot}
    (hi : (k.procs q).cwd = some i ∨
      (k.procs q).inNewroot ≠ 0 ∧ (k.procs q).newrootInode = some i) : 0 < (k.fs.icache i).ref := by
  have hone : 1 ≤ (k.procs q).holds i := by
    rw [Proc.holds_used hq]
    unfold Bindings.holds
    rcases hi with hcwd | hroot
    · have : (k.procs q).bindings.cwd = some i := hcwd
      rw [if_pos this]
      split <;> decide
    · have : (k.procs q).bindings.inNewroot ≠ 0 ∧ (k.procs q).bindings.newrootInode = some i := hroot
      rw [if_pos this]
      split <;> decide
  have hsum := Finset.single_le_sum (f := fun q => (k.procs q).holds i)
    (fun q _ => Proc.holds_nonneg (k.procs q) i) (Finset.mem_univ q)
  have := h.counted i
  omega

/-- The process that `q`, after a call by `a`, has its attributes from. -/
def State.source (k : State) (a q : Slot) : Slot := if (k.procs q).state = .unused then a else q

/-- What a call by `a` hands on to the state after it. -/
structure Passed (k : State) (a : Slot) (k' : State) : Prop where
  held : Held k'
  keeps : ∀ q, (k'.procs q).state ≠ .unused →
    (k.procs (k.source a q)).bindings.Keeps (k'.procs q).bindings
  inode : ∀ i, 0 < (k.fs.icache i).ref → (k'.fs.icache i).dev = (k.fs.icache i).dev ∧
    (k'.fs.icache i).inum = (k.fs.icache i).inum

/-- A call that changes the bindings of one process only, and counts what it changes. -/
theorem Passed.of_change {c : Slot} {d : Fs.Slot → Int} (h : Held k)
    (hothers : ∀ q, q ≠ c → SameBinding (k.procs q) (k'.procs q)) (hbound : (k'.procs c).Bound)
    (hkeeps : (k'.procs c).state ≠ .unused →
      (k.procs (k.source a c)).bindings.Keeps (k'.procs c).bindings) (hfs : Fs.Balance k.fs k'.fs d)
    (hd : ∀ i, (k'.procs c).holds i ≤ (k.procs c).holds i + d i) : Passed k a k' where
  held := by
    refine ⟨hfs.ok, fun i => ?_, fun q => ?_⟩
    · have hsum := sum_change (f := fun q => (k'.procs q).holds i) (g := fun q => (k.procs q).holds i)
        (Finset.mem_univ c) fun q _ hq => (hothers q hq).holds i
      have := h.counted i
      have := hfs.ref_ge i
      have := hd i
      omega
    · by_cases hq : q = c
      · rw [hq]
        exact hbound
      · exact (hothers q hq).bound (h.bound q)
  keeps := by
    intro q hq
    by_cases hqc : q = c
    · rw [hqc] at hq ⊢
      exact hkeeps hq
    · have hused : (k.procs q).state ≠ .unused := fun hc => hq ((hothers q hqc).unused.mpr hc)
      rw [State.source, if_neg hused, (hothers q hqc).bindings hused]
      exact Bindings.Keeps.refl _
  inode := hfs.kept

theorem Passed.of_same {d : Fs.Slot → Int} (h : Held k) (hsame : ∀ q, SameBinding (k.procs q) (k'.procs q))
    (hfs : Fs.Balance k.fs k'.fs d) (hd : ∀ i, 0 ≤ d i) : Passed k a k' := by
  refine .of_change (c := a) h (fun q _ => hsame q) ((hsame a).bound (h.bound a)) (fun hused => ?_)
    hfs fun i => ?_
  · have hused' : (k.procs a).state ≠ .unused := fun hc => hused ((hsame a).unused.mpr hc)
    rw [State.source, if_neg hused', (hsame a).bindings hused']
    exact Bindings.Keeps.refl _
  · have := hd i
    rw [(hsame a).holds i]
    omega

theorem Passed.of_bindings (h : Held k) (hsame : SameBindings k k') : Passed k a k' := by
  have hfs : Fs.Balance k.fs k'.fs fun _ => 0 := by
    rw [hsame.fs]
    exact .refl h.ok
  exact .of_same h hsame.procs hfs fun _ => Int.le_refl 0

/-! ## The calls pass everything on -/

theorem Proc.CanRun.alive (h : p.CanRun) : p.Alive := by
  refine ⟨h.used, fun hc => ?_⟩
  unfold Proc.CanRun at h
  rw [hc] at h
  rcases h with h | h <;> cases h

theorem idup_balance {fs : Fs.FsState} (h : Fs.CacheOk fs) {ip : Option Fs.Slot}
    (hpos : ∀ i, ip = some i → 0 < (fs.icache i).ref) :
    Fs.Balance fs (idup? fs ip) fun i => if ip = some i then 1 else 0 := by
  cases ip with
  | none => exact (Fs.Balance.refl h).mono fun i => by simp
  | some ip =>
    refine (Fs.Walking.of_idup h (hpos ip rfl)).balance.mono fun i => ?_
    simp only [Option.some.injEq, eq_comm]
    exact Int.le_refl _

section Calls

variable (h : Held k) (hrun : (k.procs a).CanRun)

include h hrun

theorem Passed.of_update {f : Proc → Proc} (hstate : (f (k.procs a)).state = (k.procs a).state) (hcwd : (f (k.procs a)).cwd = (k.procs a).cwd)
    (hin : (f (k.procs a)).inNewroot = (k.procs a).inNewroot)
    (hroot : (f (k.procs a)).newrootInode = (k.procs a).newrootInode)
    (hkeeps : (k.procs a).bindings.Keeps (f (k.procs a)).bindings) : Passed k a (k.update a f) := by
  refine .of_change (c := a) (d := fun _ => 0) h (fun q hq => ?_) ⟨fun _ => ?_, fun _ => ?_⟩
    (fun _ => ?_) (.refl h.ok) fun i => ?_
  · rw [update_of_ne k f hq]
    exact SameBinding.refl _
  · rw [update_self, hin, hroot]
    exact (h.bound a).newroot hrun.used
  · rw [update_self, hcwd]
    exact (h.bound a).cwd hrun.alive
  · rw [update_self, State.source, if_neg hrun.used]
    exact hkeeps
  · have hused : (f (k.procs a)).state ≠ .unused := by
      rw [hstate]
      exact hrun.used
    rw [update_self, Proc.holds_used hrun.used, Proc.holds_used hused, Int.add_zero]
    unfold Bindings.holds Proc.bindings
    rw [hcwd, hin, hroot]

theorem doMaxproc_passed (hmax : doMaxproc k a n = .ok (r, k')) :
    Passed k a k' := by
  by_cases hset : (k.procs a).maxprocset = 0
  · rcases doMaxproc_ok hmax with ⟨-, rfl⟩ | ⟨-, rfl⟩
    · exact .of_bindings h (SameBindings.refl _)
    · exact .of_update h hrun rfl rfl rfl rfl
        ⟨fun hc => absurd hset hc, fun _ => ⟨rfl, rfl⟩, fun _ => ⟨rfl, rfl⟩⟩
  · rw [doMaxproc_refuses hset] at hmax
    cases hmax
    exact .of_bindings h (SameBindings.refl _)

theorem Held.cwd :
    ∃ cwd, (k.procs a).cwd = some cwd ∧ 0 < (k.fs.icache cwd).ref := by
  obtain ⟨cwd, hcwd⟩ := Option.ne_none_iff_exists'.mp ((h.bound a).cwd hrun.alive)
  exact ⟨cwd, hcwd, h.ref_pos hrun.used (.inl hcwd)⟩

theorem doSetroot_passed {pathLen : Int} (hset : doSetroot k a path buf pathLen = .ok (r, k')) : Passed k a k' := by
  obtain ⟨cwd, hcwd, hpos⟩ := h.cwd hrun
  obtain ⟨⟨r', p, fs⟩, hfs, hret⟩ := bind_eq_ok.mp hset
  rw [hcwd, Option.getD_some] at hfs
  cases hret
  rcases Fs.doSetroot_looked (p := (k.procs a).toFs cwd) h.ok hpos hfs with
    ⟨-, rfl, hcase⟩ | ⟨ip, -, hout, rfl, hwalk⟩
  · -- a path that does not lead to a directory may leave its reference behind
    have hsame := SameBindings.update k (a := a)
      (f := fun x => { x with inNewroot := (k.procs a).inNewroot, newrootInode := (k.procs a).newrootInode })
      (.of_state rfl rfl)
    have hbalance : Fs.Balance k.fs fs fun _ => 0 := by
      rcases hcase with rfl | ⟨found, hlooked⟩
      · exact .refl h.ok
      · exact hlooked.balance
    exact .of_same h hsame.procs hbalance fun _ => Int.le_refl 0
  · have hout' : (k.procs a).inNewroot = 0 := hout
    refine .of_change (c := a) h (fun q hq => ?_) ⟨fun _ _ => ?_, fun _ => ?_⟩ (fun _ => ?_)
      hwalk.balance fun i => ?_
    · rw [update_of_ne _ _ hq]
      exact SameBinding.refl _
    · rw [update_self]
      exact nofun
    · rw [update_self]
      exact (h.bound a).cwd hrun.alive
    · rw [update_self, State.source, if_neg hrun.used]
      exact ⟨fun _ => ⟨rfl, rfl⟩, fun hc => absurd hout' hc, fun _ => ⟨rfl, rfl⟩⟩
    · rw [update_self, Proc.holds_used hrun.used, ← Bindings.holds_enter hout']
      exact Int.le_of_eq (if_neg hrun.used)

theorem fork_passed (hfork : fork L k a = .ok (r, k')) :
    Passed k a k' := by
  have hroot : ∀ i, (k.procs a).bindings.forChild.newrootInode = some i →
      0 < (k.fs.icache i).ref := by
    intro i hi
    unfold Bindings.forChild at hi
    split at hi
    · rename_i hin
      exact h.ref_pos hrun.used (.inr ⟨hin, hi⟩)
    · cases hi
  have hfirst := idup_balance h.ok hroot
  have hnonneg : ∀ i, (0 : Int) ≤
      if (k.procs a).bindings.forChild.newrootInode = some i then 1 else 0 := by
    intro i
    split <;> decide
  rcases fork_bindings hrun hfork with ⟨hsame, hfs⟩ | ⟨np, hnp, hbut, halive, hbindings, hfs⟩
  · rcases hfs with hfs | hfs
    · exact .of_bindings h ⟨hsame, hfs⟩
    · rw [← hfs] at hfirst
      exact .of_same h hsame hfirst hnonneg
  have hcwd : ∀ i, (k.procs a).cwd = some i →
      0 < ((idup? k.fs (k.procs a).bindings.forChild.newrootInode).icache i).ref := by
    intro i hi
    have := h.ref_pos hrun.used (.inl hi)
    have := hfirst.ref_ge i
    omega
  have hboth := hfirst.trans hnonneg (idup_balance hfirst.ok hcwd)
  rw [← hfs] at hboth
  have hin : (k'.procs np).inNewroot = (k.procs a).inNewroot := congrArg Bindings.inNewroot hbindings
  have hinode : (k'.procs np).newrootInode = (k.procs a).bindings.forChild.newrootInode :=
    congrArg Bindings.newrootInode hbindings
  refine .of_change (c := np) h (fun q hq => ?_) ⟨fun _ hset => ?_, fun _ => ?_⟩ (fun _ => ?_) hboth
    fun i => ?_
  · rw [hbut q hq]
    exact SameBinding.refl _
  · rw [hin] at hset
    rw [hinode]
    unfold Bindings.forChild
    rw [if_pos (show (k.procs a).bindings.inNewroot ≠ 0 from hset)]
    exact (h.bound a).newroot hrun.used hset
  · have hcwd' : (k'.procs np).cwd = (k.procs a).cwd := congrArg Bindings.cwd hbindings
    rw [hcwd']
    exact (h.bound a).cwd hrun.alive
  · rw [State.source, if_pos hnp, hbindings]
    exact Bindings.keeps_forChild _
  · rw [Proc.holds_unused hnp, Proc.holds_used halive.1, hbindings, Bindings.holds_forChild,
      Int.zero_add, Int.add_comm]
    exact Int.le_refl _

theorem exit_passed (hexit : exit L k a = .ok k') : Passed k a k' := by
  obtain ⟨cwd, hcwd, hfs, hothers, hzombie, hbindings⟩ := exit_bindings hrun hexit
  have hpos := h.ref_pos hrun.used (.inl hcwd)
  have hbalance := Fs.Balance.of_iput h.ok hpos
  rw [← hfs] at hbalance
  have hused : (k'.procs a).state ≠ .unused := by
    rw [hzombie]
    decide
  refine .of_change (c := a) h hothers ⟨fun _ => ?_, fun halive => absurd hzombie halive.2⟩
    (fun _ => ?_) hbalance fun i => ?_
  · have hin : (k'.procs a).inNewroot = (k.procs a).inNewroot := congrArg Bindings.inNewroot hbindings
    have hinode : (k'.procs a).newrootInode = (k.procs a).newrootInode :=
      congrArg Bindings.newrootInode hbindings
    rw [hin, hinode]
    exact (h.bound a).newroot hrun.used
  · rw [State.source, if_neg hrun.used, hbindings]
    exact ⟨fun _ => ⟨rfl, rfl⟩, fun _ => ⟨rfl, rfl⟩, fun _ => ⟨rfl, rfl⟩⟩
  · have hheld : (k.procs a).bindings.cwd = some cwd := hcwd
    rw [Proc.holds_used hrun.used, Proc.holds_used hused, hbindings, Bindings.holds_ended, hheld]
    simp only [Option.some.injEq, eq_comm]
    exact Int.le_refl _

theorem wait_passed {r : Option Int} (hwait : wait L k a = .ok (r, k')) : Passed k a k' := by
  obtain ⟨hfs, hsame | ⟨p, hzombie, hfree, hbut⟩⟩ := wait_bindings hrun hwait
  · exact .of_bindings h ⟨hsame, hfs⟩
  have hbalance : Fs.Balance k.fs k'.fs fun _ => 0 := by
    rw [hfs]
    exact .refl h.ok
  refine .of_change (c := p) h (fun q hq => ?_) ⟨fun hused => absurd hfree hused,
    fun halive => absurd hfree halive.1⟩ (fun hused => absurd hfree hused) hbalance
    fun i => ?_
  · rw [hbut q hq]
    exact SameBinding.refl _
  · have := (k.procs p).holds_nonneg i
    rw [Proc.holds_unused hfree]
    omega

theorem exec_passed {argv : List CString} (hexec : exec L k a path buf argv = .ok (r, k')) : Passed k a k' := by
  obtain ⟨hsame, cwd, hcwd, hreturned⟩ := exec_bindings hexec
  have hpos := h.ref_pos hrun.used (.inl hcwd)
  exact .of_same h hsame (hreturned h.ok hpos).balance fun _ => Int.le_refl 0

end Calls

theorem doCe_passed (h : Held s.kernel) (hrun : (s.kernel.procs a).CanRun) :
    Passed s.kernel a (doCe s a).2.kernel := by
  unfold doCe
  split
  · exact .of_bindings h (SameBindings.refl _)
  · rename_i hset
    dsimp only
    apply Passed.of_update h hrun rfl rfl rfl rfl
    exact ⟨fun _ => ⟨rfl, rfl⟩, fun _ => ⟨rfl, rfl⟩, fun hc => absurd hc hset⟩

theorem cmStep_passed {e : CmEvent} (h : Held s.kernel) (hstep : CmStep L s e t) :
    Passed s.kernel e.slot t.kernel := by
  obtain ⟨a, c, r⟩ := e
  obtain ⟨hrun, hcall⟩ := hstep
  cases c with
  | call c =>
    obtain ⟨⟨r', k⟩, hk, hret⟩ := bind_eq_ok.mp hcall
    cases hret
    cases call_did hk with
    | shmGet hget => exact .of_bindings h (shmGet_at hget).bindings
    | shmRem hrem => exact .of_bindings h (shmRem_at hrem).bindings
    | growproc hgrow => exact .of_bindings h (growproc_at hgrow).bindings
    | fork hfork => exact fork_passed h hrun hfork
    | exec hexec => exact exec_passed h hrun hexec
    | exit hexit => exact exit_passed h hrun hexit
    | wait hwait => exact wait_passed h hrun hwait
    | maxproc hmax => exact doMaxproc_passed h hrun hmax
  | setroot path buf pathLen =>
    obtain ⟨⟨r', k⟩, hk, hret⟩ := bind_eq_ok.mp hcall
    cases hret
    exact doSetroot_passed h hrun hk
  | createAndEnter =>
    have ht : t = (doCe s a).2 := (congrArg Prod.snd (Except.ok.inj hcall)).symm
    rw [ht]
    exact doCe_passed h hrun

/-! ## Runs -/

/-- What the results need of the state in which `init` starts. -/
structure Started (k : State) : Prop where
  ok : Fs.CacheOk k.fs
  unused : ∀ q, q ≠ k.initproc → (k.procs q).state = .unused
  outside : (k.procs k.initproc).inNewroot = 0
  cwd : ∃ ip, (k.procs k.initproc).cwd = some ip ∧ 0 < (k.fs.icache ip).ref

theorem Started.held (h : Started k) : Held k := by
  obtain ⟨ip, hcwd, hpos⟩ := h.cwd
  refine ⟨h.ok, fun i => ?_, fun q => ?_⟩
  · have hsum : ∑ q, (k.procs q).holds i = (k.procs k.initproc).holds i :=
      Finset.sum_eq_single k.initproc (fun q _ hq => Proc.holds_unused (h.unused q hq) i)
        fun hmem => absurd (Finset.mem_univ _) hmem
    have hone : (k.procs k.initproc).holds i ≤ if ip = i then 1 else 0 := by
      unfold Proc.holds Bindings.holds Proc.bindings
      rw [h.outside, hcwd]
      simp only [ne_eq, not_true_eq_false, false_and, if_false, Option.some.injEq]
      split <;> split <;> decide
    rw [hsum]
    split at hone
    · rename_i hip
      rw [← hip] at hone ⊢
      omega
    · have := h.ok.ref_nonneg i
      omega
  · by_cases hq : q = k.initproc
    · rw [hq]
      refine ⟨fun _ hin => absurd h.outside hin, fun _ => ?_⟩
      rw [hcwd]
      exact nofun
    · exact ⟨fun hused => absurd (h.unused q hq) hused, fun halive => absurd (h.unused q hq) halive.1⟩

theorem cmRun_held {es : List CmEvent} (h : Held s.kernel) (hrun : Run (CmStep L) s es t) :
    Held t.kernel := by
  have hkeeps : ∀ s e t, Held (CmState.kernel s) → CmStep L s e t → Held t.kernel :=
    fun _ _ _ h hstep => (cmStep_passed h hstep).held
  exact hrun.invariant hkeeps h

/-- A call of a run, with the family of a process beside the state: the members still in use, and
what a member has forked. -/
def FamilyStep (L : Layout) (s : CmState × Finset Slot) (e : CmEvent) (t : CmState × Finset Slot) :
    Prop :=
  CmStep L s.1 e t.1 ∧ t.2 = grow s.2 s.1.kernel e.slot t.1.kernel

/-- `q` in `k` has the attributes that `a` had in `k0`. -/
structure Kin (k0 : State) (a : Slot) (k : State) (q : Slot) : Prop where
  used : (k.procs q).state ≠ .unused
  keeps : (k0.procs a).bindings.Keeps (k.procs q).bindings
  inode : ∀ ip, (k0.procs a).inNewroot ≠ 0 → (k0.procs a).newrootInode = some ip →
    (k.fs.icache ip).dev = (k0.fs.icache ip).dev ∧ (k.fs.icache ip).inum = (k0.fs.icache ip).inum

theorem Kin.ref_pos {k0 : State} {ip : Fs.Slot} (h : Held k) (hkin : Kin k0 a k q)
    (hin : (k0.procs a).inNewroot ≠ 0) (hip : (k0.procs a).newrootInode = some ip) :
    0 < (k.fs.icache ip).ref := by
  obtain ⟨hset, hroot⟩ := hkin.keeps.newroot hin
  refine h.ref_pos hkin.used (.inr ⟨?_, hroot.trans hip⟩)
  exact hset.trans_ne hin

theorem Kin.step {k0 : State} {b : Slot} (h : Held k) (hpassed : Passed k b k')
    (hkin : Kin k0 a k (k.source b q)) (hq : (k'.procs q).state ≠ .unused) : Kin k0 a k' q where
  used := hq
  keeps := hkin.keeps.trans (hpassed.keeps q hq)
  inode := by
    intro ip hin hip
    obtain ⟨hdev, hinum⟩ := hkin.inode ip hin hip
    obtain ⟨hdev', hinum'⟩ := hpassed.inode ip (hkin.ref_pos h hin hip)
    exact ⟨hdev'.trans hdev, hinum'.trans hinum⟩

theorem source_mem_of_grow {tree : Finset Slot} {b : Slot} (htree : ∀ p ∈ tree, (k.procs p).state ≠ .unused)
    (hq : q ∈ grow tree k b k') : k.source b q ∈ tree := by
  obtain ⟨_, hcase⟩ := Finset.mem_filter.mp hq
  unfold State.source
  split
  · rename_i hunused
    rcases hcase with hin | ⟨hb, -⟩
    · exact absurd hunused (htree q hin)
    · exact hb
  · rename_i hused
    rcases hcase with hin | ⟨-, hnew⟩
    · exact hin
    · exact absurd (mem_used.mpr hused) hnew

/-- The whole family has the attributes of the process it comes from. -/
theorem familyRun_kin {es : List CmEvent} {t : CmState × Finset Slot} (h : Held s.kernel)
    (ha : (s.kernel.procs a).state ≠ .unused) (hrun : Run (FamilyStep L) (s, {a}) es t) :
    Held t.1.kernel ∧ ∀ q ∈ t.2, Kin s.kernel a t.1.kernel q := by
  let inv (t : CmState × Finset Slot) := Held t.1.kernel ∧ ∀ q ∈ t.2, Kin s.kernel a t.1.kernel q
  have hkeeps : ∀ u e t, inv u → FamilyStep L u e t → inv t := by
    intro u e t ⟨hheld, hkin⟩ ⟨hstep, hgrow⟩
    have hpassed := cmStep_passed hheld hstep
    refine ⟨hpassed.held, fun q hq => ?_⟩
    rw [hgrow] at hq
    have hsource := source_mem_of_grow (fun p hp => (hkin p hp).used) hq
    exact (hkin _ hsource).step hheld hpassed (mem_used.mp (Finset.mem_filter.mp hq).1)
  refine hrun.invariant hkeeps ⟨h, fun q hq => ?_⟩
  rw [Finset.mem_singleton.mp hq]
  exact ⟨ha, Bindings.Keeps.refl _, fun _ _ _ => ⟨rfl, rfl⟩⟩

/-- Whatever the calls and whoever makes them: from a state on in which a process has an attribute
set, it and all that is forked from it have the same value until they are reaped, the setter refuses
and changes nothing, and the root is a live cache entry for the same inode. -/
theorem attributes_inherited {L : Layout} {s0 s t : CmState} {a q : Slot} {family : Finset Slot}
    {es es' : List CmEvent} (hstart : Started s0.kernel) (hrun : Run (CmStep L) s0 es s)
    (ha : (s.kernel.procs a).state ≠ .unused) (hrun' : Run (FamilyStep L) (s, {a}) es' (t, family))
    (hq : q ∈ family) :
    ((s.kernel.procs a).maxprocset = 1 → (t.kernel.procs q).maxprocset = 1 ∧
      (t.kernel.procs q).maxproc = (s.kernel.procs a).maxproc ∧
      ∀ n, cmCall L t q (.call (.maxproc n)) = .ok (some (-1), t)) ∧
    ((s.kernel.procs a).inNewroot = 1 → (t.kernel.procs q).inNewroot = 1 ∧
      (∃ ip, (s.kernel.procs a).newrootInode = some ip ∧
        (t.kernel.procs q).newrootInode = some ip ∧ 1 ≤ (t.kernel.fs.icache ip).ref ∧
        (t.kernel.fs.icache ip).dev = (s.kernel.fs.icache ip).dev ∧
        (t.kernel.fs.icache ip).inum = (s.kernel.fs.icache ip).inum) ∧
      ∀ path buf pathLen, cmCall L t q (.setroot path buf pathLen) = .ok (some (-1), t)) ∧
    ((s.kernel.procs a).inContainer = 1 → (t.kernel.procs q).inContainer = 1 ∧
      (t.kernel.procs q).nameSpace = (s.kernel.procs a).nameSpace ∧
      cmCall L t q .createAndEnter = .ok (some (-1), t)) := by
  have hheld := cmRun_held hstart.held hrun
  obtain ⟨hheld', hall⟩ := familyRun_kin hheld ha hrun'
  have hkin := hall q hq
  refine ⟨fun hset => ?_, fun hset => ?_, fun hset => ?_⟩
  · obtain ⟨hset', hval⟩ := hkin.keeps.maxproc (hset.trans_ne one_ne_zero)
    have hone : (t.kernel.procs q).maxprocset = 1 := hset'.trans hset
    refine ⟨hone, hval, fun n => ?_⟩
    simp only [cmCall, call, doMaxproc_refuses (hone.trans_ne one_ne_zero) n]
    rfl
  · have hne : (s.kernel.procs a).inNewroot ≠ 0 := hset.trans_ne one_ne_zero
    obtain ⟨hset', hval⟩ := hkin.keeps.newroot hne
    have hone : (t.kernel.procs q).inNewroot = 1 := hset'.trans hset
    obtain ⟨ip, hip⟩ := Option.ne_none_iff_exists'.mp ((hheld.bound a).newroot ha hne)
    have hpos : 0 < (t.kernel.fs.icache ip).ref := hkin.ref_pos hheld' hne hip
    refine ⟨hone, ⟨ip, hip, hval.trans hip, by omega, hkin.inode ip hne hip⟩, fun path buf pathLen => ?_⟩
    simp only [cmCall, doSetroot_refuses (hone.trans_ne one_ne_zero) path buf pathLen]
    rfl
  · obtain ⟨hset', hval⟩ := hkin.keeps.nameSpace (hset.trans_ne one_ne_zero)
    have hone : (t.kernel.procs q).inContainer = 1 := hset'.trans hset
    refine ⟨hone, hval, ?_⟩
    simp only [cmCall, doCe_refuses (hone.trans_ne one_ne_zero)]

/-! ## A container with two processes -/

/-- A machine with one process, at the root of the file system of the small machine. -/
def lone : CmState :=
  ⟨{ smallMachine with procs := fun p => if p = 0 then { childProc with pid := 1, parent := none }
      else unusedProc }, 1⟩

def lone.rooted (fs : Fs.FsState) (ip : Fs.Slot) : CmState :=
  ⟨{ lone.kernel.update 0 fun x => { x with inNewroot := 1, newrootInode := some ip } with fs := fs }, 1⟩

/-- Then it calls `cm_maxproc(5)` and `cm_create_and_enter`. -/
def lone.enclosed (fs : Fs.FsState) (ip : Fs.Slot) (id : Int) : CmState :=
  ⟨((rooted fs ip).kernel.update 0 fun x => { x with maxproc := 5, maxprocset := 1 }).update 0
    fun x => { x with inContainer := 1, nameSpace := id }, Ptable.incr id⟩

theorem lone_started : Started lone.kernel := by
  refine ⟨⟨?_, ?_, ?_⟩, ?_, rfl, 0, rfl, by decide⟩
  · decide
  · decide
  · decide
  · decide

theorem lone_encloses : ∃ fs ip id es, Run (CmStep smallLayout) lone es (lone.enclosed fs ip id) := by
  obtain ⟨fs, ip, hroot⟩ : ∃ fs ip, cmCall smallLayout lone 0 (.setroot [Fs.slash] [] 1) =
      .ok (some 0, lone.rooted fs ip) := ⟨_, 0, rfl⟩
  have hmax : cmCall smallLayout (lone.rooted fs ip) 0 (.call (.maxproc 5)) = .ok (some 0,
      ⟨(lone.rooted fs ip).kernel.update 0 fun x => { x with maxproc := 5, maxprocset := 1 }, 1⟩) := rfl
  exact ⟨fs, ip, _, [⟨0, _, some 0⟩, ⟨0, _, some 0⟩, ⟨0, .createAndEnter, some 0⟩],
    .cons ⟨.inr rfl, hroot⟩ (.cons ⟨.inr rfl, hmax⟩ (.single ⟨.inr rfl, rfl⟩))⟩

theorem enclosed_fork (fs : Fs.FsState) (ip : Fs.Slot) (id : Int) :
    ∃ t np, np ≠ 0 ∧ FamilyStep smallLayout (lone.enclosed fs ip id, {0}) ⟨0, .call .fork, some 3⟩
      (t, {np, 0}) := by
  have hrun : ((lone.enclosed fs ip id).kernel.procs 0).CanRun := .inr rfl
  obtain ⟨k, hfork⟩ : ∃ k, fork smallLayout (lone.enclosed fs ip id).kernel 0 = .ok (3, k) :=
    childDir_fork hrun ⟨1, rfl⟩ rfl rfl rfl
  obtain ⟨np, hne, _, hgrow⟩ := fork_joins hrun hfork (by decide : (3 : Int) ≠ -1)
  have hcall : cmCall smallLayout (lone.enclosed fs ip id) 0 (.call .fork) =
      .ok (some 3, ⟨k, (lone.enclosed fs ip id).namespaceId⟩) := by
    unfold cmCall call
    rw [hfork]
    rfl
  exact ⟨_, np, hne, ⟨hrun, hcall⟩, hgrow.symm⟩

/-- The child has the root, the limit and the namespace, and cannot change them. -/
theorem attributes_inherited_fork : ∃ fs ip id t np, np ≠ 0 ∧
    FamilyStep smallLayout (lone.enclosed fs ip id, {0}) ⟨0, .call .fork, some 3⟩ (t, {np, 0}) ∧
    (t.kernel.procs np).newrootInode = some ip ∧ (t.kernel.procs np).maxproc = 5 ∧
    (t.kernel.procs np).nameSpace = id ∧
    cmCall smallLayout t np .createAndEnter = .ok (some (-1), t) := by
  obtain ⟨fs, ip, id, es, hrun⟩ := lone_encloses
  obtain ⟨t, np, hne, hfork⟩ := enclosed_fork fs ip id
  obtain ⟨hmax, hroot, hspace⟩ := attributes_inherited (q := np) lone_started hrun (Proc.CanRun.used (.inr rfl))
    (.single hfork) (Finset.mem_insert_self np {0})
  obtain ⟨ip', hip', hnp, -⟩ := (hroot rfl).2.1
  cases hip'
  exact ⟨fs, ip, id, t, np, hne, hfork, hnp, (hmax rfl).2.1, (hspace rfl).2.1, (hspace rfl).2.2⟩

end Xv6.Kernel
