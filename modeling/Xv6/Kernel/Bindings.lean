import Xv6.Kernel.Image

/-! # What the calls do to container attributes and inode references

The attributes of a process and its working directory, and the inode cache. Address spaces,
queues and the rest are left out: a frame relation covers all that the calls do to them.
-/

namespace Xv6.Kernel

open Lib Vm

variable {p p' : Proc} {k k' : State} {a : Slot} {L : Layout} {r : Int} {d : PgDir} {name : CString}

/-- The fields that bind a process to a container and to inodes. -/
structure Bindings where
  maxproc : Int
  maxprocset : Int
  newrootInode : Option Fs.Slot
  inNewroot : Int
  inContainer : Int
  nameSpace : Int
  cwd : Option Fs.Slot

def Proc.bindings (p : Proc) : Bindings :=
  ⟨p.maxproc, p.maxprocset, p.newrootInode, p.inNewroot, p.inContainer, p.nameSpace, p.cwd⟩

/-! ## A frame -/

/-- Two processes in use with the same bindings, or two that are not in use. -/
structure SameBinding (p p' : Proc) : Prop where
  unused : p'.state = .unused ↔ p.state = .unused
  zombie : p'.state = .zombie ↔ p.state = .zombie
  bindings : p.state ≠ .unused → p'.bindings = p.bindings

theorem SameBinding.refl (p : Proc) : SameBinding p p := ⟨Iff.rfl, Iff.rfl, fun _ => rfl⟩

theorem SameBinding.trans {p'' : Proc} (h : SameBinding p p') (h' : SameBinding p' p'') :
    SameBinding p p'' := by
  refine ⟨h'.unused.trans h.unused, h'.zombie.trans h.zombie, fun hp => ?_⟩
  rw [h'.bindings fun hp' => hp (h.unused.mp hp'), h.bindings hp]

theorem SameBinding.of_state (hstate : p'.state = p.state) (hbindings : p'.bindings = p.bindings) :
    SameBinding p p' :=
  ⟨by rw [hstate], by rw [hstate], fun _ => hbindings⟩

structure SameBindings (k k' : State) : Prop where
  procs : ∀ q, SameBinding (k.procs q) (k'.procs q)
  fs : k'.fs = k.fs

theorem SameBindings.refl (k : State) : SameBindings k k := ⟨fun _ => SameBinding.refl _, rfl⟩

theorem SameBindings.update (k : State) {f : Proc → Proc} (h : SameBinding (k.procs a) (f (k.procs a))) :
    SameBindings k (k.update a f) where
  procs := by
    intro q
    by_cases hq : q = a
    · rw [hq, update_self]
      exact h
    · rw [update_of_ne k f hq]
      exact SameBinding.refl _
  fs := rfl

theorem Moved.binding (h : Moved p p') : SameBinding p p' :=
  ⟨h.unused, h.zombie, fun _ => h.keeps Proc.bindings fun _ => rfl⟩

theorem Shuffled.bindings (h : Shuffled k k') : SameBindings k k' :=
  ⟨fun q => (h.procs q).binding, h.fs⟩

theorem AtSpace.bindings (h : AtSpace a k k') : SameBindings k k' :=
  ⟨fun q => .of_state (h.state q) (h.keeps Proc.bindings (fun _ => rfl) q), h.fs⟩

theorem Untaken.bindings (h : Untaken k k') (q : Slot) : SameBinding (k.procs q) (k'.procs q) :=
  ⟨by rw [h.state], by rw [h.state], fun hq => by rw [h.used q hq]⟩

/-! ## `exec` -/

theorem exec_bindings {path buf : CString} {argv : List CString} (h : exec L k a path buf argv = .ok (r, k')) :
    (∀ q, SameBinding (k.procs q) (k'.procs q)) ∧ ∃ cwd, (k.procs a).cwd = some cwd ∧
      (Fs.CacheOk k.fs → 0 < (k.fs.icache cwd).ref → Fs.Returned k.fs k'.fs) := by
  have hends := (exec_gives L k a path buf argv).value h
  refine ⟨fun q => ?_, hends.returned⟩
  by_cases hq : q = a
  · obtain ⟨old, -, ⟨-, hproc, -⟩ | ⟨_, _, _, _, _, -, -, -, hproc⟩⟩ := hends.image
    all_goals
      rw [hq, hproc]
      exact .of_state rfl rfl
  · rw [hends.others q hq]
    exact SameBinding.refl _

/-! ## `fork` -/

def Bindings.forChild (b : Bindings) : Bindings :=
  { b with newrootInode := if b.inNewroot ≠ 0 then b.newrootInode else none }

theorem fork_bindings (hrun : (k.procs a).CanRun) (h : fork L k a = .ok (r, k')) :
    ((∀ q, SameBinding (k.procs q) (k'.procs q)) ∧
        (k'.fs = k.fs ∨ k'.fs = idup? k.fs (k.procs a).bindings.forChild.newrootInode)) ∨
      ∃ np, (k.procs np).state = .unused ∧ SameBut np k k' ∧ (k'.procs np).Alive ∧
        (k'.procs np).bindings = (k.procs a).bindings.forChild ∧
        k'.fs = idup? (idup? k.fs (k.procs a).bindings.forChild.newrootInode) (k.procs a).cwd := by
  rcases fork_cases hrun h with ⟨-, hsame, -⟩ | ⟨np, d, kstack, m, hunused, -, -, hbut, hcase⟩
  · exact .inl ⟨hsame.bindings, .inl hsame.fs⟩
  rcases hcase with ⟨_, -, -, -, hstate, hfs'⟩ | ⟨d', x, -, -, hmoved, -, hfs'⟩
  · refine .inl ⟨fun q => ?_, .inr hfs'⟩
    by_cases hq : q = np
    · rw [hq]
      exact ⟨by rw [hunused, hstate], by rw [hunused, hstate], fun hused => absurd hunused hused⟩
    · rw [hbut q hq]
      exact SameBinding.refl _
  · have hbinding := hmoved.binding
    refine .inr ⟨np, hunused, hbut, ⟨fun hc => ?_, fun hc => ?_⟩, hbinding.bindings nofun, hfs'⟩
    · exact nomatch hbinding.unused.mp hc
    · exact nomatch hbinding.zombie.mp hc

/-! ## `exit` and `wait` -/

theorem exit_bindings (hrun : (k.procs a).CanRun) (h : exit L k a = .ok k') :
    ∃ cwd, (k.procs a).cwd = some cwd ∧ k'.fs = Fs.iput k.fs cwd ∧
      (∀ q, q ≠ a → SameBinding (k.procs q) (k'.procs q)) ∧ (k'.procs a).state = .zombie ∧
      (k'.procs a).bindings = { (k.procs a).bindings with cwd := none } := by
  obtain ⟨k1, k2, cwd, hshm, hcwd, hshuffled, hk'⟩ := exit_cases h
  have hfirst := (exitShm_at hshm).bindings
  have ha := (hfirst.procs a).bindings hrun.used
  have hlast := hshuffled.bindings
  have hused : (k1.procs a).state ≠ .unused := by
    rw [Ne, (hfirst.procs a).unused]
    exact hrun.used
  refine ⟨cwd, ?_, ?_, fun q hq => ?_, ?_, ?_⟩
  · rw [← hcwd]
    exact (congrArg Bindings.cwd ha).symm
  · rw [hk', ← hfirst.fs]
    exact hlast.fs
  · have hq' := hlast.procs q
    rw [update_of_ne _ _ hq] at hq'
    rw [hk', update_of_ne _ _ hq]
    exact (hfirst.procs q).trans hq'
  · rw [hk', update_self]
  · have ha' := (hlast.procs a).bindings (by dsimp only; rw [update_self]; exact hused)
    rw [update_self] at ha'
    rw [hk', update_self, ← ha]
    exact ha'

theorem wait_bindings {r : Option Int} (hrun : (k.procs a).CanRun) (h : wait L k a = .ok (r, k')) :
    k'.fs = k.fs ∧ ((∀ q, SameBinding (k.procs q) (k'.procs q)) ∨
      ∃ p, (k.procs p).state = .zombie ∧ (k'.procs p).state = .unused ∧ SameBut p k k') := by
  rcases wait_ok hrun h with hsame | ⟨p, _, _, _, hzombie, -, -, -, -, -, -, hfs, hbut, hgone⟩
  · exact ⟨hsame.fs, .inl hsame.bindings.procs⟩
  · exact ⟨hfs, .inr ⟨p, hzombie, hgone, hbut⟩⟩

end Xv6.Kernel
