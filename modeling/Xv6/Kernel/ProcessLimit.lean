import Mathlib.Data.Finset.Card
import Xv6.Kernel.Image
import Xv6.Kernel.Progress

/-! # The process limit of a container

`cm_maxproc` records a limit and `fork` copies it to the child, but nothing compares it with
a number of processes. The tree of a process is followed along a run beside the state: a
member stays in it until its slot is free again, and what a member forks joins it. The tree
stays within the limit exactly when every fork of a member comes while it is below the limit.
-/

namespace Xv6.Kernel

open Lib Vm

variable {k k' : State} {a p : Slot} {L : Layout}

def used (k : State) : Finset Slot := Finset.univ.filter fun q => (k.procs q).state ≠ .unused

theorem mem_used {q : Slot} : q ∈ used k ↔ (k.procs q).state ≠ .unused := by
  simp [used]

theorem used_congr (h : ∀ q, (k'.procs q).state = .unused ↔ (k.procs q).state = .unused) :
    used k' = used k := by
  ext q
  rw [mem_used, mem_used, Ne, Ne, h q]

/-! ## The slots that a call takes and frees -/

theorem SameSpaces.used_eq (h : SameSpaces k k') : used k' = used k :=
  used_congr fun q => (h.procs q).unused

/-- There is a slot for a child of `a`, a page for its stack, and pages for the copy. -/
def Forks (k : State) (a : Slot) : Prop :=
  (∃ np, (k.procs np).state = .unused) ∧ ∃ d, (k.procs a).pgdir = some d ∧
    1 + kernelPages + copyNeeds d k.shared (sizeUp (k.procs a).sz / pgSize) ≤ k.mem.free.length

/-- A `fork` that returns has made a process exactly when there was room for one. -/
theorem fork_used {r : Int} (hrun : (k.procs a).CanRun) (h : fork L k a = .ok (r, k')) :
    (¬ Forks k a ∧ r = -1 ∧ used k' = used k) ∨
      (Forks k a ∧ r = k.nextpid ∧ ∃ np, np ∉ used k ∧ used k' = insert np (used k) ∧ SameBut np k k') := by
  rcases fork_cases hrun h with ⟨hr, hsame, hshort⟩ | ⟨np, d, kstack, m, hunused, hd, hk, hbut, hcase⟩
  · refine .inl ⟨fun hforks => ?_, hr, hsame.spaces.used_eq⟩
    obtain ⟨⟨np, hnp⟩, d, -, hroom⟩ := hforks
    rcases hshort with hfull | hnone
    · exact hfull np hnp
    · rw [kalloc_none hnone, List.length_nil] at hroom
      omega
  have hothers : ∀ q, q ≠ np → (k'.procs q).state = (k.procs q).state := fun q hq => by
    rw [hbut q hq]
  have hforks : Forks k a ↔
      kernelPages + copyNeeds d k.shared (((k.procs a).sz + pgSize - 1) / pgSize) ≤ m.free.length := by
    unfold Forks
    rw [hd, (kalloc_some hk).1, List.length_cons, sizeUp_div, and_iff_right ⟨np, hunused⟩]
    simp only [Option.some.injEq, exists_eq_left']
    omega
  rcases hcase with ⟨_, hr, hcopy, -, hstate, -⟩ | ⟨d', x, hr, hcopy, hmoved, -⟩
  · refine .inl ⟨fun hc => (copyuvm_enough hcopy).mpr (hforks.mp hc) rfl, hr, used_congr fun q => ?_⟩
    by_cases hq : q = np
    · rw [hq]
      exact ⟨fun _ => hunused, fun _ => hstate⟩
    · rw [hothers q hq]
  refine .inr ⟨hforks.mpr ((copyuvm_enough hcopy).mp (Option.some_ne_none d')), hr, np,
    fun hin => mem_used.mp hin hunused, ?_, hbut⟩
  ext q
  rw [Finset.mem_insert, mem_used, mem_used]
  by_cases hq : q = np
  · rw [hq]
    exact ⟨fun _ => .inl rfl, fun _ hc => by cases hmoved.unused.mp hc⟩
  · rw [hothers q hq]
    exact ⟨.inr, fun h => h.resolve_left hq⟩

theorem wait_used {r : Option Int} (hrun : (k.procs a).CanRun) (h : wait L k a = .ok (r, k')) :
    used k' ⊆ used k := by
  rcases wait_ok hrun h with hsame | ⟨p, -, -, -, -, -, -, -, -, -, -, -, hbut, hstate⟩
  · rw [hsame.spaces.used_eq]
  intro q hq
  rw [mem_used] at hq ⊢
  by_cases hqp : q = p
  · rw [hqp] at hq
    exact absurd hstate hq
  · rw [hbut q hqp] at hq
    exact hq

theorem call_used {c : Call} (hrun : (k.procs a).CanRun) (h : Did L k a k' c) : (used k' ⊆ used k ∧ (c = .fork → ¬ Forks k a)) ∨
      (c = .fork ∧ Forks k a ∧ ∃ np, np ∉ used k ∧ used k' = insert np (used k)) := by
  have hstates : (∀ q, (k'.procs q).state = (k.procs q).state) → used k' ⊆ used k := fun hq =>
    (used_congr fun q => by rw [hq q]).subset
  cases h with
  | shmGet hget => exact .inl ⟨hstates (shmGet_at hget).state, fun hc => by cases hc⟩
  | shmRem hrem => exact .inl ⟨hstates (shmRem_at hrem).state, fun hc => by cases hc⟩
  | growproc hgrow => exact .inl ⟨hstates (growproc_at hgrow).state, fun hc => by cases hc⟩
  | fork hfork =>
    rcases fork_used hrun hfork with ⟨hno, -, hsame⟩ | ⟨hforks, -, np, hnp, hnew, -⟩
    · exact .inl ⟨hsame.subset, fun _ => hno⟩
    · exact .inr ⟨rfl, hforks, np, hnp, hnew⟩
  | exec hexec =>
    have hends := (exec_gives ..).value hexec
    refine .inl ⟨hstates fun q => ?_, fun hc => by cases hc⟩
    by_cases hq : q = a
    · obtain ⟨old, -, ⟨-, hproc, -⟩ | ⟨_, _, _, _, _, -, -, -, hproc⟩⟩ := hends.image <;> rw [hq, hproc]
    · rw [hends.others q hq]
  | exit hexit =>
    obtain ⟨k1, hshm, hsame⟩ := exit_ok hrun hexit
    have heq : used k1 = used k := used_congr fun q => by rw [(exitShm_at hshm).state q]
    exact .inl ⟨(hsame.used_eq.trans heq).subset, fun hc => by cases hc⟩
  | wait hwait => exact .inl ⟨wait_used hrun hwait, fun hc => by cases hc⟩
  | maxproc hmax => exact .inl ⟨(doMaxproc_spaces hmax).used_eq.subset, fun hc => by cases hc⟩

/-! ## The tree of a process -/

def family (k : State) (p : Slot) : Finset Slot :=
  (used k).filter fun q => q = p ∨ (k.procs q).parent = some p

/-- The tree after a call by `a`: the members still in use, and what a member has made. -/
def grow (tree : Finset Slot) (k : State) (a : Slot) (k' : State) : Finset Slot :=
  (used k').filter fun q => q ∈ tree ∨ (a ∈ tree ∧ q ∉ used k)

/-- A call of a run during which `p` stays alive, with the tree of `p` beside the state. -/
def TreeStep (L : Layout) (p : Slot) (s : State × Finset Slot) (e : Event) (t : State × Finset Slot) :
    Prop :=
  Step L s.1 e t.1 ∧ t.2 = grow s.2 s.1 e.slot t.1 ∧ (t.1.procs p).Alive

/-- A fork of a member that makes a process comes while the tree is below the limit. -/
def ForksBelow (n : Int) (s : State × Finset Slot) (e : Event) : Prop :=
  e.call = .fork → e.slot ∈ s.2 → Forks s.1 e.slot → (s.2.card : Int) < n

theorem grow_subset {tree : Finset Slot} (h : a ∉ tree ∨ used k' ⊆ used k) : grow tree k a k' ⊆ tree := by
  intro q hq
  obtain ⟨hused, hcase⟩ := Finset.mem_filter.mp hq
  rcases hcase with hin | ⟨ha, hnew⟩
  · exact hin
  · rcases h with hout | hsub
    · exact absurd ha hout
    · exact absurd (hsub hused) hnew

theorem grow_insert {tree : Finset Slot} {np : Slot} (htree : tree ⊆ used k) (ha : a ∈ tree)
    (hnp : np ∉ used k) (hnew : used k' = insert np (used k)) : grow tree k a k' = insert np tree := by
  ext q
  simp only [grow, Finset.mem_filter, hnew, Finset.mem_insert]
  constructor
  · rintro ⟨rfl | hq, hcase⟩
    · exact .inl rfl
    · exact .inr (hcase.resolve_right fun hc => hc.2 hq)
  · rintro (rfl | hq)
    · exact ⟨.inl rfl, .inr ⟨ha, hnp⟩⟩
    · exact ⟨.inr (htree hq), .inl hq⟩

theorem fork_joins {r : Int} (hrun : (k.procs a).CanRun) (h : fork L k a = .ok (r, k')) (hr : r ≠ -1) :
    ∃ np, np ≠ a ∧ SameBut np k k' ∧ grow {a} k a k' = {np, a} := by
  rcases fork_used hrun h with ⟨-, hfail, -⟩ | ⟨-, -, np, hnp, hnew, hbut⟩
  · exact absurd hfail hr
  · have hmember : a ∈ used k := mem_used.mpr hrun.used
    refine ⟨np, fun hc => hnp (hc ▸ hmember), hbut, ?_⟩
    exact grow_insert (Finset.singleton_subset_iff.mpr hmember) (Finset.mem_singleton_self a) hnp hnew

/-- The tree within the limit, and its members in use. -/
structure Within (n : Int) (s : State × Finset Slot) : Prop where
  used : s.2 ⊆ used s.1
  card : (s.2.card : Int) ≤ n

/-- A call leaves the tree within the limit exactly when it meets the condition. -/
theorem treeStep_within {n : Int} {s t : State × Finset Slot} {e : Event} (h : Within n s)
    (hstep : TreeStep L p s e t) :
    ((t.2.card : Int) ≤ n ↔ ForksBelow n s e) ∧ (ForksBelow n s e → Within n t) := by
  obtain ⟨⟨hrun, hcall⟩, htree, _⟩ := hstep
  have hsub : t.2 ⊆ used t.1 := by
    rw [htree]
    exact Finset.filter_subset ..
  have hiff : (t.2.card : Int) ≤ n ↔ ForksBelow n s e := by
    rcases call_used hrun (call_did hcall) with ⟨hfewer, hno⟩ | ⟨hc, hforks, np, hnp, hnew⟩
    · have hle : t.2.card ≤ s.2.card := by
        rw [htree]
        exact Finset.card_le_card (grow_subset (.inr hfewer))
      have hcard := h.card
      exact ⟨fun _ hc _ hforks => absurd hforks (hno hc), fun _ => by omega⟩
    · by_cases ha : e.slot ∈ s.2
      · have hgrow : t.2 = insert np s.2 := by
          rw [htree]
          exact grow_insert h.used ha hnp hnew
        have hcard : t.2.card = s.2.card + 1 := by
          rw [hgrow]
          exact Finset.card_insert_of_notMem fun hin => hnp (h.used hin)
        refine ⟨fun hle _ _ _ => by omega, fun hbelow => ?_⟩
        have := hbelow hc ha hforks
        omega
      · have hle : t.2.card ≤ s.2.card := by
          rw [htree]
          exact Finset.card_le_card (grow_subset (.inl ha))
        have hcard := h.card
        exact ⟨fun _ _ hin => absurd hin ha, fun _ => by omega⟩
  exact ⟨hiff, fun hbelow => ⟨hsub, hiff.mpr hbelow⟩⟩

theorem family_eq (hp : p ∈ used k) (h : ∀ q ∈ used k, (k.procs q).parent ≠ some p) : family k p = {p} := by
  ext q
  simp only [family, Finset.mem_filter, Finset.mem_singleton]
  constructor
  · rintro ⟨hq, rfl | hparent⟩
    · rfl
    · exact absurd hparent (h q hq)
  · rintro rfl
    exact ⟨hp, .inl rfl⟩

theorem doMaxproc_family {n : Int} (hrun : (k.procs p).CanRun)
    (hkids : ∀ q ∈ used k, (k.procs q).parent ≠ some p) (h : doMaxproc k p n = .ok (0, k')) :
    family k' p = {p} ∧ p ∈ used k' := by
  have hused := (doMaxproc_spaces h).used_eq
  have hp : p ∈ used k' := by
    rw [hused]
    exact mem_used.mpr hrun.used
  refine ⟨family_eq hp fun q hq => ?_, hp⟩
  rcases doMaxproc_ok h with ⟨hr, -⟩ | ⟨-, rfl⟩
  · cases hr
  rw [hused] at hq
  by_cases hqp : q = p
  · rw [hqp, update_self]
    rw [hqp] at hq
    exact hkids p hq
  · rw [update_of_ne k _ hqp]
    exact hkids q hq

/-- From a successful `cm_maxproc(n)` of a process without children, and as long as it lives,
its tree has at most `n` processes in every state of a run exactly when every fork of a member
that makes a process finds fewer than `n`. -/
theorem process_limit_iff {L : Layout} {k0 k1 : State} {p : Slot} {n : Int}
    (hrun : (k0.procs p).CanRun) (hkids : ∀ q ∈ used k0, (k0.procs q).parent ≠ some p) (hn : 1 ≤ n)
    (hmax : doMaxproc k0 p n = .ok (0, k1)) :
    ((family k1 p).card : Int) ≤ n ∧ ∀ es t,
      (Run (fun s e t => TreeStep L p s e t ∧ (t.2.card : Int) ≤ n) (k1, family k1 p) es t ↔
        Run (Guarded (TreeStep L p) (ForksBelow n)) (k1, family k1 p) es t) ∧
      (Run (Guarded (TreeStep L p) (ForksBelow n)) (k1, family k1 p) es t →
        (t.2.card : Int) ≤ n) := by
  obtain ⟨hfamily, hp⟩ := doMaxproc_family hrun hkids hmax
  have hstart : Within n (k1, family k1 p) := by
    rw [hfamily]
    exact ⟨Finset.singleton_subset_iff.mpr hp, by rw [Finset.card_singleton]; exact hn⟩
  have hkeeps : ∀ s e t, Within n s → ForksBelow n s e → TreeStep L p s e t → Within n t :=
    fun s e t h hbelow hstep => (treeStep_within h hstep).2 hbelow
  have hexact : ∀ s e t, Within n s → TreeStep L p s e t →
      ((t.2.card : Int) ≤ n ↔ ForksBelow n s e) := fun s e t h hstep => (treeStep_within h hstep).1
  refine ⟨hstart.card, fun es t => ⟨?_, fun hrun => ?_⟩⟩
  · exact Run.guarded_iff (Within n) hexact hkeeps hstart
  · exact (hrun.invariant_of_guarded hkeeps hstart).card

/-! ## A fork beyond the limit -/

/-- The child of the small machine calls `cm_maxproc(n)`. -/
def limited (n : Int) : State :=
  smallMachine.update 1 fun p => { p with maxproc := n, maxprocset := 1 }

theorem limited_maxproc (n : Int) : doMaxproc smallMachine 1 n = .ok (0, limited n) := rfl

theorem limited_family (n : Int) : family (limited n) 1 = {1} :=
  (doMaxproc_family (by decide) (by decide +kernel) (limited_maxproc n)).1

theorem limited_fork (n : Int) : ∃ k, fork smallLayout (limited n) 1 = .ok (3, k) ∧
    TreeStep smallLayout 1 (limited n, {1}) ⟨1, .fork, some 3⟩ (k, grow {1} (limited n) 1 k) ∧
    (grow {1} (limited n) 1 k).card = 2 := by
  have hrun : ((limited n).procs 1).CanRun := .inr rfl
  obtain ⟨k, hfork⟩ : ∃ k, fork smallLayout (limited n) 1 = .ok (3, k) :=
    childDir_fork hrun ⟨2, rfl⟩ rfl rfl rfl
  obtain ⟨np, hne, hbut, hgrow⟩ := fork_joins hrun hfork (by decide : (3 : Int) ≠ -1)
  have hcall : call smallLayout (limited n) 1 .fork = .ok (some 3, k) := by
    unfold call
    rw [hfork]
    rfl
  have halive : (k.procs 1).Alive := by
    rw [hbut 1 hne.symm]
    exact ⟨nofun, fun hc => by cases hc⟩
  refine ⟨k, hfork, ⟨⟨hrun, hcall⟩, rfl, halive⟩, ?_⟩
  rw [hgrow, Finset.card_insert_of_notMem (by rw [Finset.mem_singleton]; exact hne),
    Finset.card_singleton]

/-- A limit of two allows one fork. -/
theorem process_limit_two : ∃ k, fork smallLayout (limited 2) 1 = .ok (3, k) ∧
    ((grow {1} (limited 2) 1 k).card : Int) ≤ 2 := by
  obtain ⟨k, hfork, hstep, _⟩ := limited_fork 2
  have hlimit := (process_limit_iff (L := smallLayout) (.inr rfl) (by decide +kernel) (by decide)
    (limited_maxproc 2)).2 [⟨1, .fork, some 3⟩] (k, grow {1} (limited 2) 1 k)
  rw [limited_family] at hlimit
  have hrun : Run (Guarded (TreeStep smallLayout 1) (ForksBelow 2)) (limited 2, {1})
      [⟨1, .fork, some 3⟩] (k, grow {1} (limited 2) 1 k) :=
    .single ⟨fun _ _ _ => by rw [Finset.card_singleton]; decide, hstep⟩
  exact ⟨k, hfork, hlimit.2 hrun⟩

/-- Under a limit of one a fork succeeds, and the tree has two processes. -/
theorem fork_exceeds_limit : ∃ k, doMaxproc smallMachine 1 1 = .ok (0, limited 1) ∧
    family (limited 1) 1 = {1} ∧ fork smallLayout (limited 1) 1 = .ok (3, k) ∧
    TreeStep smallLayout 1 (limited 1, {1}) ⟨1, .fork, some 3⟩ (k, grow {1} (limited 1) 1 k) ∧
    (grow {1} (limited 1) 1 k).card = 2 := by
  obtain ⟨k, hfork, hstep, hcard⟩ := limited_fork 1
  exact ⟨k, limited_maxproc 1, limited_family 1, hfork, hstep, hcard⟩

end Xv6.Kernel
