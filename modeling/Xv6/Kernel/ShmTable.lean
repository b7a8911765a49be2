import Xv6.Kernel.MutexFrame

/-! # The table of shared regions

Whatever sequence of `shm_get`, `shm_rem`, `fork` and `exit` the processes call, the blocks in use
have different names and a page each, and the others have none. The table alone does not carry
this through `fork`, which recognises the shared pages of a copy by their addresses: no page of
the free list and none that a process maps is page `0`, the page of a block that is not in use.
-/

namespace Xv6.Kernel

open Lib Vm

variable {s : SharedMemory} {name : CString} {j : Fin shmMaxNum} {r : Int} {pa : Nat} {d pgdir : PgDir}
  {m m' : Mem}

/-! ## Names -/

theorem findShm_some {i : Fin shmMaxNum} (h : findShm s name = some i) :
    s.Live i ∧ strncmp name (s.mems i).name shmNameLen = 0 := by
  have hi := List.find?_some h
  simpa [SharedMemory.Live] using hi

theorem findShm_none (h : findShm s name = none) (i : Fin shmMaxNum) (hi : s.Live i) :
    strncmp name (s.mems i).name shmNameLen ≠ 0 := by
  have hno := find?_finRange_eq_none.mp h i
  unfold SharedMemory.Live at hi
  simpa [hi] using hno

/-! ## The table -/

/-- Blocks in use have different names, and exactly they have a page. -/
structure SharedMemory.Consistent (s : SharedMemory) : Prop where
  names : ∀ i j, s.Live i → s.Live j → i ≠ j →
    strncmp (s.mems i).name (s.mems j).name shmNameLen ≠ 0
  nonneg : ∀ i, 0 ≤ (s.mems i).ref
  page : ∀ i, (s.mems i).pa ≠ 0 ↔ s.Live i

section Table

variable {s s' : SharedMemory}

section

variable (h : s.Consistent)

include h

theorem SharedMemory.Consistent.congr (hmems : s'.mems = s.mems) : s'.Consistent := by
  constructor <;> simp only [live_congr hmems, hmems]
  · exact h.names
  · exact h.nonneg
  · exact h.page

/-- One block changes. If it is in use afterwards, no other block in use has its name. -/
theorem SharedMemory.Consistent.change {b : ShmBlock} (hmems : s'.mems = Function.update s.mems j b)
    (hnonneg : 0 ≤ b.ref) (hpage : b.pa ≠ 0 ↔ 0 < b.ref)
    (hname : 0 < b.ref → ∀ i, i ≠ j → s.Live i → strncmp b.name (s.mems i).name shmNameLen ≠ 0) :
    s'.Consistent := by
  have hself : s'.mems j = b := by rw [hmems, Function.update_self]
  have hother : ∀ i, i ≠ j → s'.mems i = s.mems i := fun i hi => by
    rw [hmems, Function.update_of_ne hi]
  have hlive : ∀ i, i ≠ j → s'.Live i → s.Live i := fun i hi hl => by
    unfold SharedMemory.Live at *
    rwa [hother i hi] at hl
  have hlivej : s'.Live j → 0 < b.ref := fun hl => by
    unfold SharedMemory.Live at hl
    rwa [hself] at hl
  constructor
  case names =>
    intro i i' hi hi' hne
    by_cases hij : i = j
    · subst hij
      rw [hself, hother i' (Ne.symm hne)]
      exact hname (hlivej hi) i' (Ne.symm hne) (hlive i' (Ne.symm hne) hi')
    by_cases hij' : i' = j
    · subst hij'
      rw [hself, hother i hij, Ne, strncmp_comm]
      exact hname (hlivej hi') i hij (hlive i hij hi)
    · rw [hother i hij, hother i' hij']
      exact h.names i i' (hlive i hij hi) (hlive i' hij' hi') hne
  case nonneg =>
    intro i
    by_cases hij : i = j
    · rw [hij, hself]
      exact hnonneg
    · rw [hother i hij]
      exact h.nonneg i
  case page =>
    intro i
    unfold SharedMemory.Live
    by_cases hij : i = j
    · rw [hij, hself]
      exact hpage
    · rw [hother i hij]
      exact h.page i

theorem SharedMemory.Consistent.count (hj : s.Live j) {n : Int} (hn : 0 < n)
    (hmems : s'.mems = Function.update s.mems j { s.mems j with ref := n }) : s'.Consistent := by
  refine h.change hmems (Int.le_of_lt hn) ?_ fun _ i hi hl => h.names j i hj hl (Ne.symm hi)
  exact ((h.page j).trans (iff_of_true hj hn))

theorem SharedMemory.Consistent.clear {b : ShmBlock} (href : b.ref = 0) (hpa : b.pa = 0)
    (hmems : s'.mems = Function.update s.mems j b) : s'.Consistent := by
  refine h.change hmems (Int.le_of_eq href.symm) ?_ fun hpos => ?_
  · exact iff_of_false (fun hne => hne hpa) (by omega)
  · omega

theorem SharedMemory.Consistent.enter (hnew : findShm s name = none) (hpa : pa ≠ 0) {idx : Int}
    (hmems : s'.mems = Function.update s.mems j ⟨name.take shmNameLen, pa, 1, idx⟩) :
    s'.Consistent := by
  refine h.change hmems Int.one_nonneg (iff_of_true hpa Int.one_pos) fun _ i _ hi => ?_
  rw [Ne, strncmp_take]
  exact findShm_none hnew i hi

theorem SharedMemory.Consistent.attach_found (hpa : (shmAttach s name).1 ≠ 0) :
    (shmAttach s name).2.Consistent := by
  obtain ⟨i, hfind, -, htable⟩ := shmAttach_found hpa
  have hi := (findShm_some hfind).1
  rw [htable]
  refine h.count hi (n := (s.mems i).ref + 1) ?_ rfl
  unfold SharedMemory.Live at hi
  omega

theorem SharedMemory.Consistent.attach_none (hpa : (shmAttach s name).1 = 0) :
    findShm s name = none ∧ (shmAttach s name).2 = s := shmAttach_zero (fun i => (h.page i).mpr) hpa

end

end Table

/-! ## Page tables -/

/-- The user pages of a directory are not page `0`, and the kernel's memory is mapped. -/
structure Grounded (d : PgDir) : Prop where
  user : ∀ b, b < kernBase → (d.entry b).present = true → (d.entry b).addr ≠ 0
  kernel : (d.entry kernBase).present = true

theorem Grounded.maps {d' : PgDir} {a : Nat} {perm : Perm} (h : Grounded d) (hpa : pa ≠ 0)
    (hmap : MapsPage d m a ⟨pa, true, perm⟩ d' m') : Grounded d' := by
  refine ⟨fun b hb hpresent => ?_, hmap.present h.kernel⟩
  rw [hmap.entry_eq] at hpresent ⊢
  split
  · exact hpa
  · rename_i hother
    rw [if_neg hother] at hpresent
    exact h.user b hb hpresent

theorem Grounded.clear (h : Grounded d) {va : Nat} (hva : ¬ SamePage kernBase va) :
    Grounded (d.set va .zero) := by
  refine ⟨fun b hb hpresent => ?_, ?_⟩
  · rw [entry_set_zero] at hpresent ⊢
    split at hpresent
    · cases hpresent
    · rename_i hother
      rw [if_neg hother]
      exact h.user b hb hpresent
  · rw [entry_set_zero, if_neg hva]
    exact h.kernel

/-- A round of `copyuvm`. At `KERNBASE` it meets the kernel's memory in the copy and does not
come back. -/
theorem copyRound_consistent {d' : PgDir} {v : Nat} {s' : SharedMemory} (hparent : Grounded pgdir)
    (hle : v * pgSize ≤ kernBase) (hd : Grounded d) (hs : s.Consistent) (hm : 0 ∉ m.free)
    (h : CopyRound pgdir (v * pgSize) d s m d' s' m') :
    (v + 1) * pgSize ≤ kernBase ∧ Grounded d' ∧ s'.Consistent ∧ 0 ∉ m'.free := by
  have hnext : v * pgSize ≠ kernBase → v * pgSize < kernBase ∧ (v + 1) * pgSize ≤ kernBase := by
    simp only [pgSize, kernBase] at *
    omega
  -- where the copy has a page already, it gets no other
  have hlow : ∀ {pa : Nat} {perm : Perm} {m0 m1 : Mem} {d1 : PgDir},
      mappage d (v * pgSize) pa perm m0 = .ok (true, d1, m1) → v * pgSize ≠ kernBase := by
    intro pa perm m0 m1 d1 hmap heq
    rw [heq, mappage_remap hd.kernel] at hmap
    cases hmap
  cases h with
  | hole habsent =>
    refine ⟨(hnext fun heq => ?_).2, hd, hs, hm⟩
    rw [heq, hparent.kernel] at habsent
    cases habsent
  | shared hpresent hshm hmap =>
    obtain ⟨hlt, hnext⟩ := hnext (hlow hmap)
    have hpa := hparent.user _ hlt hpresent
    have hmaps := mappage_maps hmap
    have hidx := isShm_eq hpa hshm
    have hlive : s.Live (shmIndex s (pgdir.entry (v * pgSize)).addr) := (hs.page _).mp (by rw [hidx]; exact hpa)
    refine ⟨hnext, hd.maps hpa hmaps, hs.count hlive (n := (s.mems (shmIndex s _)).ref + 1) ?_ rfl,
      fun h0 => hm (hmaps.subset 0 h0)⟩
    unfold SharedMemory.Live at hlive
    omega
  | copied hpresent hshm hk hmap =>
    have hmaps := mappage_maps hmap
    rw [(kalloc_some hk).1, List.mem_cons, not_or] at hm
    exact ⟨(hnext (hlow hmap)).2, hd.maps (Ne.symm hm.1) hmaps, hs, fun h0 => hm.2 (hmaps.subset 0 h0)⟩

theorem copyFails_nonzero {i : Nat} {m1 : Mem} (h : CopyFails pgdir i d s m m1) (hm : 0 ∉ m.free) :
    0 ∉ m1.free := by
  cases h with
  | shared => exact hm
  | page => exact hm
  | table hpresent hshm hk =>
    rw [(kalloc_some hk).1, List.mem_cons, not_or] at hm
    exact hm.2

theorem copyuvm_consistent {L : Layout} {sz : Nat} {s' : SharedMemory} {r : Option PgDir}
    (hparent : Grounded pgdir) (hs : s.Consistent) (hm : 0 ∉ m.free)
    (h : copyuvm L pgdir sz s m = .ok (r, s', m')) :
    s'.Consistent ∧ 0 ∉ m'.free ∧ ∀ d', r = some d' → Grounded d' := by
  rcases copyuvm_eq_ok h with ⟨rfl, rfl, hsetup⟩ | ⟨d, m1, hsetup, hrest⟩
  · exact ⟨hs, ((setupkvm_ok hsetup).2 rfl).2.1 hm, nofun⟩
  obtain ⟨hempty, -, hsubset, -⟩ := (setupkvm_ok hsetup).1 d rfl
  have hd : Grounded d := by
    refine ⟨fun b hb hpresent => ?_, (setupkvm_some hsetup).2.2⟩
    rw [hempty b hb] at hpresent
    cases hpresent
  rcases copyuvmLoop_rule (P := fun v d s m => v * pgSize ≤ kernBase ∧ Grounded d ∧ s.Consistent ∧ 0 ∉ m.free)
      (fun v _ _ _ _ _ _ _ hv => copyRound_consistent hparent hv.1 hv.2.1 hv.2.2.1 hv.2.2.2)
      (Nat.zero_add _) ⟨by rw [Nat.zero_mul]; exact Nat.zero_le _, hd, hs, fun h0 => hm (hsubset 0 h0)⟩ hrest with
    ⟨d', rfl, -, hd', hs', hm'⟩ | ⟨rfl, v, d1, m2, m3, -, ⟨-, -, hs', hm2⟩, hfails, hfree⟩
  · refine ⟨hs', hm', fun d2 hd2 => ?_⟩
    cases hd2
    exact hd'
  · exact ⟨hs', (freevm_ok hfree).2 (copyFails_nonzero hfails hm2), fun _ hr => by cases hr⟩

/-! ## The calls -/

/-- The pages of a process in use are in order, and so are the addresses of its mappings: a size
that has run below zero can be recorded, but no address near `KERNBASE`. -/
def Proc.Settled (p : Proc) : Prop :=
  p.state ≠ .unused → (∀ d, p.pgdir = some d → Grounded d) ∧
    ∀ i, ((p.shm i).va + pgSize) % uintMod < kernBase

structure Settled (k : State) : Prop where
  table : k.shared.Consistent
  free : 0 ∉ k.mem.free
  procs : ∀ q, (k.procs q).Settled

section Calls

variable {L : Layout} {k k' : State} {a : Slot}

theorem settled_change (h : ∀ q, (k.procs q).Settled) (hbut : SameBut a k k')
    (ha : (k'.procs a).Settled) (q : Slot) : (k'.procs q).Settled := by
  by_cases hq : q = a
  · rw [hq]
    exact ha
  · rw [hbut q hq]
    exact h q

theorem SameSpaces.settled (hsame : SameSpaces k k') (h : Settled k) : Settled k' := by
  refine ⟨h.table.congr (by rw [hsame.shared]), by rw [hsame.mem]; exact h.free, fun q hused => ?_⟩
  have hspace := hsame.procs q
  have hused' : (k.procs q).state ≠ .unused := fun hc => hused (hspace.unused.mpr hc)
  rw [hspace.pgdir hused', hspace.shm hused']
  exact h.procs q hused'

theorem not_samePage_kernBase {va : Nat} (h : (va + pgSize) % uintMod < kernBase) :
    ¬ SamePage kernBase va := by
  simp only [SamePage, pdx, ptx, pgSize, kernBase, uintMod, Nat.reducePow] at *
  omega

theorem shmMap_settled (h : Settled k) (hused : (k.procs a).state ≠ .unused)
    (hd : (k.procs a).pgdir = some d) (hlt : ((k.procs a).sz + pgSize) % uintMod < kernBase) (hpa : pa ≠ 0)
    (hmap : shmMap L k a d name pa = .ok (r, k')) : Settled k' := by
  obtain ⟨hgrounded, hrecorded⟩ := h.procs a hused
  obtain ⟨hbut, ⟨hshared, -⟩, ok, d', m, hpages, hcase⟩ := shmMap_ok hmap
  rw [mappages_one (pgRoundUp_dvd _)] at hpages
  rcases hcase with ⟨rfl, hmem, hproc⟩ | ⟨rfl, -, hfree, hproc⟩
  · have hmaps := mappage_maps hpages
    have hd' : Grounded d' := (hgrounded d hd).maps hpa hmaps
    refine ⟨h.table.congr (by rw [hshared]), ?_, settled_change h.procs hbut fun _ => ?_⟩
    · rw [hmem]
      exact fun h0 => h.free (hmaps.subset 0 h0)
    rcases hproc with ⟨-, -, hproc⟩ | ⟨-, -, hproc⟩
    · rw [hproc]
      exact ⟨fun _ heq => Option.some.inj heq ▸ hd', recordMapping_all (P := fun x => (x.va + pgSize) % uintMod < kernBase) hrecorded hlt⟩
    · rw [hproc]
      exact ⟨fun _ heq => Option.some.inj heq ▸ hd', hrecorded⟩
  · obtain ⟨rfl, rfl, -, -⟩ := mappage_false hpages
    obtain ⟨hne, hcons, -⟩ := kfree_ok hfree
    refine ⟨h.table.congr (by rw [hshared]), ?_, settled_change h.procs hbut fun _ => ?_⟩
    · rw [hcons, List.mem_cons, not_or]
      exact ⟨hne.symm, h.free⟩
    · rw [hproc]
      exact ⟨fun _ heq => Option.some.inj heq ▸ hgrounded _ hd, hrecorded⟩

theorem shmCreate_settled {x : Option Nat} (h : Settled k) (hnew : findShm k.shared name = none)
    (hcreate : shmCreate k a d name = .ok (x, k')) : Settled k' ∧ x ≠ some 0 := by
  obtain ⟨hprocs, -, hcase⟩ := shmCreate_ok hcreate
  rcases hcase with ⟨rfl, rfl, -⟩ | ⟨pa, m, -, hpage, hmem, hcase⟩
  · exact ⟨h, nofun⟩
  have hfree : 0 ∉ k'.mem.free := by
    rw [hmem]
    rcases shmPage_ok hpage with hcons | ⟨-, hempty⟩
    · exact fun h0 => h.free (by rw [hcons]; exact List.mem_cons_of_mem _ h0)
    · rw [hempty]
      exact List.not_mem_nil
  have hspaces : ∀ q, (k'.procs q).Settled := by
    rw [hprocs]
    exact h.procs
  rcases hcase with ⟨-, rfl, hshared, -⟩ | ⟨hpa, rfl, -, s, hrec, hshared⟩
  · exact ⟨⟨h.table.congr (by rw [hshared]), hfree, hspaces⟩, nofun⟩
  refine ⟨⟨?_, hfree, hspaces⟩, fun heq => hpa (Option.some.inj heq)⟩
  rcases hrec with ⟨-, rfl, -⟩ | ⟨i, -, rfl, -⟩
  · exact h.table.congr (by rw [hshared])
  · exact h.table.enter hnew hpa (congrArg SharedMemory.mems hshared)

theorem shmGet_settled {name : Option CString} (h : Settled k) (hrun : (k.procs a).CanRun)
    (hget : shmGet L k a name = .ok (r, k')) : Settled k' := by
  cases name with
  | none =>
    cases hget
    exact h
  | some name =>
    rcases shmGet_ok hget with ⟨-, -, rfl⟩ | ⟨hlt, d, hd, ⟨hpa, hmap⟩ | ⟨hpa, x, k1, hcreate, hcase⟩⟩
    · exact h
    · have hk : Settled { k with shared := (shmAttach k.shared name).2 } :=
        ⟨h.table.attach_found hpa, h.free, h.procs⟩
      exact shmMap_settled hk hrun.used hd hlt hpa hmap
    obtain ⟨hnew, htable⟩ := h.table.attach_none hpa
    rw [htable] at hcreate
    obtain ⟨hk1, hne⟩ := shmCreate_settled h hnew hcreate
    have hprocs := (shmCreate_ok hcreate).1
    rcases hcase with ⟨-, -, rfl⟩ | ⟨pa, rfl, hmap⟩
    · exact hk1
    refine shmMap_settled hk1 ?_ ?_ ?_ (fun hz => hne (by rw [hz])) hmap
    · rw [hprocs]
      exact hrun.used
    · rw [hprocs]
      exact hd
    · rw [hprocs]
      exact hlt

theorem shmDetach_settled (h : Settled k) (hdetach : shmDetach L k name = .ok (r, k')) : Settled k' := by
  obtain ⟨hprocs, -, hcase⟩ := shmDetach_ok hdetach
  have hspaces : ∀ q, (k'.procs q).Settled := by
    rw [hprocs]
    exact h.procs
  rcases hcase with ⟨-, -, hmem, hshared⟩ | ⟨i, hfind, ⟨hmore, -, hmem, hmems⟩ | ⟨-, hfree, hmems⟩⟩
  · exact ⟨h.table.congr (by rw [hshared]), by rw [hmem]; exact h.free, hspaces⟩
  · have hi := (findShm_some hfind).1
    refine ⟨h.table.count hi (n := (k.shared.mems i).ref - 1) ?_ hmems, by rw [hmem]; exact h.free,
      hspaces⟩
    unfold SharedMemory.Live at hi
    omega
  · obtain ⟨hne, hcons, -⟩ := kfree_ok hfree
    refine ⟨h.table.clear rfl rfl hmems, ?_, hspaces⟩
    rw [hcons, List.mem_cons, not_or]
    exact ⟨hne.symm, h.free⟩

theorem shmRem_settled {name : Option CString} (h : Settled k) (hrun : (k.procs a).CanRun)
    (hrem : shmRem L k a name = .ok (r, k')) : Settled k' := by
  cases name with
  | none =>
    cases hrem
    exact h
  | some name =>
    rcases shmRem_ok hrem with ⟨-, -, rfl⟩ | ⟨i, d, -, hd, -, -, hdetach⟩
    · exact h
    obtain ⟨hgrounded, hrecorded⟩ := h.procs a hrun.used
    have hclear := (hgrounded d hd).clear (not_samePage_kernBase (hrecorded i))
    have hk : Settled (k.update a fun p => p.removed d i) := by
      refine ⟨h.table, h.free, settled_change h.procs (fun b hb => update_of_ne k _ hb) ?_⟩
      rw [update_self]
      refine fun _ => ⟨fun _ heq => Option.some.inj heq ▸ hclear, fun j => ?_⟩
      unfold Proc.removed
      dsimp only
      by_cases hj : j = i
      · rw [hj, Function.update_self]
        exact (by decide : (0 + pgSize) % uintMod < kernBase)
      · rw [Function.update_of_ne hj]
        exact hrecorded j
    exact shmDetach_settled hk hdetach

theorem fork_settled (h : Settled k) (hrun : (k.procs a).CanRun) (hfork : fork L k a = .ok (r, k')) :
    Settled k' := by
  obtain ⟨hgrounded, hrecorded⟩ := h.procs a hrun.used
  rcases fork_cases hrun hfork with ⟨-, hsame, -⟩ | ⟨np, d, kstack, m, -, hd, hk, hbut, hcase⟩
  · exact hsame.spaces.settled h
  have hm : 0 ∉ m.free := fun h0 => h.free (by rw [(kalloc_some hk).1]; exact List.mem_cons_of_mem _ h0)
  rcases hcase with ⟨m1, -, hcopy, hback, hgone, -⟩ | ⟨d', x, -, hcopy, hmoved, -⟩
  · obtain ⟨htable, hfree, -⟩ := copyuvm_consistent (hgrounded d hd) h.table hm hcopy
    obtain ⟨hne, hcons, -⟩ := kfree_ok hback
    refine ⟨htable, ?_, settled_change h.procs hbut fun hused => absurd hgone hused⟩
    rw [hcons, List.mem_cons, not_or]
    exact ⟨hne.symm, hfree⟩
  · obtain ⟨htable, hfree, hcopies⟩ := copyuvm_consistent (hgrounded d hd) h.table hm hcopy
    refine ⟨htable, hfree, settled_change h.procs hbut fun _ => ?_⟩
    rw [hmoved.child.2.1, hmoved.child.2.2.2.2]
    exact ⟨fun _ heq => hcopies _ heq, hrecorded⟩

theorem exitShm_settled {is : List (Fin shmMaxNum)} (h : Settled k) (hrun : (k.procs a).CanRun)
    (hexit : exitShm L a is k = .ok k') : Settled k' := by
  induction is generalizing k with
  | nil =>
    cases hexit
    exact h
  | cons i is ih =>
    simp only [exitShm] at hexit
    split at hexit
    · obtain ⟨⟨r, k1⟩, hrem, hrest⟩ := bind_eq_ok.mp hexit
      have hrun1 : (k1.procs a).CanRun := by
        unfold Proc.CanRun
        rw [(shmRem_at hrem).state a]
        exact hrun
      exact ih (shmRem_settled h hrun hrem) hrun1 hrest
    · exact ih h hrun hexit

end Calls

/-! ## Runs -/

/-- The calls that work on the table of shared regions. -/
def Call.Sharing : Call → Prop
  | .shmGet _ | .shmRem _ | .fork | .exit => True
  | _ => False

theorem step_settled {L : Layout} {k k' : State} {e : Event} (h : Settled k) (hcall : e.call.Sharing)
    (hstep : Step L k e k') : Settled k' := by
  obtain ⟨a, c, r⟩ := e
  obtain ⟨hrun, hdone⟩ := hstep
  cases call_did hdone with
  | shmGet hget => exact shmGet_settled h hrun hget
  | shmRem hrem => exact shmRem_settled h hrun hrem
  | fork hfork => exact fork_settled h hrun hfork
  | exit hexit =>
    obtain ⟨k1, hshm, hsame⟩ := exit_ok hrun hexit
    exact hsame.settled (exitShm_settled h hrun hshm)
  | growproc _ | exec _ | wait _ | maxproc _ => exact hcall.elim

/-- The state before the first call: no block is in use, and page `0` is neither free nor in the
memory of a process. -/
structure Fresh (k : State) : Prop where
  idle : ∀ i, (k.shared.mems i).ref = 0 ∧ (k.shared.mems i).pa = 0
  free : 0 ∉ k.mem.free
  procs : ∀ q, (k.procs q).state ≠ .unused →
    (∀ d, (k.procs q).pgdir = some d → Grounded d) ∧ ∀ i, ((k.procs q).shm i).va = 0

theorem Fresh.settled {k : State} (h : Fresh k) : Settled k := by
  have hidle : ∀ i, ¬ k.shared.Live i := by
    intro i hi
    unfold SharedMemory.Live at hi
    rw [(h.idle i).1] at hi
    exact absurd hi (by decide)
  refine ⟨⟨fun i _ hi => absurd hi (hidle i), fun i => ?_, fun i => ?_⟩, h.free, fun q hused => ?_⟩
  · rw [(h.idle i).1]
  · exact iff_of_false (fun hne => hne (h.idle i).2) (hidle i)
  · obtain ⟨hgrounded, hzero⟩ := h.procs q hused
    refine ⟨hgrounded, fun i => ?_⟩
    rw [hzero i]
    decide

theorem imageDir_grounded : Grounded imageDir :=
  ⟨fun b hb hpresent => by rw [lonePage_present hb hpresent]; decide, by decide⟩

theorem imageMachine_fresh : Fresh imageMachine where
  idle := fun _ => ⟨rfl, rfl⟩
  free := by decide
  procs := by
    intro q hused
    by_cases hq : q = 0
    · subst hq
      refine ⟨fun d hd => ?_, fun _ => rfl⟩
      cases hd
      exact imageDir_grounded
    · rw [imageMachine_unused hq] at hused
      exact absurd rfl hused

end Xv6.Kernel
