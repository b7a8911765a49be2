import Xv6.Vm.KernelTables
import Xv6.Kernel.ForkCopy
import Xv6.Kernel.Lifecycle
import Xv6.Files.Descriptors

/-! # What a failed `fork` leaves behind

Three things are not undone when memory runs out: the reference on the root of the container, the
references on shared blocks, whose pages `freevm` frees with the rest, and a page that was taken
for a copy before its page table. Which of them has happened by then is decided by the parent's
page table and the number of free pages.
-/

namespace Xv6.Kernel

open Lib Vm

variable {pgdir d d' : PgDir} {v : Nat} {m m' : Mem} {s s' : SharedMemory} {L : Layout}

/-! ## Running out of memory -/

/-- The rounds of `copyuvm` for `n` pages from `v` on, with the given number of free pages: if they
run out, then before a shared page is mapped, and not between a page and its page table. -/
def copyClean (pgdir : PgDir) (s : SharedMemory) : Nat → Nat → Nat → Bool
  | 0, _, _ => true
  | n + 1, v, free =>
    let pte := pgdir.entry (v * pgSize)
    let table := if FirstOfTable pgdir v then 1 else 0
    if ¬ pte.present then copyClean pgdir s n (v + 1) free
    else if isShm s pte.addr = pte.addr then free < table
    else if free = 0 then true
    else if free < 1 + table then false
    else copyClean pgdir s n (v + 1) (free - 1 - table)

section Clean

variable {pgdir : PgDir} {s : SharedMemory} {n v free : Nat}

theorem copyClean_hole (habsent : (pgdir.entry (v * pgSize)).present = false) :
    copyClean pgdir s (n + 1) v free = copyClean pgdir s n (v + 1) free := by
  simp only [copyClean]
  rw [if_pos (by rw [habsent]; exact Bool.false_ne_true)]

theorem copyClean_shared (hpresent : (pgdir.entry (v * pgSize)).present = true)
    (hshm : isShm s (pgdir.entry (v * pgSize)).addr = (pgdir.entry (v * pgSize)).addr) :
    copyClean pgdir s (n + 1) v free = decide (free < if FirstOfTable pgdir v then 1 else 0) := by
  simp only [copyClean]
  rw [if_neg (not_not.mpr hpresent), if_pos hshm]

theorem copyClean_private (hpresent : (pgdir.entry (v * pgSize)).present = true)
    (hshm : isShm s (pgdir.entry (v * pgSize)).addr ≠ (pgdir.entry (v * pgSize)).addr) :
    copyClean pgdir s (n + 1) v free =
      if free = 0 then true
      else if free < 1 + (if FirstOfTable pgdir v then 1 else 0) then false
      else copyClean pgdir s n (v + 1) (free - 1 - if FirstOfTable pgdir v then 1 else 0) := by
  simp only [copyClean]
  rw [if_neg (not_not.mpr hpresent), if_neg hshm]

end Clean

/-- What a failed copy leaves: nothing, or a reference, or it has lost a free page. -/
structure FailedCopy (clean : Bool) (s s' : SharedMemory) (free : List Nat) (held : Nat → Nat) (m' : Mem) :
    Prop where
  mono : ∀ i, (s.mems i).ref ≤ (s'.mems i).ref
  undone : clean = true → s' = s ∧ ∀ pg, m'.free.count pg = held pg
  left : clean = false → (∃ i, (s.mems i).ref < (s'.mems i).ref) ∨
    ∃ pg ∈ free, m'.free.count pg + 1 = held pg

theorem FailedCopy.nothing {free : List Nat} {held : Nat → Nat} (h : ∀ pg, m'.free.count pg = held pg) :
    FailedCopy true s s free held m' :=
  ⟨fun _ => Int.le_refl _, fun _ => ⟨rfl, h⟩, fun hc => absurd hc.symm Bool.false_ne_true⟩

theorem copyuvmLoop_fails {n : Nat} (hend : (v + n) * pgSize ≤ kernBase) (htables : TablesSoFar pgdir v d)
    (h : copyuvmLoop L pgdir n (v * pgSize) d s m = .ok (none, s', m')) :
    FailedCopy (copyClean pgdir s n v m.free.length) s s' m.free (holds d m) m' := by
  induction n generalizing v d s m with
  | zero => cases h
  | succ n ih =>
    have hv : v * pgSize < kernBase := by
      simp only [pgSize] at *
      omega
    have hnext : (v + 1 + n) * pgSize ≤ kernBase := by
      rw [Nat.succ_add_eq_add_succ]
      exact hend
    have hfirst := htables.first hv
    rcases copyuvmLoop_succ L pgdir n d s m (Nat.dvd_mul_left ..) with
      ⟨d1, s1, m1, hround, hrest⟩ | hends
    · rw [h, ← Nat.succ_mul] at hrest
      replace hrest := hrest.symm
      cases hround with
      | hole habsent =>
        rw [copyClean_hole habsent]
        exact ih hnext (htables.hole habsent) hrest
      | shared hpresent hshm hmap =>
        have hlen := mappage_length hmap
        simp only [hfirst] at hlen
        have hclean : copyClean pgdir s (n + 1) v m.free.length = false := by
          rw [copyClean_shared hpresent hshm, decide_eq_false_iff_not, hlen]
          omega
        rw [hclean]
        have hmono := (ih hnext (htables.mapped hpresent hmap) hrest).mono
        have hless := hmono (shmIndex s (pgdir.entry (v * pgSize)).addr)
        rw [mems_update_self] at hless
        refine ⟨fun j => ?_, fun hc => absurd hc Bool.false_ne_true, fun _ => .inl ⟨_, Int.lt_of_lt_of_le (Int.lt_succ _) hless⟩⟩
        by_cases hj : j = shmIndex s (pgdir.entry (v * pgSize)).addr
        · rw [hj]
          exact Int.le_trans (Int.le_add_one (Int.le_refl _)) hless
        · exact mems_update_of_ne s _ hj ▸ hmono j
      | @copied pa m2 d2 m3 hpresent hshm hk hmap =>
        have hfree : m.free = pa :: (m2.memmove pa (pageBytes m2 (pgdir.entry (v * pgSize)).addr)).free :=
          (kalloc_some hk).1
        have hmaps := mappage_maps hmap
        have hlen := mappage_length hmap
        simp only [hfirst] at hlen
        have hclean : copyClean pgdir s (n + 1) v m.free.length = copyClean pgdir s n (v + 1) m1.free.length := by
          rw [copyClean_private hpresent hshm, hfree, List.length_cons, if_neg (Nat.succ_ne_zero _),
            if_neg (by omega)]
          congr 1
          omega
        have hfailed := ih hnext (htables.mapped hpresent hmap) hrest
        rw [hclean]
        refine ⟨hfailed.mono, fun hc => ?_, fun hc => ?_⟩
        · obtain ⟨hs, hcount⟩ := hfailed.undone hc
          exact ⟨hs, fun pg => (hcount pg).trans (MapsPage.fresh hmaps hfree hv pg)⟩
        rcases hfailed.left hc with hrefs | ⟨pg, hpg, hcount⟩
        · exact .inl hrefs
        · refine .inr ⟨pg, ?_, hcount.trans (MapsPage.fresh hmaps hfree hv pg)⟩
          rw [hfree]
          exact List.mem_cons_of_mem _ (hmaps.subset pg hpg)
    · rw [h] at hends
      obtain ⟨-, hs, m1, hfails, hfree⟩ := hends.ok
      subst hs
      have hback := (freevm_ok hfree).1
      cases hfails with
      | shared hpresent hshm hnone hempty =>
        rw [copyClean_shared hpresent hshm, if_pos (hfirst.mp hnone), hempty]
        exact .nothing hback
      | page hpresent hshm hempty =>
        rw [copyClean_private hpresent hshm, hempty, List.length_nil, if_pos rfl]
        exact .nothing hback
      | @table pa m2 hpresent hshm hk hnone hempty =>
        obtain ⟨hcons, -⟩ := kalloc_some hk
        rw [copyClean_private hpresent hshm, hcons, hempty, if_pos (hfirst.mp hnone)]
        refine ⟨fun _ => Int.le_refl _, fun hc => absurd hc Bool.false_ne_true, fun _ => .inr ⟨pa, List.mem_cons_self, ?_⟩⟩
        rw [hback pa]
        unfold holds
        rw [hcons, List.count_cons_self]
        exact Nat.add_assoc ..

theorem copyuvm_fails {sz : Nat} (hsz : sz ≤ kernBase) (h : copyuvm L pgdir sz s m = .ok (none, s', m')) :
    FailedCopy (decide (m.free.length < kernelPages) ||
      copyClean pgdir s (sizeUp sz / pgSize) 0 (m.free.length - kernelPages)) s s' m.free
      (fun pg => m.free.count pg) m' := by
  rw [sizeUp_div]
  rcases copyuvm_eq_ok h with ⟨-, rfl, hsetup⟩ | ⟨d, m1, hsetup, hrest⟩
  · rw [decide_eq_true ((setupkvm_pages hsetup).2 rfl), Bool.true_or]
    exact .nothing ((setupkvm_ok hsetup).2 rfl).1
  obtain ⟨hlen, hpde⟩ := (setupkvm_pages hsetup).1 d rfl
  obtain ⟨hempty, hmoved, hsubset, -⟩ := (setupkvm_ok hsetup).1 d rfl
  have hholds : ∀ pg, holds d m1 pg = m.free.count pg := by
    intro pg
    have hmove := hmoved pg
    unfold holds
    rw [uses_eq_zero fun b hb => by rw [hempty b hb]]
    omega
  have hfailed := copyuvmLoop_fails (by simp only [pgSize, kernBase] at *; omega) (.start hpde) hrest
  rw [decide_eq_false (by omega), Bool.false_or, hlen, Nat.add_sub_cancel]
  refine ⟨hfailed.mono, fun hc => ?_, fun hc => ?_⟩
  · obtain ⟨hs, hcount⟩ := hfailed.undone hc
    exact ⟨hs, fun pg => (hcount pg).trans (hholds pg)⟩
  · rcases hfailed.left hc with hrefs | ⟨pg, hpg, hcount⟩
    · exact .inl hrefs
    · exact .inr ⟨pg, hsubset pg hpg, hcount.trans (hholds pg)⟩

/-! ## `fork` -/

/-- What a call of `fork` by `a` that fails should leave: the processes, and the references and
free pages as before. -/
structure ForkAtomic (k k' : State) (a : Slot) : Prop where
  procs : ∀ p, (k.procs p).state ≠ .unused → k'.procs p = k.procs p
  unused : ∀ p, (k.procs p).state = .unused → (k'.procs p).state = .unused
  refs : ∀ i, (k'.shared.mems i).ref = (k.shared.mems i).ref
  inodes : ∀ ip, (k'.fs.icache ip).ref = (k.fs.icache ip).ref
  free : ∀ pg, pg ∈ k'.mem.free ↔ pg ∈ k.mem.free
  mapped : ∀ d, (k.procs a).pgdir = some d → ∀ b, b < kernBase → (d.entry b).present = true →
    (d.entry b).addr ∉ k'.mem.free

/-- The states from which a failing `fork` by `a` is undone: it finds no slot or no page for the
stack; or the parent is not in a container, and memory runs out in `setupkvm` or at a harmless page. -/
def ForkClean (k : State) (a : Slot) : Prop :=
  (∀ p, (k.procs p).state ≠ .unused) ∨ k.mem.free = [] ∨
    ((k.procs a).rootForChild = none ∧ (k.mem.free.length ≤ kernelPages ∨
      ∀ d, (k.procs a).pgdir = some d →
        copyClean d k.shared (sizeUp (k.procs a).sz / pgSize) 0 (k.mem.free.length - 1 - kernelPages) = true))

theorem idup?_refs (fs : Fs.FsState) (root : Option Fs.Slot) :
    (∀ ip, ((idup? fs root).icache ip).ref = (fs.icache ip).ref) ↔ root = none := by
  cases root with
  | none => exact ⟨fun _ => rfl, fun _ _ => rfl⟩
  | some ip =>
    refine ⟨fun h => ?_, fun h => by cases h⟩
    have hself := h ip
    unfold idup? Fs.idup Fs.FsState.set at hself
    simp only [Function.update_self] at hself
    omega

end Xv6.Kernel

/-! ### Open files -/

namespace Xv6.Files

open Lib

/-- A `fork` that gets no slot, no stack or no copy has not come to the open files. -/
theorem fork_ftable {a : ProcSlot} {mem : ForkMem} {k : Kernel}
    (hshort : (∀ q, (k.procs q).state ≠ .unused) ∨ mem.stack = false ∨ mem.copy = false) :
    Ends (fork a mem) k (fun r k' => r = -1 ∧ k'.ftable = k.ftable) fun _ => True := by
  have halloc : Ends (allocproc mem.stack) k (fun r k' => k'.ftable = k.ftable ∧
      (r ≠ none → mem.copy = false)) fun _ => True := by
    refine allocproc_ends.imp ?_
    rintro _ _ (⟨rfl, rfl, -⟩ | ⟨np, hunused, rfl, rfl⟩)
    · exact ⟨rfl, fun hne => absurd rfl hne⟩
    refine ⟨rfl, fun hne => ?_⟩
    rcases hshort with hfull | hno | hcopy
    · exact absurd hunused (hfull np)
    · rw [hno] at hne
      exact absurd rfl hne
    · exact hcopy
  have hroot : ∀ np t, Ends (forkRoot a np) t (fun _ t' => t'.ftable = t.ftable) fun _ => True := by
    intro np t
    unfold forkRoot
    rw [ends_get_bind, ends_modify_bind]
    refine ends_ite (fun _ => ?_) fun _ => rfl
    refine (deref_ends trivial).bind ?_
    intro ip t1 ht1
    refine onStore_frame.bind ?_
    intro _ t2 ht2
    obtain ⟨s, hs⟩ := ht2
    rw [ends_modify, hs, ht1.2]
    rfl
  unfold fork
  refine halloc.bind ?_
  intro r k1 hk1
  cases r with
  | none => exact ⟨rfl, hk1.1⟩
  | some np =>
    refine (hroot np k1).bind ?_
    intro _ k2 hk2
    rw [if_neg (by rw [hk1.2 (Option.some_ne_none np)]; exact Bool.false_ne_true)]
    exact ⟨rfl, hk2.trans hk1.1⟩

end Xv6.Files

namespace Xv6.Kernel

open Lib Vm

theorem count_lost {free : List Nat} {kstack pg : Nat} {m m1 : Mem} {c : Nat} (hnodup : free.Nodup)
    (hfree : free = kstack :: m.free) (hpg : pg ∈ m.free) (hlost : m1.free.count pg + 1 = m.free.count pg)
    (hcount : c = m1.free.count pg + one kstack pg) : c = 0 := by
  rw [hfree] at hnodup
  obtain ⟨hkstack, hnodup'⟩ := List.nodup_cons.mp hnodup
  have hle := List.nodup_iff_count_le_one.mp hnodup' pg
  have hne : kstack ≠ pg := by
    intro heq
    rw [heq] at hkstack
    exact hkstack hpg
  have hzero : one kstack pg = 0 := if_neg hne
  omega

/-- A `fork` that returns `-1` has changed nothing exactly from the states above, and open files
are never touched by it. -/
theorem fork_atomic_iff {L : Layout} {k k' : State} {a : Slot} (hrun : (k.procs a).CanRun)
    (hpid : k.nextpid ≠ -1) (hsz : (k.procs a).sz ≤ kernBase) (hnodup : k.mem.free.Nodup)
    (hparent : ∀ d, (k.procs a).pgdir = some d → ∀ b, b < kernBase → (d.entry b).present = true →
      (d.entry b).addr ∉ k.mem.free)
    (h : fork L k a = .ok (-1, k')) :
    (ForkAtomic k k' a ↔ ForkClean k a) ∧
      ∀ (f f' : Files.Kernel) (b : Files.ProcSlot) (mem : Files.ForkMem) (r : Int),
        (∀ q, (f.procs q).state ≠ .unused) ∨ mem.stack = false ∨ mem.copy = false →
        Files.fork b mem f = .ok (r, f') → r = -1 ∧ f'.ftable = f.ftable := by
  refine ⟨?_, fun f f' b mem r hshort hfork => (Files.fork_ftable hshort).returned hfork⟩
  rcases fork_cases hrun h with ⟨-, hsame, hshort⟩ | ⟨np, d, kst, m, hnpunused, hd, hk, hbut, hcase⟩
  · refine iff_of_true ⟨hsame.used, hsame.unused, ?_, ?_, ?_, ?_⟩ ?_
    · exact fun i => by rw [hsame.shared]
    · exact fun ip => by rw [hsame.fs]
    · exact fun pg => by rw [hsame.mem]
    · rw [hsame.mem]
      exact hparent
    · exact hshort.imp_right fun hk => .inl (kalloc_none hk)
  have hslot : ¬ ∀ p, (k.procs p).state ≠ .unused := fun hall => hall np hnpunused
  have hsome : k.mem.free ≠ [] := by
    rw [(kalloc_some hk).1]
    exact List.cons_ne_nil _ _
  rcases hcase with ⟨m1, -, hcopy, hback, hstate, hfs'⟩ | ⟨d', x, hr, -⟩
  · have hfailed := copyuvm_fails hsz hcopy
    obtain ⟨hcons, hcount⟩ := kalloc_some hk
    obtain ⟨-, -, hcount'⟩ := kfree_ok hback
    have hlen : k.mem.free.length = m.free.length + 1 := by rw [hcons, List.length_cons]
    generalize hB : (decide (m.free.length < kernelPages) ||
      copyClean d k.shared (sizeUp (k.procs a).sz / pgSize) 0 (m.free.length - kernelPages)) = B at hfailed
    have hclean : ForkClean k a ↔ (k.procs a).rootForChild = none ∧ B = true := by
      unfold ForkClean
      rw [← hB, hlen, hd, Bool.or_eq_true, decide_eq_true_iff, Nat.add_sub_cancel, Nat.succ_le_iff]
      simp only [hslot, hsome, false_or, Option.some.injEq, forall_eq']
    have hroot : (∀ ip, (k'.fs.icache ip).ref = (k.fs.icache ip).ref) ↔ (k.procs a).rootForChild = none := by
      rw [hfs']
      exact idup?_refs ..
    rw [hclean]
    constructor
    · intro hatomic
      refine ⟨hroot.mp hatomic.inodes, ?_⟩
      by_contra hB'
      rcases hfailed.left (Bool.eq_false_iff.mpr hB') with ⟨i, hi⟩ | ⟨pg, hpg, hlost⟩
      · exact absurd (hatomic.refs i) (Int.ne_of_gt hi)
      have hzero := count_lost hnodup hcons hpg hlost (hcount' pg)
      have hin : pg ∈ k.mem.free := by
        rw [hcons]
        exact List.mem_cons_of_mem _ hpg
      exact List.count_eq_zero.mp hzero ((hatomic.free pg).mpr hin)
    · intro hboth
      obtain ⟨hnoroot, hundone⟩ := hboth
      obtain ⟨hs, hsame⟩ := hfailed.undone hundone
      have hfree : ∀ pg, pg ∈ k'.mem.free ↔ pg ∈ k.mem.free := by
        intro pg
        rw [← List.count_pos_iff, ← List.count_pos_iff, hcount' pg, hcount pg, hsame pg]
      constructor
      · intro p hp
        apply hbut
        intro hpn
        rw [hpn] at hp
        exact hp hnpunused
      · intro p hp
        by_cases hpn : p = np
        · rw [hpn]
          exact hstate
        · rw [hbut p hpn]
          exact hp
      · intro i
        rw [hs]
      · exact hroot.mpr hnoroot
      · exact hfree
      · intro d1 hd1 b hb hpresent hin
        exact hparent d1 hd1 b hb hpresent ((hfree _).mp hin)
  · exact absurd hr.symm hpid

/-- The small machine with one free page; the process in slot 1 may have a root of its own. -/
def shortMachine (root : Option Fs.Slot) : State :=
  { smallMachine.update 1 fun p => { p with inNewroot := if root = none then 0 else 1, newrootInode := root } with
    mem := ⟨[0x500000], fun _ => 0⟩ }

theorem shortMachine_fork (root : Option Fs.Slot)
    (h : (fork smallLayout (shortMachine root) 1).toOption.any fun x => x.1 = -1) :
    ∃ k', fork smallLayout (shortMachine root) 1 = .ok (-1, k') := by
  obtain ⟨⟨_, k'⟩, hfork, rfl⟩ := ok_of_any h
  exact ⟨k', hfork⟩

theorem fork_atomic_iff_short : ∃ k', fork smallLayout (shortMachine none) 1 = .ok (-1, k') ∧
    ForkAtomic (shortMachine none) k' 1 := by
  obtain ⟨k', hfork⟩ := shortMachine_fork none (by decide +kernel)
  refine ⟨k', hfork, (fork_atomic_iff (.inr rfl) (by decide) (by decide) (by decide) ?_ hfork).1.mpr ?_⟩
  · intro d hd b hb hpresent
    cases hd
    rw [lonePage_present hb hpresent]
    decide
  · exact .inr (.inr ⟨rfl, .inl (by decide)⟩)

/-- In a container the reference on its root stays. -/
theorem fork_leaks_root : ∃ k', fork smallLayout (shortMachine (some 0)) 1 = .ok (-1, k') ∧
    (k'.fs.icache 0).ref = ((shortMachine (some 0)).fs.icache 0).ref + 1 ∧
    ¬ ForkAtomic (shortMachine (some 0)) k' 1 := by
  obtain ⟨k', hfork⟩ := shortMachine_fork (some 0) (by decide +kernel)
  have hleak : (k'.fs.icache 0).ref = ((shortMachine (some 0)).fs.icache 0).ref + 1 := by
    have href : (fork smallLayout (shortMachine (some 0)) 1).toOption.map (fun x => (x.2.fs.icache 0).ref) =
        some (((shortMachine (some 0)).fs.icache 0).ref + 1) := by decide +kernel
    rw [hfork] at href
    exact Option.some.inj href
  refine ⟨k', hfork, hleak, fun hatomic => ?_⟩
  have hsame := hatomic.inodes 0
  omega

end Xv6.Kernel
