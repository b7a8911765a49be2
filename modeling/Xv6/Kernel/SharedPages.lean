import Xv6.Lib.Transition
import Xv6.Kernel.Image
import Xv6.Kernel.PageCensus
import Xv6.Kernel.Progress

/-! # Ownership of shared pages

In a run whose calls are all `Careful` the reference count of each block is the number of
mappings of its page, and a page in use is not on the free list. The conditions are on the
state before a call: shared pages leave an address space through `shm_rem` only, `shm_rem`
finds the page of the block where the process has recorded it, and memory is not so short
that `shm_get` or `fork` gives up half way.
-/

namespace Xv6.Kernel

open Lib Vm

variable {L : Layout} {d : PgDir} {r : Int} {k k' k1 : State} {a : Slot} {name : CString} {s : SharedMemory}
  {i : Fin shmMaxNum}

/-- The addresses of the pages that `growproc(n)` maps or frees. -/
def InResize (sz : Nat) (n : Int) (b : Nat) : Prop :=
  let newsz := (((sz : Int) + n) % uintMod).toNat
  (0 < n ∧ newsz < kernBase ∧ InRange (pgRoundUp sz) newsz b) ∨
    (n < 0 ∧ newsz < sz ∧ InRange (pgRoundUp newsz) sz b)

theorem resize_ok {d' : PgDir} {sz r : Nat} {n : Int} {m m' : Mem} (hsz : sz ≤ kernBase)
    (h : resize L d sz n m = .ok (r, d', m')) : r ≤ kernBase ∧ (∀ pg, holds d' m' pg = holds d m pg) ∧
      (∀ pg, d'.tables pg ≤ d.tables pg + m.free.count pg) ∧
      ∀ pg, (∀ b, b < kernBase → InResize sz n b → (d.entry b).uses pg = 0) →
        d.uses pg ≤ d'.uses pg := by
  unfold resize at h
  unfold InResize
  generalize (((sz : Int) + n) % uintMod).toNat = newsz at h ⊢
  split at h
  · rename_i hpos
    obtain ⟨hres, hcase⟩ := allocuvm_ok hsz h
    refine ⟨?_, hres.conserved, allocuvm_tables hsz h, fun pg hpg => ?_⟩
    · rcases hcase with ⟨-, hr, -⟩ | ⟨-, hr, -⟩ | ⟨-, hlt, hr, -⟩ | ⟨-, -, hr, -⟩ <;> omega
    rcases hcase with ⟨-, -, rfl⟩ | ⟨-, -, rfl⟩ | ⟨-, hlt, -⟩ | ⟨-, hlt, -⟩
    · exact Nat.le_refl _
    · exact Nat.le_refl _
    · exact hres.uses_le fun b hb hr => hpg b hb (.inl ⟨hpos, hlt, hr⟩)
    · exact hres.uses_le fun b hb hr => hpg b hb (.inl ⟨hpos, hlt, hr⟩)
  · split at h
    · rename_i hneg
      obtain ⟨hres, hcase⟩ := deallocuvm_ok hsz h
      refine ⟨?_, hres.conserved, fun pg => ?_, fun pg hpg => ?_⟩
      · rcases hcase with ⟨-, hr, -⟩ | ⟨hlt, hr, -⟩ <;> omega
      · rw [deallocuvm_tables hsz h]
        exact Nat.le_add_right ..
      · rcases hcase with ⟨-, -, rfl⟩ | ⟨hlt, -⟩
        · exact Nat.le_refl _
        · exact hres.uses_le fun b hb hr => hpg b hb (.inr ⟨hneg, hlt, hr⟩)
    · cases h
      exact ⟨hsz, fun _ => rfl, fun _ => Nat.le_add_right .., fun _ _ => Nat.le_refl _⟩

theorem recordMapping_all {shm : Fin shmMaxNum → ShmMapping} {va : Nat} {P : ShmMapping → Prop}
    (h : ∀ i, P (shm i)) (hnew : P ⟨name.take shmNameLen, va⟩) (i : Fin shmMaxNum) :
    P (recordMapping shm name va i) := by
  unfold recordMapping
  cases (List.finRange shmMaxNum).find? fun i => (shm i).va == 0 with
  | none => exact h i
  | some j =>
    dsimp only
    by_cases hi : i = j
    · rw [hi, Function.update_self]
      exact hnew
    · rw [Function.update_of_ne hi]
      exact h i

/-- With room for a page table the end of `shm_get` maps the page once more. -/
theorem shmMap_maps {pa : Nat} (hused : (k.procs a).state ≠ .unused) (hfits : ∀ q, (k.procs q).Fits)
    (hd : (k.procs a).pgdir = some d) (hlt : ((k.procs a).sz + pgSize) % uintMod < kernBase)
    (hroom : d.walk (pgRoundUp (k.procs a).sz) ≠ none ∨ k.mem.free ≠ [])
    (h : shmMap L k a d name pa = .ok (r, k')) :
    k'.shared = k.shared ∧ (∀ pg, mapped k' pg = mapped k pg + one pa pg) ∧
      (∀ pg, kept k' pg + free k' pg = kept k pg + free k pg) ∧ ∀ q, (k'.procs q).Fits := by
  obtain ⟨hsz, hva⟩ := hfits a hused
  obtain ⟨hbut, ⟨hshared, -⟩, ok, d', m, hmap, hcase⟩ := shmMap_ok h
  have hup : pgRoundUp (k.procs a).sz < kernBase := by
    simp only [pgRoundUp, pgSize, kernBase, uintMod, Nat.reducePow] at *
    omega
  rw [mappages_one (pgRoundUp_dvd _)] at hmap
  rcases hcase with ⟨rfl, hmem, hproc⟩ | ⟨rfl, -⟩
  · have hproc : k'.procs a = { k.procs a with
        pgdir := some d'
        sz := ((k.procs a).sz + pgSize) % uintMod
        shm := recordMapping (k.procs a).shm name (k.procs a).sz } := by
      rcases hproc with ⟨-, -, hproc⟩ | ⟨hzero, -⟩
      · exact hproc
      · simp only [pgSize, kernBase, uintMod, Nat.reducePow] at *
        omega
    have hmaps := mappage_maps hmap
    have hd' : (k'.procs a).pgdir = some d' := by rw [hproc]
    have hcount := remapped hbut hused (by rw [hproc]) hd hd' (by rw [hproc])
    refine ⟨hshared, fun pg => ?_, fun pg => ?_, fits_change hfits hbut ?_⟩
    · have huses := hmaps.uses_eq hup pg
      rw [uses_present] at huses
      have := hcount pg
      omega
    · have := hcount pg
      have hmoved := hmaps.moved pg
      unfold free
      rw [hmem]
      omega
    · rw [hproc]
      refine fun _ => ⟨Nat.le_of_lt hlt, recordMapping_all (P := fun x => x.va < kernBase) hva ?_⟩
      simp only [pgSize, kernBase, uintMod, Nat.reducePow] at *
      omega
  · obtain ⟨_, _, hnone, hempty⟩ := mappage_false hmap
    rcases hroom with hwalk | hfree
    · exact absurd hnone hwalk
    · exact absurd hempty hfree

theorem findShm_live (h : findShm s name = some i) : s.Live i := by
  have := List.find?_some h
  simp only [Bool.and_eq_true, decide_eq_true_eq] at this
  exact this.1

theorem shmAttach_zero (hs : ∀ i, s.Live i → (s.mems i).pa ≠ 0) (h : (shmAttach s name).1 = 0) :
    findShm s name = none ∧ (shmAttach s name).2 = s := by
  unfold shmAttach at *
  cases hfind : findShm s name with
  | none => exact ⟨rfl, rfl⟩
  | some i =>
    rw [hfind] at h
    exact absurd h (hs i (findShm_live hfind))

theorem shmAttach_found (h : (shmAttach s name).1 ≠ 0) :
    ∃ i, findShm s name = some i ∧ (shmAttach s name).1 = (s.mems i).pa ∧
      (shmAttach s name).2 = s.update i fun b => { b with ref := b.ref + 1 } := by
  unfold shmAttach at *
  cases hfind : findShm s name with
  | none =>
    rw [hfind] at h
    exact absurd rfl h
  | some i => exact ⟨i, rfl, rfl, rfl⟩

theorem one_self (pg : Nat) : one pg pg = 1 := if_pos rfl

theorem one_of_ne {p pg : Nat} (h : pg ≠ p) : one p pg = 0 := if_neg fun heq => h heq.symm

theorem removed_fits {p : Proc} (d : PgDir) (i : Fin shmMaxNum) (h : p.Fits) (hsz : pgSize ≤ p.sz) :
    (p.removed d i).Fits := by
  unfold Proc.removed
  intro hused
  obtain ⟨hle, hva⟩ := h hused
  dsimp only
  refine ⟨?_, fun j => ?_⟩
  · rw [szLess_of_le hle hsz]
    exact Nat.le_trans (Nat.sub_le p.sz pgSize) hle
  by_cases hj : j = i
  · rw [hj, Function.update_self]
    exact Nat.zero_lt_succ _
  · rw [Function.update_of_ne hj]
    exact hva j

theorem Released.trans {k2 : State} (h1 : Released k k1) (h2 : Released k1 k2) (hs : Sound k2)
    (hfree : ∀ pg, free k1 pg ≤ free k2 pg) : Released k k2 := by
  intro pg hpg hgone
  by_cases hmid : mapped k1 pg = 0
  · have := h1 pg hpg hmid
    have := hfree pg
    have := hs.free_le_one pg
    omega
  · exact h2 pg (Nat.pos_of_ne_zero hmid) hgone

/-! ## Recorded mappings -/

/-- The page of the block with the name is at an address; without such a block no page is there. -/
def BlockAt (s : SharedMemory) (d : PgDir) (name : CString) (va : Nat) : Prop :=
  match findShm s name with
  | some j => (d.entry va).present = true ∧ (d.entry va).addr = (s.mems j).pa
  | none => (d.entry va).present = false

/-- `shm_rem(name)` finds the page of the block where the process has recorded it. -/
def RemovesOwn (k : State) (a : Slot) (name : CString) : Prop :=
  ∀ i d, mappingOf (k.procs a) name = some i → (k.procs a).pgdir = some d →
    pgSize ≤ (k.procs a).sz ∧ BlockAt k.shared d name ((k.procs a).shm i).va

/-- The mappings among `is` that a process has recorded: each is the first with its name and on a page
of its own, and the block is there; the size of the process covers them. -/
structure OwnMappings (s : SharedMemory) (p : Proc) (d : PgDir) (is : List (Fin shmMaxNum)) : Prop where
  size : (is.countP fun i => (p.shm i).va ≠ 0) * pgSize ≤ p.sz
  first : ∀ i ∈ is, (p.shm i).va ≠ 0 → mappingOf p (p.shm i).name = some i
  apart : ∀ i ∈ is, ∀ j ∈ is, (p.shm i).va ≠ 0 → (p.shm j).va ≠ 0 → SamePage (p.shm i).va (p.shm j).va → i = j
  own : ∀ i ∈ is, (p.shm i).va ≠ 0 → BlockAt s d (p.shm i).name (p.shm i).va

def ExitsOwn (k : State) (a : Slot) : Prop :=
  ∀ d, (k.procs a).pgdir = some d → OwnMappings k.shared (k.procs a) d (List.finRange shmMaxNum)

theorem OwnMappings.tail {p : Proc} {is : List (Fin shmMaxNum)} (h : OwnMappings s p d (i :: is)) :
    OwnMappings s p d is where
  size := Nat.le_trans (Nat.mul_le_mul_right _ ((List.sublist_cons_self i is).countP_le)) h.size
  first := fun j hj => h.first j (List.mem_cons_of_mem _ hj)
  apart := fun j hj l hl => h.apart j (List.mem_cons_of_mem _ hj) l (List.mem_cons_of_mem _ hl)
  own := fun j hj => h.own j (List.mem_cons_of_mem _ hj)

theorem OwnMappings.removesOwn {is : List (Fin shmMaxNum)}
    (hcare : ∀ d, (k.procs a).pgdir = some d → OwnMappings k.shared (k.procs a) d (i :: is))
    (hva : ((k.procs a).shm i).va ≠ 0) : RemovesOwn k a ((k.procs a).shm i).name := by
  intro j d hj hd
  obtain ⟨hsize, hfirst, -, hown⟩ := hcare d hd
  obtain rfl : i = j := Option.some.inj ((hfirst i List.mem_cons_self hva).symm.trans hj)
  rw [List.countP_cons, if_pos (decide_eq_true hva), Nat.succ_mul] at hsize
  exact ⟨Nat.le_trans (Nat.le_add_left ..) hsize, hown i List.mem_cons_self hva⟩

/-- With fewer blocks in use a name is found where it was, if anywhere. -/
theorem findShm_fewer {s' : SharedMemory} {n : CString}
    (h : ∀ j, s'.Live j → s.Live j ∧ (s'.mems j).name = (s.mems j).name)
    (hstill : ∀ j, findShm s n = some j → s'.Live j) : findShm s' n = findShm s n := by
  refine find?_finRange_mono (fun j hj => ?_) rfl fun j hj => ?_
  · rw [Bool.and_eq_true, decide_eq_true_eq] at hj ⊢
    obtain ⟨hlive, hname⟩ := h j hj.1
    exact ⟨hlive, hname ▸ hj.2⟩
  · have hfound := (find?_finRange_eq_some.mp hj).1
    rw [Bool.and_eq_true] at hfound ⊢
    rw [(h j (hstill j hj)).2]
    exact ⟨decide_eq_true (hstill j hj), hfound.2⟩

/-! ## Calls that leave the table of blocks alone -/

section Calls

variable (h : Sound k) (hrun : (k.procs a).CanRun)

include h hrun

/-- The pages that `growproc(n)` maps or frees are of no block in use. -/
def ResizesPrivate (k : State) (a : Slot) (n : Int) : Prop :=
  ∀ d b, (k.procs a).pgdir = some d → b < kernBase → InResize (k.procs a).sz n b →
    NoShared d k.shared b

theorem growproc_sound {n : Int} (hcare : ResizesPrivate k a n)
    (hgrow : growproc L k a n = .ok (r, k')) : Sound k' ∧ Released k k' := by
  have hused := hrun.used
  obtain ⟨d, sz, d', hd, hresize, hproc, hbut, hshared, -⟩ := growproc_ok hgrow
  obtain ⟨hsz, hheld, htables, huses⟩ := resize_ok (h.fits a hused).1 hresize
  obtain ⟨hd', hstack, hfits⟩ : (k'.procs a).pgdir = some d' ∧
      (k'.procs a).kstack = (k.procs a).kstack ∧ (k'.procs a).Fits := by
    rcases hproc with ⟨-, -, -, hproc⟩ | ⟨-, -, hproc⟩
    · rw [hproc]
      exact ⟨rfl, rfl, h.fits a⟩
    · rw [hproc]
      exact ⟨rfl, rfl, fun hu => ⟨hsz, (h.fits a hu).2⟩⟩
  have hcount := remapped hbut hused ((growproc_at hgrow).state a) hd hd' hstack
  refine h.released hshared hbut (fun pg => ?_) (fun i hi => ?_) hfits fun pg => ?_
  · have := hcount pg
    have := hheld pg
    unfold held free holds at *
    omega
  · have := hcount (k.shared.mems i).pa
    have := huses (k.shared.mems i).pa fun b hb hr => hcare d b hd hb hr i hi
    omega
  · have := hcount pg
    have := htables pg
    unfold free
    omega

/-- No page of a block in use is mapped by a process. -/
def MapsPrivate (k : State) (q : Slot) : Prop :=
  ∀ i, k.shared.Live i → (k.procs q).maps (k.shared.mems i).pa = 0

theorem exec_sound {path buf : CString} {argv : List CString} (hcare : MapsPrivate k a) (hexec : exec L k a path buf argv = .ok (r, k')) : Sound k' ∧ Released k k' := by
  have hused := hrun.used
  have hends : ExecEnds L k a r k' := (exec_gives ..).value hexec
  obtain ⟨hshared, hbut, -, old, hold, hcase⟩ := hends
  rcases hcase with ⟨-, hproc, hcount⟩ | ⟨d, sz, m, name, tf, -, himage, hfree, hproc⟩
  · have hprocs : k'.procs = k.procs := by
      funext q
      by_cases hq : q = a
      · rw [hq, hproc]
      · exact hbut q hq
    have hmapped := mapped_procs hprocs
    have hkept := kept_procs hprocs
    refine ⟨h.rearranged (by rw [hshared]) (fun pg => ?_) (fun i _ => Nat.le_of_eq (hmapped _).symm) ?_,
      released_of_le fun pg => Nat.le_of_eq (hmapped pg).symm⟩
    · unfold held free
      rw [hmapped, hkept, hcount]
    · rw [hprocs]
      exact h.fits
  · have hcount := remapped hbut hused (by rw [hproc]) hold (by rw [hproc]) (by rw [hproc])
    have himages := himage.spent
    have hback := (freevm_ok hfree).1
    refine h.released hshared hbut (fun pg => ?_) (fun i hi => ?_) (fun _ => ?_) fun pg => ?_
    · have := hcount pg
      have := himages pg
      have := hback pg
      unfold held free holds at *
      omega
    · have hno := hcare i hi
      rw [maps_of_used hused hold] at hno
      have := hcount (k.shared.mems i).pa
      omega
    · rw [hproc]
      exact ⟨himage.le, (h.fits a hused).2⟩
    · have := hcount pg
      have := himages pg
      unfold free
      unfold holds at this
      omega

theorem wait_sound {r : Option Int} (hcare : ∀ p, (k.procs p).state = .zombie →
      (k.procs p).parent = some a → MapsPrivate k p) (hwait : wait L k a = .ok (r, k')) :
    Sound k' ∧ Released k k' := by
  rcases wait_ok hrun hwait with hsame | ⟨p, kstack, d, m, hzombie, hparent, hkstack, hd, hstack,
    hfree, hshared, -, hbut, hgone⟩
  · obtain ⟨hsound, hmapped, _⟩ := hsame.spaces.sound h
    exact ⟨hsound, released_of_le fun pg => Nat.le_of_eq (hmapped pg).symm⟩
  have hused : (k.procs p).state ≠ .unused := by
    rw [hzombie]
    exact nofun
  have hmapped : ∀ pg, mapped k' pg + d.uses pg = mapped k pg := by
    intro pg
    have := mapped_change hbut pg
    rwa [maps_of_used hused hd, maps_unused hgone, Nat.add_zero] at this
  have hkept : ∀ pg, kept k' pg + (d.tables pg + one kstack pg) = kept k pg := by
    intro pg
    have := kept_change hbut pg
    rw [keeps_of_used hused hd, keeps_unused hgone, Nat.add_zero] at this
    unfold Proc.stack at this
    rwa [hkstack, Option.map_some, Option.getD_some] at this
  have hfreed : ∀ pg, free k' pg = d.uses pg + d.tables pg + (free k pg + one kstack pg) := by
    intro pg
    unfold free
    rw [(freevm_ok hfree).1 pg]
    unfold holds
    rw [(kfree_ok hstack).2.2 pg]
  refine h.released hshared hbut (fun pg => ?_) (fun i hi => ?_) (fun hc => absurd hgone hc) fun pg => ?_
  · have := hmapped pg
    have := hkept pg
    have := hfreed pg
    unfold held
    omega
  · have hno := hcare p hzombie hparent i hi
    rw [maps_of_used hused hd] at hno
    have := hmapped (k.shared.mems i).pa
    omega
  · have := hkept pg
    omega

/-! ## `fork` -/

/-- `fork` has a page for the stack and pages for the copy, or no shared page to copy. -/
def ForksWithMemory (k : State) (a : Slot) : Prop :=
  ∀ d, (k.procs a).pgdir = some d →
    1 + kernelPages + copyNeeds d k.shared (sizeUp (k.procs a).sz / pgSize) ≤ k.mem.free.length ∨
      ∀ b, b < sizeUp (k.procs a).sz → NoShared d k.shared b

theorem fork_sound (hcare : ForksWithMemory k a)
    (hfork : fork L k a = .ok (r, k')) : Sound k' ∧ Released k k' := by
  have hused := hrun.used
  have hfits := h.fits a hused
  rcases fork_cases hrun hfork with ⟨-, hsame, -⟩ | ⟨np, d, kstack, m, hnp, hd, hk, hbut, hcase⟩
  · obtain ⟨hsound, hmapped, _⟩ := hsame.spaces.sound h
    exact ⟨hsound, released_of_le fun pg => Nat.le_of_eq (hmapped pg).symm⟩
  obtain ⟨hcons, hone⟩ := kalloc_some hk
  have hnot : ∀ i, k.shared.Live i → (k.shared.mems i).pa ∉ m.free := by
    intro i hi hin
    apply h.not_free i hi
    rw [hcons]
    exact List.mem_cons_of_mem _ hin
  have hpte : ∀ b, b < kernBase → (d.entry b).present = true → (d.entry b).addr ≠ 0 :=
    fun b hb => h.entry_ne_zero hused hd hb
  rcases hcase with ⟨m1, -, hcopy, hback, hgone, -⟩ | ⟨d', x, -, hcopy, hmoved, hstack, -⟩
  · -- the copy has failed for want of memory, so no shared page was there to copy
    have hshort := (copyuvm_enough hcopy).not.mp (not_not.mpr rfl)
    have hno : ∀ b, b < sizeUp (k.procs a).sz → NoShared d k.shared b := by
      refine (hcare d hd).resolve_left fun hroom => hshort ?_
      rw [hcons, List.length_cons, sizeUp_div] at hroom
      omega
    obtain ⟨hshared, hcount⟩ := (copyuvm_ok hfits.1 h.regular hnot hpte hcopy).2 rfl hno
    have hmapped : ∀ pg, mapped k' pg = mapped k pg := by
      intro pg
      have := mapped_change hbut pg
      rwa [maps_unused hnp, maps_unused hgone, Nat.add_zero, Nat.add_zero] at this
    refine ⟨h.rearranged (by rw [hshared]) (fun pg => ?_) (fun i _ => Nat.le_of_eq (hmapped _).symm)
      (fits_change h.fits hbut fun hc => absurd hgone hc),
      released_of_le fun pg => Nat.le_of_eq (hmapped pg).symm⟩
    have hkept := kept_change hbut pg
    rw [keeps_unused hnp, keeps_unused hgone] at hkept
    have := hmapped pg
    have := hcount pg
    have := hone pg
    have := (kfree_ok hback).2.2 pg
    unfold held free
    omega
  · obtain ⟨hdone, _⟩ := copyuvm_ok hfits.1 h.regular hnot hpte hcopy
    obtain ⟨d0, m0, hempty, htables, hcopies⟩ := hdone d' rfl
    obtain ⟨hnew, hd', hsz, hkstack, hshm⟩ := hmoved.child
    have hmapped : ∀ pg, mapped k' pg = mapped k pg + d'.uses pg := by
      intro pg
      have := mapped_change hbut pg
      rwa [maps_unused hnp, maps_of_used hnew hd', Nat.add_zero] at this
    have hkept : ∀ pg, kept k' pg = kept k pg + (d'.tables pg + one kstack pg) := by
      intro pg
      have := kept_change hbut pg
      rw [keeps_unused hnp, keeps_of_used hnew hd', Nat.add_zero] at this
      unfold Proc.stack at this
      rwa [hkstack, hstack, Option.map_some, Option.getD_some] at this
    have hheld : ∀ pg, k.shared.Private pg → held k' pg = held k pg := by
      intro pg hpriv
      have := hcopies.moved pg hpriv
      have := htables pg
      have := hempty pg
      have := hone pg
      have := hmapped pg
      have := hkept pg
      unfold held free holds at *
      omega
    refine ⟨⟨hcopies.regular h.regular, fun i hi => ?_, fun i hi => ?_, fun pg hpg => ?_, ?_, ?_⟩,
      released_of_le fun pg => by rw [hmapped]; exact Nat.le_add_right ..⟩
    · have hi' := (hcopies.live i).mp hi
      have href := hcopies.ref i hi'
      have := h.ref i hi'
      rw [hempty] at href
      rw [hcopies.pa i, hmapped]
      push_cast
      omega
    · have hi' := (hcopies.live i).mp hi
      have := hcopies.kept i hi'
      have := htables (k.shared.mems i).pa
      have := hone (k.shared.mems i).pa
      have := h.live i hi'
      have := hkept (k.shared.mems i).pa
      rw [hcopies.pa i]
      unfold free at *
      omega
    · have hpriv : k.shared.Private pg := by
        intro i hi hpa
        exact hpg i ((hcopies.live i).mpr hi) ((hcopies.pa i).trans hpa)
      rw [hheld pg hpriv]
      exact h.single pg hpriv
    · rw [hheld 0 fun i hi => h.regular.nonzero i hi]
      exact h.zero
    · refine fits_change h.fits hbut fun _ => ?_
      rw [hsz, hshm]
      exact hfits

/-! ## `shm_get` -/

/-- `shm_get` has memory for the page table of the new mapping, and for the page if the name
is not in use. -/
def GetsWithMemory (k : State) (a : Slot) (name : CString) : Prop :=
  ∀ d, (k.procs a).pgdir = some d → ((k.procs a).sz + pgSize) % uintMod < kernBase →
    match findShm k.shared name with
    | some _ => d.walk (pgRoundUp (k.procs a).sz) ≠ none ∨ k.mem.free ≠ []
    | none => k.shared.num + 1 < shmMaxNum → k.mem.free ≠ [] ∧
        (d.walk (pgRoundUp (k.procs a).sz) ≠ none ∨ 2 ≤ k.mem.free.length)

theorem attach_sound (hd : (k.procs a).pgdir = some d)
    (hlt : ((k.procs a).sz + pgSize) % uintMod < kernBase)
    (hroom : d.walk (pgRoundUp (k.procs a).sz) ≠ none ∨ k.mem.free ≠ []) (hlive : k.shared.Live i)
    (hprocs : k1.procs = k.procs) (hmem : k1.mem = k.mem)
    (hshared : k1.shared = k.shared.update i fun b => { b with ref := b.ref + 1 })
    (hmap : shmMap L k1 a d name (k.shared.mems i).pa = .ok (r, k')) : Sound k' ∧ Released k k' := by
  rw [← hprocs] at hd hlt hroom
  have hused := hrun.used
  have hfits := h.fits
  rw [← hprocs] at hused hfits
  rw [← hmem] at hroom
  obtain ⟨htable, hmapped, hkept, hfits'⟩ := shmMap_maps hused hfits hd hlt hroom hmap
  have hmapped' : ∀ pg, mapped k' pg = mapped k pg + one (k.shared.mems i).pa pg := fun pg => by
    rw [hmapped, mapped_procs hprocs]
  have hkept' : ∀ pg, kept k' pg + free k' pg = kept k pg + free k pg := fun pg => by
    rw [hkept, kept_procs hprocs]
    unfold free
    rw [hmem]
  have href := h.ref i hlive
  obtain ⟨b, hmems, hpa, hone⟩ : ∃ b, k'.shared.mems = Function.update k.shared.mems i b ∧
      b.pa = (k.shared.mems i).pa ∧ b.ref = (k.shared.mems i).ref + 1 := by
    rw [htable, hshared]
    exact ⟨_, rfl, rfl, rfl⟩
  refine ⟨h.retabled (h.regular.nonzero i hlive) hmems
    (fun j hj heq => h.regular.unique j i hj hlive heq) (fun _ => rfl)
    (fun pg hpg => ⟨?_, hkept' pg⟩) (.inl ⟨?_, hpa, ?_, ?_⟩) hfits', released_of_le fun pg => ?_⟩
  · rw [hmapped', one_of_ne hpg, Nat.add_zero]
  · rw [hone]
    exact Int.lt_add_one_of_le (Int.le_of_lt hlive)
  · rw [hmapped', one_self, hone]
    omega
  · rw [hkept', h.live i hlive]
  · rw [hmapped']
    exact Nat.le_add_right ..

/-- A page of the free list is mapped, and recorded in a block if there is one. -/
theorem create_sound {pa : Nat} (hd : (k.procs a).pgdir = some d)
    (hlt : ((k.procs a).sz + pgSize) % uintMod < kernBase)
    (hroom : d.walk (pgRoundUp (k.procs a).sz) ≠ none ∨ 2 ≤ k.mem.free.length) (hprocs : k1.procs = k.procs)
    (hfree : k.mem.free = pa :: k1.mem.free)
    {s : SharedMemory} {ns : Int} (hrec : Recorded k.shared name pa ns s k1.mutexes)
    (hshared : k1.shared.mems = s.mems)
    (hmap : shmMap L k1 a d name pa = .ok (r, k')) : Sound k' ∧ Released k k' := by
  rw [← hprocs] at hd hlt hroom
  have hused := hrun.used
  have hfits := h.fits
  rw [← hprocs] at hused hfits
  have hroom' : d.walk (pgRoundUp (k1.procs a).sz) ≠ none ∨ k1.mem.free ≠ [] := by
    refine hroom.imp_right fun hlen hnil => ?_
    rw [hfree, hnil] at hlen
    exact absurd hlen (by simp)
  obtain ⟨htable, hmapped, hkept, hfits'⟩ := shmMap_maps hused hfits hd hlt hroom' hmap
  have hmapped' : ∀ pg, mapped k' pg = mapped k pg + one pa pg := fun pg => by
    rw [hmapped, mapped_procs hprocs]
  have hkept' : ∀ pg, kept k' pg + free k' pg + one pa pg = kept k pg + free k pg := fun pg => by
    rw [hkept, kept_procs hprocs]
    unfold free
    rw [hfree, List.count_cons, Nat.add_assoc]
    simp [one]
  have hheld : ∀ pg, held k' pg = held k pg := fun pg => by
    have := hmapped' pg
    have := hkept' pg
    unfold held
    omega
  have hreleased : Released k k' := released_of_le fun pg => by
    rw [hmapped']
    exact Nat.le_add_right ..
  -- the page was free, so nobody else holds it
  have hpos : 0 < free k pa := by
    unfold free
    rw [hfree]
    exact List.count_pos_iff.mpr List.mem_cons_self
  have hpriv := h.free_private hpos
  have hsingle := h.single pa hpriv
  rcases hrec with ⟨-, rfl, -⟩ | ⟨i, hidle, rfl, -⟩
  · refine ⟨h.rearranged (by rw [htable, hshared]) (fun pg => Nat.le_of_eq (hheld pg))
      (fun i _ => ?_) hfits', hreleased⟩
    rw [hmapped']
    exact Nat.le_add_right ..
  have hne : pa ≠ 0 := by
    rintro rfl
    have := h.zero
    unfold held at this
    omega
  have hself := hmapped' pa
  have hgone := hkept' pa
  rw [one_self] at hself hgone
  unfold held at hsingle
  have hlive : ¬ k.shared.Live i := by
    unfold SharedMemory.Live
    omega
  refine ⟨h.retabled hne (by rw [htable]; exact hshared) (fun j hj heq => absurd heq (hpriv j hj))
    (fun hl => absurd hl hlive) (fun pg hpg => ⟨?_, ?_⟩) (.inl ⟨Int.one_pos, rfl, ?_, ?_⟩) hfits',
    hreleased⟩
  · rw [hmapped', one_of_ne hpg, Nat.add_zero]
  · rw [← hkept' pg, one_of_ne hpg, Nat.add_zero]
  · dsimp only
    omega
  · omega

theorem shmGet_sound (hcare : GetsWithMemory k a name)
    (hget : shmGet L k a (some name) = .ok (r, k')) : Sound k' ∧ Released k k' := by
  have hrefl : Released k k := released_of_le fun _ => Nat.le_refl _
  rcases shmGet_ok hget with ⟨-, -, rfl⟩ | ⟨hlt, d, hd, ⟨hpa, hmap⟩ | ⟨hpa, x, k1, hcreate, hcase⟩⟩
  · exact ⟨h, hrefl⟩
  · obtain ⟨i, hfind, hpage, htable⟩ := shmAttach_found hpa
    have hroom := hcare d hd hlt
    rw [hfind] at hroom
    rw [hpage] at hmap
    refine attach_sound h hrun hd hlt hroom (findShm_live hfind) ?_ ?_ ?_ hmap
    · rfl
    · rfl
    · exact htable
  · obtain ⟨hfind, htable⟩ := shmAttach_zero h.regular.nonzero hpa
    have hroom := hcare d hd hlt
    rw [hfind] at hroom
    rw [htable] at hcreate
    obtain ⟨hprocs, -, hcreated⟩ := shmCreate_ok hcreate
    rcases hcreated with ⟨rfl, rfl, -⟩ | ⟨pa, m, hnum, hpage, hfree, hrecord⟩
    · rcases hcase with ⟨-, -, rfl⟩ | ⟨pa, hx, -⟩
      · exact ⟨h, hrefl⟩
      · cases hx
    obtain ⟨hsome, hmore⟩ := hroom hnum
    have hcons : k.mem.free = pa :: k1.mem.free := by
      rcases shmPage_ok hpage with hcons | ⟨hnil, -⟩
      · rw [hfree]
        exact hcons
      · exact absurd hnil hsome
    rcases hrecord with ⟨rfl, -⟩ | ⟨hne, rfl, -, s, hrec, hshared⟩
    · have hzero := h.zero
      have : 0 < free k 0 := by
        unfold free
        rw [hcons]
        exact List.count_pos_iff.mpr List.mem_cons_self
      unfold held at hzero
      omega
    · rcases hcase with ⟨hx, -⟩ | ⟨pa', hx, hmap⟩
      · cases hx
      · cases hx
        exact create_sound h hrun hd hlt hmore hprocs hcons hrec (by rw [hshared]) hmap

/-! ## `shm_rem` and `exit` -/

/-- `shm_rem` takes the entry at the recorded address out of the count. -/
theorem shmRem_counts (hsz : pgSize ≤ (k.procs a).sz)
    (hrem : shmRem L k a (some name) = .ok (r, k')) (hd : (k.procs a).pgdir = some d)
    (hproc : k'.procs a = (k.procs a).removed d i) (hbut : SameBut a k k') :
    (∀ pg, mapped k' pg + (d.entry ((k.procs a).shm i).va).uses pg = mapped k pg) ∧
      (∀ pg, kept k' pg = kept k pg) ∧ ∀ q, (k'.procs q).Fits := by
  have hused := hrun.used
  have hd' : (k'.procs a).pgdir = some (d.set ((k.procs a).shm i).va .zero) := by
    rw [hproc]
    unfold Proc.removed
    rfl
  have hstack : (k'.procs a).kstack = (k.procs a).kstack := by
    rw [hproc]
    unfold Proc.removed
    rfl
  have hcount := remapped hbut hused ((shmRem_at hrem).state a) hd hd' hstack
  refine ⟨fun pg => ?_, fun pg => ?_, fits_change h.fits hbut ?_⟩
  · have := hcount pg
    have := uses_clear d ((h.fits a hused).2 i) pg
    omega
  · have := (hcount pg).2
    rw [tables_set] at this
    omega
  · rw [hproc]
    exact removed_fits d i (h.fits a) hsz

theorem shmRem_sound (hcare : RemovesOwn k a name)
    (hrem : shmRem L k a (some name) = .ok (r, k')) :
    Sound k' ∧ Released k k' ∧ ∀ pg, free k pg ≤ free k' pg := by
  rcases shmRem_ok hrem with ⟨-, -, rfl⟩ | ⟨i, d, hi, hd, hproc, hbut, hdetach⟩
  · exact ⟨h, released_of_le fun _ => Nat.le_refl _, fun _ => Nat.le_refl _⟩
  obtain ⟨hsz, hentry⟩ := hcare i d hi hd
  obtain ⟨hmapped, hkept, hfits⟩ := shmRem_counts h hrun hsz hrem hd hproc hbut
  unfold BlockAt at hentry
  generalize d.entry ((k.procs a).shm i).va = pte at hentry hmapped
  obtain ⟨_, _, hcase⟩ := shmDetach_ok hdetach
  have hshared : (k.update a fun p => p.removed d i).shared = k.shared := rfl
  have hmem : (k.update a fun p => p.removed d i).mem = k.mem := rfl
  rw [hshared, hmem] at hcase
  rcases hcase with ⟨hfind, -, hsame, htable⟩ | ⟨j, hfind, hcase⟩
  · have hfree : ∀ pg, free k' pg = free k pg := fun pg => by
      unfold free
      rw [hsame]
    rw [hfind] at hentry
    have hmapped' : ∀ pg, mapped k' pg = mapped k pg := fun pg => by
      have := hmapped pg
      rwa [uses_absent hentry, Nat.add_zero] at this
    refine ⟨h.rearranged (by rw [htable]) (fun pg => ?_)
      (fun i _ => Nat.le_of_eq (hmapped' _).symm) hfits,
      released_of_le fun pg => Nat.le_of_eq (hmapped' pg).symm, fun pg => Nat.le_of_eq (hfree pg).symm⟩
    unfold held
    rw [hmapped', hkept, hfree]
  · rw [hfind] at hentry
    have hlive := findShm_live hfind
    have hpos : 0 < (k.shared.mems j).ref := hlive
    have hnonzero := h.regular.nonzero j hlive
    have href := h.ref j hlive
    have hkeeps := h.live j hlive
    have hone : ∀ pg, pte.uses pg = one (k.shared.mems j).pa pg := fun pg => by
      simp [Pte.uses, one, hentry.1, hentry.2]
    have hself := hmapped (k.shared.mems j).pa
    rw [hone, one_self] at hself
    have hother : ∀ pg, pg ≠ (k.shared.mems j).pa → mapped k' pg = mapped k pg := fun pg hpg => by
      have := hmapped pg
      rwa [hone, one_of_ne hpg, Nat.add_zero] at this
    have hunique : ∀ i, k.shared.Live i → (k.shared.mems i).pa = (k.shared.mems j).pa → i = j :=
      fun i hi heq => h.regular.unique i j hi hlive heq
    -- only the block's page loses a mapping
    have hreleased : (mapped k' (k.shared.mems j).pa = 0 → free k' (k.shared.mems j).pa = 1) →
        Released k k' := by
      intro hpage pg hpg hgone
      by_cases hq : pg = (k.shared.mems j).pa
      · rw [hq] at hgone ⊢
        exact hpage hgone
      · rw [hother pg hq] at hgone
        omega
    rcases hcase with ⟨hmany, -, hsame, htable⟩ | ⟨hlast, hback, htable⟩
    · have hfree : ∀ pg, free k' pg = free k pg := fun pg => by
        unfold free
        rw [hsame]
      refine ⟨h.retabled hnonzero htable hunique (fun _ => rfl)
        (fun pg hpg => ⟨hother pg hpg, by rw [hkept, hfree]⟩) (.inl ⟨?_, rfl, ?_, ?_⟩) hfits,
        hreleased fun hgone => ?_, fun pg => Nat.le_of_eq (hfree pg).symm⟩
      · dsimp only
        omega
      · dsimp only
        omega
      · rw [hkept, hfree, hkeeps]
      · omega
    · have hfree : ∀ pg, free k' pg = free k pg + one (k.shared.mems j).pa pg :=
        fun pg => (kfree_ok hback).2.2 pg
      have hback' := hfree (k.shared.mems j).pa
      rw [one_self] at hback'
      refine ⟨h.retabled hnonzero htable hunique (fun _ => rfl)
        (fun pg hpg => ⟨hother pg hpg, by rw [hkept, hfree, one_of_ne hpg, Nat.add_zero]⟩)
        (.inr ⟨rfl, rfl, ?_⟩) hfits, hreleased fun _ => ?_, fun pg => ?_⟩
      · unfold held
        rw [hkept]
        omega
      · omega
      · rw [hfree]
        exact Nat.le_add_right ..

/-- `shm_rem` takes a block out of use only with the last mapping of its page. -/
theorem shmRem_blocks (hcare : RemovesOwn k a name) (hrem : shmRem L k a (some name) = .ok (r, k')) :
    (∀ j, k'.shared.Live j → k.shared.Live j ∧ (k'.shared.mems j).name = (k.shared.mems j).name) ∧
      ∀ j, k.shared.Live j → 0 < mapped k' (k.shared.mems j).pa →
        k'.shared.Live j ∧ (k'.shared.mems j).pa = (k.shared.mems j).pa := by
  have hsame : ∀ j, k'.shared.mems j = k.shared.mems j →
      (k'.shared.Live j → k.shared.Live j ∧ (k'.shared.mems j).name = (k.shared.mems j).name) ∧
      (k.shared.Live j → 0 < mapped k' (k.shared.mems j).pa →
        k'.shared.Live j ∧ (k'.shared.mems j).pa = (k.shared.mems j).pa) := by
    intro j hj
    unfold SharedMemory.Live
    rw [hj]
    exact ⟨fun hlive => ⟨hlive, rfl⟩, fun hlive _ => ⟨hlive, rfl⟩⟩
  rw [← forall_and]
  intro j
  rcases shmRem_ok hrem with ⟨-, -, rfl⟩ | ⟨i, d, hi, hd, hproc, hbut, hdetach⟩
  · exact hsame j rfl
  obtain ⟨hsz, hentry⟩ := hcare i d hi hd
  unfold BlockAt at hentry
  obtain ⟨_, _, ⟨-, -, -, htable⟩ | ⟨b, hfind, hcase⟩⟩ := shmDetach_ok hdetach
  · exact hsame j (by rw [htable]; rfl)
  change findShm k.shared name = some b at hfind
  rw [hfind] at hentry
  by_cases hj : j = b
  · subst hj
    have hlive : 0 < (k.shared.mems j).ref := findShm_live hfind
    unfold SharedMemory.Live
    rcases hcase with ⟨hmany, -, -, htable⟩ | ⟨hlast, -, htable⟩
    · change (k.shared.mems j).ref ≠ 1 at hmany
      rw [htable, mems_update_self]
      exact ⟨fun _ => ⟨hlive, rfl⟩, fun _ _ => ⟨by change 0 < (k.shared.mems j).ref - 1; omega, rfl⟩⟩
    · have hmapped := (shmRem_counts h hrun hsz hrem hd hproc hbut).1 (k.shared.mems j).pa
      have href := h.ref j hlive
      have huse : (d.entry ((k.procs a).shm i).va).uses (k.shared.mems j).pa = 1 := if_pos hentry
      change (k.shared.mems j).ref = 1 at hlast
      rw [htable, mems_update_self]
      exact ⟨fun hc => absurd hc (Int.lt_irrefl 0), fun _ hpos => by omega⟩
  · refine hsame j ?_
    rcases hcase with ⟨-, -, -, htable⟩ | ⟨-, -, htable⟩ <;>
    · rw [htable, mems_update_of_ne _ _ hj]
      rfl

/-- `shm_rem` leaves the other mappings as they are. -/
theorem OwnMappings.removed {is : List (Fin shmMaxNum)} (hi : i ∉ is)
    (hcare : ∀ d, (k.procs a).pgdir = some d → OwnMappings k.shared (k.procs a) d (i :: is))
    (hva : ((k.procs a).shm i).va ≠ 0)
    (hrem : shmRem L k a (some ((k.procs a).shm i).name) = .ok (r, k')) :
    ∀ d, (k'.procs a).pgdir = some d → OwnMappings k'.shared (k'.procs a) d is := by
  have hused := hrun.used
  obtain ⟨hfewer, hkept⟩ := shmRem_blocks h hrun (removesOwn hcare hva) hrem
  rcases shmRem_ok hrem with ⟨hnone, -, rfl⟩ | ⟨j, d, hj, hd, hproc, -⟩
  · exact fun d hd => (hcare d hd).tail
  have hown := hcare d hd
  obtain rfl : i = j := Option.some.inj ((hown.first i List.mem_cons_self hva).symm.trans hj)
  have hshm : ∀ j ∈ is, (k'.procs a).shm j = (k.procs a).shm j := by
    intro j hj
    rw [hproc]
    exact Function.update_of_ne (fun (hc : j = i) => hi (hc ▸ hj)) ..
  have hd' : (k'.procs a).pgdir = some (d.set ((k.procs a).shm i).va .zero) := by
    rw [hproc]
    rfl
  have hused' : (k'.procs a).state ≠ .unused := by
    rw [(shmRem_at hrem).state a]
    exact hused
  intro d' hd''
  obtain rfl := Option.some.inj (hd'.symm.trans hd'')
  refine ⟨?_, fun j hj hj' => ?_, fun j hj l hl => ?_, fun j hj hj' => ?_⟩
  · have hsize := hown.size
    rw [List.countP_cons, if_pos (decide_eq_true hva), Nat.succ_mul] at hsize
    have hcount : (is.countP fun j => ((k'.procs a).shm j).va ≠ 0) = is.countP fun j => ((k.procs a).shm j).va ≠ 0 :=
      List.countP_congr fun j hj => by rw [hshm j hj]
    have hsz : (k'.procs a).sz = (k.procs a).sz - pgSize := by
      rw [hproc]
      exact szLess_of_le (h.fits a hused).1 (Nat.le_trans (Nat.le_add_left ..) hsize)
    rw [hcount, hsz]
    exact Nat.le_sub_of_add_le hsize
  · rw [hshm j hj] at hj' ⊢
    rw [← hown.first j (List.mem_cons_of_mem _ hj) hj', hproc]
    unfold mappingOf
    congr 1
    funext l
    by_cases hl : l = i
    · rw [hl]
      simp [Proc.removed]
    · simp [Proc.removed, Function.update_of_ne hl]
  · rw [hshm j hj, hshm l hl]
    exact hown.apart j (List.mem_cons_of_mem _ hj) l (List.mem_cons_of_mem _ hl)
  · rw [hshm j hj] at hj' ⊢
    have hat := hown.own j (List.mem_cons_of_mem _ hj) hj'
    have hentry := entry_set_of_ne d (c := ((k.procs a).shm j).va) (b := ((k.procs a).shm i).va) .zero
      fun hc => hi (hown.apart j (List.mem_cons_of_mem _ hj) i List.mem_cons_self hj' hva hc ▸ hj)
    have hlt : ((k'.procs a).shm j).va < kernBase := by
      rw [hshm j hj]
      exact (h.fits a hused).2 j
    have hblock : ∀ b, findShm k.shared ((k.procs a).shm j).name = some b →
        (d.entry ((k.procs a).shm j).va).present = true ∧
          k'.shared.Live b ∧ (k'.shared.mems b).pa = (d.entry ((k.procs a).shm j).va).addr := by
      intro b hb
      unfold BlockAt at hat
      rw [hb] at hat
      have hpos := mapped_pos hused' hd' hlt
      rw [hshm j hj, hentry, hat.2] at hpos
      rw [hat.2]
      exact ⟨hat.1, hkept b (findShm_live hb) (hpos hat.1)⟩
    unfold BlockAt at hat ⊢
    rw [findShm_fewer hfewer fun b hb => (hblock b hb).2.1, hentry]
    cases hb : findShm k.shared ((k.procs a).shm j).name with
    | none =>
      rw [hb] at hat
      exact hat
    | some b => exact ⟨(hblock b hb).1, (hblock b hb).2.2.symm⟩

theorem exitShm_sound {is : List (Fin shmMaxNum)} (hnodup : is.Nodup)
    (hcare : ∀ d, (k.procs a).pgdir = some d → OwnMappings k.shared (k.procs a) d is)
    (hexit : exitShm L a is k = .ok k') : Sound k' ∧ Released k k' ∧ ∀ pg, free k pg ≤ free k' pg := by
  induction is generalizing k with
  | nil =>
    cases hexit
    exact ⟨h, released_of_le fun _ => Nat.le_refl _, fun _ => Nat.le_refl _⟩
  | cons i is ih =>
    obtain ⟨hi, hnodup⟩ := List.nodup_cons.mp hnodup
    simp only [exitShm] at hexit
    split at hexit
    · rename_i hva
      obtain ⟨⟨r, k1⟩, hrem, hrest⟩ := bind_eq_ok.mp hexit
      obtain ⟨hsound, hreleased, hfree⟩ := shmRem_sound h hrun (OwnMappings.removesOwn hcare hva) hrem
      have hrun1 : (k1.procs a).CanRun := by
        unfold Proc.CanRun
        rw [(shmRem_at hrem).state a]
        exact hrun
      obtain ⟨hsound', hreleased', hfree'⟩ := ih hsound hrun1 hnodup (OwnMappings.removed h hrun hi hcare hva hrem) hrest
      exact ⟨hsound', hreleased.trans hreleased' hsound' hfree',
        fun pg => Nat.le_trans (hfree pg) (hfree' pg)⟩
    · exact ih h hrun hnodup (fun d hd => (hcare d hd).tail) hexit

theorem exit_sound (hcare : ExitsOwn k a) (hexit : exit L k a = .ok k') :
    Sound k' ∧ Released k k' := by
  obtain ⟨k1, hshm, hsame⟩ := exit_ok hrun hexit
  obtain ⟨hsound, hreleased, _⟩ := exitShm_sound h hrun (List.nodup_finRange _) hcare hshm
  obtain ⟨hsound', hmapped, hfree⟩ := hsame.sound hsound
  refine ⟨hsound', hreleased.trans ?_ hsound' fun pg => Nat.le_of_eq (hfree pg).symm⟩
  exact released_of_le fun pg => Nat.le_of_eq (hmapped pg).symm

end Calls

/-! ## Runs -/

/-- The condition on a call, in the state before it. -/
def Careful (k : State) (e : Event) : Prop :=
  match e.call with
  | .shmGet none => True
  | .shmGet (some name) => GetsWithMemory k e.slot name
  | .shmRem none => True
  | .shmRem (some name) => RemovesOwn k e.slot name
  | .growproc n => ResizesPrivate k e.slot n
  | .fork => ForksWithMemory k e.slot
  | .exec _ _ _ => MapsPrivate k e.slot
  | .exit => ExitsOwn k e.slot
  | .wait => ∀ p, (k.procs p).state = .zombie → (k.procs p).parent = some e.slot → MapsPrivate k p
  | .maxproc _ => True

theorem step_sound {e : Event} (h : Sound k) (hcare : Careful k e) (hstep : Step L k e k') :
    Sound k' ∧ Released k k' := by
  obtain ⟨a, c, r⟩ := e
  obtain ⟨hrun, hcall⟩ := hstep
  unfold Careful at hcare
  have hrefl : Released k k := released_of_le fun _ => Nat.le_refl _
  cases call_did hcall with
  | @shmGet name r hget =>
    cases name with
    | none =>
      cases hget
      exact ⟨h, hrefl⟩
    | some name => exact shmGet_sound h hrun hcare hget
  | @shmRem name r hrem =>
    cases name with
    | none =>
      cases hrem
      exact ⟨h, hrefl⟩
    | some name =>
      obtain ⟨hsound, hreleased, _⟩ := shmRem_sound h hrun hcare hrem
      exact ⟨hsound, hreleased⟩
  | growproc hgrow => exact growproc_sound h hrun hcare hgrow
  | fork hfork => exact fork_sound h hrun hcare hfork
  | exec hexec => exact exec_sound h hrun hcare hexec
  | exit hexit => exact exit_sound h hrun hcare hexit
  | wait hwait => exact wait_sound h hrun hcare hwait
  | maxproc hmax =>
    obtain ⟨hsound, hmapped, _⟩ := (doMaxproc_spaces hmax).sound h
    exact ⟨hsound, released_of_le fun pg => Nat.le_of_eq (hmapped pg).symm⟩

/-- The state before the first call: no block is in use, no page is held twice, and page `0`
by nobody. -/
structure Booted (k : State) : Prop where
  idle : ∀ i, (k.shared.mems i).ref = 0 ∧ (k.shared.mems i).pa = 0
  single : ∀ pg, held k pg ≤ 1
  zero : held k 0 = 0
  fits : ∀ q, (k.procs q).Fits

theorem Booted.sound (h : Booted k) : Sound k := by
  have hidle : ∀ i, ¬ k.shared.Live i := by
    intro i hi
    unfold SharedMemory.Live at hi
    rw [(h.idle i).1] at hi
    exact absurd hi (by decide)
  exact
    { regular :=
        { nonneg := fun i => Int.le_of_eq (h.idle i).1.symm
          idle := fun i _ => (h.idle i).2
          nonzero := fun i hi => absurd hi (hidle i)
          unique := fun i _ hi => absurd hi (hidle i) }
      ref := fun i hi => absurd hi (hidle i)
      live := fun i hi => absurd hi (hidle i)
      single := fun pg _ => h.single pg
      zero := h.zero
      fits := h.fits }

/-- The reference count of each block is the number of mappings of its page, and the pages of
blocks in use, mapped pages and the free list are apart. -/
structure Owned (k : State) : Prop where
  ref : ∀ i, (k.shared.mems i).ref = mapped k (k.shared.mems i).pa
  live : ∀ i, 0 < (k.shared.mems i).ref → (k.shared.mems i).pa ∉ k.mem.free
  mapped : ∀ pg, 0 < mapped k pg → pg ∉ k.mem.free
  once : k.mem.free.Nodup

theorem Sound.owned (h : Sound k) : Owned k where
  ref := by
    intro i
    by_cases hi : k.shared.Live i
    · exact (h.ref i hi).symm
    have hzero : (k.shared.mems i).ref = 0 := by
      have := h.regular.nonneg i
      unfold SharedMemory.Live at hi
      omega
    have := h.zero
    rw [hzero, h.regular.idle i hzero]
    unfold held at this
    omega
  live := h.not_free
  mapped := by
    intro pg hpg
    have := h.mapped_only hpg
    exact List.count_eq_zero.mp (by unfold free at this; omega)
  once := List.nodup_iff_count_le_one.mpr h.free_le_one

/-- In a run from a booted machine whose calls are all careful, blocks and pages are in order
in every state, and with each call a page that loses its last mapping goes to the free list. -/
theorem shared_pages_owned {L : Layout} {k0 k : State} {es : List Event} (h : Booted k0)
    (hrun : Run (Guarded (Step L) Careful) k0 es k) :
    Owned k ∧ ∀ e k', Careful k e → Step L k e k' → Released k k' := by
  have hkeeps : ∀ s e t, Sound s → Careful s e → Step L s e t → Sound t :=
    fun s e t hs hcare hstep => (step_sound hs hcare hstep).1
  have hsound := hrun.invariant_of_guarded hkeeps h.sound
  exact ⟨hsound.owned, fun e k' hcare hstep => (step_sound hsound hcare hstep).2⟩

/-! ## A page freed in use

One process with an image of one page calls `shm_get("a")` and then `sbrk(-4096)`.
-/

abbrev imageDir : PgDir := lonePage 0x400000 0

def imageProc : Proc :=
  { unusedProc with
    sz := pgSize
    pgdir := some imageDir
    kstack := some 0x404000
    state := .running
    pid := 1
    cwd := some 0 }

def imageMachine : State :=
  { smallMachine with
    procs := fun p => if p = 0 then imageProc else unusedProc
    nextpid := 2
    mem := onlyFree [0x405000, 0x406000, 0x407000]
    shared := ⟨0, fun _ => ⟨[], 0, 0, 0⟩⟩
    mutexes := Sync.mutexInit }

theorem imageMachine_unused {q : Slot} (h : q ≠ 0) : imageMachine.procs q = unusedProc := if_neg h

theorem imageDir_uses (pg : Nat) : imageDir.uses pg = one 0x402000 pg := by
  have hsum : imageDir.uses pg = (imageDir.entry (0 * pgSize)).uses pg := by
    refine Finset.sum_eq_single 0 (fun v hv hne => ?_) fun hc => absurd (Finset.mem_range.mpr (by decide)) hc
    have hlt := Finset.mem_range.mp hv
    simp only [userPages, kernBase, pgSize] at hlt
    rw [lonePage_entry _ _ (by simp only [kernBase, pgSize]; omega), if_neg]
    · exact uses_absent rfl pg
    · simp only [pdx, ptx, pgSize]
      omega
  rw [hsum]
  exact uses_present ..

theorem imageDir_tables (pg : Nat) :
    imageDir.tables pg = one 0x400000 pg + (one 0x401000 pg + one 0x403000 pg) := by
  have hpde : ∀ i, (if (imageDir.pde i).map PgTab.page = some pg then 1 else 0) =
      (if i = 0 then one 0x401000 pg else 0) + if i = 512 then one 0x403000 pg else 0 := by
    intro i
    unfold imageDir lonePage one
    by_cases hzero : i = 0
    · simp [hzero, pgSize]
    · by_cases hkern : i = 512 <;> simp [hzero, hkern, pdx, kernBase, pgSize]
  have hsum : ∀ j n, j < npdEntries → (∑ i ∈ Finset.range npdEntries, if i = j then n else 0) = n := fun j n hj =>
    (Finset.sum_eq_single j (fun i _ hne => if_neg hne) fun hc => absurd (Finset.mem_range.mpr hj) hc).trans
      (if_pos rfl)
  unfold PgDir.tables
  rw [Finset.sum_congr rfl fun i _ => hpde i, Finset.sum_add_distrib, hsum 0 _ (by decide), hsum 512 _ (by decide)]
  rfl

theorem imageMachine_held (pg : Nat) : held imageMachine pg =
    [0x400000, 0x401000, 0x402000, 0x403000, 0x404000, 0x405000, 0x406000, 0x407000].count pg := by
  have hused : imageProc.state ≠ .unused := by decide
  have hmapped : mapped imageMachine pg = imageProc.maps pg :=
    Finset.sum_eq_single 0 (fun q _ hq => by rw [imageMachine_unused hq]; exact maps_unused rfl pg)
      fun hc => absurd (Finset.mem_univ _) hc
  have hkept : kept imageMachine pg = imageProc.keeps pg :=
    Finset.sum_eq_single 0 (fun q _ hq => by rw [imageMachine_unused hq]; exact keeps_unused rfl pg)
      fun hc => absurd (Finset.mem_univ _) hc
  have hfree : free imageMachine pg = [0x405000, 0x406000, 0x407000].count pg := rfl
  have hstack : imageProc.stack pg = one 0x404000 pg := rfl
  unfold held
  rw [hmapped, hkept, hfree, maps_of_used (d := imageDir) hused rfl, keeps_of_used (d := imageDir) hused rfl,
    imageDir_uses, imageDir_tables, hstack]
  simp only [List.count_cons, List.count_nil, beq_iff_eq, one]
  omega

theorem imageMachine_booted : Booted imageMachine where
  idle := fun _ => ⟨rfl, rfl⟩
  single := by
    intro pg
    rw [imageMachine_held]
    exact List.nodup_iff_count_le_one.mp (by decide) pg
  zero := by
    rw [imageMachine_held]
    decide
  fits := by
    intro q hq
    by_cases hzero : q = 0
    · rw [hzero]
      exact ⟨by decide, fun _ => Nat.zero_lt_succ _⟩
    · rw [imageMachine_unused hzero] at hq
      exact absurd rfl hq

/-- With more memory and a region after `sbrk(4096)` and `shm_get("a")`. -/
theorem shared_pages_owned_image : ∃ k,
    Run (Guarded (Step smallLayout) Careful) imageMachine
      [⟨0, .growproc 4096, some 0⟩, ⟨0, .shmGet (some [97]), some 8192⟩] k ∧
    (k.shared.mems 0).ref = 1 ∧ Owned k := by
  have hruns : (next smallLayout imageMachine ⟨0, .growproc 4096, some 0⟩).any fun k1 =>
      (k1.mem.free = [0x406000, 0x407000] ∧ findShm k1.shared [97] = none) ∧
        (next smallLayout k1 ⟨0, .shmGet (some [97]), some 8192⟩).any fun k => (k.shared.mems 0).ref = 1 := by
    decide +kernel
  obtain ⟨k1, hgrow, ⟨hfree, hfind⟩, hruns⟩ := exists_of_any hruns
  obtain ⟨k, hget, href⟩ := exists_of_any hruns
  have hidle : ∀ i, ¬ imageMachine.shared.Live i := by
    unfold SharedMemory.Live
    decide
  have hcare : GetsWithMemory k1 0 [97] := by
    intro d _ _
    rw [hfind, hfree]
    exact fun _ => ⟨List.cons_ne_nil _ _, .inr (by decide)⟩
  have hrun : Run (Guarded (Step smallLayout) Careful) imageMachine
      [⟨0, .growproc 4096, some 0⟩, ⟨0, .shmGet (some [97]), some 8192⟩] k :=
    .cons ⟨fun _ _ _ _ _ i hi => absurd hi (hidle i), step_of_next hgrow⟩ (.single ⟨hcare, step_of_next hget⟩)
  exact ⟨k, hrun, href, (shared_pages_owned imageMachine_booted hrun).1⟩

/-- `sbrk(-4096)` frees the shared page: the block is still in use, and its page is on the
free list. -/
theorem sbrk_frees_shared_page : Booted imageMachine ∧ ∃ k, Run (Step smallLayout) imageMachine
      [⟨0, .shmGet (some [97]), some 4096⟩, ⟨0, .growproc (-4096), some 0⟩] k ∧
    (k.shared.mems 0).ref = 1 ∧ (k.shared.mems 0).pa ∈ k.mem.free :=
  ⟨imageMachine_booted, Run.found step_of_next (fun k => (k.shared.mems 0).ref = 1 ∧ (k.shared.mems 0).pa ∈ k.mem.free)
    (by decide +kernel) fun _ _ h => h⟩

end Xv6.Kernel
