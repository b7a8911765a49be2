import Mathlib.Data.Fintype.Basic
import Xv6.Lib.Count
import Xv6.Kernel.PageFlow
import Xv6.Kernel.Lifecycle

/-! # Who holds a page

A page of the allocator is on the free list, in use by the kernel as a page table or a kernel
stack, or mapped by processes. `Sound` says that only the pages of blocks in use are held more
than once, and that the reference count of such a block is the number of its mappings.
-/

namespace Xv6.Kernel

open Lib Vm

/-! ## Counting -/

/-- The user entries of a process that map a page. The mapping of all memory in the kernel's
half of a page table is not counted. -/
def Proc.maps (p : Proc) (pg : Nat) : Nat :=
  if p.state = .unused then 0 else (p.pgdir.map (·.uses pg)).getD 0

/-- The times a page is the kernel stack of a process. -/
def Proc.stack (p : Proc) (pg : Nat) : Nat := (p.kstack.map (one · pg)).getD 0

/-- The times a page is a page table or the kernel stack of a process. -/
def Proc.keeps (p : Proc) (pg : Nat) : Nat :=
  if p.state = .unused then 0 else (p.pgdir.map (·.tables pg)).getD 0 + p.stack pg

def mapped (k : State) (pg : Nat) : Nat := ∑ q, (k.procs q).maps pg

def kept (k : State) (pg : Nat) : Nat := ∑ q, (k.procs q).keeps pg

def free (k : State) (pg : Nat) : Nat := k.mem.free.count pg

def held (k : State) (pg : Nat) : Nat := mapped k pg + kept k pg + free k pg

section Counting

variable {p p' : Proc} {d d' : PgDir} {k k' : State} {a : Slot}

theorem maps_unused (h : p.state = .unused) (pg : Nat) : p.maps pg = 0 := if_pos h

theorem keeps_unused (h : p.state = .unused) (pg : Nat) : p.keeps pg = 0 := if_pos h

theorem maps_of_used (h : p.state ≠ .unused) (hd : p.pgdir = some d) (pg : Nat) :
    p.maps pg = d.uses pg := by
  unfold Proc.maps
  rw [if_neg h, hd, Option.map_some, Option.getD_some]

theorem keeps_of_used (h : p.state ≠ .unused) (hd : p.pgdir = some d) (pg : Nat) :
    p.keeps pg = d.tables pg + p.stack pg := by
  unfold Proc.keeps
  rw [if_neg h, hd, Option.map_some, Option.getD_some]

theorem SameSpace.maps (h : SameSpace p p') (pg : Nat) : p'.maps pg = p.maps pg := by
  by_cases hp : p.state = .unused
  · rw [maps_unused hp, maps_unused (h.unused.mpr hp)]
  · unfold Proc.maps
    rw [if_neg hp, if_neg fun hc => hp (h.unused.mp hc), h.pgdir hp]

theorem SameSpace.keeps (h : SameSpace p p') (pg : Nat) : p'.keeps pg = p.keeps pg := by
  by_cases hp : p.state = .unused
  · rw [keeps_unused hp, keeps_unused (h.unused.mpr hp)]
  · unfold Proc.keeps Proc.stack
    rw [if_neg hp, if_neg fun hc => hp (h.unused.mp hc), h.pgdir hp, h.kstack hp]

theorem mapped_congr (h : ∀ q pg, (k'.procs q).maps pg = (k.procs q).maps pg) (pg : Nat) :
    mapped k' pg = mapped k pg := Finset.sum_congr rfl fun q _ => h q pg

theorem kept_congr (h : ∀ q pg, (k'.procs q).keeps pg = (k.procs q).keeps pg) (pg : Nat) :
    kept k' pg = kept k pg := Finset.sum_congr rfl fun q _ => h q pg

theorem mapped_procs (h : k'.procs = k.procs) (pg : Nat) : mapped k' pg = mapped k pg := by
  unfold mapped
  rw [h]

theorem kept_procs (h : k'.procs = k.procs) (pg : Nat) : kept k' pg = kept k pg := by
  unfold kept
  rw [h]

theorem mapped_change (h : SameBut a k k') (pg : Nat) :
    mapped k' pg + (k.procs a).maps pg = mapped k pg + (k'.procs a).maps pg :=
  sum_change (f := fun q => (k'.procs q).maps pg) (g := fun q => (k.procs q).maps pg)
    (Finset.mem_univ a) fun q _ hq => by rw [h q hq]

theorem kept_change (h : SameBut a k k') (pg : Nat) :
    kept k' pg + (k.procs a).keeps pg = kept k pg + (k'.procs a).keeps pg :=
  sum_change (f := fun q => (k'.procs q).keeps pg) (g := fun q => (k.procs q).keeps pg)
    (Finset.mem_univ a) fun q _ hq => by rw [h q hq]

theorem remapped (h : SameBut a k k') (hused : (k.procs a).state ≠ .unused)
    (hstate : (k'.procs a).state = (k.procs a).state) (hd : (k.procs a).pgdir = some d)
    (hd' : (k'.procs a).pgdir = some d') (hstack : (k'.procs a).kstack = (k.procs a).kstack)
    (pg : Nat) :
    mapped k' pg + d.uses pg = mapped k pg + d'.uses pg ∧
      kept k' pg + d.tables pg = kept k pg + d'.tables pg := by
  have hused' : (k'.procs a).state ≠ .unused := by rwa [hstate]
  have hmapped := mapped_change h pg
  have hkept := kept_change h pg
  rw [maps_of_used hused hd, maps_of_used hused' hd'] at hmapped
  rw [keeps_of_used hused hd, keeps_of_used hused' hd'] at hkept
  unfold Proc.stack at hkept
  rw [hstack] at hkept
  exact ⟨hmapped, by omega⟩

theorem maps_le_mapped (k : State) (q : Slot) (pg : Nat) : (k.procs q).maps pg ≤ mapped k pg :=
  Finset.single_le_sum (f := fun q => (k.procs q).maps pg) (fun _ _ => Nat.zero_le _)
    (Finset.mem_univ q)

end Counting

/-! ## The invariant -/

/-- The size and the recorded mappings of a process lie in user memory. -/
def Proc.Fits (p : Proc) : Prop :=
  p.state ≠ .unused → p.sz ≤ kernBase ∧ ∀ i, (p.shm i).va < kernBase

theorem SameSpace.fits {p p' : Proc} (h : SameSpace p p') (hp : p.Fits) : p'.Fits := by
  intro hused
  have hused' : p.state ≠ .unused := fun hc => hused (h.unused.mpr hc)
  rw [h.sz hused', h.shm hused']
  exact hp hused'

theorem fits_change {k k' : State} {a : Slot} (h : ∀ q, (k.procs q).Fits) (hbut : SameBut a k k')
    (ha : (k'.procs a).Fits) (q : Slot) : (k'.procs q).Fits := by
  by_cases hq : q = a
  · rw [hq]
    exact ha
  · rw [hbut q hq]
    exact h q

structure Sound (k : State) : Prop where
  regular : k.shared.Regular
  ref : ∀ i, k.shared.Live i → (mapped k (k.shared.mems i).pa : Int) = (k.shared.mems i).ref
  live : ∀ i, k.shared.Live i → kept k (k.shared.mems i).pa + free k (k.shared.mems i).pa = 0
  single : ∀ pg, k.shared.Private pg → held k pg ≤ 1
  zero : held k 0 = 0
  fits : ∀ q, (k.procs q).Fits

/-- A page that loses its last mapping is on the free list afterwards, once. -/
def Released (k k' : State) : Prop :=
  ∀ pg, 0 < mapped k pg → mapped k' pg = 0 → free k' pg = 1

section Invariant

variable {k k' : State}

theorem live_or_private (s : SharedMemory) (pg : Nat) :
    (∃ i, s.Live i ∧ (s.mems i).pa = pg) ∨ s.Private pg := by
  by_cases h : ∃ i, s.Live i ∧ (s.mems i).pa = pg
  · exact .inl h
  · exact .inr fun i hi hpa => h ⟨i, hi, hpa⟩

theorem Sound.mapped_only (h : Sound k) {pg : Nat} (hpg : 0 < mapped k pg) :
    kept k pg + free k pg = 0 := by
  rcases live_or_private k.shared pg with ⟨i, hi, rfl⟩ | hpriv
  · exact h.live i hi
  · have := h.single pg hpriv
    unfold held at this
    omega

theorem Sound.free_le_one (h : Sound k) (pg : Nat) : free k pg ≤ 1 := by
  rcases live_or_private k.shared pg with ⟨i, hi, rfl⟩ | hpriv
  · have := h.live i hi
    omega
  · have := h.single pg hpriv
    unfold held at this
    omega

theorem Sound.free_private (h : Sound k) {pg : Nat} (hpg : 0 < free k pg) : k.shared.Private pg := by
  intro i hi hpa
  have := h.live i hi
  rw [hpa] at this
  omega

theorem Sound.not_free (h : Sound k) (i : Fin shmMaxNum) (hi : k.shared.Live i) :
    (k.shared.mems i).pa ∉ k.mem.free := by
  have := h.live i hi
  exact List.count_eq_zero.mp (by unfold free at this; omega)

theorem entry_uses_le (d : PgDir) {b : Nat} (hb : b < kernBase) (pg : Nat) : (d.entry b).uses pg ≤ d.uses pg := by
  have hpage : d.entry b = d.entry (b / pgSize * pgSize) :=
    entry_samePage (samePage_of_roundDown (lt_uintMod hb) rfl)
  rw [hpage]
  refine Finset.single_le_sum (f := fun v => (d.entry (v * pgSize)).uses pg)
    (fun _ _ => Nat.zero_le _) (Finset.mem_range.mpr ?_)
  simp only [userPages, kernBase, pgSize] at *
  omega

theorem mapped_pos {k : State} {a : Slot} {d : PgDir} (hused : (k.procs a).state ≠ .unused)
    (hd : (k.procs a).pgdir = some d) {b : Nat} (hb : b < kernBase) (hpresent : (d.entry b).present = true) :
    0 < mapped k (d.entry b).addr := by
  have hle := maps_le_mapped k a (d.entry b).addr
  have huse := entry_uses_le d hb (d.entry b).addr
  rw [maps_of_used hused hd] at hle
  simp only [Pte.uses, hpresent, and_self, if_true] at huse
  omega

theorem Sound.entry_ne_zero (h : Sound k) {a : Slot} {d : PgDir}
    (hused : (k.procs a).state ≠ .unused) (hd : (k.procs a).pgdir = some d) {b : Nat}
    (hb : b < kernBase) (hpresent : (d.entry b).present = true) : (d.entry b).addr ≠ 0 := by
  intro haddr
  have hpos := mapped_pos hused hd hb hpresent
  have hzero := h.zero
  rw [haddr] at hpos
  unfold held at hzero
  omega

theorem released_of_le (h : ∀ pg, mapped k pg ≤ mapped k' pg) : Released k k' := by
  intro pg hpg hgone
  have := h pg
  omega

/-- Blocks keep their references if their pages keep their mappings and no page is held more
often than before. -/
theorem Sound.rearranged (h : Sound k) (hmems : k'.shared.mems = k.shared.mems)
    (hheld : ∀ pg, held k' pg ≤ held k pg)
    (hlive : ∀ i, k.shared.Live i → mapped k (k.shared.mems i).pa ≤ mapped k' (k.shared.mems i).pa)
    (hfits : ∀ q, (k'.procs q).Fits) : Sound k' := by
  have hpage : ∀ i, k.shared.Live i →
      mapped k' (k.shared.mems i).pa = mapped k (k.shared.mems i).pa ∧
        kept k' (k.shared.mems i).pa + free k' (k.shared.mems i).pa = 0 := by
    intro i hi
    have := h.live i hi
    have := hheld (k.shared.mems i).pa
    have := hlive i hi
    unfold held at *
    omega
  refine ⟨h.regular.congr hmems, fun i hi => ?_, fun i hi => ?_, fun pg hpg => ?_, ?_, hfits⟩
  · have hi' := (live_congr hmems i).mp hi
    rw [hmems, (hpage i hi').1]
    exact h.ref i hi'
  · rw [hmems]
    exact (hpage i ((live_congr hmems i).mp hi)).2
  · refine Nat.le_trans (hheld pg) (h.single pg fun i hi => ?_)
    rw [← hmems]
    exact hpg i ((live_congr hmems i).mpr hi)
  · have := hheld 0
    rw [h.zero] at this
    exact Nat.le_zero.mp this

/-- One process maps other pages than before, and the pages it has lost are free. -/
theorem Sound.released (h : Sound k) (hshared : k'.shared = k.shared) (hbut : SameBut a k k')
    (hheld : ∀ pg, held k' pg = held k pg)
    (hlive : ∀ i, k.shared.Live i → mapped k (k.shared.mems i).pa ≤ mapped k' (k.shared.mems i).pa)
    (hfits : (k'.procs a).Fits) (hkept : ∀ pg, kept k' pg ≤ kept k pg + free k pg) :
    Sound k' ∧ Released k k' := by
  have h' := h.rearranged (by rw [hshared]) (fun pg => Nat.le_of_eq (hheld pg)) hlive
    (fits_change h.fits hbut hfits)
  refine ⟨h', fun pg hpg hgone => ?_⟩
  have := h'.free_le_one pg
  have := hheld pg
  have := hkept pg
  unfold held at *
  omega

/-- One block changes with the mappings of its page `q`: it gets or loses a reference, comes
into use with the page, or goes out of use. -/
theorem Sound.retabled (h : Sound k) {j : Fin shmMaxNum} {b : ShmBlock} {q : Nat} (hq : q ≠ 0)
    (hmems : k'.shared.mems = Function.update k.shared.mems j b)
    (hother : ∀ i, k.shared.Live i → (k.shared.mems i).pa = q → i = j)
    (hold : k.shared.Live j → (k.shared.mems j).pa = q)
    (hrest : ∀ pg, pg ≠ q →
      mapped k' pg = mapped k pg ∧ kept k' pg + free k' pg = kept k pg + free k pg)
    (hnew : (0 < b.ref ∧ b.pa = q ∧ (mapped k' q : Int) = b.ref ∧ kept k' q + free k' q = 0) ∨
      (b.ref = 0 ∧ b.pa = 0 ∧ held k' q ≤ 1))
    (hfits : ∀ q, (k'.procs q).Fits) : Sound k' := by
  have hj : k'.shared.mems j = b := by rw [hmems, Function.update_self]
  have hne : ∀ i, i ≠ j → k'.shared.mems i = k.shared.mems i := fun i hi => by
    rw [hmems, Function.update_of_ne hi]
  have hlive : ∀ i, i ≠ j → (k'.shared.Live i ↔ k.shared.Live i) := fun i hi => by
    unfold SharedMemory.Live
    rw [hne i hi]
  have hlivej : k'.shared.Live j ↔ 0 < b.ref := by
    unfold SharedMemory.Live
    rw [hj]
  constructor
  case regular =>
    constructor
    case nonneg =>
      intro i
      have := h.regular.nonneg i
      grind
    case idle =>
      intro i hz
      have := h.regular.idle i
      grind
    case nonzero =>
      intro i hl
      have := h.regular.nonzero i
      grind
    case unique =>
      intro i i' hl hl' heq
      have := h.regular.unique i i'
      grind
  case ref =>
    intro i hl
    have := h.ref i
    grind
  case live =>
    intro i hl
    have := h.live i
    grind
  case single =>
    intro pg hpg
    have := h.single pg
    unfold SharedMemory.Private held at *
    grind
  case zero =>
    have := hrest 0 hq.symm
    have := h.zero
    unfold held at *
    omega
  case fits => exact hfits

theorem SameSpaces.sound (hsame : SameSpaces k k') (h : Sound k) :
    Sound k' ∧ (∀ pg, mapped k' pg = mapped k pg) ∧ ∀ pg, free k' pg = free k pg := by
  have hmapped := mapped_congr fun q => (hsame.procs q).maps
  have hkept := kept_congr fun q => (hsame.procs q).keeps
  have hfree : ∀ pg, free k' pg = free k pg := fun pg => by
    unfold free
    rw [hsame.mem]
  refine ⟨h.rearranged (by rw [hsame.shared]) (fun pg => ?_) (fun i _ => Nat.le_of_eq (hmapped _).symm)
    fun q => (hsame.procs q).fits (h.fits q), hmapped, hfree⟩
  unfold held
  rw [hmapped, hkept, hfree]

end Invariant

end Xv6.Kernel
