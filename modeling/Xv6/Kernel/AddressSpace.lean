import Xv6.Lib.Transition
import Xv6.Vm.KernelTables
import Xv6.Kernel.Calls

/-! # The address space of a process

The pages of a process lie without gaps below its size after `exec`, and `sbrk` and `shm_get`
keep it so. `shm_rem` takes a page from anywhere and shrinks the size from the top, so it keeps
it only when the page that it takes is the top one.
-/

namespace Xv6.Kernel

open Lib Vm

variable {sz va : Nat} {d d' : PgDir} {L : Layout} {m m' : Mem} {k k' : State} {a : Slot} {name : CString}
  {p : Proc}

/-! ## The calls of a process -/

/-- A process whose pages lie without gaps below its size. -/
def Proc.Spans (p : Proc) : Prop := p.sz ≤ kernBase ∧ ∃ d, p.pgdir = some d ∧ Contiguous d p.sz

theorem growproc_spans {n : Int} (h : (k.procs a).Spans) (hgrow : growproc L k a n = .ok (0, k')) :
    (k'.procs a).Spans := by
  obtain ⟨d, sz, d', hd, hresize, hret, _, _⟩ := growproc_ok hgrow
  obtain ⟨hsz, d0, hd0, hspan⟩ := h
  rw [hd] at hd0
  cases hd0
  rcases hret with ⟨-, -, hr, -⟩ | ⟨hok, -, hproc⟩
  · cases hr
  have hnew : sz ≤ kernBase ∧ Contiguous d' sz := by
    unfold resize at hresize
    split at hresize
    · exact hspan.allocuvm hsz hresize fun hz => hok ⟨by omega, hz⟩
    split at hresize
    · exact hspan.deallocuvm hsz hresize
    · simp only [Except.ok.injEq, Prod.mk.injEq] at hresize
      rw [← hresize.1, ← hresize.2.1]
      exact ⟨hsz, hspan⟩
  unfold Proc.Spans
  rw [hproc]
  exact ⟨hnew.1, d', rfl, hnew.2⟩

theorem shmMap_spans {pa : Nat} {r : Int} (hp : k.procs a = p) (h : p.Spans) (hd : p.pgdir = some d)
    (hsz : (p.sz + pgSize) % uintMod < kernBase) (hmap : shmMap L k a d name pa = .ok (r, k')) :
    (k'.procs a).Spans := by
  subst hp
  obtain ⟨hle, d0, hd0, hspan⟩ := h
  rw [hd] at hd0
  cases hd0
  have hwrap : ((k.procs a).sz + pgSize) % uintMod = (k.procs a).sz + pgSize := by
    simp only [pgSize, kernBase, uintMod] at *
    omega
  rw [hwrap] at hsz
  obtain ⟨_, _, ok, d', m, hmapped, hcase⟩ := shmMap_ok hmap
  rw [mappages_one (pgRoundUp_dvd _)] at hmapped
  rcases hcase with ⟨rfl, -, ⟨-, -, hproc⟩ | ⟨hz, -⟩⟩ | ⟨rfl, -, -, hproc⟩
  · unfold Proc.Spans
    rw [hproc]
    rw [hwrap]
    have hpush := hspan.push hle rfl (mappage_maps hmapped)
    exact ⟨Nat.le_of_lt hsz, d', rfl, hpush⟩
  · rw [hwrap] at hz
    exact absurd hz (Nat.succ_ne_zero _)
  · obtain ⟨hsame, _⟩ := mappage_false hmapped
    unfold Proc.Spans
    rw [hproc, hsame]
    exact ⟨hle, d, rfl, hspan⟩

theorem shmGet_spans {r : Int} (h : (k.procs a).Spans) (hget : shmGet L k a (some name) = .ok (r, k')) :
    (k'.procs a).Spans := by
  rcases shmGet_ok hget with ⟨-, -, rfl⟩ | ⟨hsz, d, hd, ⟨-, hmap⟩ | ⟨-, x, k1, hcreate, hcase⟩⟩
  · exact h
  · have hproc : ({ k with shared := (shmAttach k.shared name).2 } : State).procs a = k.procs a := rfl
    exact shmMap_spans hproc h hd hsz hmap
  obtain ⟨hprocs, _⟩ := shmCreate_ok hcreate
  rcases hcase with ⟨-, -, rfl⟩ | ⟨pa, -, hmap⟩
  · rw [hprocs]
    exact h
  · exact shmMap_spans (by rw [hprocs]) h hd hsz hmap

/-- The page that `shm_rem(name)` takes is the top one. -/
def TopMapping (p : Proc) (name : CString) : Prop :=
  pgSize ≤ p.sz ∧ ∀ i, mappingOf p name = some i → SamePage (p.shm i).va (sizeUp p.sz - pgSize)

/-- A cleared entry is zero, also where there is no page table for it. -/
theorem entry_set_zero (d : PgDir) (a b : Nat) :
    (d.set a .zero).entry b = if SamePage b a then .zero else d.entry b := by
  cases hwalk : d.walk a with
  | none =>
    rw [set_absent hwalk]
    split
    · rename_i hsame
      rw [entry_samePage hsame]
      unfold PgDir.entry
      rw [hwalk]
      rfl
    · rfl
  | some pte => rw [entry_set (by rw [hwalk]; simp)]

theorem entry_clear (a b : Nat) :
    ((d.set a .zero).entry b).present = if SamePage b a then false else (d.entry b).present := by
  rw [entry_set_zero, apply_ite Pte.present]

/-- Clearing one entry and shrinking by a page leaves no gap exactly when it was the top
page. -/
theorem contiguous_clear_iff (h : Contiguous d sz) (hsz : sz ≤ kernBase) (hge : pgSize ≤ sz) :
    Contiguous (d.set va .zero) (sz - pgSize) ↔ SamePage va (sizeUp sz - pgSize) := by
  have htop : sizeUp sz - pgSize < kernBase ∧ sizeUp (sz - pgSize) = sizeUp sz - pgSize ∧
      pgSize ≤ sizeUp sz := by
    simp only [sizeUp, pgSize, kernBase] at *
    omega
  constructor
  · intro hclear
    by_contra hother
    -- the top page is still there
    have hthere : ((d.set va .zero).entry (sizeUp sz - pgSize)).present = true := by
      rw [entry_clear, if_neg fun hsame => hother ⟨hsame.1.symm, hsame.2.symm⟩, h _ htop.1]
      simp only [pgSize] at *
      omega
    rw [hclear _ htop.1, htop.2.1] at hthere
    exact Nat.lt_irrefl _ hthere
  · intro hsame b hb
    have hpage := samePage_iff (lt_uintMod hb) (lt_uintMod htop.1)
    have hiff : SamePage b va ↔ b / pgSize = (sizeUp sz - pgSize) / pgSize := by
      rw [← hpage]
      unfold SamePage at *
      rw [hsame.1, hsame.2]
    rw [entry_clear, htop.2.1]
    split
    · rename_i hthis
      have heq := hiff.mp hthis
      refine ⟨fun hc => (by cases hc), fun hc => ?_⟩
      simp only [sizeUp, pgSize] at *
      omega
    · rename_i hother
      have hne : b / pgSize ≠ (sizeUp sz - pgSize) / pgSize := fun heq => hother (hiff.mpr heq)
      rw [h b hb]
      simp only [sizeUp, pgSize] at *
      omega

/-- A user page is present exactly below the rounded size, and what lies below the size is
mapped. -/
def Proc.InOrder (p : Proc) : Prop :=
  ∃ d, p.pgdir = some d ∧
    (∀ va, va < kernBase → ((d.entry va).present = true ↔ va < pgRoundUp p.sz)) ∧
    ∀ va, va < p.sz → (d.entry va).present = true

theorem Proc.Spans.inOrder (h : p.Spans) : p.InOrder := by
  obtain ⟨hsz, d, hd, hspan⟩ := h
  refine ⟨d, hd, fun va hva => ?_, fun va hva => ?_⟩
  · rw [pgRoundUp_eq hsz]
    exact hspan va hva
  · rw [hspan va (Nat.lt_of_lt_of_le hva hsz), lt_sizeUp_iff]
    exact Nat.lt_of_le_of_lt (Nat.div_mul_le_self va pgSize) hva

theorem szLess_of_le (hsz : sz ≤ kernBase) (hge : pgSize ≤ sz) : szLess sz = sz - pgSize := by
  simp only [szLess, pgSize, uintMod, kernBase, Nat.reducePow] at *
  omega

theorem removed_spans {i : Fin shmMaxNum} (h : p.Spans) (hd : p.pgdir = some d)
    (hi : mappingOf p name = some i) (htop : TopMapping p name) : (p.removed d i).Spans := by
  obtain ⟨hsz, d0, hd0, hspan⟩ := h
  rw [hd] at hd0
  cases hd0
  obtain ⟨hge, hsame⟩ := htop
  have hless := szLess_of_le hsz hge
  refine ⟨?_, d.set (p.shm i).va .zero, rfl, ?_⟩
  · unfold Proc.removed
    rw [hless]
    exact Nat.le_trans (Nat.sub_le _ _) hsz
  · unfold Proc.removed
    rw [hless]
    exact (contiguous_clear_iff hspan hsz hge).mpr (hsame i hi)

theorem removed_inOrder_iff {i : Fin shmMaxNum} (h : p.Spans) (hd : p.pgdir = some d)
    (hi : mappingOf p name = some i) : (p.removed d i).InOrder ↔ TopMapping p name := by
  have ⟨hsz, d0, hd0, hspan⟩ := h
  rw [hd] at hd0
  cases hd0
  constructor
  · rintro ⟨d', hd', hexact, hbelow⟩
    cases hd'
    have hge : pgSize ≤ p.sz := by
      by_contra hlt
      -- the size wraps around, and the third page would have to be mapped
      have hwrap : 2 * pgSize < szLess p.sz := by
        simp only [szLess, pgSize, uintMod, kernBase, Nat.reducePow] at *
        omega
      have hthere := hbelow (2 * pgSize) hwrap
      rw [entry_clear] at hthere
      split at hthere
      · cases hthere
      · have hlow := (hspan (2 * pgSize) (by decide)).mp hthere
        simp only [sizeUp, pgSize] at *
        omega
    have hless := szLess_of_le hsz hge
    refine ⟨hge, fun j hj => ?_⟩
    rw [hi] at hj
    cases hj
    rw [← contiguous_clear_iff hspan hsz hge]
    intro va hva
    rw [hexact va hva]
    unfold Proc.removed
    rw [hless, pgRoundUp_eq (Nat.le_trans (Nat.sub_le _ _) hsz)]
  · intro htop
    exact (removed_spans h hd hi htop).inOrder

/-! ## Faults that cannot happen -/

theorem storeUser_gives {bytes : List UInt8} : Gives (storeUser d va bytes m) (fun _ => True) (· ≠ "remap") := by
  unfold storeUser
  cases d.walk va with
  | none => exact .error (by decide)
  | some pte => exact gives_ite (fun _ => .ok trivial) fun _ => .error (by decide)

theorem shmCreate_gives : Gives (shmCreate k a d name) (fun _ => True) (· ≠ "remap") := by
  unfold shmCreate
  refine gives_ite (fun _ => .ok trivial) fun _ => .bind (Q := fun _ => True) ?_ fun page _ =>
    gives_ite (fun _ => .ok trivial) fun _ => .bind (Q := fun _ => True) ?_ fun _ _ => .ok trivial
  · unfold shmPage
    split
    · exact .ok trivial
    · exact .bind storeUser_gives fun _ _ => .ok trivial
  · unfold shmRecord
    split
    · exact .ok trivial
    refine .bind (Q := fun _ => True) ?_ fun _ _ => gives_ite (fun _ => .ok trivial) fun _ => .ok trivial
    unfold mutexCreate
    split
    · exact .ok trivial
    · exact .bind storeUser_gives fun _ _ => .ok trivial

theorem shmMap_gives {pa : Nat} (hp : k.procs a = p) (h : p.Spans) (hd : p.pgdir = some d)
    (hsz : (p.sz + pgSize) % uintMod < kernBase) :
    Gives (shmMap L k a d name pa) (fun _ => True) (· ≠ "remap") := by
  subst hp
  obtain ⟨hle, d0, hd0, hspan⟩ := h
  rw [hd] at hd0
  cases hd0
  unfold shmMap
  dsimp only
  rw [mappages_one (pgRoundUp_dvd _)]
  refine .bind (Q := fun _ => True) ⟨fun _ _ => trivial, fun e he => ?_⟩ fun x _ => gives_ite
    (fun _ => gives_ite (fun _ => .ok trivial) fun _ => .ok trivial) fun _ =>
      .bind (kfree_gives.mono (fun _ h => h) (by decide)) fun _ _ => .ok trivial
  -- the page behind the last one is not there yet
  have hthere := (mappage_error he).1
  rw [pgRoundUp_eq hle, hspan] at hthere
  · exact absurd hthere (Nat.lt_irrefl _)
  · simp only [sizeUp, pgSize, kernBase, uintMod] at *
    omega

theorem shmGet_not_remap (h : (k.procs a).Spans) (name : Option CString) :
    shmGet L k a name ≠ .error "remap" := by
  suffices hgives : Gives (shmGet L k a name) (fun _ => True) (· ≠ "remap") from fun herror =>
    hgives.fault herror rfl
  cases name with
  | none => exact .ok trivial
  | some name =>
    obtain ⟨d, hd, -⟩ := h.2
    unfold shmGet
    refine gives_ite (fun _ => .ok trivial) fun hsz => ?_
    have hlt := Nat.lt_of_not_le hsz
    rw [hd]
    refine gives_ite (fun _ => .bind (Q := fun x => x.2.procs = k.procs) ?_ fun x hx => ?_) fun _ =>
      shmMap_gives rfl h hd hlt
    · exact ⟨fun _ hcreate => (shmCreate_ok hcreate).1, fun _ => shmCreate_gives.fault⟩
    obtain ⟨pa, k1⟩ := x
    cases pa with
    | none => exact .ok trivial
    | some pa => exact shmMap_gives (congrFun hx a) h hd hlt

theorem growproc_not_remap (h : (k.procs a).Spans) (n : Int) : growproc L k a n ≠ .error "remap" := by
  obtain ⟨hsz, d, hd, hspan⟩ := h
  have hrelease : ∀ e, e ∈ releasePanics → e ≠ "remap" := by decide
  suffices hgives : Gives (growproc L k a n) (fun _ => True) (· ≠ "remap") from fun herror =>
    hgives.fault herror rfl
  unfold growproc
  rw [hd]
  refine .bind (Q := fun _ => True) ?_ fun _ _ => gives_ite (fun _ => .ok trivial) fun _ => .ok trivial
  refine gives_ite (fun _ => ?_) fun _ => gives_ite (fun _ => ?_) fun _ => .ok trivial
  · exact (allocuvm_gives fun hnew => hspan.vacant hsz hnew).mono (fun _ h => h) hrelease
  · exact deallocuvm_gives.mono (fun _ h => h) hrelease

theorem loadUser_total (h : (d.entry va).present = true) (m : Mem) : ∃ b, loadUser d m va = .ok b := by
  unfold PgDir.entry at h
  unfold loadUser
  cases hwalk : d.walk va with
  | none =>
    rw [hwalk] at h
    cases h
  | some pte =>
    rw [hwalk] at h
    dsimp only
    rw [if_pos (by exact h)]
    exact ⟨_, rfl⟩

theorem loadUser_trap (h : (d.entry va).present = false) (m : Mem) : loadUser d m va = .error "trap" := by
  unfold PgDir.entry at h
  unfold loadUser
  cases hwalk : d.walk va with
  | none => rfl
  | some pte =>
    rw [hwalk] at h
    exact if_neg (Bool.eq_false_iff.mp h)

theorem fetchint_total (hsz : p.sz ≤ kernBase) (hbelow : ∀ va, va < p.sz → (d.entry va).present = true)
    (m : Mem) (addr : Nat) : ∃ r, fetchint p d m addr = .ok r := by
  unfold fetchint
  split
  · exact ⟨_, rfl⟩
  have hend : addr + 4 ≤ p.sz := by
    simp only [not_or, kernBase, uintMod] at *
    omega
  obtain ⟨b0, h0⟩ := loadUser_total (hbelow addr (by omega)) m
  obtain ⟨b1, h1⟩ := loadUser_total (hbelow (addr + 1) (by omega)) m
  obtain ⟨b2, h2⟩ := loadUser_total (hbelow (addr + 2) (by omega)) m
  obtain ⟨b3, h3⟩ := loadUser_total (hbelow (addr + 3) (by omega)) m
  rw [h0, h1, h2, h3]
  exact ⟨_, rfl⟩

theorem fetchstrLoop_total {addr n s : Nat}
    (hmapped : ∀ va, va < s + n → s ≤ va → (d.entry va).present = true) :
    ∃ r, fetchstrLoop d m addr n s = .ok r := by
  induction n generalizing s with
  | zero => exact ⟨_, rfl⟩
  | succ n ih =>
    obtain ⟨b, hb⟩ := loadUser_total (hmapped s (by omega) (Nat.le_refl s)) m
    simp only [fetchstrLoop]
    rw [hb]
    by_cases hz : b = 0
    · exact ⟨some (s - addr), by rw [← hz]; exact if_pos rfl⟩
    · obtain ⟨r, hr⟩ := ih (s := s + 1) fun va hlt hle => hmapped va (by omega) (by omega)
      exact ⟨r, (if_neg hz).trans hr⟩

theorem fetchstr_total (hbelow : ∀ va, va < p.sz → (d.entry va).present = true) (m : Mem) (addr : Nat) :
    ∃ r, fetchstr p d m addr = .ok r := by
  unfold fetchstr
  split
  · exact ⟨_, rfl⟩
  · apply fetchstrLoop_total
    intro va hlt _
    exact hbelow va (by omega)

/-- `argptr` comes back, and the bytes of a pointer that it accepts are mapped. -/
theorem argptr_total (hsz : p.sz ≤ kernBase) (hbelow : ∀ va, va < p.sz → (d.entry va).present = true)
    (m : Mem) (n : Nat) {size : Int} (hsize : size < 2 ^ 31) :
    ∃ r, argptr p d m n size = .ok r ∧ ∀ i, r = some i → (d.entry i).present = true ∧
      ∀ va, i ≤ va → va < i + size.toNat → (d.entry va).present = true := by
  obtain ⟨r, hr⟩ := fetchint_total hsz hbelow m ((p.tf.esp + 4 + 4 * n) % uintMod)
  unfold argptr argint
  rw [hr]
  cases r with
  | none => exact ⟨none, rfl, nofun⟩
  | some i =>
    by_cases hbad : size < 0 ∨ i ≥ p.sz ∨ (i + size.toNat) % uintMod > p.sz
    · exact ⟨none, if_pos hbad, nofun⟩
    refine ⟨some i, if_neg hbad, fun j hj => ?_⟩
    cases hj
    refine ⟨hbelow i (by omega), fun va _ hlt => hbelow va ?_⟩
    simp only [not_or, kernBase, uintMod] at *
    omega

end Xv6.Kernel
