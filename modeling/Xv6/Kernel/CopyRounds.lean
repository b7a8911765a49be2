import Xv6.Vm.Contents
import Xv6.Vm.KernelTables
import Xv6.Kernel.Model

/-! # The rounds of `copyuvm`

What one round of the loop can do, and the rule that carries an invariant of the rounds to the
end of the loop. The parent's entry decides: a hole is skipped, the page of a block is mapped
once more, and any other page is copied.
-/

namespace Xv6.Kernel

open Lib Vm

variable {d : PgDir} {s : SharedMemory} {m m' : Mem}

inductive CopyRound (pgdir : PgDir) (i : Nat) (d : PgDir) (s : SharedMemory) (m : Mem) :
    PgDir → SharedMemory → Mem → Prop
  | hole (habsent : (pgdir.entry i).present = false) : CopyRound pgdir i d s m d s m
  | shared {d' : PgDir} {m' : Mem} (hpresent : (pgdir.entry i).present = true)
      (hshm : isShm s (pgdir.entry i).addr = (pgdir.entry i).addr)
      (hmap : mappage d i (pgdir.entry i).addr (pgdir.entry i).perm m = .ok (true, d', m')) :
      CopyRound pgdir i d s m d'
        (s.update (shmIndex s (pgdir.entry i).addr) fun b => { b with ref := b.ref + 1 }) m'
  | copied {pa : Nat} {m1 : Mem} {d' : PgDir} {m' : Mem} (hpresent : (pgdir.entry i).present = true)
      (hshm : isShm s (pgdir.entry i).addr ≠ (pgdir.entry i).addr) (hk : kalloc m = some (pa, m1))
      (hmap : mappage d i pa (pgdir.entry i).perm (m1.memmove pa (pageBytes m1 (pgdir.entry i).addr)) =
        .ok (true, d', m')) : CopyRound pgdir i d s m d' s m'

/-- A round for which memory is short, and the memory that `freevm` then finds. In the last case
the page in hand is neither mapped nor free. -/
inductive CopyFails (pgdir : PgDir) (i : Nat) (d : PgDir) (s : SharedMemory) (m : Mem) : Mem → Prop
  | shared (hpresent : (pgdir.entry i).present = true)
      (hshm : isShm s (pgdir.entry i).addr = (pgdir.entry i).addr) (hnone : d.walk i = none)
      (hempty : m.free = []) : CopyFails pgdir i d s m m
  | page (hpresent : (pgdir.entry i).present = true)
      (hshm : isShm s (pgdir.entry i).addr ≠ (pgdir.entry i).addr) (hempty : m.free = []) :
      CopyFails pgdir i d s m m
  | table {pa : Nat} {m1 : Mem} (hpresent : (pgdir.entry i).present = true)
      (hshm : isShm s (pgdir.entry i).addr ≠ (pgdir.entry i).addr) (hk : kalloc m = some (pa, m1))
      (hnone : d.walk i = none) (hempty : m1.free = []) :
      CopyFails pgdir i d s m (m1.memmove pa (pageBytes m1 (pgdir.entry i).addr))

/-- How the loop can end in a round: for want of memory, or with a panic. -/
inductive CopyEnds (L : Layout) (pgdir : PgDir) (i : Nat) (d : PgDir) (s : SharedMemory) (m : Mem) :
    Except String (Option PgDir × SharedMemory × Mem) → Prop
  | short {m1 : Mem} (h : CopyFails pgdir i d s m m1) :
      CopyEnds L pgdir i d s m (do
        let m ← freevm L d m1
        return (none, s, m))
  | missing (hnone : pgdir.walk i = none) : CopyEnds L pgdir i d s m (.error "copyuvm: pte should exist")
  | remap (hpresent : (d.entry i).present = true) : CopyEnds L pgdir i d s m (.error "remap")

theorem CopyEnds.ok {L : Layout} {pgdir : PgDir} {i : Nat} {s' : SharedMemory} {r : Option PgDir}
    (h : CopyEnds L pgdir i d s m (.ok (r, s', m'))) :
    r = none ∧ s' = s ∧ ∃ m1, CopyFails pgdir i d s m m1 ∧ freevm L d m1 = .ok m' := by
  generalize hres : (Except.ok (r, s', m') : Except String (Option PgDir × SharedMemory × Mem)) = res at h
  cases h with
  | short hfails =>
    obtain ⟨m2, hfree, hret⟩ := bind_eq_ok.mp hres.symm
    cases hret
    exact ⟨rfl, rfl, _, hfails, hfree⟩
  | missing => cases hres
  | remap => cases hres

theorem copyuvmLoop_succ (L : Layout) (pgdir : PgDir) (n : Nat) {i : Nat} (d : PgDir) (s : SharedMemory) (m : Mem)
    (hi : pgSize ∣ i) :
    (∃ d1 s1 m1, CopyRound pgdir i d s m d1 s1 m1 ∧
      copyuvmLoop L pgdir (n + 1) i d s m = copyuvmLoop L pgdir n (i + pgSize) d1 s1 m1) ∨
    CopyEnds L pgdir i d s m (copyuvmLoop L pgdir (n + 1) i d s m) := by
  simp only [copyuvmLoop]
  cases hwalk : pgdir.walk i with
  | none => exact .inr (.missing hwalk)
  | some pte =>
    have hentry : pgdir.entry i = pte := by
      unfold PgDir.entry
      rw [hwalk]
      rfl
    subst hentry
    dsimp only
    by_cases hpresent : (pgdir.entry i).present = true
    · rw [if_neg (not_not.mpr hpresent)]
      by_cases hshm : isShm s (pgdir.entry i).addr = (pgdir.entry i).addr
      · rw [if_pos hshm, mappages_one hi]
        cases hmap : mappage d i (pgdir.entry i).addr (pgdir.entry i).perm m with
        | error e =>
          obtain ⟨hthere, rfl⟩ := mappage_error hmap
          exact .inr (.remap hthere)
        | ok x =>
          obtain ⟨ok, d1, m1⟩ := x
          rw [ok_bind]
          cases ok with
          | true => exact .inl ⟨d1, _, m1, .shared hpresent hshm hmap, rfl⟩
          | false =>
            obtain ⟨rfl, rfl, hnone, hempty⟩ := mappage_false hmap
            exact .inr (.short (.shared hpresent hshm hnone hempty))
      · rw [if_neg hshm]
        cases hk : kalloc m with
        | none => exact .inr (.short (.page hpresent hshm (kalloc_none hk)))
        | some page =>
          obtain ⟨pa, m1⟩ := page
          dsimp only
          rw [mappages_one hi]
          cases hmap : mappage d i pa (pgdir.entry i).perm (m1.memmove pa (pageBytes m1 (pgdir.entry i).addr)) with
          | error e =>
            obtain ⟨hthere, rfl⟩ := mappage_error hmap
            exact .inr (.remap hthere)
          | ok x =>
            obtain ⟨ok, d2, m2⟩ := x
            rw [ok_bind]
            cases ok with
            | true => exact .inl ⟨d2, s, m2, .copied hpresent hshm hk hmap, rfl⟩
            | false =>
              obtain ⟨hd, hm, hnone, hempty⟩ := mappage_false hmap
              subst hd hm
              exact .inr (.short (.table hpresent hshm hk hnone hempty))
    · rw [if_pos hpresent]
      exact .inl ⟨d, s, m, .hole (Bool.eq_false_iff.mpr hpresent), rfl⟩

theorem copyuvm_eq_ok {L : Layout} {pgdir : PgDir} {sz : Nat} {s' : SharedMemory} {r : Option PgDir}
    (h : copyuvm L pgdir sz s m = .ok (r, s', m')) :
    (r = none ∧ s' = s ∧ setupkvm L m = .ok (none, m')) ∨ ∃ d m1, setupkvm L m = .ok (some d, m1) ∧
      copyuvmLoop L pgdir ((sz + pgSize - 1) / pgSize) (0 * pgSize) d s m1 = .ok (r, s', m') := by
  unfold copyuvm at h
  obtain ⟨⟨x, m1⟩, hsetup, hrest⟩ := bind_eq_ok.mp h
  cases x with
  | none =>
    cases hrest
    exact .inl ⟨rfl, rfl, hsetup⟩
  | some d =>
    rw [Nat.zero_mul]
    exact .inr ⟨d, m1, hsetup, hrest⟩

section Rule

/-! The rule for the loop: `P v` holds after `v` rounds. The loop does all rounds, or it ends in
one of them. -/

variable {L : Layout} {pgdir : PgDir} {N : Nat} {P : Nat → PgDir → SharedMemory → Mem → Prop}

theorem copyuvmLoop_outcome (hround : ∀ v d s m d' s' m', v < N → P v d s m →
      CopyRound pgdir (v * pgSize) d s m d' s' m' → P (v + 1) d' s' m') {n v : Nat} (hn : v + n = N)
    (hstart : P v d s m) :
    (∃ d1 s1 m1, P N d1 s1 m1 ∧ copyuvmLoop L pgdir n (v * pgSize) d s m = .ok (some d1, s1, m1)) ∨
    (∃ u d1 s1 m1, u < N ∧ P u d1 s1 m1 ∧
      CopyEnds L pgdir (u * pgSize) d1 s1 m1 (copyuvmLoop L pgdir n (v * pgSize) d s m)) := by
  induction n generalizing v d s m with
  | zero =>
    subst hn
    exact .inl ⟨d, s, m, hstart, rfl⟩
  | succ n ih =>
    have hv : v < N := by omega
    rcases copyuvmLoop_succ L pgdir n d s m (Nat.dvd_mul_left ..) with
      ⟨d1, s1, m1, hone, heq⟩ | hends
    · rw [heq, ← Nat.succ_mul]
      exact ih (by omega) (hround v d s m d1 s1 m1 hv hstart hone)
    · exact .inr ⟨v, d, s, m, hv, hstart, hends⟩

theorem copyuvmLoop_rule (hround : ∀ v d s m d' s' m', v < N → P v d s m →
      CopyRound pgdir (v * pgSize) d s m d' s' m' → P (v + 1) d' s' m') {n v : Nat} {s' : SharedMemory}
    {r : Option PgDir} (hn : v + n = N) (hstart : P v d s m)
    (h : copyuvmLoop L pgdir n (v * pgSize) d s m = .ok (r, s', m')) : (∃ d', r = some d' ∧ P N d' s' m') ∨
    (r = none ∧ ∃ u d1 m1 m2, u < N ∧ P u d1 s' m1 ∧ CopyFails pgdir (u * pgSize) d1 s' m1 m2 ∧
      freevm L d1 m2 = .ok m') := by
  rcases copyuvmLoop_outcome (L := L) hround hn hstart with
    ⟨d1, s1, m1, hend, heq⟩ | ⟨u, d1, s1, m1, hu, hP, hends⟩
  · rw [h] at heq
    cases heq
    exact .inl ⟨d1, rfl, hend⟩
  · rw [h] at hends
    obtain ⟨hr, hs, m2, hfails, hfree⟩ := hends.ok
    subst hs
    exact .inr ⟨hr, u, d1, m1, m2, hu, hP, hfails, hfree⟩

end Rule

/-! ## The pages that a copy takes -/

section Needs

variable {L : Layout} {pgdir d' : PgDir} {s' : SharedMemory} {v : Nat}

/-- No page before `v` in the same page table is present. -/
def FirstOfTable (pgdir : PgDir) (v : Nat) : Prop :=
  ∀ u, u < v → pdx (u * pgSize) = pdx (v * pgSize) → (pgdir.entry (u * pgSize)).present = false

instance (pgdir : PgDir) (v : Nat) : Decidable (FirstOfTable pgdir v) :=
  inferInstanceAs (Decidable (∀ u, u < v → _))

/-- The pages that the round for page `v` takes: one for the copy, unless the page is shared, and one
for a page table. -/
def pageNeeds (pgdir : PgDir) (s : SharedMemory) (v : Nat) : Nat :=
  let pte := pgdir.entry (v * pgSize)
  if pte.present then
    (if isShm s pte.addr = pte.addr then 0 else 1) +
      if ¬ KernelTable (pdx (v * pgSize)) ∧ FirstOfTable pgdir v then 1 else 0
  else 0

/-- The pages that the first `v` rounds take. -/
def copyNeeds (pgdir : PgDir) (s : SharedMemory) : Nat → Nat
  | 0 => 0
  | v + 1 => copyNeeds pgdir s v + pageNeeds pgdir s v

theorem copyNeeds_mono (pgdir : PgDir) (s : SharedMemory) : Monotone (copyNeeds pgdir s) :=
  monotone_nat_of_le_succ fun _ => Nat.le_add_right ..

/-- The child has the page tables of the kernel's half and those for the pages mapped so far. -/
def TablesSoFar (pgdir : PgDir) (v : Nat) (d : PgDir) : Prop :=
  ∀ b, d.walk b = none ↔ ¬ KernelTable (pdx b) ∧
    ∀ u, u < v → pdx (u * pgSize) = pdx b → (pgdir.entry (u * pgSize)).present = false

theorem TablesSoFar.start (h : ∀ j, d.pde j ≠ none ↔ KernelTable j) : TablesSoFar pgdir 0 d := by
  intro b
  rw [walk_eq_none_iff, ← h, not_not]
  exact ⟨fun hb => ⟨hb, fun u hu => absurd hu (Nat.not_lt_zero u)⟩, And.left⟩

theorem TablesSoFar.first (h : TablesSoFar pgdir v d) (hv : v * pgSize < kernBase) :
    d.walk (v * pgSize) = none ↔ FirstOfTable pgdir v := by
  rw [h]
  refine and_iff_right ?_
  simp only [KernelTable, pdx, kernBase] at *
  omega

theorem TablesSoFar.hole (h : TablesSoFar pgdir v d) (habsent : (pgdir.entry (v * pgSize)).present = false) :
    TablesSoFar pgdir (v + 1) d := by
  intro b
  rw [h b]
  refine and_congr_right fun _ => ⟨fun hall u hu hpdx => ?_, fun hall u hu => hall u (Nat.lt_succ_of_lt hu)⟩
  rcases Nat.lt_succ_iff_lt_or_eq.mp hu with hlt | heq
  · exact hall u hlt hpdx
  · rw [heq]
    exact habsent

theorem TablesSoFar.mapped {pa : Nat} {perm : Perm} (h : TablesSoFar pgdir v d)
    (hpresent : (pgdir.entry (v * pgSize)).present = true)
    (hmap : mappage d (v * pgSize) pa perm m = .ok (true, d', m')) : TablesSoFar pgdir (v + 1) d' := by
  intro b
  rw [walk_eq_none_iff, mappage_pde hmap, ← walk_eq_none_iff, h b, and_assoc]
  refine and_congr_right fun _ => ⟨fun hboth u hu hpdx => ?_, fun hall =>
    ⟨fun u hu => hall u (Nat.lt_succ_of_lt hu), fun hpdx => ?_⟩⟩
  · rcases Nat.lt_succ_iff_lt_or_eq.mp hu with hlt | heq
    · exact hboth.1 u hlt hpdx
    · rw [heq] at hpdx
      exact absurd hpdx.symm hboth.2
  · have hnot := hall v (Nat.lt_succ_self v) hpdx.symm
    rw [hpresent] at hnot
    cases hnot

theorem mappage_length {a pa : Nat} {perm : Perm} (h : mappage d a pa perm m = .ok (true, d', m')) :
    m.free.length = m'.free.length + if d.walk a = none then 1 else 0 := by
  obtain ⟨-, d1, hwalk, -⟩ := mappage_walk h
  unfold walkpgdir at hwalk
  split at hwalk
  · rename_i t ht
    cases hwalk
    have hsome : ¬ d.walk a = none := by
      rw [walk_eq_none_iff, ht]
      exact Option.some_ne_none t
    rw [if_neg hsome, Nat.add_zero]
  · rename_i hnone
    split at hwalk
    · cases hwalk
    · rename_i pgtab m2 hk
      cases hwalk
      rw [if_pos (walk_eq_none_iff.mpr hnone), (kalloc_some hk).1]
      rfl

theorem isShm_congr {s' : SharedMemory} (h : ∀ i, (s'.mems i).pa = (s.mems i).pa) (pa : Nat) :
    isShm s' pa = isShm s pa ∧ shmIndex s' pa = shmIndex s pa := by
  have hfind : (fun i => (s'.mems i).pa == pa) = fun i => (s.mems i).pa == pa := by
    funext i
    rw [h i]
  unfold isShm shmIndex
  rw [hfind]
  constructor
  · split
    · exact h _
    · rfl
  · rfl

@[simp] theorem mems_update_self (i : Fin shmMaxNum) (f : ShmBlock → ShmBlock) :
    (s.update i f).mems i = f (s.mems i) := Function.update_self ..

theorem mems_update_of_ne (s : SharedMemory) {i j : Fin shmMaxNum} (f : ShmBlock → ShmBlock)
    (h : j ≠ i) : (s.update i f).mems j = s.mems j := Function.update_of_ne h ..

theorem mems_update_pa (i j : Fin shmMaxNum) (r : Int) :
    ((s.update i fun b => { b with ref := r }).mems j).pa = (s.mems j).pa := by
  by_cases hj : j = i
  · rw [hj, mems_update_self]
  · rw [mems_update_of_ne s _ hj]

/-- After `v` rounds from a memory with `free` pages. -/
structure TakenSoFar (pgdir : PgDir) (s : SharedMemory) (free v : Nat) (d : PgDir) (s' : SharedMemory) (m : Mem) :
    Prop where
  tables : TablesSoFar pgdir v d
  pages : ∀ i, (s'.mems i).pa = (s.mems i).pa
  taken : m.free.length + copyNeeds pgdir s v = free

variable {s1 : SharedMemory} {m1 : Mem} {free : Nat}

theorem TakenSoFar.needs (h : TakenSoFar pgdir s free v d s1 m1)
    (hpresent : (pgdir.entry (v * pgSize)).present = true) : pageNeeds pgdir s v =
      (if isShm s1 (pgdir.entry (v * pgSize)).addr = (pgdir.entry (v * pgSize)).addr then 0 else 1) +
        if d.walk (v * pgSize) = none then 1 else 0 := by
  unfold pageNeeds
  rw [if_pos hpresent, (isShm_congr h.pages _).1]
  congr 1
  exact if_congr (h.tables _).symm rfl rfl

theorem TakenSoFar.round (h : TakenSoFar pgdir s free v d s1 m1)
    (hround : CopyRound pgdir (v * pgSize) d s1 m1 d' s' m') : TakenSoFar pgdir s free (v + 1) d' s' m' := by
  have htaken := h.taken
  cases hround with
  | hole habsent =>
    refine ⟨h.tables.hole habsent, h.pages, ?_⟩
    simp [copyNeeds, pageNeeds, habsent, htaken]
  | shared hpresent hshared hmap =>
    refine ⟨h.tables.mapped hpresent hmap, fun i => (mems_update_pa ..).trans (h.pages i), ?_⟩
    have hlen := mappage_length hmap
    rw [copyNeeds, h.needs hpresent, if_pos hshared]
    omega
  | @copied pa m2 _ _ hpresent hprivate hk hmap =>
    refine ⟨h.tables.mapped hpresent hmap, h.pages, ?_⟩
    have hlen := mappage_length hmap
    have hfree : m1.free.length = m2.free.length + 1 := congrArg List.length (kalloc_some hk).1
    rw [copyNeeds, h.needs hpresent, if_neg hprivate]
    change m2.free.length = _ at hlen
    omega

theorem TakenSoFar.short (h : TakenSoFar pgdir s free v d s1 m1)
    (hfails : CopyFails pgdir (v * pgSize) d s1 m1 m') : free < copyNeeds pgdir s (v + 1) := by
  have htaken := h.taken
  rw [copyNeeds]
  cases hfails with
  | shared hpresent hshared hnone hempty =>
    rw [h.needs hpresent, if_pos hshared, if_pos hnone]
    rw [hempty, List.length_nil] at htaken
    omega
  | page hpresent hprivate hempty =>
    rw [h.needs hpresent, if_neg hprivate]
    rw [hempty, List.length_nil] at htaken
    omega
  | table hpresent hprivate hk hnone hempty =>
    rw [h.needs hpresent, if_neg hprivate, if_pos hnone]
    rw [(kalloc_some hk).1, hempty, List.length_singleton] at htaken
    omega

/-- A `copyuvm` that returns has made a copy exactly when there were pages for it. -/
theorem copyuvm_enough {sz : Nat} {r : Option PgDir}
    (h : copyuvm L pgdir sz s m = .ok (r, s', m')) :
    r ≠ none ↔ kernelPages + copyNeeds pgdir s ((sz + pgSize - 1) / pgSize) ≤ m.free.length := by
  rcases copyuvm_eq_ok h with ⟨rfl, -, hsetup⟩ | ⟨d, m1, hsetup, hrest⟩
  · have hshort := (setupkvm_pages hsetup).2 rfl
    exact iff_of_false (fun hc => hc rfl) (by omega)
  obtain ⟨hlen, hpde⟩ := (setupkvm_pages hsetup).1 d rfl
  have hstart : TakenSoFar pgdir s m1.free.length 0 d s m1 := ⟨.start hpde, fun _ => rfl, rfl⟩
  rcases copyuvmLoop_rule (P := TakenSoFar pgdir s m1.free.length) (fun v _ _ _ _ _ _ _ hsofar => hsofar.round) (Nat.zero_add _) hstart hrest with
    ⟨d', rfl, hend⟩ | ⟨rfl, v, d1, m2, m3, hv, hsofar, hfails, -⟩
  · have htaken := hend.taken
    exact iff_of_true (Option.some_ne_none d') (by omega)
  · have hshort := Nat.lt_of_lt_of_le (hsofar.short hfails) (copyNeeds_mono pgdir s hv)
    exact iff_of_false (fun hc => hc rfl) (by omega)

end Needs

theorem length_pageBytes (m : Mem) (pa : Nat) : (pageBytes m pa).length = pgSize := by
  unfold pageBytes
  rw [List.length_map, List.length_range]

theorem pageBytes_congr {pa : Nat} (h : ∀ x, OnPage pa x → m'.ram x = m.ram x) :
    pageBytes m' pa = pageBytes m pa := by
  unfold pageBytes
  apply List.map_congr_left
  intro i hi
  exact h (pa + i) ⟨Nat.le_add_right .., Nat.add_lt_add_left (List.mem_range.mp hi) pa⟩

theorem pageBytes_memmove (m : Mem) (pa : Nat) {bytes : List UInt8} (hlen : bytes.length = pgSize) :
    pageBytes (m.memmove pa bytes) pa = bytes := by
  unfold pageBytes
  apply List.ext_getElem
  · rw [List.length_map, List.length_range, hlen]
  intro i hi hi'
  rw [List.getElem_map, List.getElem_range]
  show (if pa ≤ pa + i ∧ pa + i < pa + bytes.length then bytes.getD (pa + i - pa) 0 else _) = _
  rw [if_pos ⟨Nat.le_add_right .., Nat.add_lt_add_left hi' pa⟩, Nat.add_sub_cancel_left]
  exact (List.getElem_eq_getD 0).symm

end Xv6.Kernel
