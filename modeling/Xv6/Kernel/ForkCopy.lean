import Xv6.Kernel.CopyRounds
import Xv6.Kernel.PageFlow
import Xv6.Kernel.Progress

/-! # What `copyuvm` copies

The child gets the parent's private pages as copies on pages of the free list, and the pages of
shared blocks themselves, with a reference for each mapping.
-/

namespace Xv6.Kernel

open Lib Vm

variable {s : SharedMemory} {pa b : Nat} {m m' : Mem} {l : List Nat}

/-- The page belongs to the block `i`, which is in use, and to no other. -/
def SharedMemory.Owns (s : SharedMemory) (i : Fin shmMaxNum) (pa : Nat) : Prop :=
  0 < (s.mems i).ref ∧ (s.mems i).pa = pa ∧ ∀ j, (s.mems j).pa = pa → j = i

def SharedMemory.Outside (s : SharedMemory) (pa : Nat) : Prop := ∀ i, (s.mems i).pa ≠ pa

/-- The entries among the first `n` pages that map the page `pg`. -/
def usesBelow (d : PgDir) (n pg : Nat) : Nat :=
  ∑ v ∈ Finset.range n, (d.entry (v * pgSize)).uses pg

theorem usesBelow_succ (d : PgDir) (n pg : Nat) :
    usesBelow d (n + 1) pg = usesBelow d n pg + (d.entry (n * pgSize)).uses pg :=
  Finset.sum_range_succ ..

/-- A parent to copy: its page table has the kernel's part, and each page below its size is in
use, and is private or the page of a block in use. -/
structure Copyable (pgdir : PgDir) (sz : Nat) (s : SharedMemory) (m : Mem) : Prop where
  kernel : (pgdir.entry kernBase).present = true
  proper : m.Proper
  whole : ∀ b, b < sz → (pgdir.entry b).present = true → pgSize ∣ (pgdir.entry b).addr
  nonzero : ∀ b, b < sz → (pgdir.entry b).present = true → (pgdir.entry b).addr ≠ 0
  used : ∀ b, b < sz → (pgdir.entry b).present = true → (pgdir.entry b).addr ∉ m.free
  kind : ∀ b, b < sz → (pgdir.entry b).present = true →
    s.Outside (pgdir.entry b).addr ∨ ∃ i, s.Owns i (pgdir.entry b).addr

theorem isShm_owns {i : Fin shmMaxNum} (h : s.Owns i pa) : isShm s pa = pa ∧ shmIndex s pa = i := by
  obtain ⟨-, hpa, hunique⟩ := h
  unfold isShm shmIndex
  cases hfind : (List.finRange shmMaxNum).find? fun i => (s.mems i).pa == pa with
  | none =>
    have hno := List.find?_eq_none.mp hfind i (List.mem_finRange i)
    exact absurd (beq_iff_eq.mpr hpa) hno
  | some j =>
    have hj : (s.mems j).pa = pa := by simpa using List.find?_some hfind
    exact ⟨hj, hunique j hj⟩

theorem isShm_outside (h : s.Outside pa) (hpa : pa ≠ 0) : isShm s pa ≠ pa := by
  have hnone : ((List.finRange shmMaxNum).find? fun i => (s.mems i).pa == pa) = none := by
    apply List.find?_eq_none.mpr
    intro i _ hi
    exact h i (beq_iff_eq.mp hi)
  unfold isShm
  rw [hnone]
  exact fun heq => hpa heq.symm

/-! ## The rounds so far -/

/-- The child's entry at `b`, for a copy that has taken the pages `l`. -/
structure CopyOf (pgdir : PgDir) (s0 : SharedMemory) (m0 : Mem) (l : List Nat) (d : PgDir) (m : Mem)
    (b : Nat) : Prop where
  present : (d.entry b).present = (pgdir.entry b).present
  perm : (pgdir.entry b).present = true → (d.entry b).perm = (pgdir.entry b).perm
  shared : (pgdir.entry b).present = true → isShm s0 (pgdir.entry b).addr = (pgdir.entry b).addr →
    (d.entry b).addr = (pgdir.entry b).addr
  taken : (pgdir.entry b).present = true → isShm s0 (pgdir.entry b).addr ≠ (pgdir.entry b).addr →
    (d.entry b).addr ∈ l
  bytes : (pgdir.entry b).present = true → isShm s0 (pgdir.entry b).addr ≠ (pgdir.entry b).addr →
    pageBytes m (d.entry b).addr = pageBytes m0 (pgdir.entry b).addr

/-- After `v` rounds that started with `s0` and `m0` and have taken the pages `l`. -/
structure CopyState (pgdir : PgDir) (s0 : SharedMemory) (m0 : Mem) (v : Nat) (l : List Nat) (d : PgDir)
    (s : SharedMemory) (m : Mem) : Prop where
  user : v * pgSize ≤ kernBase
  kernel : (d.entry kernBase).present = true
  takes : Takes m0 l m
  vacant : ∀ b, v * pgSize ≤ b → b < kernBase → (d.entry b).present = false
  page : ∀ b, b < v * pgSize → CopyOf pgdir s0 m0 l d m b
  distinct : ∀ b c, b < v * pgSize → c < v * pgSize → ¬ SamePage b c →
    (pgdir.entry b).present = true → (pgdir.entry c).present = true →
    isShm s0 (pgdir.entry b).addr ≠ (pgdir.entry b).addr →
    isShm s0 (pgdir.entry c).addr ≠ (pgdir.entry c).addr → (d.entry b).addr ≠ (d.entry c).addr
  num : s.num = s0.num
  blocks : ∀ i, s.mems i =
    { s0.mems i with ref := (s0.mems i).ref + usesBelow pgdir v (s0.mems i).pa }

theorem pageBytes_taken {m0 : Mem} {l' : List Nat} (hm : m0.Proper) (h : Takes m0 l m) (h' : Takes m l' m')
    (hpa : pa ∈ l) : pageBytes m' pa = pageBytes m pa :=
  pageBytes_congr fun _ hx => h'.ram_of_taken hm h hpa hx

theorem pageBytes_used (hm : m.Proper) (h : Takes m l m') (haligned : pgSize ∣ pa) (hpa : pa ∉ m.free) :
    pageBytes m' pa = pageBytes m pa :=
  pageBytes_congr fun _ hx => h.ram_of_not_free hm haligned hpa hx

theorem not_samePage_of_lt {v : Nat} (hv : v * pgSize < kernBase) (hb : b < v * pgSize) :
    ¬ SamePage b (v * pgSize) := by
  intro hsame
  have hpage := (samePage_iff (lt_uintMod (Nat.lt_trans hb hv)) (lt_uintMod hv)).mp hsame
  simp only [pgSize] at *
  omega

theorem samePage_last {v : Nat} (hv : v * pgSize < kernBase) (hb : b < (v + 1) * pgSize)
    (hge : v * pgSize ≤ b) : SamePage b (v * pgSize) := by
  apply (samePage_iff _ (lt_uintMod hv)).mpr
  · simp only [pgSize] at *
    omega
  · simp only [pgSize, kernBase, uintMod] at *
    omega

theorem uses_of_ne {x : Pte} {pg : Nat} (h : x.addr ≠ pg) : x.uses pg = 0 := if_neg fun hx => h hx.2

namespace CopyState

variable {pgdir : PgDir} {s0 s s' : SharedMemory} {m0 m m1 m' : Mem} {v : Nat} {l l' : List Nat} {d d' : PgDir}

section

variable (h : CopyState pgdir s0 m0 v l d s m)

include h

theorem pa_eq (i : Fin shmMaxNum) : (s.mems i).pa = (s0.mems i).pa := by
  rw [h.blocks i]

/-- The parent's page at the next address maps the kernel or is a page of the user. -/
theorem below (hkernel : (pgdir.entry kernBase).present = true)
    (hround : CopyRound pgdir (v * pgSize) d s m d' s' m') : v * pgSize < kernBase := by
  apply Nat.lt_of_le_of_ne h.user
  intro heq
  rw [heq] at hround
  have hmapped : ∀ {pa : Nat} {perm : Perm} {m1 : Mem},
      mappage d kernBase pa perm m1 = .ok (true, d', m') → False := by
    intro pa perm m1 hmap
    have hvacant := (mappage_maps hmap).vacant
    rw [h.kernel] at hvacant
    cases hvacant
  cases hround with
  | hole habsent =>
    rw [hkernel] at habsent
    cases habsent
  | shared hpresent hshm hmap | copied hpresent hshm hk hmap => exact hmapped hmap

theorem copyOf_kept (hm : m0.Proper) (htakes : Takes m l' m') (hb : b < v * pgSize)
    (hentry : d'.entry b = d.entry b) : CopyOf pgdir s0 m0 (l ++ l') d' m' b := by
  have hof := h.page b hb
  constructor
  · rw [hentry]
    exact hof.present
  · rw [hentry]
    exact hof.perm
  · rw [hentry]
    exact hof.shared
  · intro hpresent hshm
    rw [hentry]
    exact List.mem_append_left _ (hof.taken hpresent hshm)
  · intro hpresent hshm
    rw [hentry, pageBytes_taken hm h.takes htakes (hof.taken hpresent hshm)]
    exact hof.bytes hpresent hshm

/-- The next page mapped: the shared one, or a copy on a page that is taken now. -/
theorem mapped (hm : m0.Proper) (hv : v * pgSize < kernBase)
    (hpresent : (pgdir.entry (v * pgSize)).present = true)
    (hmaps : MapsPage d m1 (v * pgSize) ⟨pa, true, (pgdir.entry (v * pgSize)).perm⟩ d' m')
    (htakes : Takes m l' m') (hnum : s'.num = s.num) (hblocks : ∀ i, s'.mems i =
      { s.mems i with ref := (s.mems i).ref + (pgdir.entry (v * pgSize)).uses (s0.mems i).pa })
    (hshared : isShm s0 (pgdir.entry (v * pgSize)).addr = (pgdir.entry (v * pgSize)).addr →
      pa = (pgdir.entry (v * pgSize)).addr)
    (hcopied : isShm s0 (pgdir.entry (v * pgSize)).addr ≠ (pgdir.entry (v * pgSize)).addr →
      pa ∈ l' ∧ pageBytes m' pa = pageBytes m0 (pgdir.entry (v * pgSize)).addr) :
    CopyState pgdir s0 m0 (v + 1) (l ++ l') d' s' m' := by
  have hold : ∀ b, b < v * pgSize → d'.entry b = d.entry b := by
    intro b hb
    rw [hmaps.entry_eq b, if_neg (not_samePage_of_lt hv hb)]
  have hnew : ∀ b, v * pgSize ≤ b → b < (v + 1) * pgSize →
      d'.entry b = ⟨pa, true, (pgdir.entry (v * pgSize)).perm⟩ ∧ pgdir.entry b = pgdir.entry (v * pgSize) := by
    intro b hge hb
    have hsame := samePage_last hv hb hge
    constructor
    · rw [hmaps.entry_eq b, if_pos hsame]
    · exact entry_samePage hsame
  have hdisjoint : ∀ pa ∈ l, pa ∉ l' := by
    have hnodup := hm.nodup
    rw [(h.takes.trans htakes).free] at hnodup
    intro pa hpa hpa'
    exact (List.nodup_append.mp (List.nodup_append.mp hnodup).1).2.2 pa hpa pa hpa' rfl
  -- a copy of an earlier round and the one of this round
  have hfresh : ∀ b c, b < v * pgSize → v * pgSize ≤ c → c < (v + 1) * pgSize →
      (pgdir.entry b).present = true → isShm s0 (pgdir.entry b).addr ≠ (pgdir.entry b).addr →
      isShm s0 (pgdir.entry c).addr ≠ (pgdir.entry c).addr → (d'.entry b).addr ≠ (d'.entry c).addr := by
    intro b c hb hge hc hpb hsb hsc heq
    obtain ⟨hentry, hparent⟩ := hnew c hge hc
    rw [hparent] at hsc
    rw [hold b hb, hentry] at heq
    apply hdisjoint _ ((h.page b hb).taken hpb hsb)
    rw [heq]
    exact (hcopied hsc).1
  constructor
  · simp only [pgSize, kernBase] at *
    omega
  · exact hmaps.present h.kernel
  · exact h.takes.trans htakes
  · intro b hge hb
    have hout : ¬ SamePage b (v * pgSize) := by
      intro hsame
      have hpage := (samePage_iff (lt_uintMod hb) (lt_uintMod hv)).mp hsame
      simp only [pgSize] at *
      omega
    rw [hmaps.entry_eq b, if_neg hout]
    exact h.vacant b (Nat.le_trans (Nat.mul_le_mul_right _ (Nat.le_succ v)) hge) hb
  · intro b hb
    by_cases hlt : b < v * pgSize
    · exact h.copyOf_kept hm htakes hlt (hold b hlt)
    obtain ⟨hentry, hparent⟩ := hnew b (Nat.le_of_not_lt hlt) hb
    constructor
    · rw [hentry, hparent, hpresent]
    · intro _
      rw [hentry, hparent]
    · rw [hentry, hparent]
      exact fun _ hshm => hshared hshm
    · rw [hentry, hparent]
      exact fun _ hshm => List.mem_append_right _ (hcopied hshm).1
    · rw [hentry, hparent]
      exact fun _ hshm => (hcopied hshm).2
  · intro b c hb hc hne hpb hpc hsb hsc
    by_cases hlb : b < v * pgSize
    · by_cases hlc : c < v * pgSize
      · rw [hold b hlb, hold c hlc]
        exact h.distinct b c hlb hlc hne hpb hpc hsb hsc
      · exact hfresh b c hlb (Nat.le_of_not_lt hlc) hc hpb hsb hsc
    · by_cases hlc : c < v * pgSize
      · exact (hfresh c b hlc (Nat.le_of_not_lt hlb) hb hpc hsc hsb).symm
      · have hsame := samePage_last hv hb (Nat.le_of_not_lt hlb)
        have hsame' := samePage_last hv hc (Nat.le_of_not_lt hlc)
        exact absurd ⟨hsame.1.trans hsame'.1.symm, hsame.2.trans hsame'.2.symm⟩ hne
  · rw [hnum]
    exact h.num
  · intro i
    rw [hblocks i, h.blocks i, usesBelow_succ]
    rw [Int.add_assoc, ← Int.natCast_add]

theorem hole (hm : m0.Proper) (hv : v * pgSize < kernBase)
    (habsent : (pgdir.entry (v * pgSize)).present = false) :
    CopyState pgdir s0 m0 (v + 1) l d s m := by
  have hgap : ∀ b, v * pgSize ≤ b → b < (v + 1) * pgSize → (pgdir.entry b).present = false := by
    intro b hge hb
    rw [entry_samePage (samePage_last hv hb hge)]
    exact habsent
  have hbelow : ∀ b, b < (v + 1) * pgSize → (pgdir.entry b).present = true → b < v * pgSize := by
    intro b hb hpresent
    apply Nat.lt_of_not_le
    intro hge
    rw [hgap b hge hb] at hpresent
    cases hpresent
  constructor
  · simp only [pgSize, kernBase] at *
    omega
  · exact h.kernel
  · exact h.takes
  · intro b hge hb
    exact h.vacant b (Nat.le_trans (Nat.mul_le_mul_right _ (Nat.le_succ v)) hge) hb
  · intro b hb
    by_cases hlt : b < v * pgSize
    · have hkept := h.copyOf_kept hm (Takes.refl m) hlt rfl
      rw [List.append_nil] at hkept
      exact hkept
    have hnot := hgap b (Nat.le_of_not_lt hlt) hb
    have hno : ¬ (pgdir.entry b).present = true := by
      rw [hnot]
      exact Bool.false_ne_true
    have huser : b < kernBase := by
      simp only [pgSize, kernBase] at *
      omega
    constructor
    · rw [hnot, h.vacant b (Nat.le_of_not_lt hlt) huser]
    · exact fun hpresent => absurd hpresent hno
    · exact fun hpresent => absurd hpresent hno
    · exact fun hpresent => absurd hpresent hno
    · exact fun hpresent => absurd hpresent hno
  · intro b c hb hc hne hpb hpc
    exact h.distinct b c (hbelow b hb hpb) (hbelow c hc hpc) hne hpb hpc
  · exact h.num
  · intro i
    rw [usesBelow_succ, uses_absent habsent, Nat.add_zero]
    exact h.blocks i

theorem round {sz : Nat} (hc : Copyable pgdir sz s0 m0) (hv : v * pgSize < sz)
    (hround : CopyRound pgdir (v * pgSize) d s m d' s' m') :
    ∃ l', CopyState pgdir s0 m0 (v + 1) l' d' s' m' := by
  have hlt := h.below hc.kernel hround
  obtain ⟨hisShm, hindex⟩ := isShm_congr h.pa_eq (pgdir.entry (v * pgSize)).addr
  cases hround with
  | hole habsent => exact ⟨l, h.hole hc.proper hlt habsent⟩
  | @shared d1 m1 hpresent hshm hmap =>
    obtain ⟨l', htakes⟩ := mappage_takes hmap
    rw [hisShm] at hshm
    refine ⟨l ++ l', h.mapped hc.proper hlt hpresent (mappage_maps hmap) htakes rfl ?_ (fun _ => rfl) ?_⟩
    · rcases hc.kind _ hv hpresent with houtside | ⟨j, howns⟩
      · exact absurd hshm (isShm_outside houtside (hc.nonzero _ hv hpresent))
      rw [hindex, (isShm_owns howns).2]
      intro i
      by_cases hi : i = j
      · rw [hi, mems_update_self, howns.2.1]
        simp [Pte.uses, hpresent]
      · have hne : (pgdir.entry (v * pgSize)).addr ≠ (s0.mems i).pa := fun heq =>
          hi (howns.2.2 i heq.symm)
        rw [mems_update_of_ne s _ hi, uses_of_ne hne]
        simp
    · intro hne
      exact absurd hshm hne
  | @copied pa m1 d1 m2 hpresent hshm hk hmap =>
    obtain ⟨l', htakes⟩ := mappage_takes hmap
    have hmove := memmove_takes hk (length_pageBytes m1 (pgdir.entry (v * pgSize)).addr)
    rw [hisShm] at hshm
    refine ⟨l ++ ([pa] ++ l'), h.mapped hc.proper hlt hpresent (mappage_maps hmap) (hmove.trans htakes) rfl
      ?_ (fun heq => absurd heq hshm) ?_⟩
    · intro i
      rcases hc.kind _ hv hpresent with houtside | ⟨j, howns⟩
      · rw [uses_of_ne (houtside i).symm]
        simp
      · exact absurd (isShm_owns howns).1 hshm
    intro _
    refine ⟨List.mem_append_left _ List.mem_cons_self, ?_⟩
    have hproper := h.takes.proper hc.proper
    have hkalloc : pageBytes m1 (pgdir.entry (v * pgSize)).addr = pageBytes m (pgdir.entry (v * pgSize)).addr :=
      pageBytes_congr fun x _ => by rw [kalloc_ram hk]
    rw [pageBytes_taken hproper hmove htakes List.mem_cons_self,
      pageBytes_memmove m1 pa (length_pageBytes ..), hkalloc,
      pageBytes_used hc.proper h.takes (hc.whole _ hv hpresent) (hc.used _ hv hpresent)]

end

end CopyState

/-! ## The whole copy -/

/-- What the child `d'` is to the parent `pgdir` of size `sz`, and what else has changed. -/
structure Forked (pgdir : PgDir) (sz : Nat) (s : SharedMemory) (m : Mem) (d' : PgDir) (s' : SharedMemory)
    (m' : Mem) : Prop where
  present : ∀ b, b < kernBase →
    ((d'.entry b).present = true ↔ b < sizeUp sz ∧ (pgdir.entry b).present = true)
  perm : ∀ b, b < sz → (pgdir.entry b).present = true → (d'.entry b).perm = (pgdir.entry b).perm
  shared : ∀ b, b < sz → (pgdir.entry b).present = true → ∀ i, s.Owns i (pgdir.entry b).addr →
    (d'.entry b).addr = (pgdir.entry b).addr
  fresh : ∀ b, b < sz → (pgdir.entry b).present = true → s.Outside (pgdir.entry b).addr →
    (d'.entry b).addr ∈ m.free ∧ (d'.entry b).addr ∉ m'.free
  bytes : ∀ b, b < sz → (pgdir.entry b).present = true → s.Outside (pgdir.entry b).addr →
    pageBytes m' (d'.entry b).addr = pageBytes m (pgdir.entry b).addr
  distinct : ∀ b c, b < sz → c < sz → ¬ SamePage b c → (pgdir.entry b).present = true →
    (pgdir.entry c).present = true → s.Outside (pgdir.entry b).addr → s.Outside (pgdir.entry c).addr →
    (d'.entry b).addr ≠ (d'.entry c).addr
  memory : ∀ pa, pgSize ∣ pa → pa ∉ m.free → pageBytes m' pa = pageBytes m pa
  num : s'.num = s.num
  blocks : ∀ i, s'.mems i =
    { s.mems i with ref := (s.mems i).ref + usesBelow pgdir (sizeUp sz / pgSize) (s.mems i).pa }

theorem CopyState.start {L : Layout} (pgdir : PgDir) (s : SharedMemory) {m1 : Mem} {d : PgDir}
    (h : setupkvm L m = .ok (some d, m1)) : ∃ l, CopyState pgdir s m 0 l d s m1 := by
  obtain ⟨hdir, -, hkern⟩ := setupkvm_some h
  obtain ⟨l, htakes⟩ := hdir.takes
  have hempty := ((setupkvm_ok h).1 d rfl).1
  refine ⟨l, ?_, hkern, htakes, ?_, ?_, ?_, rfl, ?_⟩
  · exact (Nat.zero_mul pgSize).symm ▸ Nat.zero_le _
  · intro b _ hb
    rw [hempty b hb]
  · intro b hb
    rw [Nat.zero_mul] at hb
    exact absurd hb (Nat.not_lt_zero b)
  · intro b c hb
    rw [Nat.zero_mul] at hb
    exact absurd hb (Nat.not_lt_zero b)
  · intro i
    simp [usesBelow]

theorem CopyState.forked {pgdir : PgDir} {sz : Nat} {s' : SharedMemory} {d' : PgDir}
    (hc : Copyable pgdir sz s m) (h : CopyState pgdir s m (sizeUp sz / pgSize) l d' s' m') :
    Forked pgdir sz s m d' s' m' := by
  have hbytes : sizeUp sz / pgSize * pgSize = sizeUp sz := by
    simp only [sizeUp, pgSize]
    omega
  have hbelow : ∀ b, b < sz → b < sizeUp sz / pgSize * pgSize := by
    intro b hb
    simp only [sizeUp, pgSize]
    omega
  have hprivate : ∀ b, b < sz → (pgdir.entry b).present = true → s.Outside (pgdir.entry b).addr →
      isShm s (pgdir.entry b).addr ≠ (pgdir.entry b).addr := fun b hb hpresent houtside =>
    isShm_outside houtside (hc.nonzero b hb hpresent)
  constructor
  · intro b hb
    by_cases hlt : b < sizeUp sz
    · rw [(h.page b (hbytes.symm ▸ hlt)).present]
      exact ⟨fun hpresent => ⟨hlt, hpresent⟩, fun hpresent => hpresent.2⟩
    · rw [h.vacant b (hbytes.symm ▸ Nat.le_of_not_lt hlt) hb]
      exact ⟨fun hfalse => absurd hfalse Bool.false_ne_true, fun hin => absurd hin.1 hlt⟩
  · intro b hb
    exact (h.page b (hbelow b hb)).perm
  · intro b hb hpresent i howns
    exact (h.page b (hbelow b hb)).shared hpresent (isShm_owns howns).1
  · intro b hb hpresent houtside
    have htaken := (h.page b (hbelow b hb)).taken hpresent (hprivate b hb hpresent houtside)
    refine ⟨h.takes.mem_free htaken, fun hfree => ?_⟩
    have hnodup := hc.proper.nodup
    rw [h.takes.free] at hnodup
    exact (List.nodup_append.mp hnodup).2.2 _ htaken _ hfree rfl
  · intro b hb hpresent houtside
    exact (h.page b (hbelow b hb)).bytes hpresent (hprivate b hb hpresent houtside)
  · intro b c hb hlc hne hpb hpc hob hoc
    exact h.distinct b c (hbelow b hb) (hbelow c hlc) hne hpb hpc (hprivate b hb hpb hob) (hprivate c hlc hpc hoc)
  · intro pa haligned hpa
    exact pageBytes_used hc.proper h.takes haligned hpa
  · exact h.num
  · exact h.blocks

/-- `copyuvm` copies private pages and shares shared ones. -/
theorem copyuvm_forks {L : Layout} {pgdir : PgDir} {sz : Nat} {s s' : SharedMemory} {m m' : Mem}
    {d' : PgDir} (hc : Copyable pgdir sz s m) (h : copyuvm L pgdir sz s m = .ok (some d', s', m')) :
    Forked pgdir sz s m d' s' m' := by
  rcases copyuvm_eq_ok h with ⟨hr, -⟩ | ⟨d, m1, hsetup, hrest⟩
  · cases hr
  rw [← sizeUp_div] at hrest
  have hrule := copyuvmLoop_rule (P := fun v d s1 m1 => ∃ l, CopyState pgdir s m v l d s1 m1)
    (N := sizeUp sz / pgSize) ?_ (Nat.zero_add _) (CopyState.start pgdir s hsetup) hrest
  · rcases hrule with ⟨d1, hd, l, hend⟩ | ⟨hr, -⟩
    · cases hd
      exact hend.forked hc
    · cases hr
  · intro v d s1 m1 d' s' m' hv hstate hround
    obtain ⟨l, hstate⟩ := hstate
    apply hstate.round hc _ hround
    simp only [sizeUp, pgSize] at *
    omega

/-- A private page, a shared page that is mapped twice, and a hole; one page of the kernel's
part. -/
def twiceDir : PgDir :=
  ⟨0x400000, fun i =>
    if i = 0 then some ⟨0x401000, fun j =>
      if j = 0 then ⟨0x402000, true, .wu⟩
      else if j = 1 ∨ j = 3 then ⟨0x404000, true, .wu⟩
      else .zero⟩
    else if i = 512 then some ⟨0x403000, fun j => if j = 0 then ⟨0, true, ⟨true, false⟩⟩ else .zero⟩
    else none⟩

theorem twiceDir_entry (hb : b < 4 * pgSize) (h : (twiceDir.entry b).present = true) :
    (twiceDir.entry b).addr = 0x402000 ∨ (twiceDir.entry b).addr = 0x404000 := by
  have hpdx : pdx b = 0 := by
    simp only [pdx, pgSize] at *
    omega
  unfold PgDir.entry PgDir.walk at h ⊢
  rw [hpdx] at h ⊢
  simp only [twiceDir, if_true, Option.map_some, Option.getD_some] at h ⊢
  split at h
  · rename_i hptx
    rw [if_pos hptx]
    exact .inl rfl
  rename_i hptx
  rw [if_neg hptx]
  split at h
  · rename_i htwice
    rw [if_pos htwice]
    exact .inr rfl
  · cases h

theorem not_mem_pages {n : Nat} (h : pa < 0x500000) :
    pa ∉ (List.range n).map fun i => 0x500000 + i * pgSize := by
  intro hin
  obtain ⟨i, -, rfl⟩ := List.mem_map.mp hin
  exact absurd h (Nat.not_lt.mpr (Nat.le_add_right ..))

theorem pages_proper (n : Nat) (ram : Nat → UInt8) :
    Mem.Proper ⟨(List.range n).map fun i => 0x500000 + i * pgSize, ram⟩ where
  nodup := by
    apply List.Nodup.map _ List.nodup_range
    intro i j hij
    simp only [pgSize] at hij
    omega
  aligned := by
    intro pa hpa
    obtain ⟨i, -, rfl⟩ := List.mem_map.mp hpa
    exact Nat.dvd_add (by decide) (Nat.dvd_mul_left ..)

theorem twiceDir_copyable : Copyable twiceDir (4 * pgSize) smallMachine.shared smallMachine.mem where
  kernel := rfl
  proper := pages_proper ..
  whole := by
    intro b hb hpresent
    rcases twiceDir_entry hb hpresent with haddr | haddr <;> rw [haddr] <;> decide
  nonzero := by
    intro b hb hpresent
    rcases twiceDir_entry hb hpresent with haddr | haddr <;> rw [haddr] <;> decide
  used := by
    intro b hb hpresent
    apply not_mem_pages
    rcases twiceDir_entry hb hpresent with haddr | haddr <;> rw [haddr] <;> decide
  kind := by
    intro b hb hpresent
    rcases twiceDir_entry hb hpresent with haddr | haddr <;> rw [haddr]
    · apply Or.inl
      unfold SharedMemory.Outside
      decide
    · refine .inr ⟨0, ?_⟩
      unfold SharedMemory.Owns
      decide

theorem copyuvm_forks_twiceDir : ∃ d' s' m',
    copyuvm smallLayout twiceDir (4 * pgSize) smallMachine.shared smallMachine.mem = .ok (some d', s', m') ∧
    Forked twiceDir (4 * pgSize) smallMachine.shared smallMachine.mem d' s' m' ∧ (s'.mems 0).ref = 3 := by
  have hwalk : ∀ j, j < sizeUp (4 * pgSize) → twiceDir.walk j ≠ none := by
    intro j hj
    have hlt : j < 16384 := hj
    have hpdx : pdx j = 0 := by
      simp only [pdx]
      omega
    rw [Ne, walk_eq_none_iff, hpdx]
    intro hnone
    cases hnone
  have hroom : npdEntries + 1 + sizeUp (4 * pgSize) / pgSize ≤ smallMachine.mem.free.length := by
    simp only [smallMachine, List.length_map, List.length_range]
    decide
  obtain ⟨d', s', m', hcopy⟩ := copyuvm_total (L := smallLayout) smallMachine.shared (by decide) hwalk hroom
  have hforked := copyuvm_forks twiceDir_copyable hcopy
  refine ⟨d', s', m', hcopy, hforked, ?_⟩
  rw [hforked.blocks 0]
  decide

end Xv6.Kernel
