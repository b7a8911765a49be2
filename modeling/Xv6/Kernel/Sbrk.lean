import Xv6.Kernel.Calls
import Xv6.Kernel.CopyRounds
import Xv6.Kernel.Progress

/-! # The law of `sbrk`

`growproc(n)` computes `sz + n` in `uint` arithmetic and takes the size `0` for a failure. On a
process whose pages are those below its size it does what its comment says as long as the new
size is positive.
-/

namespace Xv6.Kernel

open Lib Vm

variable {L : Layout} {k : State} {a : Slot} {d d' : PgDir} {n : Int} {sz newsz pa : Nat} {m m' : Mem}

/-- Every user address leads where it led before. -/
def SameMappings (d d' : PgDir) : Prop :=
  ∀ b, b < kernBase → (d'.entry b).present = (d.entry b).present ∧
    ((d.entry b).present = true → d'.entry b = d.entry b)

/-- From `d` and `m` to a process of size `newsz`: exactly the pages below the rounded size are
mapped, those kept have their contents, and new ones are zero. -/
structure Resized (d : PgDir) (m : Mem) (newsz : Nat) (d' : PgDir) (m' : Mem) : Prop where
  mapped : Contiguous d' newsz
  kept : ∀ b, b < kernBase → (d.entry b).present = true → (d'.entry b).present = true →
    d'.entry b = d.entry b ∧ pageBytes m' (d.entry b).addr = pageBytes m (d.entry b).addr
  zero : ∀ b, b < kernBase → (d.entry b).present = false → (d'.entry b).present = true →
    pageBytes m' (d'.entry b).addr = List.replicate pgSize 0

def SbrkLaw (L : Layout) (k : State) (a : Slot) (n : Int) : Prop :=
  ∃ r k' d d', growproc L k a n = .ok (r, k') ∧ (k.procs a).pgdir = some d ∧ (k'.procs a).pgdir = some d' ∧
    ((r = 0 ∧ ((k'.procs a).sz : Int) = (k.procs a).sz + n ∧
        Resized d k.mem (k'.procs a).sz d' k'.mem) ∨
      (r = -1 ∧ (k'.procs a).sz = (k.procs a).sz ∧ SameMappings d d'))

/-- A process of the machine: its pages are in use, and they and the free pages are pages that
`kfree` accepts. -/
structure UserMemory (L : Layout) (k : State) (a : Slot) (d : PgDir) : Prop where
  pgdir : (k.procs a).pgdir = some d
  size : (k.procs a).sz < kernBase
  proper : k.mem.Proper
  free : k.mem.Freeable L
  pages : d.Freeable L 0 kernBase
  used : ∀ b, b < kernBase → (d.entry b).present = true → (d.entry b).addr ∉ k.mem.free

/-- What the law asks for when `allocuvm` is called: nothing is mapped where the new pages go, and
either memory is short, or the pages below the size are mapped. -/
def GrowHolds (d : PgDir) (m : Mem) (sz newsz : Nat) : Prop :=
  (∀ b, sizeUp sz ≤ b → b < sizeUp newsz → (d.entry b).present = false) ∧
    (m.free.length < d.needs (pgRoundUp sz) newsz ∨ Contiguous d sz)

/-- What the law asks for when `deallocuvm` is called: the pages that stay are mapped, none is
beyond the size, and a page that goes and is also mapped at an address that stays holds only ones,
as `kfree` writes ones to it. -/
structure ShrinkHolds (d : PgDir) (m : Mem) (sz newsz : Nat) : Prop where
  below : ∀ b, b < sizeUp newsz → (d.entry b).present = true
  above : ∀ b, b < kernBase → sizeUp sz ≤ b → (d.entry b).present = false
  spared : ∀ b c, b < sizeUp newsz → sizeUp newsz ≤ c → c < sizeUp sz → (d.entry c).present = true →
    (d.entry b).addr = (d.entry c).addr → ∀ x, OnPage (d.entry b).addr x → m.ram x = 1

def SbrkHolds (d : PgDir) (m : Mem) (sz : Nat) (n : Int) : Prop :=
  (n = 0 ∧ Contiguous d sz) ∨
  (0 < n ∧ ((kernBase : Int) ≤ sz + n ∨ GrowHolds d m sz (sz + n).toNat)) ∨
  (n < 0 ∧ (sz = 0 ∨ (sz + n = 0 ∧ ∀ b, b < sizeUp sz → (d.entry b).present = false) ∨
    (0 < sz + n ∧ ShrinkHolds d m sz (sz + n).toNat)))

/-! ## From `growproc` to `allocuvm` and `deallocuvm` -/

theorem growproc_of_resize (hd : (k.procs a).pgdir = some d)
    (h : resize L d (k.procs a).sz n k.mem = .ok (sz, d', m)) :
    ∃ k', growproc L k a n = .ok (if n ≠ 0 ∧ sz = 0 then -1 else 0, k') ∧
      (k'.procs a).pgdir = some d' ∧ k'.mem = m ∧
      (k'.procs a).sz = if n ≠ 0 ∧ sz = 0 then (k.procs a).sz else sz := by
  unfold growproc
  rw [hd]
  dsimp only
  rw [h, ok_bind]
  by_cases hfail : n ≠ 0 ∧ sz = 0
  · rw [if_pos hfail, if_pos hfail, if_pos hfail]
    refine ⟨_, rfl, ?_, rfl, ?_⟩
    · simp only [State.update, Function.update_self]
    · simp only [State.update, Function.update_self]
  · rw [if_neg hfail, if_neg hfail, if_neg hfail]
    refine ⟨_, rfl, ?_, rfl, ?_⟩
    · simp only [State.update, Function.update_self]
    · simp only [State.update, Function.update_self]

/-- The law in terms of what `allocuvm` or `deallocuvm` returns. -/
theorem sbrkLaw_iff_resize (hd : (k.procs a).pgdir = some d) :
    SbrkLaw L k a n ↔ ∃ sz d' m, resize L d (k.procs a).sz n k.mem = .ok (sz, d', m) ∧
      ((¬ (n ≠ 0 ∧ sz = 0) ∧ (sz : Int) = (k.procs a).sz + n ∧ Resized d k.mem sz d' m) ∨
        ((n ≠ 0 ∧ sz = 0) ∧ SameMappings d d')) := by
  constructor
  · intro hlaw
    obtain ⟨r, k', d1, d', hgrow, hd1, hd', hcase⟩ := hlaw
    rw [hd] at hd1
    cases hd1
    cases hresize : resize L d (k.procs a).sz n k.mem with
    | error e =>
      unfold growproc at hgrow
      rw [hd] at hgrow
      dsimp only at hgrow
      rw [hresize] at hgrow
      cases hgrow
    | ok x =>
      obtain ⟨sz, d1, m⟩ := x
      obtain ⟨k1, hgrow1, hpgdir, hmem, hsz⟩ := growproc_of_resize hd hresize
      rw [hgrow1] at hgrow
      cases hgrow
      rw [hpgdir] at hd'
      cases hd'
      rw [hsz, hmem] at hcase
      refine ⟨sz, d', m, rfl, ?_⟩
      by_cases hfail : n ≠ 0 ∧ sz = 0
      · rw [if_pos hfail, if_pos hfail] at hcase
        rcases hcase with ⟨hr, -⟩ | ⟨-, -, hsame⟩
        · cases hr
        · exact .inr ⟨hfail, hsame⟩
      · rw [if_neg hfail, if_neg hfail] at hcase
        rcases hcase with ⟨-, hsum, hresized⟩ | ⟨hr, -⟩
        · exact .inl ⟨hfail, hsum, hresized⟩
        · cases hr
  · intro hcase
    obtain ⟨sz, d', m, hresize, hcase⟩ := hcase
    obtain ⟨k', hgrow, hpgdir, hmem, hsz⟩ := growproc_of_resize hd hresize
    refine ⟨_, k', d, d', hgrow, hd, hpgdir, ?_⟩
    rw [hsz, hmem]
    rcases hcase with ⟨hok, hsum, hresized⟩ | ⟨hfail, hsame⟩
    · rw [if_neg hok, if_neg hok]
      exact .inl ⟨rfl, hsum, hresized⟩
    · rw [if_pos hfail, if_pos hfail]
      exact .inr ⟨rfl, rfl, hsame⟩

theorem sbrkLaw_of_resize (hd : (k.procs a).pgdir = some d)
    (h : resize L d (k.procs a).sz n k.mem = .ok (sz, d', m)) :
    SbrkLaw L k a n ↔
      (¬ (n ≠ 0 ∧ sz = 0) ∧ (sz : Int) = (k.procs a).sz + n ∧ Resized d k.mem sz d' m) ∨
        ((n ≠ 0 ∧ sz = 0) ∧ SameMappings d d') := by
  rw [sbrkLaw_iff_resize hd]
  constructor
  · intro hlaw
    obtain ⟨sz1, d1, m1, h1, hcase⟩ := hlaw
    rw [h] at h1
    cases h1
    exact hcase
  · exact fun hcase => ⟨sz, d', m, h, hcase⟩

/-! ## The cases of `n` -/

theorem accepts_dvd (h : L.Accepts pa) : pgSize ∣ pa := by
  have haligned := h.1
  simp only [p2v, pgSize, kernBase, uintMod, Nat.reducePow] at *
  omega

theorem pageBytes_eq_iff :
    pageBytes m' pa = pageBytes m pa ↔ ∀ x, OnPage pa x → m'.ram x = m.ram x := by
  refine ⟨fun h x hx => ?_, pageBytes_congr⟩
  unfold pageBytes at h
  have hlt : x - pa < pgSize := by
    have := hx.1
    have := hx.2
    omega
  have hat := List.map_inj_left.mp h (x - pa) (List.mem_range.mpr hlt)
  rw [Nat.add_sub_cancel' hx.1] at hat
  exact hat

theorem pageBytes_zero (h : ∀ x, OnPage pa x → m.ram x = 0) : pageBytes m pa = List.replicate pgSize 0 := by
  unfold pageBytes
  apply List.eq_replicate_iff.mpr
  refine ⟨by rw [List.length_map, List.length_range], ?_⟩
  intro y hy
  obtain ⟨i, hi, rfl⟩ := List.mem_map.mp hy
  exact h (pa + i) ⟨Nat.le_add_right .., Nat.add_lt_add_left (List.mem_range.mp hi) pa⟩

theorem sameMappings_refl (d : PgDir) : SameMappings d d := fun _ _ => ⟨rfl, fun _ => rfl⟩

theorem sbrkLaw_zero (hd : (k.procs a).pgdir = some d) :
    SbrkLaw L k a 0 ↔ Contiguous d (k.procs a).sz := by
  have hresize : resize L d (k.procs a).sz 0 k.mem = .ok ((k.procs a).sz, d, k.mem) := rfl
  rw [sbrkLaw_of_resize hd hresize]
  constructor
  · intro h
    rcases h with ⟨-, -, hresized⟩ | ⟨hne, -⟩
    · exact hresized.mapped
    · exact absurd rfl hne.1
  · intro h
    refine .inl ⟨fun hne => hne.1 rfl, (Int.add_zero _).symm, h, fun _ _ _ _ => ⟨rfl, rfl⟩, ?_⟩
    intro b _ habsent hpresent
    rw [habsent] at hpresent
    cases hpresent

theorem sbrkLaw_high (h : UserMemory L k a d) (hn : 0 < n) (hmax : n < 2 ^ 31)
    (hhigh : (kernBase : Int) ≤ (k.procs a).sz + n) : SbrkLaw L k a n := by
  have hsz := h.size
  have hresize : resize L d (k.procs a).sz n k.mem = .ok (0, d, k.mem) := by
    unfold resize
    rw [if_pos hn]
    unfold allocuvm
    rw [if_pos]
    simp only [kernBase, uintMod, Int.reducePow] at *
    omega
  rw [sbrkLaw_of_resize h.pgdir hresize]
  exact .inr ⟨⟨by omega, rfl⟩, sameMappings_refl d⟩

/-- The pages of the grown process, where the new ones were vacant. -/
theorem contiguous_grown {l : List Nat} (hold : sz ≤ kernBase)
    (hgrows : sz ≤ newsz) (hall : Allocated (pgRoundUp sz) newsz d m l d' m') :
    Contiguous d' newsz ↔ Contiguous d sz := by
  have hle : sizeUp sz ≤ sizeUp newsz := Nat.mul_le_mul_right _ (Nat.div_le_div_right (by omega))
  have hentry : ∀ b, b < kernBase → ¬ (sizeUp sz ≤ b ∧ b < sizeUp newsz) → d'.entry b = d.entry b :=
    fun b hb hout => hall.reshapes.kept b (lt_uintMod hb) fun hin => hout ((inRange_iff hold).mp hin)
  constructor
  · intro hc b hb
    by_cases hin : sizeUp sz ≤ b ∧ b < sizeUp newsz
    · rw [hall.vacant b (lt_uintMod hb) ((inRange_iff hold).mpr hin)]
      exact iff_of_false Bool.false_ne_true (Nat.not_lt.mpr hin.1)
    · rw [← hentry b hb hin, hc b hb]
      omega
  · intro hc b hb
    by_cases hin : sizeUp sz ≤ b ∧ b < sizeUp newsz
    · obtain ⟨pa, -, heq, -⟩ := hall.filled b (lt_uintMod hb) ((inRange_iff hold).mpr hin)
      rw [heq]
      exact iff_of_true rfl hin.2
    · rw [hentry b hb hin, hc b hb]
      omega

theorem sbrkLaw_grow (h : UserMemory L k a d) (hn : 0 < n) (hlow : (k.procs a).sz + n < kernBase) :
    SbrkLaw L k a n ↔ GrowHolds d k.mem (k.procs a).sz ((k.procs a).sz + n).toNat := by
  have hold := Nat.le_of_lt h.size
  generalize hnew : (((k.procs a).sz : Int) + n).toNat = newsz
  have hnewsz : (newsz : Int) = (k.procs a).sz + n := by omega
  have hlt : newsz < kernBase := by omega
  have hgrows : (k.procs a).sz ≤ newsz := by omega
  have hresize : resize L d (k.procs a).sz n k.mem = allocuvm L d (k.procs a).sz newsz k.mem := by
    unfold resize
    have hmod : ((((k.procs a).sz : Int) + n) % uintMod).toNat = newsz := by
      simp only [kernBase, uintMod] at *
      omega
    rw [if_pos hn, hmod]
  rw [sbrkLaw_iff_resize h.pgdir, hresize]
  constructor
  · intro hlaw
    obtain ⟨r, d', m', halloc, hcase⟩ := hlaw
    have hneeds := allocuvm_needs hlt hgrows halloc
    rcases allocuvm_cases hold hlt hgrows halloc with ⟨rfl, l, hall⟩ | ⟨rfl, -, hgone, -⟩
    · refine ⟨fun b hge hb => ?_, .inr ?_⟩
      · exact hall.vacant b (lt_uintMod (below_kernBase hlt hb)) ((inRange_iff hold).mpr ⟨hge, hb⟩)
      · rcases hcase with ⟨-, -, hresized⟩ | ⟨hfail, -⟩
        · exact (contiguous_grown hold hgrows hall).mp hresized.mapped
        · omega
    rcases hcase with ⟨hok, -⟩ | ⟨-, hsame⟩
    · exact absurd ⟨by omega, rfl⟩ hok
    refine ⟨fun b hge hb => ?_, .inl ?_⟩
    · have hbk := below_kernBase hlt hb
      rw [← (hsame b hbk).1]
      exact hgone b (lt_uintMod hbk) ((inRange_iff hold).mpr ⟨hge, hb⟩)
    · rcases hneeds with ⟨hzero, -⟩ | ⟨-, hshort⟩
      · omega
      · exact hshort
  · intro hholds
    obtain ⟨hvacant, hcase⟩ := hholds
    have hvacant' : ∀ b, b < uintMod → InRange (pgRoundUp (k.procs a).sz) newsz b → (d.entry b).present = false :=
      fun b _ hin => hvacant b ((inRange_iff hold).mp hin).1 ((inRange_iff hold).mp hin).2
    obtain ⟨r, d', m', halloc⟩ := allocuvm_ends hvacant' h.free
    have hneeds := allocuvm_needs hlt hgrows halloc
    have hkept : Reshapes (pgRoundUp (k.procs a).sz) newsz d k.mem d' m' →
        ∀ b, b < kernBase → (d.entry b).present = true → d'.entry b = d.entry b := by
      intro hres b hb hpresent
      apply hres.kept b (lt_uintMod hb)
      intro hin
      rw [hvacant' b (lt_uintMod hb) hin] at hpresent
      cases hpresent
    refine ⟨r, d', m', halloc, ?_⟩
    rcases allocuvm_cases hold hlt hgrows halloc with ⟨rfl, l, hall⟩ | ⟨rfl, hres, hgone, -⟩
    · have hc : Contiguous d (k.procs a).sz := by
        rcases hcase with hshort | hc
        · omega
        · exact hc
      refine .inl ⟨fun hfail => by omega, hnewsz, (contiguous_grown hold hgrows hall).mpr hc,
        fun b hb hpresent _ => ?_, fun b hb habsent hpresent => ?_⟩
      · refine ⟨hkept hall.reshapes b hb hpresent, pageBytes_congr fun x hx => ?_⟩
        exact hall.takes.ram_of_not_free h.proper (accepts_dvd (h.pages.page hb hpresent).2) (h.used b hb hpresent) hx
      have hin : InRange (pgRoundUp (k.procs a).sz) r b := by
        by_contra hout
        rw [hall.reshapes.kept b (lt_uintMod hb) hout, habsent] at hpresent
        cases hpresent
      obtain ⟨pa, -, hentry, hzero⟩ := hall.filled b (lt_uintMod hb) hin
      rw [hentry]
      exact pageBytes_zero (hzero h.proper)
    · refine .inr ⟨⟨by omega, rfl⟩, fun b hb => ⟨?_, hkept hres b hb⟩⟩
      by_cases hin : InRange (pgRoundUp (k.procs a).sz) newsz b
      · rw [hvacant' b (lt_uintMod hb) hin]
        exact hgone b (lt_uintMod hb) hin
      · rw [hres.kept b (lt_uintMod hb) hin]

theorem resize_neg (hn : n < 0) (m : Mem) (sz : Nat) :
    resize L d sz n m = deallocuvm L d sz ((((sz : Int) + n) % uintMod).toNat) m := by
  unfold resize
  rw [if_neg (by omega), if_pos hn]

/-- Below zero the difference wraps around to a size beyond `KERNBASE`, and nothing happens; the
size is returned, which is not what was asked for. -/
theorem sbrkLaw_wraps (h : UserMemory L k a d) (hmin : -2 ^ 31 ≤ n) (hneg : (k.procs a).sz + n < 0) :
    SbrkLaw L k a n ↔ (k.procs a).sz = 0 := by
  have hresize : resize L d (k.procs a).sz n k.mem = .ok ((k.procs a).sz, d, k.mem) := by
    rw [resize_neg (by omega)]
    unfold deallocuvm
    rw [if_pos]
    simp only [uintMod, Int.reducePow] at *
    omega
  rw [sbrkLaw_of_resize h.pgdir hresize]
  constructor
  · intro hlaw
    rcases hlaw with ⟨-, hsum, -⟩ | ⟨hfail, -⟩
    · omega
    · exact hfail.2
  · exact fun hempty => .inr ⟨⟨by omega, hempty⟩, sameMappings_refl d⟩

theorem resize_shrinks (h : UserMemory L k a d) (hn : n < 0) (hge : 0 ≤ (k.procs a).sz + n) :
    ∃ (newsz : Nat) (d' : PgDir) (m' : Mem), (newsz : Int) = (k.procs a).sz + n ∧ newsz < (k.procs a).sz ∧
      resize L d (k.procs a).sz n k.mem = .ok (newsz, d', m') ∧
      Deallocated (pgRoundUp newsz) (k.procs a).sz d k.mem d' m' := by
  have hsz := h.size
  generalize hnew : (((k.procs a).sz : Int) + n).toNat = newsz
  have hmod : ((((k.procs a).sz : Int) + n) % uintMod).toNat = newsz := by
    simp only [kernBase, uintMod] at *
    omega
  have hlt : newsz < (k.procs a).sz := by omega
  obtain ⟨r, d', m', hdealloc⟩ := deallocuvm_total k.mem (Nat.le_of_lt hsz)
    (h.pages.mono (Nat.zero_le (pgRoundUp newsz)) (Nat.le_of_lt hsz))
  rcases deallocuvm_cases (Nat.le_of_lt hsz) hdealloc with ⟨hle, -⟩ | ⟨-, rfl, hgone⟩
  · omega
  refine ⟨r, d', m', by omega, hlt, ?_, hgone⟩
  rw [resize_neg hn, hmod]
  exact hdealloc

theorem sbrkLaw_shrink (h : UserMemory L k a d) (hn : n < 0) (hpos : 0 < (k.procs a).sz + n) :
    SbrkLaw L k a n ↔ ShrinkHolds d k.mem (k.procs a).sz ((k.procs a).sz + n).toNat := by
  have hsz := h.size
  obtain ⟨newsz, d', m', hnewsz, hlt, hresize, hgone⟩ := resize_shrinks h hn (Int.le_of_lt hpos)
  have hnat : ((k.procs a).sz + n).toNat = newsz := by omega
  have hnew : newsz ≤ kernBase := by omega
  have hle : sizeUp newsz ≤ sizeUp (k.procs a).sz := Nat.mul_le_mul_right _ (Nat.div_le_div_right (by omega))
  have hsame : ∀ b, b < kernBase → ¬ (sizeUp newsz ≤ b ∧ b < sizeUp (k.procs a).sz) → d'.entry b = d.entry b :=
    fun b hb hout => hgone.reshapes.kept b (lt_uintMod hb) fun hin => hout ((inRange_iff hnew).mp hin)
  have habsent : ∀ b, sizeUp newsz ≤ b → b < sizeUp (k.procs a).sz → (d'.entry b).present = false := fun b hge hb =>
    hgone.gone b (lt_uintMod (below_kernBase hsz hb)) ((inRange_iff hnew).mpr ⟨hge, hb⟩)
  rw [sbrkLaw_of_resize h.pgdir hresize, hnat]
  constructor
  · intro hlaw
    rcases hlaw with ⟨-, -, hresized⟩ | ⟨hfail, -⟩
    · have hbelow : ∀ b, b < sizeUp newsz → (d'.entry b).present = true ∧ d'.entry b = d.entry b := by
        intro b hb
        have hbk := below_kernBase hsz (Nat.lt_of_lt_of_le hb hle)
        exact ⟨(hresized.mapped b hbk).mpr hb, hsame b hbk (by omega)⟩
      refine ⟨fun b hb => ?_, fun b hbk hge => ?_, fun b c hb hge hcsz hpc heq x hx => ?_⟩
      · rw [← (hbelow b hb).2]
        exact (hbelow b hb).1
      · rw [← hsame b hbk (by omega)]
        exact Bool.eq_false_iff.mpr fun hpresent => absurd ((hresized.mapped b hbk).mp hpresent) (by omega)
      have hck := below_kernBase hsz hcsz
      have hbk := Nat.lt_trans (Nat.lt_of_lt_of_le hb hge) hck
      obtain ⟨hpb, hentry⟩ := hbelow b hb
      have hbytes := (hresized.kept b hbk (by rw [← hentry]; exact hpb) hpb).2
      rw [← pageBytes_eq_iff.mp hbytes x hx]
      rw [heq] at hx
      exact hgone.ones x ⟨c, lt_uintMod hck, (inRange_iff hnew).mpr ⟨hge, hcsz⟩, hpc, hx⟩
    · omega
  · intro hholds
    have hcontiguous : Contiguous d' newsz := by
      intro b hb
      by_cases hlow : b < sizeUp newsz
      · rw [hsame b hb (by omega), hholds.below b hlow]
        exact iff_of_true rfl hlow
      refine iff_of_false (fun hpresent => ?_) hlow
      by_cases hmid : b < sizeUp (k.procs a).sz
      · rw [habsent b (by omega) hmid] at hpresent
        cases hpresent
      · rw [hsame b hb (by omega), hholds.above b hb (by omega)] at hpresent
        cases hpresent
    refine .inl ⟨fun hfail => by omega, hnewsz, hcontiguous, fun b hb hpresent hpresent' => ?_,
      fun b hb hvacant hpresent => ?_⟩
    · have hlow := (hcontiguous b hb).mp hpresent'
      refine ⟨hsame b hb (by omega), pageBytes_congr fun x hx => ?_⟩
      by_cases hfreed : Freed (pgRoundUp newsz) (k.procs a).sz d x
      · rw [hgone.ones x hfreed]
        obtain ⟨c, hcu, hin, hpc, hxc⟩ := hfreed
        obtain ⟨hge, hcsz⟩ := (inRange_iff hnew).mp hin
        have hck := below_kernBase hsz hcsz
        have heq := OnPage.unique (accepts_dvd (h.pages.page hb hpresent).2) (accepts_dvd (h.pages.page hck hpc).2) hx hxc
        exact (hholds.spared b c hlow hge hcsz hpc heq x hx).symm
      · exact hgone.ram x hfreed
    · rw [hsame b hb (by have := (hcontiguous b hb).mp hpresent; omega), hvacant] at hpresent
      cases hpresent

theorem sbrkLaw_all (h : UserMemory L k a d) (hn : n < 0) (hzero : (k.procs a).sz + n = 0) :
    SbrkLaw L k a n ↔ ∀ b, b < sizeUp (k.procs a).sz → (d.entry b).present = false := by
  have hsz := h.size
  obtain ⟨newsz, d', m', hnewsz, hlt, hresize, hgone⟩ := resize_shrinks h hn (by omega)
  obtain rfl : newsz = 0 := by omega
  have hrange : ∀ b, InRange (pgRoundUp 0) (k.procs a).sz b ↔ b < sizeUp (k.procs a).sz := by
    intro b
    rw [inRange_iff (Nat.zero_le _)]
    exact and_iff_right (Nat.zero_le b)
  rw [sbrkLaw_of_resize h.pgdir hresize]
  constructor
  · intro hlaw b hb
    have hbk := below_kernBase hsz hb
    rcases hlaw with ⟨hok, -⟩ | ⟨-, hsame⟩
    · exact absurd ⟨by omega, rfl⟩ hok
    · rw [← (hsame b hbk).1]
      exact hgone.gone b (lt_uintMod hbk) ((hrange b).mpr hb)
  · intro hvacant
    refine .inr ⟨⟨by omega, rfl⟩, fun b hb => ?_⟩
    by_cases hlow : b < sizeUp (k.procs a).sz
    · rw [hvacant b hlow, hgone.gone b (lt_uintMod hb) ((hrange b).mpr hlow)]
      exact ⟨rfl, fun hpresent => by cases hpresent⟩
    · rw [hgone.reshapes.kept b (lt_uintMod hb) fun hin => hlow ((hrange b).mp hin)]
      exact ⟨rfl, fun _ => rfl⟩

/-- When `growproc` keeps the law: always on growing a process whose pages are those below its size;
on shrinking it only to a positive size, unless a page that stays is freed with the others. -/
theorem sbrkLaw_iff {L : Layout} {k : State} {a : Slot} {d : PgDir} (h : UserMemory L k a d) (n : Int)
    (hmin : -2 ^ 31 ≤ n) (hmax : n < 2 ^ 31) :
    SbrkLaw L k a n ↔ SbrkHolds d k.mem (k.procs a).sz n := by
  unfold SbrkHolds
  rcases Int.lt_trichotomy n 0 with hneg | hzero | hpos
  · have hcond : ∀ P Q R : Prop, ((n = 0 ∧ P) ∨ (0 < n ∧ Q) ∨ (n < 0 ∧ R)) ↔ R := by
      intro P Q R
      simp [hneg, Int.ne_of_lt hneg, Int.not_lt.mpr (Int.le_of_lt hneg)]
    rw [hcond]
    rcases Int.lt_trichotomy ((k.procs a).sz + n) 0 with hwrap | hall | hshrink
    · rw [sbrkLaw_wraps h hmin hwrap]
      exact ⟨.inl, fun hor => by omega⟩
    · rw [sbrkLaw_all h hneg hall]
      refine ⟨fun hvacant => .inr (.inl ⟨hall, hvacant⟩), fun hor => ?_⟩
      rcases hor with hempty | ⟨-, hvacant⟩ | ⟨hlt, -⟩
      · omega
      · exact hvacant
      · omega
    · rw [sbrkLaw_shrink h hneg hshrink]
      refine ⟨fun hholds => .inr (.inr ⟨hshrink, hholds⟩), fun hor => ?_⟩
      rcases hor with hempty | ⟨heq, -⟩ | ⟨-, hholds⟩
      · omega
      · omega
      · exact hholds
  · rw [hzero, sbrkLaw_zero h.pgdir]
    simp
  · have hcond : ∀ P Q R : Prop, ((n = 0 ∧ P) ∨ (0 < n ∧ Q) ∨ (n < 0 ∧ R)) ↔ Q := by
      intro P Q R
      simp [hpos, Int.ne_of_gt hpos, Int.not_lt.mpr (Int.le_of_lt hpos)]
    rw [hcond]
    by_cases hlow : (k.procs a).sz + n < kernBase
    · rw [sbrkLaw_grow h hpos hlow]
      exact ⟨.inr, fun hor => hor.resolve_left (Int.not_le.mpr hlow)⟩
    · exact iff_of_true (sbrkLaw_high h hpos hmax (Int.not_lt.mp hlow)) (.inl (Int.not_lt.mp hlow))

def onePage : State := { smallMachine with mem := ⟨[0x500000], fun _ => 0⟩ }

theorem onePage_memory : UserMemory smallLayout onePage 1 childDir where
  pgdir := rfl
  size := by decide
  proper := ⟨List.nodup_singleton _, fun pa hpa => by rw [List.mem_singleton.mp hpa]; decide⟩
  free := fun pa hpa => by rw [List.mem_singleton.mp hpa]; decide
  pages := lonePage_freeable (by decide) 0 0 kernBase
  used := fun b hb hpresent => by rw [lonePage_present hb hpresent]; decide

theorem sbrkLaw_iff_onePage : UserMemory smallLayout onePage 1 childDir ∧ SbrkLaw smallLayout onePage 1 (2 ^ 31 - 1) :=
  ⟨onePage_memory, (sbrkLaw_iff onePage_memory (2 ^ 31 - 1) (by decide) (by decide)).mpr
    (.inr (.inl ⟨by decide, .inl (by decide)⟩))⟩

/-- `sbrk(-sz)` returns `-1` and has unmapped the process. -/
theorem sbrk_unmaps_all : (childDir.entry 0).present = true ∧
    (∃ k' d', growproc smallLayout onePage 1 (-4096) = .ok (-1, k') ∧ (k'.procs 1).pgdir = some d' ∧
      (d'.entry 0).present = false) ∧ ¬ SbrkLaw smallLayout onePage 1 (-4096) := by
  have hrun : (growproc smallLayout onePage 1 (-4096)).toOption.any fun x => x.1 = -1 ∧
      (x.2.procs 1).pgdir.any fun d => (d.entry 0).present = false := by decide +kernel
  have hpresent : (childDir.entry 0).present = true := by decide
  refine ⟨hpresent, ?_, ?_⟩
  · obtain ⟨⟨_, k'⟩, hgrow, rfl, hdir⟩ := ok_of_any hrun
    obtain ⟨d', hd', habsent⟩ := exists_of_any hdir
    exact ⟨k', d', hgrow, hd', habsent⟩
  · rw [sbrkLaw_all onePage_memory (by decide) (by decide)]
    intro hvacant
    rw [hvacant 0 (by decide)] at hpresent
    cases hpresent

end Xv6.Kernel
