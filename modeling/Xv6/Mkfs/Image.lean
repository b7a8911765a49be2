import Xv6.Mkfs.Append

/-! # The image that `mkfs` builds

The image is described by the list of its inodes, each with its type and its bytes. Every step of
the program appends to that list, or to the bytes of one of its members.
-/

namespace Xv6.Mkfs

open Function Lib
open Fs (Slot tDir tFile dot dotdot slash dirent direntSize)
open Files (Block Dinode Store Entry Books held content)

variable {n k type : Nat} {F : List (Nat × List UInt8)} {bytes : List UInt8}

/-! ## Sectors in front of the data -/

section Low

variable {D : Nat → Dinode} {bitmap : Nat → Bool} {blocks blocks' : Nat → Block}

theorem held_low (h : Books sb D bitmap blocks) (hsame : ∀ b, nmeta ≤ b → blocks' b = blocks b)
    (p : Nat × Entry) : held D blocks' p = held D blocks p := by
  apply Files.held_congr rfl
  intro htype
  apply Files.entry_of_eq
  intro hne
  have hindirect : held D blocks (p.1, .indirect) = some ((D p.1).addrs (Fin.last nDirect)) :=
    Files.held_eq_some.mpr ⟨htype, rfl, hne⟩
  exact hsame _ (h.alloc.marked_of_held hindirect).1

end Low

theorem fits_getDinode (b : Block) (slot : Nat) : Fits (getDinode b slot) := by
  have hshort : ∀ x, Files.short (Files.short x) = Files.short x := fun x => Int.bmod_bmod
  have huint : ∀ j, b.uint j < 2 ^ 32 := by
    intro j
    have h0 := (b (4 * j)).toNat_lt
    have h1 := (b (4 * j + 1)).toNat_lt
    have h2 := (b (4 * j + 2)).toNat_lt
    have h3 := (b (4 * j + 3)).toNat_lt
    unfold Block.uint
    omega
  have htype : ushort b (32 * slot) < 2 ^ 16 := by
    have h0 := (b (2 * (32 * slot))).toNat_lt
    have h1 := (b (2 * (32 * slot) + 1)).toNat_lt
    unfold ushort
    omega
  constructor
  · exact htype
  · simp only [getDinode, hshort]
  · simp only [getDinode, hshort]
  · simp only [getDinode, hshort]
  · exact huint _
  · intro i
    exact huint _

theorem fits_dinodes (m : State) (n : Nat) : Fits (m.dinodes n) := by
  unfold State.dinodes
  split
  · exact fits_getDinode _ _
  · exact ⟨by decide, rfl, rfl, rfl, by decide, fun _ => show 0 < 2 ^ 32 by decide⟩

theorem rinode_eq {m : State} (hblank : Blank m) (hn : n < nInodes) : rinode n m = .ok (m.dinodes n, m) := by
  have hlt : iblock n < m.count := by
    rw [hblank.count]
    exact Nat.lt_trans (iblock_bounds hn).2 (by decide)
  unfold rinode
  rw [bind_of_ok (rsect_of_lt hlt)]
  unfold State.dinodes
  rw [if_pos hn]
  rfl

theorem winode_eq {m : State} (hblank : Blank m) (hn : n < nInodes) {d : Dinode} (hd : Fits d) :
    ∃ buf, winode n d m = .ok ((), m.put (iblock n) buf) ∧
      (m.put (iblock n) buf).dinodes = update m.dinodes n d := by
  have hlt : iblock n < m.count := by
    rw [hblank.count]
    exact Nat.lt_trans (iblock_bounds hn).2 (by decide)
  refine ⟨setDinode (m.sectors (iblock n)) (n % ipb) d, ?_, ?_⟩
  · unfold winode
    rw [bind_of_ok (rsect_of_lt hlt), wsect_of_lt hlt]
  funext k
  by_cases hk : k = n
  · subst hk
    rw [update_self]
    unfold State.dinodes
    rw [if_pos hn, sectors_put_self, getDinode_setDinode _ _ hd]
  rw [update_of_ne hk]
  unfold State.dinodes
  split
  · by_cases hsector : iblock k = iblock n
    · -- another inode of the same sector
      have hslot : k % ipb ≠ n % ipb := by
        unfold iblock ipb dinodeSize bSize at *
        omega
      rw [hsector, sectors_put_self, getDinode_setDinode_of_ne _ _ hslot]
    · rw [sectors_put_of_ne hsector]
  · rfl

/-- The image before and after the inode `n` is written, which lies in front of the data. -/
structure Saved (m m' : State) (n : Nat) (d : Dinode) : Prop where
  dinodes : m'.dinodes = update m.dinodes n d
  freeblock : m'.freeblock = m.freeblock
  freeinode : m'.freeinode = m.freeinode
  super : m'.sectors 1 = m.sectors 1
  blank : Blank m'
  held : ∀ p, held m'.dinodes m'.sectors p = held (update m.dinodes n d) m.sectors p
  content : ∀ k x, content m'.dinodes m'.sectors k x = content (update m.dinodes n d) m.sectors k x

theorem winode_saved {m : State} {d : Dinode} {bitmap : Nat → Bool} (hblank : Blank m) (hn : n < nInodes)
    (hd : Fits d) (hbooks : Books sb (update m.dinodes n d) bitmap m.sectors) :
    ∃ m', winode n d m = .ok ((), m') ∧ Saved m m' n d := by
  obtain ⟨buf, hwinode, hdinodes⟩ := winode_eq hblank hn hd
  obtain ⟨hlow, hhigh⟩ := iblock_bounds hn
  have hdata : ∀ b, nmeta ≤ b → (m.put (iblock n) buf).sectors b = m.sectors b := by
    intro b hb
    apply sectors_put_of_ne
    have : bmapstart ≤ nmeta := by decide
    omega
  have hheld := held_low hbooks hdata
  refine ⟨_, hwinode, hdinodes, rfl, rfl, ?_, ⟨hblank.count, hblank.low, fun b hb => ?_⟩, ?_, fun k x => ?_⟩
  · exact sectors_put_of_ne (Nat.ne_of_lt (Nat.lt_of_lt_of_le (by decide) hlow))
  · rw [hdata b (Nat.le_trans hblank.low hb)]
    exact hblank.zero b hb
  · rw [hdinodes]
    exact hheld
  · rw [hdinodes]
    exact Files.content_congr (fun e => hheld (k, e)) fun _ b _ hb => hdata b (hbooks.alloc.marked_of_held hb).1

/-! ## Inodes and their bytes -/

/-- The inode `n` is a file of the given type with the given bytes. -/
structure Holds (m : State) (n type : Nat) (bytes : List UInt8) : Prop where
  type : (m.dinodes n).type = type
  size : (m.dinodes n).size = bytes.length
  bound : bytes.length ≤ maxFile * bSize
  content : ∀ x, x < bytes.length → content m.dinodes m.sectors n x = some (bytes.getD x 0)
  zero : ∀ x v, bytes.length ≤ x → Files.content m.dinodes m.sectors n x = some v → v = 0
  shape : ∀ bn (h : bn < maxFile),
    held m.dinodes m.sectors (n, .ofIndex bn h) ≠ none ↔ bn * bSize < bytes.length
  indirect : held m.dinodes m.sectors (n, .indirect) ≠ none ↔ nDirect * bSize < bytes.length

def total (F : List (Nat × List UInt8)) : Nat := (F.map fun f => blocksFor f.2.length).sum

/-- The image with the inodes `F`, of which the first has the number `1`. -/
structure Image (m : State) (F : List (Nat × List UInt8)) : Prop where
  blank : Blank m
  books : Books sb m.dinodes (fun b => decide (b < m.freeblock)) m.sectors
  super : m.sectors 1 = superSector
  freeinode : m.freeinode = F.length + 1
  few : F.length < nInodes
  holds : ∀ k type bytes, F[k]? = some (type, bytes) → Holds m (k + 1) type bytes
  unused : ∀ n, n = 0 ∨ F.length < n → (m.dinodes n).type = 0
  used : m.freeblock = nmeta + total F

theorem Holds.congr {m m' : State} (h : Holds m n type bytes) (hdinode : m'.dinodes n = m.dinodes n)
    (hheld : ∀ e, held m'.dinodes m'.sectors (n, e) = held m.dinodes m.sectors (n, e))
    (hcontent : ∀ x, Files.content m'.dinodes m'.sectors n x = Files.content m.dinodes m.sectors n x) :
    Holds m' n type bytes := by
  refine ⟨hdinode ▸ h.type, hdinode ▸ h.size, h.bound, fun x => ?_, fun x v => ?_, fun bn hbn => ?_, ?_⟩
  · rw [hcontent]
    exact h.content x
  · rw [hcontent]
    exact h.zero x v
  · rw [hheld]
    exact h.shape bn hbn
  · rw [hheld]
    exact h.indirect

theorem total_set {old : Nat × List UInt8} (h : F[k]? = some old) (new : Nat × List UInt8) :
    total (F.set k new) + blocksFor old.2.length = total F + blocksFor new.2.length := by
  induction F generalizing k with
  | nil => simp at h
  | cons f F ih =>
    unfold total at ih ⊢
    cases k with
    | zero =>
      simp only [List.getElem?_cons_zero, Option.some.injEq] at h
      subst h
      simp only [List.set_cons_zero, List.map_cons, List.sum_cons]
      omega
    | succ k =>
      simp only [List.getElem?_cons_succ] at h
      have := ih h
      simp only [List.set_cons_succ, List.map_cons, List.sum_cons]
      omega

theorem total_append {G : List (Nat × List UInt8)} : total (F ++ G) = total F + total G := by
  simp [total]

section Append

variable {m : State} {F : List (Nat × List UInt8)}

theorem view_dinodes (m : State) (n : Nat) : (m.editing n (m.dinodes n)).view 0 = m.dinodes := by
  unfold Store.view
  rw [icache_editing]
  exact update_eq_self ..

theorem Image.appending (h : Image m F) (hk : F[k]? = some (type, bytes)) (htype : type ≠ 0) :
    Appending m (k + 1) (m.dinodes (k + 1)) bytes.length := by
  have hholds := h.holds k type bytes hk
  have hview := view_dinodes m (k + 1)
  refine ⟨h.blank, ?_, ?_, fun bn hbn => ?_, ?_⟩
  · unfold Store.Kept
    rw [hview]
    exact h.books
  · rw [hholds.type]
    exact htype
  · unfold Store.held
    rw [hview]
    exact hholds.shape bn hbn
  · unfold Store.held
    rw [hview]
    exact hholds.indirect

theorem Image.lt (h : Image m F) {f : Nat × List UInt8} (hk : F[k]? = some f) : k + 1 < nInodes := by
  have hlt : k < F.length := (List.getElem?_eq_some_iff.mp hk).1
  have := h.few
  omega

/-- The disk before and after an append to the inode `n`, seen through the image. -/
structure Appended (m m' : State) (n : Nat) (src : List UInt8) : Prop where
  same : ∀ k, k ≠ n → m'.dinodes k = m.dinodes k
  type : (m'.dinodes n).type = (m.dinodes n).type
  size : (m'.dinodes n).size = (m.dinodes n).size + src.length
  freeinode : m'.freeinode = m.freeinode
  super : m'.sectors 1 = m.sectors 1
  blank : Blank m'
  books : Books sb m'.dinodes (fun b => decide (b < m'.freeblock)) m'.sectors
  held : ∀ k e, k ≠ n → Files.held m'.dinodes m'.sectors (k, e) = Files.held m.dinodes m.sectors (k, e)
  shape : ∀ bn (h : bn < maxFile), Files.held m'.dinodes m'.sectors (n, .ofIndex bn h) ≠ none ↔
    bn * bSize < (m.dinodes n).size + src.length
  indirect : Files.held m'.dinodes m'.sectors (n, .indirect) ≠ none ↔
    nDirect * bSize < (m.dinodes n).size + src.length
  hit : ∀ x, (m.dinodes n).size ≤ x → x < (m.dinodes n).size + src.length →
    Files.content m'.dinodes m'.sectors n x = some (src.getD (x - (m.dinodes n).size) 0)
  rest : ∀ k x, (k = n → x < (m.dinodes n).size ∨ (m.dinodes n).size + src.length ≤ x) →
    Files.SameOrZero (Files.content m.dinodes m.sectors k x) (Files.content m'.dinodes m'.sectors k x)

theorem iappend_appended {src : List UInt8} (hn : n < nInodes)
    (h : Appending m n (m.dinodes n) (m.dinodes n).size)
    (hmax : (m.dinodes n).size + src.length ≤ maxFile * bSize)
    (hroom : m.freeblock + blocksFor ((m.dinodes n).size + src.length) ≤
      fsSize + blocksFor (m.dinodes n).size) : ∃ m', iappend n src m = .ok ((), m') ∧ Appended m m' n src ∧
      m'.freeblock + blocksFor (m.dinodes n).size =
        m.freeblock + blocksFor ((m.dinodes n).size + src.length) := by
  obtain ⟨din', m1, j, hloop, hgrew, hj, happ, hwrite⟩ :=
    appendLoop_simulates h (Nat.le_refl src.length) hmax hroom
  have htype : ((m.editing n (m.dinodes n)).icache 0).copy.type ≠ 0 := by
    rw [icache_editing]
    exact h.type
  obtain ⟨-, hwrote⟩ := (Files.writeLoop_ends h.kept htype (by decide) (Nat.le_refl src.length)
    hmax).returned hwrite
  have hcopy := hwrote.copy
  rw [icache_editing, icache_editing] at hcopy
  dsimp only at hcopy
  have hfits : Fits { din' with size := (m.dinodes n).size + src.length } := by
    have hold := fits_dinodes m n
    refine ⟨?_, ?_, ?_, ?_, ?_, fun i => ?_⟩
    · rw [hcopy]
      exact hold.type
    · rw [hcopy]
      exact hold.major
    · rw [hcopy]
      exact hold.minor
    · rw [hcopy]
      exact hold.nlink
    · show (m.dinodes n).size + src.length < 2 ^ 32
      have : maxFile * bSize < 2 ^ 32 := by decide
      omega
    · show din'.addrs i < 2 ^ 32
      by_cases hzero : din'.addrs i = 0
      · rw [hzero]
        decide
      have hheld : (m1.editing n din').held 0 (n, .ofAddr i) = some (din'.addrs i) := by
        refine Files.held_eq_some.mpr ?_
        rw [view_editing, Files.entry_ofAddr]
        exact ⟨happ.type, rfl, hzero⟩
      have hlt := (Appending.bounds happ.kept hheld).2
      have hfree := hgrew.freeblock
      have : fsSize < 2 ^ 32 := by decide
      omega
  have hbefore : m1.dinodes = m.dinodes := dinodes_congr hgrew.low
  have hview : (m1.editing n din').view 0 = update m1.dinodes n din' := by
    unfold Store.view
    rw [icache_editing]
    rfl
  have hnew : ∀ p, held (update m1.dinodes n { din' with size := (m.dinodes n).size + src.length }) m1.sectors p =
      (m1.editing n din').held 0 p := by
    intro p
    unfold Store.held
    rw [hview]
    apply Files.held_update_congr
    · rfl
    · rfl
  obtain ⟨m', hwinode, hsaved⟩ := winode_saved happ.blank hn hfits (happ.kept.congr hnew)
  have hafter : ∀ p, held m'.dinodes m'.sectors p = (m1.editing n din').held 0 p :=
    fun p => (hsaved.held p).trans (hnew p)
  have hcontent : ∀ k x, content m'.dinodes m'.sectors k x = (m1.editing n din').content 0 k x := fun k x =>
    (hsaved.content k x).trans (Files.content_congr (fun e => hnew (k, e)) fun _ _ _ _ => rfl)
  have hview0 := view_dinodes m n
  have hinum : ((m.editing n (m.dinodes n)).icache 0).inum = n := by rw [icache_editing]
  refine ⟨m', ?_, ⟨fun k hk => ?_, ?_, ?_, hsaved.freeinode.trans hgrew.freeinode, ?_, hsaved.blank, ?_,
    fun k e hk => ?_, fun bn hbn => ?_, ?_, fun x hle hlt => ?_, fun k x hout => ?_⟩, ?_⟩
  · unfold iappend
    rw [bind_of_ok (rinode_eq h.blank hn), bind_of_ok hloop]
    exact hwinode
  · rw [hsaved.dinodes, update_of_ne hk, hbefore]
  · rw [hsaved.dinodes, update_self, hcopy]
  · rw [hsaved.dinodes, update_self]
  · rw [hsaved.super, hgrew.low 1 (by decide)]
  · rw [hsaved.freeblock]
    exact happ.kept.congr hafter
  · have hothers := hwrote.others k e (by rw [hinum]; exact hk)
    rw [hafter, hothers]
    unfold Store.held
    rw [hview0]
    rfl
  · rw [hafter]
    exact happ.shape bn hbn
  · rw [hafter]
    exact happ.indirect
  · have hhit := hwrote.hit x hle hlt
    rw [hinum] at hhit
    rw [hcontent, hhit]
  · have hrest := hwrote.rest k x (by rw [hinum]; exact hout)
    rw [hcontent]
    unfold Store.content at hrest
    rw [hview0] at hrest
    exact hrest
  · rw [hsaved.freeblock, hgrew.freeblock]
    omega

theorem Image.iappend (h : Image m F) (hk : F[k]? = some (type, bytes)) (htype : type ≠ 0) (src : List UInt8)
    (hmax : bytes.length + src.length ≤ maxFile * bSize)
    (hroom : nmeta + total (F.set k (type, bytes ++ src)) ≤ fsSize) :
    ∃ m', Mkfs.iappend (k + 1) src m = .ok ((), m') ∧ Image m' (F.set k (type, bytes ++ src)) := by
  have hholds := h.holds k type bytes hk
  have hset := total_set hk (type, bytes ++ src)
  rw [List.length_append] at hset
  have hused := h.used
  have happ := h.appending hk htype
  rw [← hholds.size] at happ hmax hset
  obtain ⟨m', hrun, happended, hfree⟩ := iappend_appended (h.lt hk) happ hmax (by omega)
  refine ⟨m', hrun, happended.blank, happended.books, ?_, ?_, ?_, fun i type' bytes' hi => ?_,
    fun n hn => ?_, ?_⟩
  · rw [happended.super]
    exact h.super
  · rw [happended.freeinode, h.freeinode, List.length_set]
  · rw [List.length_set]
    exact h.few
  · by_cases hik : i = k
    · subst hik
      rw [List.getElem?_set_self (List.getElem?_eq_some_iff.mp hk).1] at hi
      cases hi
      have hsize := happended.size
      have hshape := happended.shape
      have hindirect := happended.indirect
      have hhit := happended.hit
      have hrest := happended.rest
      rw [hholds.size] at hsize hshape hindirect hhit hrest hmax
      refine ⟨happended.type.trans hholds.type, ?_, ?_, fun x hx => ?_, fun x v hx hv => ?_,
        fun bn hbn => ?_, ?_⟩
      · rw [hsize, List.length_append]
      · rw [List.length_append]
        exact hmax
      · rw [List.length_append] at hx
        by_cases hold : x < bytes.length
        · rw [(hrest (i + 1) x fun _ => .inl hold).some (hholds.content x hold),
            List.getD_append _ _ _ _ hold]
        · rw [hhit x (by omega) hx, List.getD_append_right _ _ _ _ (by omega)]
      · rw [List.length_append] at hx
        obtain heq | ⟨-, hz⟩ := hrest (i + 1) x fun _ => .inr hx
        · rw [heq] at hv
          exact hholds.zero x v (by omega) hv
        · rw [hz] at hv
          exact (Option.some.inj hv).symm
      · rw [List.length_append]
        exact hshape bn hbn
      · rw [List.length_append]
        exact hindirect
    · rw [List.getElem?_set_ne (Ne.symm hik)] at hi
      have hother := h.holds i type' bytes' hi
      have hne : i + 1 ≠ k + 1 := by omega
      have hcontent : ∀ x, content m'.dinodes m'.sectors (i + 1) x =
          content m.dinodes m.sectors (i + 1) x := by
        intro x
        obtain heq | ⟨hnone, hzero⟩ := happended.rest (i + 1) x fun heq => absurd heq hne
        · exact heq
        -- a file that is not written to gets no new block
        unfold content at hnone hzero
        split at hnone
        · rename_i hlt
          rw [dif_pos hlt, happended.held (i + 1) _ hne] at hzero
          rw [Option.map_eq_none_iff] at hnone
          rw [hnone] at hzero
          cases hzero
        · rename_i hlt
          rw [dif_neg hlt] at hzero
          cases hzero
      exact hother.congr (happended.same _ hne) (fun e => happended.held _ e hne) hcontent
  · rw [List.length_set] at hn
    have hlt : k < F.length := (List.getElem?_eq_some_iff.mp hk).1
    rw [happended.same n (by omega)]
    exact h.unused n hn
  · omega

theorem Image.ialloc (h : Image m F) (hfew : F.length + 1 < nInodes) (htype : type < 2 ^ 16) :
    ∃ m', Mkfs.ialloc type m = .ok (F.length + 1, m') ∧ Image m' (F ++ [(type, [])]) := by
  have hblank : Blank { m with freeinode := m.freeinode + 1 } := ⟨h.blank.count, h.blank.low, h.blank.zero⟩
  have hfits : Fits { Dinode.new type with nlink := 1 } :=
    ⟨htype, rfl, rfl, rfl, show 0 < 2 ^ 32 by decide, fun _ => show 0 < 2 ^ 32 by decide⟩
  have hfree : (m.dinodes (F.length + 1)).type = 0 := h.unused _ (.inr (Nat.lt_succ_self _))
  have hnew : ∀ p, held (update m.dinodes (F.length + 1) { Dinode.new type with nlink := 1 }) m.sectors p =
      held m.dinodes m.sectors p := by
    intro p
    conv_rhs => rw [← update_eq_self (F.length + 1) m.dinodes]
    exact Files.held_update_free (.inl hfree) (.inr rfl) p
  obtain ⟨m', hwinode, hsaved⟩ := winode_saved hblank hfew hfits (h.books.congr hnew)
  have hheld := fun p => (hsaved.held p).trans (hnew p)
  refine ⟨m', ?_, hsaved.blank, ?_, ?_, ?_, ?_, fun k type' bytes hk => ?_, fun n hn => ?_, ?_⟩
  · unfold Mkfs.ialloc
    rw [get_bind_apply, modify_bind_apply, h.freeinode]
    rw [h.freeinode] at hwinode
    rw [bind_of_ok hwinode]
    rfl
  · rw [hsaved.freeblock]
    exact h.books.congr hheld
  · rw [hsaved.super]
    exact h.super
  · rw [hsaved.freeinode, List.length_append]
    exact congrArg (· + 1) h.freeinode
  · rw [List.length_append]
    exact hfew
  · by_cases hlast : k = F.length
    · subst hlast
      rw [List.getElem?_append_right (Nat.le_refl _), Nat.sub_self] at hk
      cases hk
      have hnone : ∀ e, held m'.dinodes m'.sectors (F.length + 1, e) = none := by
        intro e
        rw [hheld]
        exact Files.held_eq_none.mpr (.inl hfree)
      refine ⟨by rw [hsaved.dinodes, update_self]; rfl, by rw [hsaved.dinodes, update_self]; rfl,
        Nat.zero_le _, fun x hx => absurd hx (Nat.not_lt_zero _), fun x v _ hv => ?_, fun bn hbn => ?_, ?_⟩
      · unfold content at hv
        split at hv
        · rw [hnone] at hv
          cases hv
        · cases hv
      · exact iff_of_false (fun hne => hne (hnone _)) (Nat.not_lt_zero _)
      · exact iff_of_false (fun hne => hne (hnone _)) (Nat.not_lt_zero _)
    · have hlt : k < F.length := by
        have := (List.getElem?_eq_some_iff.mp hk).1
        rw [List.length_append, List.length_singleton] at this
        omega
      rw [List.getElem?_append_left hlt] at hk
      refine (h.holds k type' bytes hk).congr ?_ (fun e => hheld _) fun x => ?_
      · rw [hsaved.dinodes]
        exact update_of_ne (by omega) ..
      · rw [hsaved.content]
        exact Files.content_congr (fun e => hnew _) fun _ _ _ _ => rfl
  · rw [List.length_append, List.length_singleton] at hn
    rw [hsaved.dinodes, update_of_ne (by omega)]
    exact h.unused n (by omega)
  · have hzero : total [(type, [])] = 0 := by simp [total, blocksFor]
    rw [hsaved.freeblock, total_append, hzero]
    exact h.used

theorem set_of_getElem? {f : Nat × List UInt8} (h : F[k]? = some f) : F.set k f = F := by
  apply List.ext_getElem?
  intro i
  by_cases hi : i = k
  · subst hi
    rw [List.getElem?_set_self (List.getElem?_eq_some_iff.mp h).1, h]
  · rw [List.getElem?_set_ne (Ne.symm hi)]

theorem total_set_le {old : Nat × List UInt8} (h : F[k]? = some old) {new new' : Nat × List UInt8}
    (hle : new.2.length ≤ new'.2.length) : total (F.set k new) ≤ total (F.set k new') := by
  have hnew := total_set h new
  have hnew' := total_set h new'
  have := blocksFor_mono hle
  omega

theorem Image.copyLoop {fuel : Nat} {done : List UInt8} (h : Image m F) (hk : F[k]? = some (type, done))
    (htype : type ≠ 0) (hfuel : bytes.length ≤ fuel) (hmax : done.length + bytes.length ≤ maxFile * bSize)
    (hroom : nmeta + total (F.set k (type, done ++ bytes)) ≤ fsSize) :
    ∃ m', Mkfs.copyLoop (k + 1) fuel bytes m = .ok ((), m') ∧ Image m' (F.set k (type, done ++ bytes)) := by
  have hstop : bytes = [] → Image m (F.set k (type, done ++ bytes)) := by
    intro hnil
    rw [hnil, List.append_nil, set_of_getElem? hk]
    exact h
  induction fuel generalizing m F done bytes with
  | zero =>
    have hnil := List.length_eq_zero_iff.mp (Nat.le_zero.mp hfuel)
    exact ⟨m, rfl, hstop hnil⟩
  | succ fuel ih =>
    unfold Mkfs.copyLoop
    by_cases hnil : bytes = []
    · rw [if_pos hnil]
      exact ⟨m, rfl, hstop hnil⟩
    have hsplit : done ++ bytes.take bSize ++ bytes.drop bSize = done ++ bytes := by
      rw [List.append_assoc, List.take_append_drop]
    have htake : (bytes.take bSize).length ≤ bytes.length := List.length_take_le' ..
    have hpos : 0 < bytes.length := List.length_pos_iff.mpr hnil
    have hlt : k < F.length := (List.getElem?_eq_some_iff.mp hk).1
    have hfirst : total (F.set k (type, done ++ bytes.take bSize)) ≤
        total (F.set k (type, done ++ bytes)) := by
      apply total_set_le hk
      rw [List.length_append, List.length_append]
      omega
    rw [if_neg hnil]
    obtain ⟨m1, hrun, himage⟩ := h.iappend hk htype (bytes.take bSize) (by omega) (by omega)
    rw [bind_of_ok hrun]
    have hnext : ∃ m', Mkfs.copyLoop (k + 1) fuel (bytes.drop bSize) m1 = .ok ((), m') ∧
        Image m' ((F.set k (type, done ++ bytes.take bSize)).set k
          (type, done ++ bytes.take bSize ++ bytes.drop bSize)) :=
      ih himage (List.getElem?_set_self hlt)
      (by rw [List.length_drop]; unfold bSize; omega)
      (by rw [List.length_append, List.length_drop, List.length_take]; omega)
      (by rw [List.set_set, hsplit]; exact hroom)
      (fun hrest => by rw [List.set_set, hrest, List.append_nil]; exact himage)
    rw [List.set_set, hsplit] at hnext
    exact hnext

/-- The directory entries of the files, the first of which has the inode `n`. -/
def entries : Nat → List Input → List UInt8
  | _, [] => []
  | n, f :: files => dirent n (chars dirSiz f.target) ++ entries (n + 1) files

theorem length_entries (files : List Input) :
    (entries n files).length = direntSize * files.length := by
  induction files generalizing n with
  | nil => rfl
  | cons f files ih =>
    unfold entries
    rw [List.length_append, ih, Fs.length_dirent (length_chars_le ..), List.length_cons]
    unfold direntSize
    omega

/-! ## The program -/

theorem Image.addFile {R : List UInt8} {G : List (Nat × List UInt8)} (h : Image m ((tDir, R) :: G))
    {f : Input} (hslash : slash ∉ f.name) (hfew : G.length + 2 < nInodes)
    (hdir : R.length + direntSize ≤ maxFile * bSize) (hmax : f.bytes.length ≤ maxFile * bSize)
    (hroom : nmeta + total ((tDir, R ++ dirent (G.length + 2) (chars dirSiz f.target)) ::
      (G ++ [(tFile, f.bytes)])) ≤ fsSize) :
    ∃ m', Mkfs.addFile f m = .ok ((), m') ∧
      Image m' ((tDir, R ++ dirent (G.length + 2) (chars dirSiz f.target)) :: (G ++ [(tFile, f.bytes)])) := by
  have hentry : (dirent (G.length + 2) (chars dirSiz f.target)).length = direntSize :=
    Fs.length_dirent (length_chars_le ..) _
  generalize hR : R ++ dirent (G.length + 2) (chars dirSiz f.target) = R' at hroom ⊢
  have hlast : ∀ (a : Nat × List UInt8) b, ((tDir, R') :: (G ++ [a])).set (G.length + 1) b =
      (tDir, R') :: (G ++ [b]) := by
    intro a b
    simp
  have hempty : total ((tDir, R') :: (G ++ [(tFile, [])])) ≤ total ((tDir, R') :: (G ++ [(tFile, f.bytes)])) := by
    have hle := blocksFor_mono (Nat.zero_le f.bytes.length)
    simp only [total, List.map_cons, List.map_append, List.map_nil, List.sum_cons, List.sum_append,
      List.sum_nil, List.length_nil]
    omega
  unfold Mkfs.addFile
  rw [if_neg hslash]
  obtain ⟨m1, halloc, h1⟩ := h.ialloc hfew (show tFile < 2 ^ 16 by decide)
  have halloc : Mkfs.ialloc tFile m = .ok (G.length + 2, m1) := halloc
  rw [bind_of_ok halloc]
  obtain ⟨m2, happend, h2⟩ := h1.iappend (k := 0) rfl (show tDir ≠ 0 by decide)
    (dirent (G.length + 2) (chars dirSiz f.target)) (by rw [hentry]; exact hdir)
    (by rw [hR]; exact Nat.le_trans (Nat.add_le_add_left hempty nmeta) hroom)
  have happend : Mkfs.iappend rootIno (dirent (G.length + 2) (chars dirSiz f.target)) m1 = .ok ((), m2) :=
    happend
  rw [bind_of_ok happend]
  rw [hR] at h2
  have h2 : Image m2 ((tDir, R') :: (G ++ [(tFile, [])])) := h2
  have hfile : ((tDir, R') :: (G ++ [(tFile, [])]))[G.length + 1]? = some (tFile, []) := by simp
  have hset : ((tDir, R') :: (G ++ [(tFile, [])])).set (G.length + 1) (tFile, [] ++ f.bytes) =
      (tDir, R') :: (G ++ [(tFile, f.bytes)]) := by simp
  obtain ⟨m3, hcopy, h3⟩ := h2.copyLoop hfile (show tFile ≠ 0 by decide) (Nat.le_refl f.bytes.length)
    (by rw [List.length_nil, Nat.zero_add]; exact hmax) (by rw [hset]; exact hroom)
  rw [hset] at h3
  exact ⟨m3, hcopy, h3⟩

theorem Image.addFiles {R : List UInt8} {G : List (Nat × List UInt8)} (h : Image m ((tDir, R) :: G))
    {files : List Input} (hslash : ∀ f ∈ files, slash ∉ f.name)
    (hfew : G.length + files.length + 1 < nInodes)
    (hdir : R.length + direntSize * files.length ≤ maxFile * bSize)
    (hmax : ∀ f ∈ files, f.bytes.length ≤ maxFile * bSize)
    (hroom : nmeta + total ((tDir, R ++ entries (G.length + 2) files) ::
      (G ++ files.map fun f => (tFile, f.bytes))) ≤ fsSize) :
    ∃ m', files.forM Mkfs.addFile m = .ok ((), m') ∧
      Image m' ((tDir, R ++ entries (G.length + 2) files) :: (G ++ files.map fun f => (tFile, f.bytes))) := by
  induction files generalizing m R G with
  | nil =>
    refine ⟨m, rfl, ?_⟩
    rw [entries, List.append_nil, List.map_nil, List.append_nil]
    exact h
  | cons f files ih =>
    have hentry : (dirent (G.length + 2) (chars dirSiz f.target)).length = direntSize :=
      Fs.length_dirent (length_chars_le ..) _
    have hall : R ++ entries (G.length + 2) (f :: files) =
        R ++ dirent (G.length + 2) (chars dirSiz f.target) ++
          entries ((G ++ [(tFile, f.bytes)]).length + 2) files := by
      rw [entries, List.append_assoc, List.length_append]
      rfl
    have hmap : G ++ (f :: files).map (fun f => (tFile, f.bytes)) =
        G ++ [(tFile, f.bytes)] ++ files.map fun f => (tFile, f.bytes) := by simp
    rw [hall, hmap] at hroom ⊢
    rw [List.length_cons] at hfew hdir
    have hfirst : total ((tDir, R ++ dirent (G.length + 2) (chars dirSiz f.target)) ::
        (G ++ [(tFile, f.bytes)])) ≤ total ((tDir, R ++ dirent (G.length + 2) (chars dirSiz f.target) ++
          entries ((G ++ [(tFile, f.bytes)]).length + 2) files) ::
        (G ++ [(tFile, f.bytes)] ++ files.map fun f => (tFile, f.bytes))) := by
      have hle := blocksFor_mono (show (R ++ dirent (G.length + 2) (chars dirSiz f.target)).length ≤
        (R ++ dirent (G.length + 2) (chars dirSiz f.target) ++
          entries ((G ++ [(tFile, f.bytes)]).length + 2) files).length by
        simp only [List.length_append]
        omega)
      simp only [total, List.map_cons, List.map_append, List.sum_cons, List.sum_append] at hle ⊢
      omega
    obtain ⟨m1, hrun, h1⟩ := h.addFile (hslash f List.mem_cons_self) (by omega)
      (by unfold direntSize at *; omega) (hmax f List.mem_cons_self) (by omega)
    obtain ⟨m', hrest, h'⟩ := ih h1 (fun f hf => hslash f (List.mem_cons_of_mem _ hf))
      (by rw [List.length_append, List.length_singleton]; omega)
      (by rw [List.length_append, hentry]; unfold direntSize at *; omega)
      (fun f hf => hmax f (List.mem_cons_of_mem _ hf)) hroom
    refine ⟨m', ?_, h'⟩
    show (Mkfs.addFile f >>= fun _ => files.forM Mkfs.addFile) m = _
    rw [bind_of_ok hrun]
    exact hrest

end Append

/-- The image after the zeros and the super block. -/
def formatted : State where
  sectors := update (fun _ => zeroes) 1 superSector
  count := fsSize
  freeinode := 1
  freeblock := nmeta

theorem zeroLoop (n : Nat) :
    (List.range n).forM (fun i => wsect i zeroes) start = .ok ((), { start with count := n }) := by
  induction n with
  | zero => rfl
  | succ n ih =>
    rw [List.range_succ]
    have happend : (List.range n ++ [n]).forM (fun i => wsect i zeroes) =
        (List.range n).forM (fun i => wsect i zeroes) >>= fun _ => [n].forM fun i => wsect i zeroes :=
      List.forM_append
    rw [happend, bind_of_ok ih]
    have hsame : update (fun _ => zeroes) n zeroes = fun _ : Nat => zeroes :=
      update_eq_self n fun _ => zeroes
    have hcount : max n (n + 1) = n + 1 := Nat.max_eq_right (Nat.le_succ n)
    show Except.ok ((), State.mk (update (fun _ => zeroes) n zeroes) (max n (n + 1)) 1 nmeta) = _
    rw [hsame, hcount]
    rfl

theorem formatted_image : Image formatted [] := by
  have hzero : ∀ b, b ≠ 1 → formatted.sectors b = zeroes := by
    intro b hb
    show update (fun _ => zeroes) 1 superSector b = zeroes
    rw [update_of_ne hb]
  have hdinodes : ∀ n, formatted.dinodes n = Dinode.new 0 := by
    intro n
    unfold State.dinodes
    split
    · rename_i hn
      have hne : iblock n ≠ 1 := by
        have := (iblock_bounds hn).1
        unfold inodestart at this
        omega
      rw [hzero _ hne, getDinode_zeroes]
    · rfl
  have hnone : ∀ p, held formatted.dinodes formatted.sectors p = none := by
    intro p
    refine Files.held_eq_none.mpr (.inl ?_)
    rw [hdinodes]
    rfl
  refine ⟨⟨rfl, Nat.le_refl _, fun b hb => ?_⟩, .empty hnone fun b => decide_eq_true_iff, ?_,
    rfl, by decide, fun k type bytes hk => ?_, fun n _ => ?_, rfl⟩
  · have hne : b ≠ 1 := by
      have : nmeta ≤ b := hb
      have : 1 < nmeta := by decide
      omega
    exact hzero b hne
  · show update (fun _ => zeroes) 1 superSector 1 = superSector
    rw [update_self]
  · cases hk
  · rw [hdinodes]
    rfl

end Xv6.Mkfs
