import Xv6.Mkfs.Image
import Xv6.Files.Directory

/-! # What the kernel finds on the image

In the end `mkfs` rounds the size of the root directory up, from whole blocks even by one more, but
it takes no block for that. So the image is in order where the entries of the root directory do not
fill whole blocks. Where they do, the root directory lacks its last block.
-/

namespace Xv6.Mkfs

open Function Lib
open Fs (tDir tFile tDev dot dotdot slash dirent direntSize scanDirents)
open Files (Block Dinode Books Sound Filled held content)

variable {files : List Input} {f : Input} {k : Nat}

/-- The bytes of the root directory as the loop over the files leaves it. -/
def rootBytes (files : List Input) : List UInt8 :=
  dirent rootIno dot ++ dirent rootIno dotdot ++ entries 2 files

/-- The inodes of the image, from number `1` on. -/
def inodes (files : List Input) : List (Nat × List UInt8) :=
  (tDir, rootBytes files) :: files.map fun f => (tFile, f.bytes)

/-- The files that `mkfs` takes: they have names that a directory can hold, and they fit. -/
structure Admissible (files : List Input) : Prop where
  slash : ∀ f ∈ files, slash ∉ f.name
  distinct : (files.map Input.target).Nodup
  short : ∀ f ∈ files, f.target.length ≤ dirSiz
  few : files.length < nInodes - 1
  sizes : ∀ f ∈ files, f.bytes.length ≤ maxFile * bSize
  room : nmeta + total (inodes files) ≤ fsSize

/-- The image of the files is one that the kernel can use. -/
structure Usable (sectors : Nat → Block) (files : List Input) : Prop where
  blocks : ∀ n bn, (dinodeAt sectors n).type ≠ 0 → bn < ((dinodeAt sectors n).size + (bSize - 1)) / bSize →
    (dinodeAt sectors n).block sectors bn ≠ 0
  once : ∀ p q b, held (dinodeAt sectors) sectors p = some b → held (dinodeAt sectors) sectors q = some b →
    p = q
  bitmap : ∀ b, b < (readsb sectors).size →
    (bitAt sectors b = true ↔ b < nmeta ∨ ∃ p, held (dinodeAt sectors) sectors p = some b)
  files : ∀ f ∈ files, ∃ t, Files.fetch (readsb sectors) f.target (disk sectors) = .ok (some f.bytes, t)

def roundedSize (size : Nat) : Nat := (size / bSize + 1) * bSize

/-- The bytes of the root directory on the image. -/
def rounded (bytes : List UInt8) : List UInt8 :=
  bytes ++ List.replicate (roundedSize bytes.length - bytes.length) 0

theorem length_rootBytes (files : List Input) :
    (rootBytes files).length = direntSize * (files.length + 2) := by
  unfold rootBytes
  rw [List.length_append, List.length_append, Fs.length_dirent (by decide), Fs.length_dirent (by decide),
    length_entries]
  unfold direntSize
  omega

theorem lt_roundedSize (size : Nat) : size < roundedSize size := by
  unfold roundedSize bSize
  omega

theorem length_rounded (bytes : List UInt8) : (rounded bytes).length = roundedSize bytes.length := by
  have := lt_roundedSize bytes.length
  unfold rounded
  rw [List.length_append, List.length_replicate]
  omega

/-! ## The last steps of the program -/

/-- The image `m'` that is left of `m` by the last two steps. -/
structure Finished (m m' : State) : Prop where
  super : m'.sectors 1 = superSector
  dinodes : m'.dinodes =
    update m.dinodes rootIno { m.dinodes rootIno with size := roundedSize (m.dinodes rootIno).size }
  data : ∀ b, nmeta ≤ b → m'.sectors b = m.sectors b
  bitmap : m'.sectors bmapstart = bitmapSector m.freeblock

theorem finish {m : State} {F : List (Nat × List UInt8)} (h : Image m F)
    (hsize : (m.dinodes rootIno).size ≤ maxFile * bSize) (hfree : m.freeblock ≤ fsSize) :
    ∃ m', (fixRoot >>= fun _ => get >>= fun s : State => balloc s.freeblock) m = .ok ((), m') ∧
      Finished m m' := by
  have hroot : rootIno < nInodes := by decide
  have hsmall : roundedSize (m.dinodes rootIno).size < 2 ^ 32 := by
    unfold roundedSize maxFile nDirect nIndirect bSize at *
    omega
  have hfits := (fits_dinodes m rootIno).withSize hsmall
  obtain ⟨buf, hwinode, hdinodes⟩ := winode_eq h.blank hroot hfits
  have hfix : fixRoot m = .ok ((), m.put (iblock rootIno) buf) := by
    unfold fixRoot
    rw [bind_of_ok (rinode_eq h.blank hroot)]
    exact hwinode
  have hlow := iblock_bounds hroot
  have hmeta : bmapstart < nmeta := by decide
  generalize hm1 : m.put (iblock rootIno) buf = m1 at hfix hdinodes
  have hfree1 : m1.freeblock = m.freeblock := by
    rw [← hm1]
    rfl
  have hcount : bmapstart < m1.count := by
    rw [← hm1]
    show bmapstart < m.count
    rw [h.blank.count]
    decide
  have hsame : ∀ b, b ≠ iblock rootIno → m1.sectors b = m.sectors b := by
    intro b hb
    rw [← hm1, sectors_put_of_ne hb]
  refine ⟨m1.put bmapstart (bitmapSector m.freeblock), ?_, ?_, ?_, ?_, ?_⟩
  · rw [bind_of_ok hfix, get_bind_apply, hfree1]
    unfold balloc
    rw [if_pos (Nat.lt_of_le_of_lt hfree (by decide)), wsect_of_lt hcount]
  · rw [sectors_put_of_ne (by decide), hsame 1 (by decide)]
    exact h.super
  · rw [← hdinodes]
    funext n
    unfold State.dinodes
    split
    · rename_i hn
      rw [sectors_put_of_ne (Nat.ne_of_lt (iblock_bounds hn).2)]
    · rfl
  · intro b hb
    rw [sectors_put_of_ne (by omega), hsame b (by omega)]
  · exact sectors_put_self

/-- `mkfs` writes the image of the files, and then the size of the root directory and the bitmap. -/
theorem main_finished (h : Admissible files) :
    ∃ m m', main files start = .ok ((), m') ∧ Image m (inodes files) ∧ Finished m m' := by
  have hlen := length_rootBytes files
  have hfew := h.few
  have hdot : (dirent rootIno dot).length = direntSize := Fs.length_dirent (by decide) _
  have hdotdot : (dirent rootIno dotdot).length = direntSize := Fs.length_dirent (by decide) _
  have hdir : (rootBytes files).length ≤ maxFile * bSize := by
    rw [hlen]
    unfold nInodes at hfew
    unfold direntSize maxFile nDirect nIndirect bSize
    omega
  have hformat : wsect 1 superSector { start with count := fsSize } = .ok ((), formatted) := by
    rw [wsect_of_lt (show 1 < fsSize by decide)]
    rfl
  obtain ⟨m1, halloc, h1⟩ := formatted_image.ialloc (by decide) (show tDir < 2 ^ 16 by decide)
  have halloc : ialloc tDir formatted = .ok (rootIno, m1) := halloc
  have h1 : Image m1 [(tDir, [])] := h1
  obtain ⟨m2, hrun2, h2⟩ := h1.iappend (k := 0) rfl (show tDir ≠ 0 by decide) (dirent rootIno dot)
    (by decide) (by decide)
  have hrun2 : iappend rootIno (dirent rootIno dot) m1 = .ok ((), m2) := hrun2
  have h2 : Image m2 [(tDir, dirent rootIno dot)] := h2
  obtain ⟨m3, hrun3, h3⟩ := h2.iappend (k := 0) rfl (show tDir ≠ 0 by decide) (dirent rootIno dotdot)
    (by decide) (by decide)
  have hrun3 : iappend rootIno (dirent rootIno dotdot) m2 = .ok ((), m3) := hrun3
  have h3 : Image m3 [(tDir, dirent rootIno dot ++ dirent rootIno dotdot)] := h3
  obtain ⟨m, hfiles, himage⟩ := h3.addFiles h.slash
    (by unfold nInodes at *; rw [List.length_nil]; omega)
    (by
      have hadd := hlen
      unfold rootBytes at hadd hdir
      rw [List.length_append, length_entries] at hadd hdir
      exact hdir)
    h.sizes h.room
  have himage : Image m (inodes files) := himage
  have hroot := himage.holds 0 tDir (rootBytes files) rfl
  have hsize : (m.dinodes rootIno).size = (rootBytes files).length := hroot.size
  have hfree : m.freeblock ≤ fsSize := by
    rw [himage.used]
    exact h.room
  obtain ⟨m', hlast, hfinished⟩ := finish himage (by rw [hsize]; exact hdir) hfree
  refine ⟨m, m', ?_, himage, hfinished⟩
  unfold main
  rw [bind_of_ok (zeroLoop fsSize), bind_of_ok hformat, bind_of_ok halloc, if_pos rfl, bind_of_ok hrun2,
    bind_of_ok hrun3, bind_of_ok hfiles]
  exact hlast

/-! ## The entries of the root directory -/

/-- The numbers and names of the files, the first of which has the inode `n`. -/
def named : Nat → List Input → List (Nat × CString)
  | _, [] => []
  | n, f :: files => (n, f.target) :: named (n + 1) files

theorem Input.target_terminated (f : Input) : 0 ∉ f.target := by
  unfold target
  split
  · exact fun hmem => f.terminated (List.mem_of_mem_tail hmem)
  · exact f.terminated

theorem Input.chars_target (h : f.target.length ≤ dirSiz) : chars dirSiz f.target = f.target :=
  chars_of_length_le f.target_terminated h

theorem entries_eq (h : ∀ f ∈ files, f.target.length ≤ dirSiz) (n : Nat) :
    entries n files = (named n files).flatMap fun e => dirent e.1 e.2 := by
  induction files generalizing n with
  | nil => rfl
  | cons f files ih =>
    rw [entries, named, List.flatMap_cons, Input.chars_target (h f List.mem_cons_self),
      ih fun f hf => h f (List.mem_cons_of_mem _ hf)]

theorem mem_named {n : Nat} {e : Nat × CString} (h : e ∈ named n files) :
    n ≤ e.1 ∧ e.1 < n + files.length ∧ ∃ f ∈ files, f.target = e.2 := by
  induction files generalizing n with
  | nil => cases h
  | cons f files ih =>
    rw [List.length_cons]
    cases h with
    | head => exact ⟨Nat.le_refl n, by omega, f, List.mem_cons_self, rfl⟩
    | tail _ h =>
      obtain ⟨hle, hlt, f', hf', htarget⟩ := ih h
      exact ⟨by omega, by omega, f', List.mem_cons_of_mem _ hf', htarget⟩

theorem find_named (hnodup : (files.map Input.target).Nodup) (hshort : ∀ f ∈ files, f.target.length ≤ dirSiz)
    (hk : files[k]? = some f) (n : Nat) :
    (named n files).find? (fun e => chars dirSiz f.target == chars dirSiz e.2) = some (n + k, f.target) := by
  induction files generalizing k n with
  | nil => simp at hk
  | cons g files ih =>
    rw [List.map_cons, List.nodup_cons] at hnodup
    rw [named, List.find?_cons]
    have hshort' : ∀ f ∈ files, f.target.length ≤ dirSiz := fun f hf => hshort f (List.mem_cons_of_mem _ hf)
    cases k with
    | zero =>
      cases hk
      rw [beq_self_eq_true]
      rfl
    | succ k =>
      have hk : files[k]? = some f := hk
      have hmem : f ∈ files := List.mem_of_getElem? hk
      have hne : chars dirSiz f.target ≠ chars dirSiz g.target := by
        rw [Input.chars_target (hshort' f hmem), Input.chars_target (hshort g List.mem_cons_self)]
        intro heq
        exact hnodup.1 (heq ▸ List.mem_map_of_mem hmem)
      rw [beq_eq_false_iff_ne.mpr hne]
      rw [ih hnodup.2 hshort' hk, Nat.add_right_comm, Nat.add_assoc]

theorem scanDirents_zeros (name : CString) (c fuel off : Nat) :
    scanDirents name fuel (List.replicate (direntSize * c) 0) off = .ok none := by
  induction fuel generalizing c off with
  | zero => rfl
  | succ fuel ih =>
    cases c with
    | zero => rfl
    | succ c =>
      have hlen : (List.replicate (direntSize * (c + 1)) (0 : UInt8)).length = direntSize * (c + 1) :=
        List.length_replicate
      have hpos : direntSize ≤ direntSize * (c + 1) := Nat.le_mul_of_pos_right _ (Nat.succ_pos c)
      have hne : List.replicate (direntSize * (c + 1)) (0 : UInt8) ≠ [] := by
        intro hnil
        rw [hnil, List.length_nil] at hlen
        have : 0 < direntSize := by decide
        omega
      have hinum : Fs.direntInum (List.replicate (direntSize * (c + 1)) 0) = 0 := by
        have hbyte : ∀ i, (List.replicate (direntSize * (c + 1)) (0 : UInt8)).getD i 0 = 0 := by
          intro i
          rw [List.getD_eq_getElem?_getD, List.getElem?_replicate]
          split
          · rfl
          · rfl
        unfold Fs.direntInum ushortAt
        rw [hbyte, hbyte]
        rfl
      have hdrop : (List.replicate (direntSize * (c + 1)) (0 : UInt8)).drop direntSize =
          List.replicate (direntSize * c) 0 := by
        rw [List.drop_replicate, Nat.mul_succ, Nat.add_sub_cancel]
      simp only [scanDirents]
      rw [if_neg hne, if_neg (by omega), if_pos hinum, hdrop]
      exact ih c _

theorem scanDirents_rounded (h : Admissible files) (hk : files[k]? = some f) :
    ∃ off, scanDirents f.target (roundedSize (rootBytes files).length + 1) (rounded (rootBytes files)) 0 =
      .ok (some (if f.target = dot ∨ f.target = dotdot then rootIno else k + 2, off)) := by
  have hmem : f ∈ files := List.mem_of_getElem? hk
  have hroot : rootBytes files =
      ((rootIno, dot) :: (rootIno, dotdot) :: named 2 files).flatMap fun e => dirent e.1 e.2 := by
    unfold rootBytes
    rw [entries_eq h.short, List.append_assoc]
    rfl
  have hnames : ∀ e ∈ (rootIno, dot) :: (rootIno, dotdot) :: named 2 files,
      0 < e.1 ∧ e.1 < 65536 ∧ e.2.length ≤ dirSiz := by
    intro e he
    rw [List.mem_cons, List.mem_cons] at he
    obtain rfl | rfl | he := he
    · decide
    · decide
    obtain ⟨hle, hlt, g, hg, htarget⟩ := mem_named he
    have hfew := h.few
    unfold nInodes at hfew
    rw [← htarget]
    exact ⟨by omega, by omega, h.short g hg⟩
  have hzeros : ∀ fuel off, scanDirents f.target fuel
      (List.replicate (roundedSize (rootBytes files).length - (rootBytes files).length) 0) off = .ok none := by
    have hdvd : direntSize ∣ roundedSize (rootBytes files).length - (rootBytes files).length := by
      rw [length_rootBytes]
      apply Nat.dvd_sub
      · exact Nat.dvd_mul_left_of_dvd (by decide) _
      · exact Nat.dvd_mul_right _ _
    obtain ⟨c, hc⟩ := hdvd
    intro fuel off
    rw [hc]
    exact scanDirents_zeros f.target c fuel off
  have hfuel : (rootBytes files).length ≤ roundedSize (rootBytes files).length + 1 := by
    have := lt_roundedSize (rootBytes files).length
    omega
  rw [hroot] at hfuel
  have hscan := Fs.scanDirents_entries f.target _ hnames hzeros 0 hfuel
  rw [← hroot] at hscan
  obtain ⟨off, hscan⟩ := hscan
  refine ⟨off, ?_⟩
  unfold rounded
  rw [hscan]
  have hchars := Input.chars_target (h.short f hmem)
  have hdot : chars dirSiz dot = dot := rfl
  have hdotdot : chars dirSiz dotdot = dotdot := rfl
  rw [List.find?_cons, List.find?_cons]
  by_cases hd : f.target = dot
  · rw [if_pos (.inl hd), hd, beq_self_eq_true]
    rfl
  rw [hchars, hdot, beq_eq_false_iff_ne.mpr hd]
  by_cases hdd : f.target = dotdot
  · rw [if_pos (.inr hdd), hdd, hdotdot, beq_self_eq_true]
    rfl
  rw [hdotdot, beq_eq_false_iff_ne.mpr hdd, if_neg (not_or.mpr ⟨hd, hdd⟩)]
  have hfind := find_named h.distinct h.short hk 2
  rw [hchars] at hfind
  rw [hfind, Nat.add_comm 2 k]
  rfl

/-! ## The disk that the kernel finds -/

section Disk

variable {files : List Input} {m m' : State}

theorem dinodeAt_eq (h : Finished m m') : dinodeAt m'.sectors = m'.dinodes := by
  obtain ⟨hsb, hinodes⟩ := readsb_superSector h.super
  have hninodes : sb.ninodes = nInodes := rfl
  funext n
  unfold dinodeAt State.dinodes iblock
  rw [hsb, hinodes, hninodes]

theorem held_finished (himage : Image m (inodes files)) (h : Finished m m') (p : Nat × Files.Entry) :
    held m'.dinodes m'.sectors p = held m.dinodes m.sectors p := by
  have hdinodes : ∀ p, held m'.dinodes m.sectors p = held m.dinodes m.sectors p := by
    intro p
    rw [h.dinodes]
    have hresize : ∀ d : Dinode,
        held (update m.dinodes rootIno { d with size := roundedSize d.size }) m.sectors p =
          held (update m.dinodes rootIno d) m.sectors p := by
      intro d
      apply Files.held_update_congr
      · rfl
      · rfl
    have hsame := hresize (m.dinodes rootIno)
    rw [update_eq_self] at hsame
    exact hsame
  exact (held_low (himage.books.congr hdinodes) h.data p).trans (hdinodes p)

theorem content_finished (himage : Image m (inodes files)) (h : Finished m m') (n x : Nat) :
    content m'.dinodes m'.sectors n x = content m.dinodes m.sectors n x := by
  apply Files.content_congr
  · intro e
    exact held_finished himage h (n, e)
  · intro e b _ hb
    exact h.data b (himage.books.alloc.marked_of_held hb).1

theorem bitAt_finished (h : Finished m m') {b : Nat} (hb : b < fsSize) :
    bitAt m'.sectors b = decide (b < m.freeblock) := by
  have hzero : b / (bSize * 8) = 0 := Nat.div_eq_of_lt (Nat.lt_trans hb (by decide))
  have hmod : b % (bSize * 8) = b := Nat.mod_eq_of_lt (Nat.lt_trans hb (by decide))
  have hbmap : sb.bmapstart = bmapstart := rfl
  unfold bitAt
  rw [(readsb_superSector h.super).1, hzero, hmod, hbmap, Nat.zero_add, h.bitmap]
  exact testBit_bitmapSector m.freeblock b

section

variable (himage : Image m (inodes files))

include himage

theorem books_finished (h : Finished m m') : Books sb m'.dinodes (bitAt m'.sectors) m'.sectors := by
  constructor
  · apply himage.books.alloc.congr (held_finished himage h)
    intro b
    refine and_congr_right fun _ => and_congr_right fun hb => ?_
    rw [bitAt_finished h hb]
  · intro b hb
    have hb : b < nmeta := hb
    rw [bitAt_finished h (Nat.lt_trans hb (by decide))]
    exact decide_eq_true (Nat.lt_of_lt_of_le hb himage.blank.low)

theorem root_holds : Holds m rootIno tDir (rootBytes files) :=
  himage.holds 0 tDir (rootBytes files) rfl

theorem file_holds (hk : files[k]? = some f) : Holds m (k + 2) tFile f.bytes := by
  apply himage.holds (k + 1)
  unfold inodes
  rw [List.getElem?_cons_succ, List.getElem?_map, hk]
  rfl

theorem dinode_root (h : Finished m m') :
    (m'.dinodes rootIno).type = tDir ∧ (m'.dinodes rootIno).size = roundedSize (rootBytes files).length := by
  have hroot := root_holds himage
  rw [h.dinodes, update_self]
  constructor
  · exact hroot.type
  · rw [hroot.size]

theorem dinode_file (h : Finished m m') (hk : files[k]? = some f) :
    (m'.dinodes (k + 2)).type = tFile ∧ (m'.dinodes (k + 2)).size = f.bytes.length := by
  have hfile := file_holds himage hk
  rw [h.dinodes, update_of_ne (by unfold rootIno; omega)]
  exact ⟨hfile.type, hfile.size⟩

theorem allocated_cases (h : Finished m m') {n : Nat} (htype : (m'.dinodes n).type ≠ 0) :
    n = rootIno ∨ ∃ k f, n = k + 2 ∧ files[k]? = some f := by
  by_cases hroot : n = rootIno
  · exact .inl hroot
  right
  rw [h.dinodes, update_of_ne hroot] at htype
  have hlen : (inodes files).length = files.length + 1 := by
    unfold inodes
    rw [List.length_cons, List.length_map]
  have hin : ¬ (n = 0 ∨ (inodes files).length < n) := fun hout => htype (himage.unused n hout)
  have hlt : n - 2 < files.length := by
    unfold rootIno at hroot
    omega
  refine ⟨n - 2, files[n - 2], ?_, List.getElem?_eq_getElem hlt⟩
  unfold rootIno at hroot
  omega

/-- Where the entries do not fill whole blocks, the rest of the last block is the end of the root
directory. -/
theorem content_root (h : Finished m m') (hpart : (rootBytes files).length % bSize ≠ 0) {x : Nat}
    (hx : x < (rounded (rootBytes files)).length) :
    content m'.dinodes m'.sectors rootIno x = some ((rounded (rootBytes files)).getD x 0) := by
  have hroot := root_holds himage
  rw [content_finished himage h]
  unfold rounded
  by_cases hin : x < (rootBytes files).length
  · rw [hroot.content x hin, List.getD_append _ _ _ _ hin]
  rw [length_rounded] at hx
  have hbound := hroot.bound
  have hblock : x / bSize = (rootBytes files).length / bSize := by
    unfold roundedSize bSize at *
    omega
  have hlast : (rootBytes files).length / bSize * bSize < (rootBytes files).length := by
    unfold bSize at *
    omega
  have hlt : x / bSize < maxFile := by
    rw [hblock]
    unfold maxFile nDirect nIndirect bSize at *
    omega
  have hheld := (hroot.shape (x / bSize) hlt).mpr (by rw [hblock]; exact hlast)
  have hsome : content m.dinodes m.sectors rootIno x ≠ none := by
    unfold content
    rw [dif_pos hlt]
    intro hnone
    exact hheld (Option.map_eq_none_iff.mp hnone)
  obtain ⟨v, hv⟩ := Option.ne_none_iff_exists'.mp hsome
  rw [hv, hroot.zero x v (by omega) hv, List.getD_append_right _ _ _ _ (by omega),
    List.getD_eq_getElem?_getD, List.getElem?_replicate, if_pos (by omega)]
  rfl

end

theorem bound_rounded (h : Admissible files) : roundedSize (rootBytes files).length ≤ maxFile * bSize := by
  have hfew := h.few
  rw [length_rootBytes]
  unfold nInodes at hfew
  unfold roundedSize direntSize maxFile nDirect nIndirect bSize
  omega

theorem sound_finished (hfiles : Admissible files) (himage : Image m (inodes files)) (h : Finished m m')
    (hpart : (rootBytes files).length % bSize ≠ 0) : Sound sb (disk m'.sectors) := by
  have hdinodes : (disk m'.sectors).dinodes = m'.dinodes := dinodeAt_eq h
  constructor
  · rw [hdinodes]
    exact books_finished himage h
  · rw [hdinodes]
    intro n htype _
    show Filled m'.sectors (m'.dinodes n) (m'.dinodes n).size
    rw [Files.filled_iff htype]
    obtain rfl | ⟨k, f, rfl, hk⟩ := allocated_cases himage h htype
    · rw [(dinode_root himage h).2]
      constructor
      · exact bound_rounded hfiles
      · intro x hx
        rw [content_root himage h hpart (by rw [length_rounded]; exact hx)]
        exact Option.some_ne_none _
    · have hfile := file_holds himage hk
      rw [(dinode_file himage h hk).2]
      constructor
      · exact hfile.bound
      · intro x hx
        rw [content_finished himage h, hfile.content x hx]
        exact Option.some_ne_none _
  · constructor
    · intro i href
      exact absurd href (Int.lt_irrefl 0)
    · intro i j href
      exact absurd href (Int.lt_irrefl 0)
    · intro i href
      exact absurd href (Int.lt_irrefl 0)
    · intro i hlock
      cases hlock

theorem fetch_finished (hfiles : Admissible files) (himage : Image m (inodes files)) (h : Finished m m')
    (hpart : (rootBytes files).length % bSize ≠ 0) (hk : files[k]? = some f) :
    ∃ t, Files.fetch (readsb m'.sectors) f.target (disk m'.sectors) =
      .ok (some (if f.target = dot ∨ f.target = dotdot then rounded (rootBytes files) else f.bytes), t) := by
  have hdinodes : (disk m'.sectors).dinodes = m'.dinodes := dinodeAt_eq h
  have hblocks : (disk m'.sectors).blocks = m'.sectors := rfl
  obtain ⟨hrtype, hrsize⟩ := dinode_root himage h
  obtain ⟨hftype, hfsize⟩ := dinode_file himage h hk
  have hrbytes : (m'.dinodes rootIno).bytes m'.sectors 0 (m'.dinodes rootIno).size =
      rounded (rootBytes files) := by
    rw [hrsize, ← length_rounded]
    exact Files.bytes_of_content fun x hx => content_root himage h hpart hx
  have hfbytes : (m'.dinodes (k + 2)).bytes m'.sectors 0 (m'.dinodes (k + 2)).size = f.bytes := by
    rw [hfsize]
    apply Files.bytes_of_content
    intro x hx
    rw [content_finished himage h]
    exact (file_holds himage hk).content x hx
  have hwhole : direntSize ∣ (m'.dinodes rootIno).size := by
    rw [hrsize]
    exact Nat.dvd_mul_left_of_dvd (by decide) _
  obtain ⟨off, hscan⟩ := scanDirents_rounded hfiles hk
  rw [← hrbytes, ← hrsize] at hscan
  rw [(readsb_superSector h.super).1]
  have hsound := sound_finished hfiles himage h hpart
  generalize hn : (if f.target = dot ∨ f.target = dotdot then rootIno else k + 2) = n at hscan
  have hfound : (m'.dinodes n).type ≠ 0 ∧ (m'.dinodes n).type ≠ tDev ∧
      (m'.dinodes n).bytes m'.sectors 0 (m'.dinodes n).size =
        if f.target = dot ∨ f.target = dotdot then rounded (rootBytes files) else f.bytes := by
    split at hn
    · rename_i hname
      subst hn
      rw [hrtype, if_pos hname]
      exact ⟨by decide, by decide, hrbytes⟩
    · rename_i hname
      subst hn
      rw [hftype, if_neg hname]
      exact ⟨by decide, by decide, hfbytes⟩
  have hends := Files.fetch_ends hsound (fun _ => rfl) (by rw [hdinodes]; exact hrtype)
    (by rw [hdinodes]; exact hwhole) (by rw [hdinodes, hblocks]; exact hscan)
    (by rw [hdinodes]; exact hfound.1) (by rw [hdinodes]; exact hfound.2.1)
  rw [hdinodes, hblocks, hfound.2.2] at hends
  cases hrun : Files.fetch sb f.target (disk m'.sectors) with
  | error e => exact (hends.stopped hrun).elim
  | ok r => exact ⟨r.2, by rw [← hends.returned hrun]⟩

/-- Where the entries fill whole blocks, the last block of the root directory is missing. -/
theorem missing_block (himage : Image m (inodes files)) (h : Finished m m')
    (hfull : (rootBytes files).length % bSize = 0) :
    (m'.dinodes rootIno).block m'.sectors ((rootBytes files).length / bSize) = 0 := by
  have hroot := root_holds himage
  by_cases hlt : (rootBytes files).length / bSize < maxFile
  · rw [Files.block_eq _ _ hlt]
    have hnone : ¬ held m.dinodes m.sectors (rootIno, .ofIndex _ hlt) ≠ none := by
      rw [hroot.shape _ hlt]
      unfold bSize at *
      omega
    rw [not_not, ← held_finished himage h] at hnone
    obtain hzero | hzero := Files.held_eq_none.mp hnone
    · rw [(dinode_root himage h).1] at hzero
      cases hzero
    · exact hzero
  · exact dif_neg hlt

end Disk

/-- The image is one the kernel can use, except where the entries of the root directory fill whole
blocks, or where a file hides behind `.` or `..`. -/
theorem image_usable (files : List Input) (h : Admissible files) :
    ∃ m, main files start = .ok ((), m) ∧ (Usable m.sectors files ↔
      (rootBytes files).length % bSize ≠ 0 ∧
        ∀ f ∈ files, f.target = dot ∨ f.target = dotdot → f.bytes = rounded (rootBytes files)) := by
  obtain ⟨m, m', hrun, himage, hfinished⟩ := main_finished h
  have hdinodes := dinodeAt_eq hfinished
  refine ⟨m', hrun, ?_⟩
  constructor
  · intro husable
    have hpart : (rootBytes files).length % bSize ≠ 0 := by
      intro hfull
      obtain ⟨htype, hsize⟩ := dinode_root himage hfinished
      rw [← hdinodes] at htype hsize
      apply husable.blocks rootIno ((rootBytes files).length / bSize)
      · rw [htype]
        decide
      · rw [hsize]
        unfold roundedSize bSize
        omega
      · rw [hdinodes]
        exact missing_block himage hfinished hfull
    refine ⟨hpart, ?_⟩
    intro f hf hname
    obtain ⟨k, hk⟩ := List.mem_iff_getElem?.mp hf
    obtain ⟨t, hfetch⟩ := fetch_finished h himage hfinished hpart hk
    obtain ⟨t', hfetch'⟩ := husable.files f hf
    rw [hfetch, if_pos hname, Except.ok.injEq, Prod.mk.injEq, Option.some.injEq] at hfetch'
    exact hfetch'.1.symm
  · intro hcond
    obtain ⟨hpart, hnames⟩ := hcond
    have hsound := sound_finished h himage hfinished hpart
    have hbooks := books_finished himage hfinished
    constructor
    · rw [hdinodes]
      intro n bn htype hbn
      by_cases hdev : (m'.dinodes n).type = tDev
      · obtain rfl | ⟨k, f, rfl, hk⟩ := allocated_cases himage hfinished htype
        · rw [(dinode_root himage hfinished).1] at hdev
          cases hdev
        · rw [(dinode_file himage hfinished hk).1] at hdev
          cases hdev
      · have hfilled : Filled m'.sectors (dinodeAt m'.sectors n) (dinodeAt m'.sectors n).size :=
          hsound.filled n (by show (dinodeAt m'.sectors n).type ≠ 0; rw [hdinodes]; exact htype)
            (by show (dinodeAt m'.sectors n).type ≠ tDev; rw [hdinodes]; exact hdev)
        rw [hdinodes] at hfilled
        apply hfilled.2
        unfold bSize at *
        omega
    · rw [hdinodes]
      intro p q b hp hq
      exact hbooks.alloc.unique hp hq
    · rw [hdinodes, (readsb_superSector hfinished.super).1]
      intro b hb
      constructor
      · intro hbit
        by_cases hlow : b < nmeta
        · exact .inl hlow
        · exact .inr (hbooks.alloc.marked_iff.mp ⟨Nat.le_of_not_lt hlow, hb, hbit⟩)
      · intro hcase
        obtain hlow | ⟨p, hp⟩ := hcase
        · exact hbooks.reserved b hlow
        · exact (hbooks.alloc.marked_of_held hp).2.2
    · intro f hf
      obtain ⟨k, hk⟩ := List.mem_iff_getElem?.mp hf
      obtain ⟨t, hfetch⟩ := fetch_finished h himage hfinished hpart hk
      refine ⟨t, ?_⟩
      rw [hfetch]
      split
      · rename_i hname
        rw [hnames f hf hname]
      · rfl

/-- `_cat` and `_ls`, the second over three blocks. -/
def sample : List Input :=
  [⟨[95, 99, 97, 116], [127, 69, 76, 70], by decide⟩, ⟨[95, 108, 115], List.replicate 1300 127, by decide⟩]

theorem image_usable_sample : Admissible sample ∧
    ∃ m, main sample start = .ok ((), m) ∧ Usable m.sectors sample := by
  have hadm : Admissible sample := by constructor <;> decide +kernel
  obtain ⟨m, hrun, hiff⟩ := image_usable sample hadm
  exact ⟨hadm, m, hrun, hiff.mpr ⟨by decide +kernel, by decide +kernel⟩⟩

/-- Sixty-two empty files, whose entries fill one block with those for `.` and `..`. -/
def wholeBlock : List Input :=
  (List.finRange 62).map fun i => ⟨[UInt8.ofNat (128 + i.val)], [], by revert i; decide⟩

theorem wholeBlock_unusable : Admissible wholeBlock ∧ ∃ m, main wholeBlock start = .ok ((), m) ∧
    (dinodeAt m.sectors rootIno).type = tDir ∧ (dinodeAt m.sectors rootIno).size = 2 * bSize ∧
    (dinodeAt m.sectors rootIno).block m.sectors 1 = 0 ∧ ¬ Usable m.sectors wholeBlock := by
  have hadm : Admissible wholeBlock := by constructor <;> decide +kernel
  have hlen : (rootBytes wholeBlock).length = bSize := by
    rw [length_rootBytes]
    decide +kernel
  obtain ⟨m, m', hrun, himage, hfinished⟩ := main_finished hadm
  have hdinodes := dinodeAt_eq hfinished
  obtain ⟨htype, hsize⟩ := dinode_root himage hfinished
  have hmissing := missing_block himage hfinished (by rw [hlen]; decide)
  rw [hlen] at hsize hmissing
  rw [← hdinodes] at htype hsize hmissing
  refine ⟨hadm, m', hrun, htype, hsize, hmissing, ?_⟩
  intro husable
  apply husable.blocks rootIno 1
  · rw [htype]
    decide
  · rw [hsize]
    decide
  · exact hmissing

end Xv6.Mkfs
