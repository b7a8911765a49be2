import Xv6.Fs.References
import Xv6.Vm.Copyout
import Xv6.Kernel.AddressSpace
import Xv6.Kernel.Lifecycle

/-! # The image of a program

`exec` builds the new address space in a directory of its own, from pages of the free list, and
takes it over only when nothing can fail any more. The program headers come from a file that
anybody may have written. With none of them it meets what `loaduvm`, `mappages` and `clearpteu`
panic about: a segment is loaded where `allocuvm` has mapped pages, or had done so before.
-/

namespace Xv6.Kernel

open Lib Vm

variable {m0 m m' : Mem} {d : PgDir} {sz : Nat} {L : Layout} {file : List UInt8} {argv : List CString}
  {k k' : State} {a : Slot} {path buf : CString}

/-- The panics of `mappages`, `loaduvm` and `clearpteu`. -/
def imagePanics : List String :=
  ["remap", "loaduvm: addr must be page aligned", "loaduvm: address should exist", "clearpteu"]

theorem release_harmless : ∀ e ∈ releasePanics, e ∉ imagePanics := by decide

theorem lookup_harmless : ∀ e ∈ Fs.lookupPanics, e ∉ imagePanics := by decide

/-- All pages of the directory have come from the free list. -/
def Spent (m0 : Mem) (d : PgDir) (m : Mem) : Prop := ∀ pg, holds d m pg = m0.free.count pg

theorem Spent.of_free (h : Spent m0 d m) (hfree : m'.free = m.free) : Spent m0 d m' := by
  intro pg
  unfold holds
  rw [hfree]
  exact h pg

/-! ## Segments -/

/-- An image under construction: user pages without gaps below its size. -/
structure Image (m0 : Mem) (d : PgDir) (sz : Nat) (m : Mem) : Prop where
  le : sz ≤ kernBase
  inside : ∀ va, va < sizeUp sz → ∃ pa, d.entry va = ⟨pa, true, .wu⟩
  outside : ∀ va, va < kernBase → sizeUp sz ≤ va → (d.entry va).present = false
  spent : Spent m0 d m

theorem Image.of_free (h : Image m0 d sz m) (hfree : m'.free = m.free) : Image m0 d sz m' :=
  { h with spent := h.spent.of_free hfree }

theorem Image.contiguous (h : Image m0 d sz m) : Contiguous d sz := by
  intro va hva
  by_cases hin : va < sizeUp sz
  · obtain ⟨pa, hentry⟩ := h.inside va hin
    rw [hentry]
    exact iff_of_true rfl hin
  · rw [h.outside va hva (Nat.le_of_not_lt hin)]
    exact iff_of_false nofun hin

theorem Image.walk (h : Image m0 d sz m) {va : Nat} (hva : va < sizeUp sz) : d.walk va ≠ none := by
  obtain ⟨pa, hentry⟩ := h.inside va hva
  have huser : d.UserPage va := by
    unfold PgDir.UserPage
    rw [hentry]
    exact ⟨rfl, rfl⟩
  exact huser.walk

theorem Image.allocuvm {newsz : Nat} (h : Image m0 d sz m) :
    Gives (allocuvm L d sz newsz m) (fun x => Spent m0 x.2.1 x.2.2 ∧
      (x.1 ≠ 0 → x.1 = max sz newsz ∧ Image m0 x.2.1 x.1 x.2.2)) (· ∉ imagePanics) := by
  refine ⟨fun x hx => ?_, fun e he => ?_⟩
  · obtain ⟨r, d', m'⟩ := x
    dsimp only
    have hspent : Spent m0 d' m' := fun pg => ((allocuvm_ok h.le hx).1.conserved pg).trans (h.spent pg)
    refine ⟨hspent, fun hne => ?_⟩
    obtain ⟨hmax, hle, hentries⟩ := allocuvm_grows h.le hx hne
    have hmono : sizeUp sz ≤ sizeUp r := sizeUp_mono (by omega)
    have hbound : sizeUp r < uintMod := by
      simp only [sizeUp, pgSize, kernBase, uintMod] at *
      omega
    refine ⟨hmax, hle, fun va hva => ?_, fun va hva hge => ?_, hspent⟩
    · have hentry := hentries va (Nat.lt_trans hva hbound)
      split at hentry
      · exact hentry
      · rw [hentry]
        exact h.inside va (by omega)
    · have hentry := hentries va (lt_uintMod hva)
      rw [if_neg (by omega)] at hentry
      rw [hentry]
      exact h.outside va hva (by omega)
  · exact release_harmless e ((allocuvm_gives fun hnew => h.contiguous.vacant h.le hnew).fault he)

theorem loaduvmLoop_gives {addr offset n i : Nat} (hin : ∀ i, i < sz → d.walk ((addr + i) % uintMod) ≠ none)
    (hn : ∀ j, j < n → i + j * pgSize < sz) :
    Gives (loaduvmLoop d addr file offset sz n i m) (fun x => x.2.free = m.free) (· ∉ imagePanics) := by
  induction n generalizing i m with
  | zero => exact .ok rfl
  | succ n ih =>
    have hi := hn 0 (Nat.succ_pos n)
    rw [Nat.zero_mul, Nat.add_zero] at hi
    unfold loaduvmLoop
    cases hwalk : d.walk ((addr + i) % uintMod) with
    | none => exact absurd hwalk (hin i hi)
    | some pte =>
      dsimp only
      split
      · exact .ok rfl
      refine gives_ite (fun _ => .ok rfl) fun _ => ih fun j hj => ?_
      have hnext := hn (j + 1) (Nat.succ_lt_succ hj)
      rw [Nat.succ_mul] at hnext
      omega

theorem loaduvm_gives {addr offset : Nat} (hin : ∀ i, i < sz → d.walk ((addr + i) % uintMod) ≠ none)
    (haligned : addr % pgSize = 0) :
    Gives (loaduvm d addr file offset sz m) (fun x => x.2.free = m.free) (· ∉ imagePanics) := by
  unfold loaduvm
  rw [if_neg (not_not.mpr haligned)]
  refine loaduvmLoop_gives hin fun j hj => ?_
  simp only [pgSize] at *
  omega

theorem uintAt_lt (bytes : List UInt8) (off : Nat) : uintAt bytes off < uintMod := by
  have h0 := (bytes.getD off 0).toNat_lt
  have h1 := (bytes.getD (off + 1) 0).toNat_lt
  have h2 := (bytes.getD (off + 2) 0).toNat_lt
  have h3 := (bytes.getD (off + 2 + 1) 0).toNat_lt
  unfold uintAt ushortAt uintMod
  omega

theorem loadSegments_gives {n off : Nat} (h : Image m0 d sz m) :
    Gives (loadSegments L file n off sz d m) (fun x => Spent m0 x.2.2.1 x.2.2.2 ∧
      (x.1 = true → Image m0 x.2.2.1 x.2.1 x.2.2.2)) (· ∉ imagePanics) := by
  induction n generalizing off sz d m with
  | zero => exact .ok ⟨h.spent, fun _ => h⟩
  | succ n ih =>
    unfold loadSegments
    cases readi file off progHdrSize with
    | none => exact .ok ⟨h.spent, by simp⟩
    | some ph =>
      refine gives_ite (fun _ => .ok ⟨h.spent, by simp⟩) fun _ => gives_ite (fun _ => ih h) fun _ =>
        gives_ite (fun _ => .ok ⟨h.spent, by simp⟩) fun hfile => gives_ite (fun _ => .ok ⟨h.spent, by simp⟩) fun htop =>
          .bind h.allocuvm fun x hx => gives_ite (fun _ => .ok ⟨hx.1, by simp⟩) fun hne =>
            gives_ite (fun _ => .ok ⟨hx.1, by simp⟩) fun haligned => ?_
      obtain ⟨hmax, h1⟩ := hx.2 hne
      -- neither the end of the segment nor an address in it wraps around
      have hin : ∀ i, i < uintAt ph 16 → x.2.1.walk ((uintAt ph 8 + i) % uintMod) ≠ none := by
        intro i hi
        have hmemsz := uintAt_lt ph 20
        apply h1.walk
        simp only [sizeUp, pgSize, uintMod, Nat.reducePow] at *
        omega
      exact .bind (loaduvm_gives hin (not_not.mp haligned)) fun y hy =>
        gives_ite (fun _ => ih (h1.of_free hy)) fun _ => .ok ⟨hx.1.of_free hy, by simp⟩

/-! ## The stack -/

/-- A finished image: only the page below the stack is closed to the user. -/
structure Loaded (m0 : Mem) (d : PgDir) (sz : Nat) (m : Mem) : Prop where
  le : sz ≤ kernBase
  aligned : pgSize ∣ sz
  present : ∀ va, va < kernBase → ((d.entry va).present = true ↔ va < sz)
  guard : ∀ va, va < sz → ((d.entry va).perm.user = false ↔ sz - 2 * pgSize ≤ va ∧ va < sz - pgSize)
  spent : Spent m0 d m

theorem sizeUp_of_dvd (h : pgSize ∣ sz) : sizeUp sz = sz := by
  obtain ⟨c, rfl⟩ := h
  simp only [sizeUp, pgSize]
  omega

theorem Image.clearpteu (h : Image m0 d sz m) (haligned : pgSize ∣ sz) (hlarge : 2 * pgSize ≤ sz) :
    Gives (clearpteu d (sz - 2 * pgSize)) (fun d' => Loaded m0 d' sz m) (· ∉ imagePanics) := by
  have hle := h.le
  have hup := sizeUp_of_dvd haligned
  have hlow : sz - 2 * pgSize < sizeUp sz := by
    simp only [pgSize] at *
    omega
  have hwalk := h.walk hlow
  unfold Vm.clearpteu
  cases hpte : d.walk (sz - 2 * pgSize) with
  | none => exact absurd hpte hwalk
  | some pte =>
    have hentry : ∀ b, (d.set (sz - 2 * pgSize) { pte with perm := { pte.perm with user := false } }).entry b =
        if SamePage b (sz - 2 * pgSize) then { d.entry b with perm := { (d.entry b).perm with user := false } }
        else d.entry b := by
      intro b
      rw [entry_set hwalk]
      split
      · rename_i hsame
        rw [entry_samePage hsame]
        unfold PgDir.entry
        rw [hpte]
        rfl
      · rfl
    refine .ok ⟨hle, haligned, fun va hva => ?_, fun va hva => ?_, fun pg => ?_⟩
    · have hpresent := h.contiguous va hva
      rw [hup] at hpresent
      rw [← hpresent, hentry]
      split <;> rfl
    · obtain ⟨pa, huser⟩ := h.inside va (by omega)
      have hsame := samePage_iff (lt_uintMod (Nat.lt_of_lt_of_le hva hle))
        (lt_uintMod (Nat.lt_of_lt_of_le hlow (by omega)))
      obtain ⟨c, rfl⟩ := haligned
      rw [hentry, huser]
      split
      · rename_i hpage
        rw [hsame] at hpage
        refine iff_of_true rfl ?_
        simp only [pgSize] at *
        omega
      · rename_i hpage
        rw [hsame] at hpage
        refine iff_of_false (by simp) ?_
        simp only [pgSize] at *
        omega
    · have huses : (d.set (sz - 2 * pgSize) { pte with perm := { pte.perm with user := false } }).uses pg =
          d.uses pg := by
        unfold PgDir.uses
        apply Finset.sum_congr rfl
        intro v _
        rw [hentry]
        split <;> rfl
      rw [← h.spent pg]
      unfold holds
      rw [tables_set, huses]

theorem pushArgs_gives {args : List CString} {argc sp : Nat} :
    Gives (pushArgs d args argc sp m) (fun x => x.2.free = m.free) (· ∉ imagePanics) := by
  induction args generalizing argc sp m with
  | nil => exact .ok rfl
  | cons arg args ih =>
    unfold pushArgs
    refine gives_ite (fun _ => .ok rfl) fun _ => .bind (Q := fun x => x.2.free = m.free) ?_ fun x hx =>
      gives_ite (fun _ => .bind ih fun y hy => .ok (hy.trans hx)) fun _ => .ok hx
    exact (copyout_gives (Nat.lt_of_le_of_lt (Nat.div_mul_le_self ..) (Nat.mod_lt _ (by decide)))).mono
      (fun _ h => h.free) fun _ h => h.1 ▸ by decide

theorem pushStack_gives : Gives (pushStack d argv sz m) (fun x => x.2.free = m.free) (· ∉ imagePanics) := by
  unfold pushStack
  refine .bind pushArgs_gives fun x hx => ?_
  obtain ⟨args, m1⟩ := x
  cases args with
  | none => exact .ok hx
  | some args =>
    refine .bind (Q := fun x => x.2.free = m.free) ?_ fun y hy => .ok hy
    exact (copyout_gives (Nat.mod_lt _ (by decide))).mono (fun _ h => h.free.trans hx)
      fun _ h => h.1 ▸ by decide

/-! ## The whole image -/

/-- There is a new image; or there is none, and all pages are back in the free list. -/
structure ImageEnds (m0 : Mem) (x : Option (PgDir × Nat × Nat) × Mem) : Prop where
  bad : x.1 = none → ∀ pg, x.2.free.count pg = m0.free.count pg
  done : ∀ d sz sp, x.1 = some (d, sz, sp) → Loaded m0 d sz x.2

theorem bad_gives (h : Spent m0 d m) :
    Gives (do let m ← freevm L d m; return (none, m)) (ImageEnds m0) (· ∉ imagePanics) := by
  refine .bind (Q := fun m' => ∀ pg, m'.free.count pg = m0.free.count pg) ⟨fun m' hfree pg => ?_, fun e he => ?_⟩
    fun m' hcount => .ok ⟨fun _ => hcount, by simp⟩
  · exact ((freevm_ok hfree).1 pg).trans (h pg)
  · exact release_harmless e (freevm_gives.fault he)

theorem setupkvm_gives : Gives (setupkvm L m) (fun x =>
    (x.1 = none → ∀ pg, x.2.free.count pg = m.free.count pg) ∧ ∀ d, x.1 = some d → Image m d 0 x.2)
    (· ∉ imagePanics) := by
  refine ⟨fun x hx => ⟨fun hnone => ?_, fun d hd => ?_⟩, fun e he => ?_⟩
  · exact ((setupkvm_ok hx).2 hnone).1
  · obtain ⟨hempty, hmoved, -⟩ := (setupkvm_ok hx).1 d hd
    refine ⟨Nat.zero_le _, fun va hva => absurd hva (Nat.not_lt_zero va), fun va hva _ => ?_, fun pg => ?_⟩
    · rw [hempty va hva]
    · rw [← hmoved pg]
      unfold holds
      rw [uses_eq_zero (fun b hb => by rw [hempty b hb]) pg, Nat.zero_add]
  · rcases setupkvm_outcome L m with ⟨-, heq⟩ | ⟨d, m', -, ⟨-, -, heq⟩ | ⟨-, -, heq⟩⟩ <;> rw [heq] at he
    · cases he
    · cases he
    rcases bind_eq_error.mp he with hfree | ⟨_, _, hret⟩
    · exact release_harmless e (freevm_gives.fault hfree)
    · cases hret

theorem execImage_gives (L : Layout) (file : List UInt8) (argv : List CString) (m : Mem) :
    Gives (execImage L file argv m) (ImageEnds m) (· ∉ imagePanics) := by
  unfold execImage
  refine gives_ite (fun _ => .ok ⟨fun _ _ => rfl, by simp⟩) fun _ => .bind setupkvm_gives fun x hx => ?_
  obtain ⟨d1, m1⟩ := x
  cases d1 with
  | none => exact .ok ⟨fun _ => hx.1 rfl, by simp⟩
  | some d1 =>
    refine .bind (loadSegments_gives (hx.2 d1 rfl)) fun y hy => gives_ite (fun _ => bad_gives hy.1) fun hok => ?_
    have h2 := hy.2 (not_not.mp hok)
    have hup := pgRoundUp_eq h2.le
    have hle := h2.le
    have hround : Image m y.2.2.1 (pgRoundUp y.2.1) y.2.2.2 := by
      have hsame : sizeUp (pgRoundUp y.2.1) = sizeUp y.2.1 := by
        rw [hup]
        simp only [sizeUp, pgSize]
        omega
      refine ⟨?_, by rw [hsame]; exact h2.inside, by rw [hsame]; exact h2.outside, h2.spent⟩
      rw [hup]
      simp only [sizeUp, kernBase, pgSize] at *
      omega
    refine .bind hround.allocuvm fun z hz => gives_ite (fun _ => bad_gives hz.1) fun hne => ?_
    obtain ⟨hmax, h3⟩ := hz.2 hne
    have htop : z.1 = sizeUp y.2.1 + 2 * pgSize := by
      rw [hmax, hup]
      simp only [sizeUp, kernBase, pgSize, uintMod, Nat.reducePow] at *
      omega
    have haligned : pgSize ∣ z.1 := by
      rw [htop]
      exact Nat.dvd_add (Nat.dvd_mul_left ..) (Nat.dvd_mul_left ..)
    refine .bind (h3.clearpteu haligned (by omega)) fun d4 h4 => .bind pushStack_gives fun w hw => ?_
    obtain ⟨sp, m4⟩ := w
    cases sp with
    | none => exact bad_gives (h4.spent.of_free hw)
    | some sp =>
      refine .ok ⟨by simp, fun d sz sp heq => ?_⟩
      cases heq
      exact { h4 with spent := h4.spent.of_free hw }

/-! ## `exec` -/

/-- How `exec` ends: it fails, and the process and the number of free pages are as before; or the
new image has taken the place of the old one. -/
structure ExecEnds (L : Layout) (k : State) (a : Slot) (r : Int) (k' : State) : Prop where
  shared : k'.shared = k.shared
  others : SameBut a k k'
  returned : ∃ cwd, (k.procs a).cwd = some cwd ∧
    (Fs.CacheOk k.fs → 0 < (k.fs.icache cwd).ref → Fs.Returned k.fs k'.fs)
  image : ∃ old, (k.procs a).pgdir = some old ∧
    ((r = -1 ∧ k'.procs a = k.procs a ∧ ∀ pg, k'.mem.free.count pg = k.mem.free.count pg) ∨
      ∃ d sz m name tf, r = 0 ∧ Loaded k.mem d sz m ∧ freevm L old m = .ok k'.mem ∧
        k'.procs a = { k.procs a with
          name := name, procMutexes := fun _ => -1, pgdir := some d, sz := sz, tf := tf })

theorem exec_gives (L : Layout) (k : State) (a : Slot) (path buf : CString) (argv : List CString) :
    Gives (exec L k a path buf argv) (fun x => ExecEnds L k a x.1 x.2) (· ∉ imagePanics) := by
  unfold exec
  split
  · rename_i cwd old hcwd hold
    refine .bind (Fs.namei_gives.ran.mono (fun _ h => h.1) lookup_harmless) fun x hname => ?_
    obtain ⟨ip, fs⟩ := x
    have hlooked := fun hok hpos => Fs.namei_looked (p := (k.procs a).toFs cwd) hok hpos hname
    cases ip with
    | none => exact .ok ⟨rfl, fun _ _ => rfl, ⟨cwd, hcwd, hlooked⟩, old, hold, .inl ⟨rfl, rfl, fun _ => rfl⟩⟩
    | some ip =>
      refine .bind (Fs.ilock_gives.ran.mono (fun _ h => h.1) lookup_harmless) fun fs1 hlock =>
        .bind (execImage_gives L _ argv k.mem) fun x hx => ?_
      have hreturned : Fs.CacheOk k.fs → 0 < (k.fs.icache cwd).ref → Fs.Returned k.fs (Fs.iput fs1 ip) :=
        fun hok hpos => ((hlooked hok hpos).of_ilock hok hlock).iput hok
      obtain ⟨image, m⟩ := x
      cases image with
      | none =>
        exact .ok ⟨rfl, fun _ _ => rfl, ⟨cwd, hcwd, hreturned⟩, old, hold, .inl ⟨rfl, rfl, hx.bad rfl⟩⟩
      | some image =>
        obtain ⟨d, sz, sp⟩ := image
        refine .bind (freevm_gives.ran.mono (fun _ h => h.1) release_harmless) fun m' hfree => .ok
          ⟨rfl, fun b hb => ?_, ⟨cwd, hcwd, hreturned⟩, old, hold, .inr ⟨d, sz, m, (lastElem path).take 15,
            { (k.procs a).tf with eip := uintAt (fs1.icache ip).copy.content 24, esp := sp }, rfl,
            hx.done d sz sp rfl, hfree, ?_⟩⟩
        · rw [update_of_ne _ _ hb]
        · rw [update_self]
  · exact .error (by decide)

theorem exec_spans (h : exec L k a path buf argv = .ok (0, k')) : (k'.procs a).Spans := by
  obtain ⟨old, -, ⟨hr, -⟩ | ⟨d, sz, m, name, tf, -, himage, -, hproc⟩⟩ := ((exec_gives ..).value h).image
  · cases hr
  rw [hproc]
  refine ⟨himage.le, d, rfl, fun va hva => ?_⟩
  rw [himage.present va hva, sizeUp_of_dvd himage.aligned]

end Xv6.Kernel
