import Mathlib.Algebra.BigOperators.Group.Finset.Piecewise
import Mathlib.Algebra.BigOperators.Group.Multiset.Basic
import Mathlib.Data.Fintype.Prod
import Mathlib.Data.Multiset.AddSub
import Xv6.Lib.Count
import Xv6.Files.Calls

/-! # Descriptors and the pages of pipes

The references to open files are counted as a whole: the slots of all processes, and the
references that a call has in its hands. The functions of `file.c` and `pipe.c` take some in or
give some back, and the books of a file and of its pipe stay balanced in between.
-/

namespace Xv6.Files

open Function Lib

variable {pages : List Nat} {x : File} {f : FileSlot} {k k' t : Kernel} {α : Type} {E : String → Prop}
  {procs : ProcSlot → Proc} {a : ProcSlot} {fd : Fin nOFile} {g : Proc → Proc}

/-! ## The books -/

/-- The file is the end of the pipe in `page` that is written to, or read from. -/
def File.IsEnd (x : File) (page : Nat) (w : Bool) : Prop :=
  x.type = .pipe ∧ x.pipe = page ∧ x.writable = w

def Pipe.isOpen (p : Pipe) (w : Bool) : Bool := if w then p.writeopen else p.readopen

/-- The books with the references `H`. `avail` are the pages outside of pipes, and `own` says
which file is an end of the pipe in a page. -/
structure Filed (pages : List Nat) (ft : FileSlot → File) (pipes : Nat → Pipe) (avail : List Nat)
    (own : Nat × Bool → Option FileSlot) (H : Multiset FileSlot) : Prop where
  ref_eq : ∀ f, (ft f).ref = H.count f
  closed : ∀ f, (ft f).ref = 0 → (ft f).type = .none
  owned : ∀ f page w, (ft f).IsEnd page w ↔ own (page, w) = some f
  opened : ∀ page w, (∃ v, own (page, v) ≠ none) → (pipes page).isOpen w = (own (page, w)).isSome
  nodup : avail.Nodup
  total : ∀ page, page ∈ pages ↔ page ∈ avail ∨ ∃ w, own (page, w) ≠ none
  apart : ∀ page w, own (page, w) ≠ none → page ∉ avail

section Books

variable {pages avail : List Nat} {ft : FileSlot → File} {pipes : Nat → Pipe}
  {own : Nat × Bool → Option FileSlot} {H : Multiset FileSlot} {f : FileSlot}

theorem Filed.perm {avail' : List Nat} (h : Filed pages ft pipes avail own H) (hp : avail.Perm avail') :
    Filed pages ft pipes avail' own H :=
  { h with
    nodup := hp.nodup_iff.mp h.nodup
    total := fun page => by rw [h.total page, hp.mem_iff]
    apart := fun page w hw hmem => h.apart page w hw (hp.mem_iff.mpr hmem) }

/-- A change of one file that keeps the ends of pipes, from what holds of its count. -/
theorem Filed.setFile {H' : Multiset FileSlot} (h : Filed pages ft pipes avail own H)
    (hends : ∀ page w, x.IsEnd page w ↔ (ft f).IsEnd page w) (href : x.ref = H'.count f)
    (hclosed : x.ref = 0 → x.type = .none) (hothers : ∀ g, g ≠ f → H'.count g = H.count g) :
    Filed pages (update ft f x) pipes avail own H' := by
  refine { h with ref_eq := ?_, closed := ?_, owned := ?_ }
  · refine (forall_update_iff ft fun g y => y.ref = H'.count g).mpr ⟨href, fun g hg => ?_⟩
    rw [h.ref_eq g, hothers g hg]
  · exact (forall_update_iff ft fun _ y => y.ref = 0 → y.type = .none).mpr
      ⟨hclosed, fun g _ => h.closed g⟩
  · refine (forall_update_iff ft fun g y => ∀ page w, y.IsEnd page w ↔ own (page, w) = some g).mpr
      ⟨fun page w => ?_, fun g _ => h.owned g⟩
    rw [hends, h.owned]

theorem Filed.setRef {H' : Multiset FileSlot} {r : Int} (h : Filed pages ft pipes avail own H)
    (hr : r ≠ 0) (href : r = H'.count f) (hothers : ∀ g, g ≠ f → H'.count g = H.count g) :
    Filed pages (update ft f { ft f with ref := r }) pipes avail own H' :=
  h.setFile (fun _ _ => Iff.rfl) href (fun hz => absurd hz hr) hothers

theorem Filed.take (h : Filed pages ft pipes avail own H) :
    Filed pages (update ft f { ft f with ref := (ft f).ref + 1 }) pipes avail own (f ::ₘ H) := by
  have := h.ref_eq f
  refine h.setRef (by omega) ?_ fun g hg => Multiset.count_cons_of_ne hg H
  rw [Multiset.count_cons_self, this]
  omega

theorem Filed.drop (h : Filed pages ft pipes avail own (f ::ₘ H)) (hmore : 0 < (ft f).ref - 1) :
    Filed pages (update ft f { ft f with ref := (ft f).ref - 1 }) pipes avail own H := by
  have href := h.ref_eq f
  rw [Multiset.count_cons_self] at href
  refine h.setRef (by omega) ?_ fun g hg => (Multiset.count_cons_of_ne hg H).symm
  omega

theorem not_isEnd {page : Nat} {w : Bool} (h : x.type ≠ .pipe) : ¬ x.IsEnd page w :=
  fun hend => h hend.1

theorem Filed.close (h : Filed pages ft pipes avail own (f ::ₘ H)) (hlast : (ft f).ref - 1 ≤ 0)
    (htype : (ft f).type ≠ .pipe) :
    Filed pages (update ft f { ft f with ref := 0, type := .none }) pipes avail own H := by
  have href := h.ref_eq f
  rw [Multiset.count_cons_self] at href
  refine h.setFile (fun page w => ?_) ?_ (fun _ => rfl)
    fun g hg => (Multiset.count_cons_of_ne hg H).symm
  · exact iff_of_false (not_isEnd (by simp)) (not_isEnd htype)
  · show (0 : Int) = _
    omega

theorem Filed.setInode (h : Filed pages ft pipes avail own H) (htype : (ft f).type = .none)
    (href : x.ref = (ft f).ref) (hpos : 0 < (ft f).ref) (hinode : x.type = .inode) :
    Filed pages (update ft f x) pipes avail own H := by
  refine h.setFile (fun page w => ?_) (by rw [href, h.ref_eq f]) (fun hz => ?_) fun _ _ => rfl
  · exact iff_of_false (not_isEnd (by simp [hinode])) (not_isEnd (by simp [htype]))
  · omega

def Pipe.closeEnd (p : Pipe) (w : Bool) : Pipe :=
  if w then { p with writeopen := false } else { p with readopen := false }

theorem Pipe.isOpen_closeEnd (p : Pipe) (w v : Bool) :
    (p.closeEnd w).isOpen v = (p.isOpen v && v != w) := by
  cases w <;> cases v <;> simp [closeEnd, isOpen]

theorem Filed.closeEnd {page : Nat} {w : Bool} (h : Filed pages ft pipes avail own (f ::ₘ H))
    (hlast : (ft f).ref - 1 ≤ 0) (hend : (ft f).IsEnd page w) :
    Filed pages (update ft f { ft f with ref := 0, type := .none })
      (update pipes page ((pipes page).closeEnd w))
      (if (pipes page).isOpen (!w) then avail else page :: avail) (update own (page, w) none) H := by
  have href := h.ref_eq f
  rw [Multiset.count_cons_self] at href
  have hw : own (page, w) = some f := (h.owned f page w).mp hend
  have hin : ∃ v, own (page, v) ≠ none := ⟨w, by simp [hw]⟩
  have hopen := h.opened page (!w) hin
  -- of the ends of `page`, the other one may be left
  have hleft : ∀ p, (∃ v, update own (page, w) none (p, v) ≠ none) ↔
      (∃ v, own (p, v) ≠ none) ∧ (p = page → (pipes page).isOpen (!w) = true) := by
    intro p
    by_cases hp : p = page
    · rw [hp, hopen]
      cases w <;> simp [update_apply, Option.isSome_iff_ne_none, Or.comm, imp_or]
    · simp [hp]
  refine ⟨?_, ?_, fun g p v => ?_, fun p v hu => ?_, ?_, fun p => ?_, fun p v hv => ?_⟩
  · refine (forall_update_iff ft fun g y => y.ref = H.count g).mpr ⟨?_, fun g hg => ?_⟩
    · show (0 : Int) = _
      omega
    · rw [h.ref_eq g, Multiset.count_cons_of_ne hg]
  · exact (forall_update_iff ft fun _ y => y.ref = 0 → y.type = .none).mpr
      ⟨fun _ => rfl, fun g _ => h.closed g⟩
  · have hf := h.owned f p v
    by_cases hg : g = f
    · rw [hg, update_self]
      refine iff_of_false (not_isEnd (by simp)) fun hc => ?_
      grind [update_apply, File.IsEnd]
    · rw [update_of_ne hg, h.owned g p v]
      grind [update_apply]
  · have hold := h.opened p v ((hleft p).mp hu).1
    by_cases hp : p = page
    · rw [hp] at hold ⊢
      rw [update_self, Pipe.isOpen_closeEnd, hold]
      by_cases hv : v = w <;> simp [hv]
    · simp [hp, hold]
  · split
    · exact h.nodup
    · exact List.nodup_cons.mpr ⟨h.apart page w (by simp [hw]), h.nodup⟩
  · rw [h.total p, hleft p]
    by_cases hp : p = page
    · rw [hp]
      cases (pipes page).isOpen (!w) <;> simp only [hin] <;> simp
    · cases (pipes page).isOpen (!w) <;> simp [hp]
  · obtain ⟨⟨u, hu⟩, hopen⟩ := (hleft p).mp ⟨v, hv⟩
    have := h.apart p u hu
    by_cases hp : p = page
    · rwa [hopen hp, if_pos rfl]
    · cases (pipes page).isOpen (!w) <;> simp [hp, this]

theorem Filed.newPipe {g : FileSlot} {page : Nat} (h : Filed pages ft pipes (page :: avail) own H)
    (hfg : f ≠ g) (hf : (ft f).type = .none) (hg : (ft g).type = .none) (hfpos : 0 < (ft f).ref)
    (hgpos : 0 < (ft g).ref) : Filed pages (update (update ft f (File.pipeEnd page false (ft f))) g
        (File.pipeEnd page true (update ft f (File.pipeEnd page false (ft f)) g)))
      (update pipes page { readopen := true, writeopen := true }) avail
      (update (update own (page, false) (some f)) (page, true) (some g)) H := by
  rw [update_of_ne hfg.symm]
  obtain ⟨hfresh, hnodup⟩ := List.nodup_cons.mp h.nodup
  have hold : ∀ w, own (page, w) = none := by
    intro w
    by_contra hw
    exact h.apart page w hw List.mem_cons_self
  have hnone : ∀ i, (ft i).type = .none → ∀ p v, own (p, v) ≠ some i := fun i hi p v hc =>
    not_isEnd (by simp [hi]) ((h.owned i p v).mpr hc)
  refine ⟨fun i => ?_, fun i => ?_, fun i p v => ?_, fun p v => ?_, hnodup, fun p => ?_, fun p v => ?_⟩
  · have := h.ref_eq i
    grind [update_apply, File.pipeEnd]
  · have := h.closed i
    grind [update_apply, File.pipeEnd]
  · have := h.owned i p v
    grind [update_apply, File.pipeEnd, File.IsEnd]
  · have := h.opened p v
    grind [update_apply, Pipe.isOpen]
  · have := h.total p
    grind [update_apply]
  · have := h.apart p v
    grind [update_apply]

end Books

/-! ## What the functions of `file.c`, `pipe.c` and `sysfile.c` do -/

/-- The books of the kernel with the references `H`. -/
abbrev Booked (pages : List Nat) (k : Kernel) (H : Multiset FileSlot) : Prop :=
  ∃ own, Filed pages k.ftable k.pipes (k.kmem ++ k.others) own H

theorem onStore_frame {x : Code Store α} :
    Ends (onStore x) k (fun _ k' => ∃ s, k' = { k with store := s }) fun _ => True :=
  ends_on.mpr (ends_iff.mpr ⟨fun _ s _ => ⟨s, rfl⟩, fun _ _ => trivial⟩)

theorem ftable_setFile_self (g : File → File) : (k.setFile f g).ftable f = g (k.ftable f) := update_self ..

theorem ftable_setFile_of_ne {j : FileSlot} {g : File → File} (h : j ≠ f) :
    (k.setFile f g).ftable j = k.ftable j := update_of_ne h ..

theorem filealloc_ends : Ends filealloc k (fun r k' => (r = none ∧ k' = k) ∨ ∃ f, r = some f ∧ (k.ftable f).ref = 0 ∧
      k' = k.setFile f fun x => { x with ref := 1 }) E := by
  unfold filealloc
  rw [ends_get_bind]
  cases hfind : (List.finRange nFile).find? fun f => (k.ftable f).ref == 0 with
  | none => exact .inl ⟨rfl, rfl⟩
  | some f => exact .inr ⟨f, rfl, by simpa using List.find?_some hfind, rfl⟩

theorem Pipe.closed_iff (p : Pipe) (w : Bool) :
    ((p.closeEnd w).readopen = false ∧ (p.closeEnd w).writeopen = false) ↔ p.isOpen (!w) = false := by
  cases w <;> simp [closeEnd, isOpen]

theorem pipeclose_ends {page : Nat} {w : Bool} :
    Ends (pipeclose page w) k (fun _ k' => k' = { k with
      pipes := update k.pipes page ((k.pipes page).closeEnd w)
      kmem := if (k.pipes page).isOpen (!w) then k.kmem else page :: k.kmem }) E := by
  unfold pipeclose
  refine Ends.bind (Q := fun _ t => t = k.setPipe page (·.closeEnd w)) ?_ ?_
  · cases w <;> rfl
  rintro _ _ rfl
  rw [ends_get_bind]
  have hpage : (k.setPipe page (·.closeEnd w)).pipes page = (k.pipes page).closeEnd w :=
    update_self ..
  rw [hpage]
  refine ends_ite (fun hboth => ?_) fun hone => ?_
  · rw [Pipe.closed_iff] at hboth
    rw [hboth]
    rfl
  · rw [Pipe.closed_iff, Bool.not_eq_false] at hone
    rw [hone]
    rfl

theorem kalloc_ends : Ends kalloc k (fun r k' => (r = none ∧ k' = k) ∨ ∃ page rest, r = some page ∧
      k.kmem = page :: rest ∧ k' = { k with kmem := rest }) E := by
  unfold kalloc
  rw [ends_get_bind]
  cases hmem : k.kmem with
  | nil => exact .inl ⟨rfl, rfl⟩
  | cons page rest => exact .inr ⟨page, rest, rfl, rfl, rfl⟩

theorem deref_ends {σ : Type} {x : Option α} {s : σ} (hnull : E "null pointer") :
    Ends (deref x) s (fun a t => x = some a ∧ t = s) E := by
  cases x with
  | none => exact hnull
  | some a => exact ⟨rfl, rfl⟩

theorem current_ends (hnull : E "null pointer") :
    Ends (current a) k (fun p k' => k' = k ∧ (k.procs a).cwd = some p.cwd ∧
      p.inNewroot = (k.procs a).inNewroot ∧ p.newrootInode = (k.procs a).newrootInode) E := by
  unfold current
  rw [ends_get_bind]
  refine (deref_ends hnull).bind ?_
  rintro cwd _ ⟨hcwd, rfl⟩
  exact ⟨rfl, hcwd, rfl, rfl⟩

theorem argfd_ends {fd : Int} : Ends (argfd a fd) k (fun r k' => k' = k ∧
      ∀ fd f, r = some (fd, f) → (k.procs a).ofile fd = some f) E := by
  unfold argfd
  rw [ends_get_bind]
  refine ends_ite (fun _ => ⟨rfl, nofun⟩) fun _ => ?_
  split
  · refine ⟨rfl, fun fd' f hr => ?_⟩
    obtain ⟨g, hg, heq⟩ := Option.map_eq_some_iff.mp hr
    cases heq
    exact hg
  · exact ⟨rfl, nofun⟩

theorem fdalloc_ends : Ends (fdalloc a f) k (fun r k' => (r = none ∧ k' = k) ∨ ∃ fd, r = some fd ∧
      (k.procs a).ofile fd = none ∧ k' = k.setOfile a fd (some f)) E := by
  unfold fdalloc
  rw [ends_get_bind]
  dsimp only
  cases hfind : (List.finRange nOFile).find? fun fd => ((k.procs a).ofile fd).isNone with
  | none => exact .inl ⟨rfl, rfl⟩
  | some fd => exact .inr ⟨fd, rfl, by simpa using List.find?_some hfind, rfl⟩

/-- What `allocproc` makes of a free slot; without a stack it gives the slot back. -/
def Proc.allocated (pid : Int) (stack : Bool) (x : Proc) : Proc :=
  if stack then { x with state := .embryo, pid := pid, newrootInode := none, inNewroot := 0 }
  else { x with state := .unused, pid := pid }

theorem allocproc_ends {stack : Bool} :
    Ends (allocproc stack) k (fun r k' => (r = none ∧ k' = k ∧ ∀ q, (k.procs q).state ≠ .unused) ∨
      ∃ np, (k.procs np).state = .unused ∧ r = (if stack then some np else none) ∧
        k' = { k.setProc np (Proc.allocated k.nextpid stack) with nextpid := k.nextpid + 1 }) E := by
  unfold allocproc
  rw [ends_get_bind]
  cases hfind : freeSlot fun q => (k.procs q).state with
  | none => exact .inl ⟨rfl, rfl, used_of_freeSlot hfind⟩
  | some np =>
    have hunused := unused_of_freeSlot hfind
    cases stack with
    | true | false =>
      refine .inr ⟨np, hunused, rfl, ?_⟩
      simp only [Kernel.setProc, update_idem, update_self]
      rfl

/-! ## The descriptors of all processes -/

/-- The file that a slot of `ofile` points to. -/
def pointee (x : Option FileSlot) : Multiset FileSlot := x.elim 0 fun f => {f}

/-- The files that the descriptors of all processes stand for. -/
@[irreducible] def slots (procs : ProcSlot → Proc) : Multiset FileSlot :=
  ∑ x : ProcSlot × Fin nOFile, pointee ((procs x.1).ofile x.2)

theorem slots_congr {procs' : ProcSlot → Proc} (h : ∀ q, (procs' q).ofile = (procs q).ofile) :
    slots procs' = slots procs := by
  unfold slots
  simp only [h]

theorem ofile_setOfile (v : Option FileSlot) :
    ((k.setOfile a fd v).procs a).ofile = update (k.procs a).ofile fd v := by
  show (update k.procs a _ a).ofile = _
  rw [update_self]

theorem procs_setProc_of_ne {q : ProcSlot} (h : q ≠ a) :
    (k.setProc a g).procs q = k.procs q := update_of_ne h ..

theorem procs_setProc_self : (k.setProc a g).procs a = g (k.procs a) := update_self ..

theorem slots_setOfile (k : Kernel) (a : ProcSlot) (fd : Fin nOFile) (v : Option FileSlot) :
    slots (k.setOfile a fd v).procs + pointee ((k.procs a).ofile fd) = slots k.procs + pointee v := by
  have hat : pointee (((k.setOfile a fd v).procs a).ofile fd) = pointee v := by
    rw [ofile_setOfile, update_self]
  have hrest : ∀ x : ProcSlot × Fin nOFile, x ∈ Finset.univ → x ≠ (a, fd) →
      pointee (((k.setOfile a fd v).procs x.1).ofile x.2) = pointee ((k.procs x.1).ofile x.2) := by
    rintro ⟨q, i⟩ - hx
    by_cases hq : q = a
    · subst hq
      have hi : i ≠ fd := fun hi => hx (by rw [hi])
      rw [ofile_setOfile, update_of_ne hi]
    · rw [Kernel.setOfile, procs_setProc_of_ne hq]
  have hsum := sum_change (Finset.mem_univ (a, fd)) hrest
  rw [hat] at hsum
  unfold slots
  exact hsum

theorem procs_setOfile_none {f : Option FileSlot} (h : (k.procs a).ofile fd = none) :
    ((k.setOfile a fd f).setOfile a fd none).procs = k.procs := by
  funext q
  by_cases hq : q = a
  · subst hq
    rw [Kernel.setOfile, procs_setProc_self, Kernel.setOfile, procs_setProc_self]
    rw [update_idem, ← h, update_eq_self]
  · rw [Kernel.setOfile, procs_setProc_of_ne hq, Kernel.setOfile, procs_setProc_of_ne hq]

theorem slots_open (h : (k.procs a).ofile fd = none) (f : FileSlot) :
    slots (k.setOfile a fd (some f)).procs = f ::ₘ slots k.procs := by
  have := slots_setOfile k a fd (some f)
  rw [h] at this
  simpa [pointee, add_comm, Multiset.singleton_add] using this

theorem slots_close (h : (k.procs a).ofile fd = some f) :
    slots k.procs = f ::ₘ slots (k.setOfile a fd none).procs := by
  have := slots_setOfile k a fd none
  rw [h] at this
  simpa [pointee, add_comm, Multiset.singleton_add] using this.symm

/-- A process that is not live has no open files. -/
def Idle (procs : ProcSlot → Proc) : Prop :=
  ∀ q, ¬ (procs q).Live → ∀ fd, (procs q).ofile fd = none

/-- Between calls the descriptors are all the references there are. -/
def Settled (pages : List Nat) (k : Kernel) : Prop :=
  Booked pages k (slots k.procs) ∧ Idle k.procs

theorem live_setOfile {q : ProcSlot} (v : Option FileSlot) :
    ((k.setOfile a fd v).procs q).Live ↔ (k.procs q).Live := by
  by_cases hq : q = a
  · rw [hq, Kernel.setOfile, procs_setProc_self]
    exact Iff.rfl
  · rw [Kernel.setOfile, procs_setProc_of_ne hq]

theorem Idle.setOfile {v : Option FileSlot} (h : Idle k.procs) (hlive : (k.procs a).Live) :
    Idle (k.setOfile a fd v).procs := by
  intro q hq
  rw [live_setOfile] at hq
  have hqa : q ≠ a := fun hqa => hq (hqa ▸ hlive)
  rw [Kernel.setOfile, procs_setProc_of_ne hqa]
  exact h q hq

theorem Idle.congr {procs' : ProcSlot → Proc} (h : Idle procs) (hofile : ∀ q, (procs' q).ofile = (procs q).ofile)
    (hidle : ∀ q, ¬ (procs' q).Live → (procs q).Live → ∀ fd, (procs q).ofile fd = none) : Idle procs' := by
  intro q hq fd
  rw [hofile q]
  by_cases hlive : (procs q).Live
  · exact hidle q hq hlive fd
  · exact h q hlive fd

theorem procs_reparent (k : Kernel) (a q : ProcSlot) :
    ∃ parent, (k.reparent a).procs q = { k.procs q with parent := parent } := by
  unfold Kernel.reparent
  dsimp only
  split
  · exact ⟨_, rfl⟩
  · exact ⟨_, rfl⟩

theorem procs_setOfile_congr (h : k'.procs = k.procs) (a : ProcSlot) (fd : Fin nOFile) (v : Option FileSlot) :
    (k'.setOfile a fd v).procs = (k.setOfile a fd v).procs := by
  unfold Kernel.setOfile Kernel.setProc
  rw [h]

end Xv6.Files
