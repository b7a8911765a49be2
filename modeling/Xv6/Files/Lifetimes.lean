import Xv6.Files.References

/-! # The lifetimes of descriptors

Every call leaves the descriptors of all processes as the only references to open files, and the
pages of pipes with the descriptors that stand for their ends.
-/

namespace Xv6.Files

open Function Lib

variable {pages : List Nat} {f : FileSlot} {k k' : Kernel} {procs : ProcSlot → Proc}

theorem Settled.takePage (h : Settled pages k) : Settled pages (takePage k) := by
  unfold Files.takePage
  cases hmem : k.kmem with
  | nil => exact h
  | cons page rest =>
    obtain ⟨⟨own, hb⟩, hidle⟩ := h
    rw [hmem] at hb
    exact ⟨⟨own, hb.perm List.perm_middle.symm⟩, hidle⟩

theorem Settled.givePage (h : Settled pages k) (page : Nat) : Settled pages (givePage k page) := by
  unfold Files.givePage
  split
  · rename_i hmem
    obtain ⟨⟨own, hb⟩, hidle⟩ := h
    refine ⟨⟨own, hb.perm ?_⟩, hidle⟩
    exact ((List.perm_cons_erase hmem).append_left k.kmem).trans List.perm_middle
  · exact h

/-- The books of open files alone. -/
def filesOnly (pages others : List Nat) : Scope := ⟨True, False, pages, others⟩

theorem Settled.call {sb : Superblock} {a : ProcSlot} {c : Call} {buf : CString} {r : Option Int}
    (h : Settled pages k) (hlive : (k.procs a).Live) (hcall : call sb a buf c k = .ok (r, k')) :
    Settled pages k' ∧ k'.others = k.others := by
  have hrests : Rests (filesOnly pages k.others) k 0 := ⟨⟨fun _ => ⟨h.1, rfl⟩, False.elim⟩, fun _ => h.2⟩
  obtain ⟨D, h', -⟩ := (Ends.returned (call_does hrests hlive) hcall).2
  obtain ⟨hb, hothers⟩ := h'.ledger.filed trivial
  exact ⟨⟨hb, h'.idle trivial⟩, hothers⟩

theorem Settled.step {sb : Superblock} {e : Event} (h : Settled pages k) (hstep : Step sb k e k') :
    Settled pages k' := by
  cases hstep with
  | call hlive hcall => exact (h.call hlive hcall).1
  | kalloc => exact h.takePage
  | kfree => exact h.givePage _

/-! ## Whole runs -/

/-- The tables as the kernel finds them at boot. -/
structure Booted (k : Kernel) : Prop where
  files : ∀ f, (k.ftable f).ref = 0 ∧ (k.ftable f).type = .none
  ofile : ∀ a fd, (k.procs a).ofile fd = none
  pages : (k.kmem ++ k.others).Nodup

theorem Booted.settled (h : Booted k) : Settled (k.kmem ++ k.others) k := by
  have hslots : slots k.procs = 0 := by
    unfold slots
    simp only [h.ofile]
    exact Finset.sum_const_zero
  refine ⟨⟨fun _ => none, fun f => ?_, fun f _ => (h.files f).2, fun f page w => ?_, by simp, h.pages,
    by simp, by simp⟩, fun a _ => h.ofile a⟩
  · rw [hslots, (h.files f).1]
    rfl
  · exact iff_of_false (not_isEnd (by simp [(h.files f).2])) nofun

theorem mem_slots : f ∈ slots procs ↔ ∃ a fd, (procs a).ofile fd = some f := by
  have hone : ∀ x, f ∈ pointee x ↔ x = some f := by
    intro x
    cases x with
    | none => simp [pointee]
    | some g => simp [pointee, eq_comm]
  unfold slots
  simp only [Multiset.mem_sum, Finset.mem_univ, true_and, Prod.exists, hone]

theorem count_slots :
    (slots procs).count f =
      (Finset.univ.filter fun x : ProcSlot × Fin nOFile => (procs x.1).ofile x.2 = some f).card := by
  have hone : ∀ x, (pointee x).count f = if x = some f then 1 else 0 := by
    intro x
    cases x with
    | none => simp [pointee]
    | some g => simp [pointee, Multiset.count_singleton, eq_comm]
  unfold slots
  rw [Multiset.count_sum', Finset.card_filter]
  exact Finset.sum_congr rfl fun x _ => hone _

/-- A descriptor of a live process stands for an end of the pipe in `page`. -/
def Refers (k : Kernel) (page : Nat) (w : Bool) : Prop :=
  ∃ a fd f, (k.procs a).Live ∧ (k.procs a).ofile fd = some f ∧ (k.ftable f).IsEnd page w

theorem Filed.refers_iff {own : Nat × Bool → Option FileSlot} {avail : List Nat}
    (h : Filed pages k.ftable k.pipes avail own (slots k.procs)) (hidle : Idle k.procs) (page : Nat)
    (w : Bool) : Refers k page w ↔ own (page, w) ≠ none := by
  rw [Option.ne_none_iff_exists']
  constructor
  · rintro ⟨_, _, f, -, -, hend⟩
    exact ⟨f, (h.owned f page w).mp hend⟩
  rintro ⟨f, hf⟩
  have hend := (h.owned f page w).mpr hf
  have hpos : (slots k.procs).count f ≠ 0 := by
    intro hz
    have href := h.ref_eq f
    rw [hz] at href
    have htype := hend.1.symm.trans (h.closed f href)
    cases htype
  obtain ⟨a, fd, hfd⟩ := mem_slots.mp (Multiset.count_ne_zero.mp hpos)
  refine ⟨a, fd, f, ?_, hfd, hend⟩
  by_contra hdead
  rw [hidle a hdead fd] at hfd
  cases hfd

/-- In every run from boot: a file counts the descriptors that stand for it; the flag of an end
of a pipe is set exactly when a descriptor stands for that end; a page is with the pipes exactly
as long as a descriptor stands for one of its ends, and never twice among the others; and the
calls that give a page back are those that take the last descriptor of its pipe away. -/
theorem descriptor_lifetimes (sb : Superblock) {k0 k : Kernel} {es : List Event} (hboot : Booted k0)
    (hrun : Run (Step sb) k0 es k) :
    (∀ f, (k.ftable f).ref = (Finset.univ.filter fun x : ProcSlot × Fin nOFile =>
      (k.procs x.1).Live ∧ (k.procs x.1).ofile x.2 = some f).card) ∧
    (∀ page ∈ k0.kmem ++ k0.others, page ∉ k.kmem ++ k.others →
      ((k.pipes page).readopen = true ↔ Refers k page false) ∧
      ((k.pipes page).writeopen = true ↔ Refers k page true)) ∧
    (k.kmem ++ k.others).Nodup ∧
    (∀ page ∈ k0.kmem ++ k0.others, page ∈ k.kmem ++ k.others ↔ ¬ ∃ w, Refers k page w) ∧
    ∀ a c buf k', Step sb k (.call a c buf) k' → ∀ page,
      (page ∉ k.kmem ∧ page ∈ k'.kmem ↔ (∃ w, Refers k page w) ∧ ¬ ∃ w, Refers k' page w) := by
  have hpreserved : ∀ s e t, Settled (k0.kmem ++ k0.others) s → Step sb s e t →
      Settled (k0.kmem ++ k0.others) t := fun _ _ _ hs hstep => hs.step hstep
  have h := hrun.invariant hpreserved hboot.settled
  obtain ⟨⟨own, hb⟩, hidle⟩ := id h
  have hrefers := hb.refers_iff hidle
  refine ⟨fun f => ?_, fun page hpage hout => ?_, hb.nodup, fun page hpage => ?_,
    fun a c buf k' hstep page => ?_⟩
  · have hlive : ∀ x ∈ (Finset.univ : Finset (ProcSlot × Fin nOFile)),
        (k.procs x.1).ofile x.2 = some f ↔
          (k.procs x.1).Live ∧ (k.procs x.1).ofile x.2 = some f := by
      refine fun x _ => ⟨fun hx => ⟨?_, hx⟩, fun hx => hx.2⟩
      by_contra hdead
      rw [hidle x.1 hdead x.2] at hx
      cases hx
    rw [hb.ref_eq f, count_slots, Finset.filter_congr hlive]
  · have hopened := fun w => hb.opened page w (((hb.total page).mp hpage).resolve_left hout)
    simp only [hrefers, ← Option.isSome_iff_ne_none, ← hopened]
    exact ⟨Iff.rfl, Iff.rfl⟩
  · simp only [hrefers]
    refine ⟨?_, ((hb.total page).mp hpage).resolve_right⟩
    rintro hmem ⟨w, hw⟩
    exact hb.apart page w hw hmem
  · obtain ⟨⟨own', hb'⟩, hidle'⟩ := h.step hstep
    have hothers : k'.others = k.others := by
      cases hstep with
      | call hlive hcall => exact (h.call hlive hcall).2
    simp only [hrefers, hb'.refers_iff hidle']
    have hold := hb.total page
    have hnew := hb'.total page
    have hapart := hb.apart page
    have hapart' := hb'.apart page
    have hdisjoint := fun hmem => (List.nodup_append.mp hb'.nodup).2.2 page hmem page
    simp only [List.mem_append, hothers] at hold hnew hapart hapart' hdisjoint
    grind

/-- Two processes in the root directory, and three free pages. -/
def twoProcs : Kernel where
  store := {
    bitmap := fun _ => true
    dinodes := fun _ => { Dinode.new Fs.tDir with nlink := 1 }
    blocks := fun _ _ => 0
    icache := fun _ => ⟨rootDev, rootIno, 2, false, true, { Dinode.new Fs.tDir with nlink := 1 }⟩ }
  ftable := fun _ => ⟨.none, 0, false, false, 0, 0, 0⟩
  pipes := fun _ => ⟨false, false⟩
  kmem := [1, 2, 3]
  others := []
  procs := fun q => ⟨if q.val < 2 then .runnable else .unused, q.val, none, false, fun _ => none,
    if q.val < 2 then some 0 else none, 0, none⟩
  nextpid := 2
  initproc := 0

/-- A pipe that is shared by a child, and closed by its parent, is gone when the child exits. -/
theorem descriptor_lifetimes_shared :
    ∃ k k', Run (Step ⟨0, 0, 0⟩) twoProcs [.call 1 .pipe [], .call 1 (.fork ⟨true, true⟩) [],
      .call 1 (.close 0) [], .call 1 (.close 1) []] k ∧ Step ⟨0, 0, 0⟩ k (.call 2 .exit []) k' ∧
      (k.ftable 0).ref = 1 ∧ (k.pipes 1).readopen = true ∧ 1 ∉ k.kmem ∧ 1 ∈ k'.kmem ∧
      (∃ w, Refers k 1 w) ∧ ¬ ∃ w, Refers k' 1 w := by
  simp only [exists_and_left]
  refine Run.found step_of_next (fun k => ((k.ftable 0).ref = 1 ∧ (k.pipes 1).readopen = true) ∧
    1 ∉ k.kmem ∧ (next ⟨0, 0, 0⟩ k (.call 2 .exit [])).any fun k' => 1 ∈ k'.kmem) (by decide +kernel) ?_
  rintro k hrun ⟨⟨href, hopen⟩, hout, hexit⟩
  obtain ⟨k', hk', hin⟩ := exists_of_any hexit
  have hboot : Booted twoProcs := ⟨fun _ => ⟨rfl, rfl⟩, fun _ _ => rfl, by decide⟩
  have hlife := (descriptor_lifetimes ⟨0, 0, 0⟩ hboot hrun).2.2.2.2 _ _ _ k' (step_of_next hk') 1
  exact ⟨k', step_of_next hk', href, hopen, hout, hin, hlife.mp ⟨hout, hin⟩⟩

end Xv6.Files
