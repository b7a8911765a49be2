import Xv6.Files.Descriptors
import Xv6.Files.Resources

/-! # The references that tables keep

Between calls the references to an inode are those of open files and of the working directories
and roots of live processes. A call takes further references and gives them back, in all cases but
three: what `exit` does with the root of a container, what a `fork` that gets no memory does with
it, and what `do_setroot` does with a path that names no directory. The books of open files are
carried along: each may be in order without the other.
-/

namespace Xv6.Files

open Function Lib
open Fs (Slot tDir tFile slash)

variable {np : ProcSlot} {ip : Slot} {H : Multiset Slot} {t k : Kernel} {g : Proc → Proc}

/-! ## What the tables refer to -/

def target (x : Option Slot) : Multiset Slot := x.elim 0 fun i => {i}

def File.refs (x : File) : Multiset Slot := if x.type = .inode then {x.ip} else 0

def Proc.refs (p : Proc) : Multiset Slot :=
  if p.Live then target p.cwd + target p.newrootInode else 0

@[irreducible] def fileRefs (ft : FileSlot → File) : Multiset Slot := ∑ f, (ft f).refs

@[irreducible] def procRefs (procs : ProcSlot → Proc) : Multiset Slot := ∑ a, (procs a).refs

/-- The references that open files and live processes keep. -/
def refs (k : Kernel) : Multiset Slot := fileRefs k.ftable + procRefs k.procs

theorem fileRefs_setFile (k : Kernel) (f : FileSlot) (g : File → File) :
    fileRefs (k.setFile f g).ftable + (k.ftable f).refs = fileRefs k.ftable + (g (k.ftable f)).refs := by
  have hrest : ∀ j, j ∈ Finset.univ → j ≠ f →
      ((k.setFile f g).ftable j).refs = (k.ftable j).refs := by
    intro j _ hj
    rw [ftable_setFile_of_ne hj]
  have hsum := sum_change (Finset.mem_univ f) hrest
  rw [ftable_setFile_self] at hsum
  unfold fileRefs
  exact hsum

theorem procRefs_setProc (k : Kernel) (a : ProcSlot) (g : Proc → Proc) :
    procRefs (k.setProc a g).procs + (k.procs a).refs = procRefs k.procs + (g (k.procs a)).refs := by
  have hrest : ∀ q, q ∈ Finset.univ → q ≠ a →
      ((k.setProc a g).procs q).refs = (k.procs q).refs := by
    intro q _ hq
    rw [procs_setProc_of_ne hq]
  have hsum := sum_change (Finset.mem_univ a) hrest
  rw [procs_setProc_self] at hsum
  unfold procRefs
  exact hsum

theorem mem_procRefs {procs : ProcSlot → Proc} {a : ProcSlot} {i : Slot} (h : i ∈ (procs a).refs) :
    i ∈ procRefs procs := by
  unfold procRefs
  exact Multiset.mem_sum.mpr ⟨a, Finset.mem_univ a, h⟩

/-! ## Accounts -/

/-- Without a working directory once it is dead, and without a root of its own outside containers. -/
structure Proc.Tidy (p : Proc) : Prop where
  dead : ¬ p.Live → p.cwd = none
  root : p.Live → p.inNewroot = 0 → p.newrootInode = none

/-- `H` are the references that the call at work has taken, and those that are lost. -/
structure Accounts (k : Kernel) (H : Multiset Slot) (K : Finset Slot) : Prop where
  held : Held k.store (H + refs k) K
  files : ∀ f, (k.ftable f).type ≠ .none → 0 < (k.ftable f).ref
  procs : ∀ q, (k.procs q).Tidy

/-- Which books are in order: those of open files, with these pages and those of them that other
parts of the kernel hold, and those of inodes. -/
structure Scope where
  filed : Prop
  accounted : Prop
  pages : List Nat
  others : List Nat

/-- Code over the kernel that does to the disk only what the inode layer does. -/
def Does (S : Scope) (sb : Superblock) {α : Type} (k : Kernel) (x : Code Kernel α)
    (Q : α → Kernel → Prop) : Prop :=
  Ends x k (fun r k' => (S.accounted → Prims sb k.store k'.store) ∧ Q r k') fun e =>
    S.accounted → Fails sb k.store e

section Does

variable {S : Scope} {sb : Superblock} {α β : Type} {k : Kernel} {x y : Code Kernel α}
  {Q R : α → Kernel → Prop}

protected theorem Does.pure {a : α} (h : Q a k) : Does S sb k (pure a : Code Kernel α) Q :=
  ⟨fun _ => .refl, h⟩

protected theorem Does.throw {e : String} (h : e ∈ upper) : Does S sb k (throw e : Code Kernel α) Q :=
  fun _ => .inl h

theorem Does.ite {c : Prop} [Decidable c] (hx : c → Does S sb k x Q) (hy : ¬ c → Does S sb k y Q) :
    Does S sb k (if c then x else y) Q := ends_ite hx hy

protected theorem Does.modify {f : Kernel → Kernel} {Q : PUnit → Kernel → Prop} (hstore : (f k).store = k.store)
    (h : Q ⟨⟩ (f k)) : Does S sb k (modify f : Code Kernel PUnit) Q := by
  refine ⟨fun _ => ?_, h⟩
  rw [hstore]

theorem Does.imp (h : Does S sb k x Q) (hQ : ∀ a k', Q a k' → R a k') : Does S sb k x R :=
  Ends.imp h fun a k' hq => ⟨hq.1, hQ a k' hq.2⟩

protected theorem Does.bind {f : α → Code Kernel β} {R : β → Kernel → Prop} (h : Does S sb k x Q)
    (hf : ∀ a k', Q a k' → Does S sb k' (f a) R) : Does S sb k (x >>= f) R := by
  refine Ends.bind h ?_
  rintro a k' ⟨hp, hq⟩
  refine Ends.mono (hf a k' hq) ?_ fun e he hS => .of_prims (hp hS) (he hS)
  rintro b k'' ⟨hp', hr⟩
  exact ⟨fun hS => (hp hS).trans (hp' hS), hr⟩

theorem Does.get_bind {f : Kernel → Code Kernel α} (h : Does S sb k (f k) Q) : Does S sb k (get >>= f) Q := h

theorem Does.modify_bind {g : Kernel → Kernel} {f : PUnit → Code Kernel α}
    (hstore : (g k).store = k.store) (h : Does S sb (g k) (f ⟨⟩) Q) :
    Does S sb k ((modify g : Code Kernel PUnit) >>= f) Q := by
  unfold Does at h ⊢
  rw [hstore] at h
  exact h

theorem Does.of_ends {E : String → Prop} (h : Ends x k Q E) (hstore : ∀ a k', Q a k' → k'.store = k.store)
    (hE : ∀ e, E e → e ∈ upper) : Does S sb k x Q := by
  refine Ends.mono h (fun a k' hq => ⟨fun _ => ?_, hq⟩) fun e he _ => .inl (hE e he)
  rw [hstore a k' hq]

theorem does_onStore {K : Finset Slot} {x : Code Store α} {P : α → Multiset Slot → Finset Slot → Prop}
    (hk : S.accounted → Held k.store H K) (hx : Owns sb H K x P) :
    Does S sb k (onStore x) fun r k' => ∃ s, k' = { k with store := s } ∧ x k.store = .ok (r, s) ∧
      (S.accounted → ∃ H' K', Held s H' K' ∧ P r H' K') := by
  unfold Does onStore
  rw [ends_on]
  refine ends_iff.mpr ⟨fun a s hok => ?_, fun e herr hS => (hx k.store (hk hS)).stopped herr⟩
  have hret := fun hS => (hx k.store (hk hS)).returned hok
  exact ⟨fun hS => (hret hS).1, s, rfl, hok, fun hS => (hret hS).2⟩

theorem Does.forM {ι : Type} {l : List ι} {body : ι → Code Kernel PUnit}
    (inv : List ι → Kernel → Prop)
    (hbody : ∀ i l t, inv (i :: l) t → Does S sb t (body i) fun _ => inv l) (h : inv l k) :
    Does S sb k (l.forM body) fun _ => inv [] := by
  induction l generalizing k with
  | nil => exact .pure h
  | cons i l ih => exact (hbody i l k h).bind fun _ _ => ih

end Does

section Accounts

variable {S : Scope} {sb : Superblock} {k : Kernel} {H H' : Multiset Slot} {R : Multiset FileSlot}
  {K : Finset Slot} {a : ProcSlot} {f : FileSlot} {v : Option FileSlot} {path buf : CString} {fuel omode : Nat}
  {src input : List UInt8}

theorem Accounts.of_same {k' : Kernel} (h : Accounts k H K) (hstore : k'.store = k.store)
    (hftable : k'.ftable = k.ftable) (hprocs : k'.procs = k.procs) : Accounts k' H K := by
  refine ⟨?_, ?_, ?_⟩
  · unfold refs
    rw [hstore, hftable, hprocs]
    exact h.held
  · rw [hftable]
    exact h.files
  · rw [hprocs]
    exact h.procs

theorem Proc.refs_of_live {p : Proc} (h : p.Live) : p.refs = target p.cwd + target p.newrootInode :=
  if_pos h

theorem Proc.refs_of_dead {p : Proc} (h : ¬ p.Live) : p.refs = 0 := if_neg h

theorem refs_setFile (k : Kernel) (f : FileSlot) (g : File → File) :
    refs (k.setFile f g) + (k.ftable f).refs = refs k + (g (k.ftable f)).refs := by
  have hsum := fileRefs_setFile k f g
  unfold refs
  rw [add_right_comm, hsum, add_right_comm]
  rfl

theorem Accounts.setFile (h : Accounts k H K) (f : FileSlot) {g : File → File}
    (href : H' + (g (k.ftable f)).refs = H + (k.ftable f).refs)
    (hpos : (g (k.ftable f)).type ≠ .none → 0 < (g (k.ftable f)).ref) :
    Accounts (k.setFile f g) H' K := by
  refine ⟨?_, fun j hj => ?_, h.procs⟩
  · rw [rebalance (refs_setFile k f g) href]
    exact h.held
  by_cases hjf : j = f
  · subst hjf
    rw [ftable_setFile_self] at hj ⊢
    exact hpos hj
  · rw [ftable_setFile_of_ne hjf] at hj ⊢
    exact h.files j hj

theorem Accounts.setFile_same (h : Accounts k H K) (f : FileSlot) {g : File → File}
    (htype : (g (k.ftable f)).type = (k.ftable f).type) (hip : (g (k.ftable f)).ip = (k.ftable f).ip)
    (hpos : (g (k.ftable f)).type ≠ .none → 0 < (g (k.ftable f)).ref) :
    Accounts (k.setFile f g) H K := by
  refine h.setFile f ?_ hpos
  unfold File.refs
  rw [htype, hip]

theorem refs_setProc (k : Kernel) (a : ProcSlot) (g : Proc → Proc) :
    refs (k.setProc a g) + (k.procs a).refs = refs k + (g (k.procs a)).refs := by
  have hsum := procRefs_setProc k a g
  unfold refs
  rw [add_assoc, hsum, ← add_assoc]
  rfl

theorem Accounts.change {s : Store} (h : Accounts k H K) (a : ProcSlot)
    (hheld : Held s (H' + refs (k.setProc a g)) K) (htidy : (g (k.procs a)).Tidy) :
    Accounts ({ k with store := s }.setProc a g) H' K := by
  refine ⟨hheld, h.files, fun q => ?_⟩
  by_cases hqa : q = a
  · subst hqa
    rw [procs_setProc_self]
    exact htidy
  · rw [procs_setProc_of_ne hqa]
    exact h.procs q

theorem Accounts.setProc (h : Accounts k H K) (a : ProcSlot)
    (href : H' + (g (k.procs a)).refs = H + (k.procs a).refs) (htidy : (g (k.procs a)).Tidy) :
    Accounts (k.setProc a g) H' K := by
  refine h.change a ?_ htidy
  rw [rebalance (refs_setProc k a g) href]
  exact h.held

theorem Accounts.setLive (h : Accounts k H K) (hlive : (k.procs a).Live) (hg : (g (k.procs a)).Live)
    (href : H' + (target (g (k.procs a)).cwd + target (g (k.procs a)).newrootInode) =
      H + (target (k.procs a).cwd + target (k.procs a).newrootInode))
    (hroot : (g (k.procs a)).inNewroot = 0 → (g (k.procs a)).newrootInode = none) :
    Accounts (k.setProc a g) H' K := by
  refine h.setProc a ?_ ⟨fun hdead => absurd hg hdead, fun _ => hroot⟩
  rw [Proc.refs_of_live hg, Proc.refs_of_live hlive]
  exact href

theorem Accounts.setProc_same (h : Accounts k H K) (a : ProcSlot)
    (hlive : (g (k.procs a)).Live ↔ (k.procs a).Live) (hcwd : (g (k.procs a)).cwd = (k.procs a).cwd)
    (hin : (g (k.procs a)).inNewroot = (k.procs a).inNewroot)
    (hroot : (g (k.procs a)).newrootInode = (k.procs a).newrootInode) : Accounts (k.setProc a g) H K := by
  refine h.setProc a ?_ ⟨fun hq => ?_, fun hq => ?_⟩
  · unfold Proc.refs
    rw [hcwd, hroot, if_congr hlive rfl rfl]
  · rw [hcwd]
    exact (h.procs a).dead (hq ∘ hlive.mpr)
  · rw [hin, hroot]
    exact (h.procs a).root (hlive.mp hq)

theorem Accounts.setOfile {fd : Fin nOFile} (h : Accounts k H K) :
    Accounts (k.setOfile a fd v) H K := h.setProc_same a Iff.rfl rfl rfl rfl

theorem procRefs_congr {procs procs' : ProcSlot → Proc} (h : ∀ q, (procs' q).refs = (procs q).refs) :
    procRefs procs' = procRefs procs := by
  unfold procRefs
  exact Finset.sum_congr rfl fun q _ => h q

theorem Accounts.reparent (h : Accounts k H K) (a : ProcSlot) : Accounts (k.reparent a) H K := by
  refine ⟨?_, h.files, fun q => ?_⟩
  · have hrefs : refs (k.reparent a) = refs k := by
      refine congrArg (fileRefs k.ftable + ·) (procRefs_congr fun q => ?_)
      obtain ⟨parent, hparent⟩ := procs_reparent k a q
      rw [hparent]
      rfl
    rw [hrefs]
    exact h.held
  · obtain ⟨parent, hparent⟩ := procs_reparent k a q
    rw [hparent]
    exact ⟨(h.procs q).dead, (h.procs q).root⟩

theorem Accounts.cwd_mem (h : (k.procs a).Live) {c : Slot} (hc : (k.procs a).cwd = some c) : c ∈ refs k := by
  refine Multiset.mem_add.mpr (.inr (mem_procRefs (a := a) ?_))
  rw [Proc.refs_of_live h, hc]
  exact Multiset.mem_add.mpr (.inl (Multiset.mem_singleton_self c))

theorem Accounts.root_mem (h : (k.procs a).Live) {i : Slot} (hi : (k.procs a).newrootInode = some i) :
    i ∈ refs k := by
  refine Multiset.mem_add.mpr (.inr (mem_procRefs (a := a) ?_))
  rw [Proc.refs_of_live h, hi]
  exact Multiset.mem_add.mpr (.inr (Multiset.mem_singleton_self i))

theorem withFound_add (found : Option Slot) {R : Multiset Slot} :
    withFound found (H + R) = withFound found H + R := by
  cases found with
  | none => rfl
  | some i => exact (Multiset.cons_add i H R).symm

/-- The books that are to be in order, with the references `R` to open files. -/
structure Ledger (S : Scope) (k : Kernel) (R : Multiset FileSlot) (H : Multiset Slot) (K : Finset Slot) :
    Prop where
  filed : S.filed → Booked S.pages k R ∧ k.others = S.others
  accounts : S.accounted → Accounts k H K

theorem Ledger.setFile {g : File → File} {R' : Multiset FileSlot} {f : FileSlot} (h : Ledger S k R H K)
    (hfiled : S.filed → ∀ own, Filed S.pages k.ftable k.pipes (k.kmem ++ k.others) own R →
      Filed S.pages (k.setFile f g).ftable k.pipes (k.kmem ++ k.others) own R')
    (haccounts : S.accounted → Accounts k H K → Accounts (k.setFile f g) H' K) :
    Ledger S (k.setFile f g) R' H' K := by
  refine ⟨fun hS => ?_, fun hS => haccounts hS (h.accounts hS)⟩
  obtain ⟨⟨own, hb⟩, hothers⟩ := h.filed hS
  exact ⟨⟨own, hfiled hS own hb⟩, hothers⟩

theorem Ledger.setProc (h : Ledger S k R H K)
    (haccounts : S.accounted → Accounts k H K → Accounts (k.setProc a g) H' K) :
    Ledger S (k.setProc a g) R H' K := ⟨h.filed, fun hS => haccounts hS (h.accounts hS)⟩

theorem Ledger.setOfile (h : Ledger S k R H K) (a : ProcSlot) (fd : Fin nOFile) (v : Option FileSlot) :
    Ledger S (k.setOfile a fd v) R H K := h.setProc fun _ ha => ha.setOfile

theorem Ledger.closed (h : Ledger S k R H K) (hS : S.filed ∨ S.accounted)
    (hfree : (k.ftable f).ref = 0) : (k.ftable f).type = .none := by
  rcases hS with hS | hS
  · exact (h.filed hS).1.choose_spec.closed f hfree
  · by_contra htype
    have := (h.accounts hS).files f htype
    omega

theorem Ledger.does {α : Type} {x : Code Store α} {F : α → Multiset Slot} {G : α → Finset Slot}
    (h : Ledger S k R H K) (hx : Owns sb (H + refs k) K x fun r => Now (F r + refs k) (G r)) :
    Does S sb k (onStore x) fun r k' => ∃ s, k' = { k with store := s } ∧ x k.store = .ok (r, s) ∧
      Ledger S k' R (F r) (G r) := by
  refine (does_onStore (fun hS => (h.accounts hS).held) hx).imp ?_
  rintro r _ ⟨s, rfl, hok, hs⟩
  refine ⟨s, rfl, hok, h.filed, fun hS => ?_⟩
  obtain ⟨_, _, hheld, rfl, rfl⟩ := hs hS
  have ha := h.accounts hS
  exact ⟨hheld, ha.files, ha.procs⟩

theorem Ledger.runs {α : Type} {x : Code Store α} {F : α → Multiset Slot} {G : α → Finset Slot}
    (h : Ledger S k R H K) (hx : Owns sb (H + refs k) K x fun r => Now (F r + refs k) (G r)) :
    Does S sb k (onStore x) fun r k' => ∃ s, k' = { k with store := s } ∧ Ledger S k' R (F r) (G r) := by
  refine (h.does hx).imp ?_
  rintro r _ ⟨s, hs, -, h'⟩
  exact ⟨s, hs, h'⟩

theorem Ledger.namei {p : Fs.Proc} (h : Ledger S k R H ∅) (hlive : (k.procs a).Live)
    (hcwd : (k.procs a).cwd = some p.cwd) :
    Does S sb k (onStore (namei sb p path buf)) fun r k' => ∃ s, k' = { k with store := s } ∧
      Files.namei sb p path buf k.store = .ok (r, s) ∧ Ledger S k' R (withFound r H) ∅ := by
  refine h.does (F := fun r => withFound r H) (G := fun _ => ∅) ?_
  simp only [← withFound_add]
  exact namei_owns (Multiset.mem_add.mpr (.inr (Accounts.cwd_mem hlive hcwd)))

theorem Ledger.ilock (h : Ledger S k R H ∅) :
    Does S sb k (onStore (ilock ip)) fun _ k' => ∃ s, k' = { k with store := s } ∧
      Ledger S k' R H (insert ip ∅) :=
  h.runs ilock_locks

theorem Ledger.iunlock (h : Ledger S k R H (insert ip ∅)) :
    Does S sb k (onStore (iunlock ip)) fun _ k' => ∃ s, k' = { k with store := s } ∧ Ledger S k' R H ∅ :=
  h.runs iunlock_last

theorem Ledger.iunlockput (h : Ledger S k R (ip ::ₘ H) (insert ip ∅)) :
    Does S sb k (onStore (iunlockput ip)) fun _ k' => ∃ s, k' = { k with store := s } ∧ Ledger S k' R H ∅ := by
  refine h.runs (F := fun _ => H) (G := fun _ => ∅) ?_
  rw [Multiset.cons_add]
  exact iunlockput_last

theorem Ledger.fail (h : Ledger S k R (ip ::ₘ H) (insert ip ∅)) {r : Int} :
    Does S sb k (do onStore (Files.iunlockput ip); return r) fun _ k' => k'.procs = k.procs ∧
      Ledger S k' R H ∅ := by
  refine h.iunlockput.bind ?_
  rintro _ _ ⟨s, rfl, h'⟩
  exact .pure ⟨rfl, h'⟩

theorem Ledger.idup (h : Ledger S k R H K) (hmem : ip ∈ refs k) :
    Does S sb k (onStore (idup ip)) fun _ k' => ∃ s, k' = { k with store := s } ∧
      Ledger S k' R (ip ::ₘ H) K := by
  refine h.runs (F := fun _ => ip ::ₘ H) (G := fun _ => K) ?_
  rw [Multiset.cons_add]
  exact idup_owns (Multiset.mem_add.mpr (.inr hmem))

/-- The process drops its working directory, and the new one takes over a reference of the call. -/
theorem Ledger.leave {c : Slot} {v : Option Slot} (h : Ledger S k R (target v + H) K)
    (hlive : (k.procs a).Live) (hcwd : (k.procs a).cwd = some c) :
    Does S sb k (onStore (iput c)) fun _ k' => ∃ s, k' = { k with store := s } ∧
      Ledger S (k'.setProc a fun x => { x with cwd := v }) R H K := by
  have hsum := refs_setProc k a fun x => { x with cwd := v }
  have hnew : ({ k.procs a with cwd := v } : Proc).refs = target v + target (k.procs a).newrootInode :=
    Proc.refs_of_live (p := { k.procs a with cwd := v }) hlive
  have heq : c ::ₘ (H + refs (k.setProc a fun x => { x with cwd := v })) = target v + H + refs k := by
    rw [hnew, Proc.refs_of_live hlive, hcwd] at hsum
    rw [← Multiset.singleton_add c, ← add_assoc]
    refine rebalance hsum ?_
    show {c} + H + _ = target v + H + ({c} + _)
    ac_rfl
  have hheld := fun hS => (h.accounts hS).held
  rw [← heq] at hheld
  refine (does_onStore hheld iput_owns).imp ?_
  rintro _ _ ⟨s, rfl, -, hs⟩
  refine ⟨s, rfl, h.filed, fun hS => ?_⟩
  obtain ⟨_, _, hheld', -, rfl, rfl⟩ := hs hS
  have ha := h.accounts hS
  exact ha.change a hheld' ⟨fun hq => absurd hlive hq, fun _ => (ha.procs a).root hlive⟩

/-! ## Open files -/

/-- The file has just been allocated. -/
structure New (S : Scope) (k : Kernel) (f : FileSlot) : Prop where
  ref : (k.ftable f).ref = 1
  type : S.filed ∨ S.accounted → (k.ftable f).type = .none

theorem filealloc_does (h : Ledger S k R H K) :
    Does S sb k filealloc fun r k' => (r = none ∧ k' = k) ∨ ∃ f, r = some f ∧ k'.procs = k.procs ∧
      Ledger S k' (f ::ₘ R) H K ∧ New S k' f ∧ (k.ftable f).ref = 0 ∧
      ∀ g, g ≠ f → k'.ftable g = k.ftable g := by
  refine (Does.of_ends (filealloc_ends (E := fun _ => False)) ?_ fun _ => False.elim).imp ?_
  · rintro _ _ (⟨-, rfl⟩ | ⟨f, -, -, rfl⟩)
    · rfl
    · rfl
  rintro _ _ (⟨rfl, rfl⟩ | ⟨f, rfl, hfree, rfl⟩)
  · exact .inl ⟨rfl, rfl⟩
  refine .inr ⟨f, rfl, rfl, h.setFile (fun _ own hb => ?_) fun _ ha => ?_, ⟨?_, fun hS => ?_⟩, hfree,
    fun g hg => ftable_setFile_of_ne hg⟩
  · have htake := hb.take (f := f)
    rw [hfree] at htake
    exact htake
  · exact ha.setFile_same f rfl rfl fun _ => Int.one_pos
  · rw [ftable_setFile_self]
  · rw [ftable_setFile_self]
    exact h.closed hS hfree

theorem filedup_does (h : Ledger S k R H K) :
    Does S sb k (filedup f) fun _ k' => k'.procs = k.procs ∧ Ledger S k' (f ::ₘ R) H K := by
  refine .get_bind (.ite (fun _ => .throw (by decide)) fun hpos => .modify rfl ⟨rfl, ?_⟩)
  refine h.setFile (fun _ own hb => hb.take) fun _ ha => ha.setFile_same f rfl rfl fun _ => ?_
  dsimp only
  omega

theorem fileclose_does (h : Ledger S k (f ::ₘ R) H K) :
    Does S sb k (fileclose f) fun _ k' => k'.procs = k.procs ∧ Ledger S k' R H K := by
  refine .get_bind (.ite (fun _ => .throw (by decide)) fun _ => .ite (fun hmore => ?_) fun hlast => ?_)
  · exact .modify rfl ⟨rfl, h.setFile (fun _ own hb => hb.drop hmore) fun _ ha =>
      ha.setFile_same f rfl rfl fun _ => hmore⟩
  have haccounts : Accounts k H K → Accounts (k.setFile f fun x => { x with ref := 0, type := .none })
      (H + (k.ftable f).refs) K := fun ha => ha.setFile f (add_zero _) fun hne => absurd rfl hne
  have hclose : (k.ftable f).type ≠ .pipe → Ledger S
      (k.setFile f fun x => { x with ref := 0, type := .none }) R (H + (k.ftable f).refs) K := fun htype =>
    h.setFile (fun _ own hb => hb.close (by omega) htype) fun _ => haccounts
  refine .modify_bind rfl ?_
  unfold File.refs at hclose haccounts
  cases htype : (k.ftable f).type with
  | none =>
    rw [htype] at hclose
    refine .pure ⟨rfl, ?_⟩
    simpa using hclose nofun
  | inode =>
    rw [htype, if_pos rfl, add_comm, Multiset.singleton_add] at hclose
    refine ((hclose nofun).does (F := fun _ => H) (G := fun _ => K) ?_).imp ?_
    · rw [Multiset.cons_add]
      exact iput_drops
    · rintro _ _ ⟨s, rfl, -, h'⟩
      exact ⟨rfl, h'⟩
  | pipe =>
    rw [htype, if_neg nofun, add_zero] at haccounts
    refine (Does.of_ends (pipeclose_ends (E := fun _ => False)) (fun _ _ hk' => by rw [hk'])
      fun _ => False.elim).imp ?_
    rintro _ _ rfl
    refine ⟨rfl, fun hS => ?_, fun hS => (haccounts (h.accounts hS)).of_same rfl rfl rfl⟩
    obtain ⟨⟨own, hb⟩, hothers⟩ := h.filed hS
    have hend := hb.closeEnd (by omega) ⟨htype, rfl, rfl⟩
    refine ⟨⟨update own ((k.ftable f).pipe, (k.ftable f).writable) none, ?_⟩, hothers⟩
    show Filed S.pages _ _ ((if (k.pipes (k.ftable f).pipe).isOpen (!(k.ftable f).writable) = true
      then k.kmem else (k.ftable f).pipe :: k.kmem) ++ k.others) _ R
    rw [apply_ite (· ++ k.others)]
    exact hend

theorem Accounts.pipeEnd (h : Accounts k H K) {f : FileSlot} (htype : (k.ftable f).type = .none)
    (hpos : (k.ftable f).ref = 1) (page : Nat) (w : Bool) :
    Accounts (k.setFile f (File.pipeEnd page w)) H K := by
  refine h.setFile f ?_ fun _ => ?_
  · simp [File.refs, File.pipeEnd, htype]
  · show 0 < (k.ftable f).ref
    omega

theorem pipealloc_does (h : Ledger S k R H K) : Does S sb k pipealloc fun r k' => k'.procs = k.procs ∧
    ((r = none ∧ Ledger S k' R H K) ∨ ∃ f g, r = some (f, g) ∧ Ledger S k' (f ::ₘ g ::ₘ R) H K) := by
  refine (filealloc_does h).bind ?_
  rintro _ k1 (⟨rfl, rfl⟩ | ⟨f, rfl, hprocs1, h1, hf, -, -⟩)
  · exact .pure ⟨rfl, .inl ⟨rfl, h⟩⟩
  refine (filealloc_does h1).bind ?_
  rintro _ k2 (⟨rfl, rfl⟩ | ⟨g, rfl, hprocs2, h2, hg, hgfree, hsame⟩)
  · refine (fileclose_does h1).bind ?_
    rintro _ k2 ⟨hprocs2, h2⟩
    exact .pure ⟨hprocs2.trans hprocs1, .inl ⟨rfl, h2⟩⟩
  have hprocs := hprocs2.trans hprocs1
  rw [Multiset.cons_swap] at h2
  refine Does.bind (.of_ends (kalloc_ends (E := fun _ => False)) ?_ fun _ => False.elim) ?_
  · rintro _ _ (⟨-, rfl⟩ | ⟨page, rest, -, -, rfl⟩)
    · rfl
    · rfl
  rintro _ _ (⟨rfl, rfl⟩ | ⟨page, rest, rfl, hmem, rfl⟩)
  · refine (fileclose_does h2).bind ?_
    rintro _ k3 ⟨hprocs3, h3⟩
    refine (fileclose_does h3).bind ?_
    rintro _ k4 ⟨hprocs4, h4⟩
    exact .pure ⟨(hprocs4.trans hprocs3).trans hprocs, .inl ⟨rfl, h4⟩⟩
  -- the two files have no type yet, so they stand for no inode before and after
  have hne : f ≠ g := by
    rintro rfl
    have := hf.ref
    omega
  obtain ⟨hfref, hftype⟩ := hf
  rw [← hsame f hne] at hftype hfref
  refine .modify_bind rfl (.modify_bind rfl (.modify_bind rfl (.pure ⟨hprocs, .inr ⟨f, g, rfl, ?_, ?_⟩⟩)))
  · intro hS
    obtain ⟨⟨own, hb⟩, hothers⟩ := h2.filed hS
    rw [hmem] at hb
    have hgref := hg.ref
    exact ⟨⟨_, hb.newPipe hne (hftype (.inl hS)) (hg.type (.inl hS)) (by omega) (by omega)⟩, hothers⟩
  intro hS
  have hpage : Accounts (({ k2 with kmem := rest } : Kernel).setPipe page fun _ =>
    { readopen := true, writeopen := true }) H K := (h2.accounts hS).of_same rfl rfl rfl
  refine (hpage.pipeEnd (hftype (.inr hS)) hfref page false).pipeEnd ?_ ?_ page true
  · rw [ftable_setFile_of_ne hne.symm]
    exact hg.type (.inr hS)
  · rw [ftable_setFile_of_ne hne.symm]
    exact hg.ref

/-! ## Calls -/

/-- Between calls the descriptors are all the references to open files, and a process that is not
live has none. -/
structure Rests (S : Scope) (k : Kernel) (H : Multiset Slot) : Prop where
  ledger : Ledger S k (slots k.procs) H ∅
  idle : S.filed → Idle k.procs

theorem Rests.of_procs (h : Ledger S t (slots k.procs) H ∅) (hprocs : t.procs = k.procs)
    (hidle : S.filed → Idle k.procs) : Rests S t H := by
  rw [← hprocs] at h hidle
  exact ⟨h, hidle⟩

theorem Rests.of_setProc (h : Ledger S (k.setProc a g) (slots k.procs) H ∅) (hidle : S.filed → Idle k.procs)
    (hofile : (g (k.procs a)).ofile = (k.procs a).ofile)
    (hdead : S.filed → ¬ (g (k.procs a)).Live → (k.procs a).Live → ∀ fd, (k.procs a).ofile fd = none) :
    Rests S (k.setProc a g) H := by
  have hsame : ∀ q, ((k.setProc a g).procs q).ofile = (k.procs q).ofile := by
    intro q
    by_cases hq : q = a
    · rw [hq, procs_setProc_self, hofile]
    · rw [procs_setProc_of_ne hq]
  refine ⟨?_, fun hS => (hidle hS).congr hsame fun q => ?_⟩
  · rw [slots_congr hsame]
    exact h
  by_cases hq : q = a
  · rw [hq, procs_setProc_self]
    exact hdead hS
  · rw [procs_setProc_of_ne hq]
    exact fun hnot hlive => absurd hlive hnot

theorem Rests.setProc (h : Rests S k H) (hofile : (g (k.procs a)).ofile = (k.procs a).ofile)
    (hdead : S.filed → ¬ (g (k.procs a)).Live → (k.procs a).Live → ∀ fd, (k.procs a).ofile fd = none)
    (haccounts : S.accounted → Accounts k H ∅ → Accounts (k.setProc a g) H' ∅) : Rests S (k.setProc a g) H' :=
  .of_setProc (h.ledger.setProc haccounts) h.idle hofile hdead

theorem Rests.setProc_same (h : Rests S k H) (a : ProcSlot) (hofile : (g (k.procs a)).ofile = (k.procs a).ofile)
    (hlive : (g (k.procs a)).Live ↔ (k.procs a).Live) (hcwd : (g (k.procs a)).cwd = (k.procs a).cwd)
    (hin : (g (k.procs a)).inNewroot = (k.procs a).inNewroot)
    (hroot : (g (k.procs a)).newrootInode = (k.procs a).newrootInode) : Rests S (k.setProc a g) H :=
  h.setProc hofile (fun _ hdead hl => absurd (hlive.mpr hl) hdead) fun _ ha =>
    ha.setProc_same a hlive hcwd hin hroot

theorem Ledger.store {fd : Fin nOFile} (h : Ledger S k (f ::ₘ slots k.procs) H ∅)
    (hidle : S.filed → Idle k.procs) (hlive : (k.procs a).Live)
    (hempty : S.filed → (k.procs a).ofile fd = none) : Rests S (k.setOfile a fd (some f)) H := by
  refine ⟨⟨fun hS => ?_, (h.setOfile a fd (some f)).accounts⟩, fun hS => (hidle hS).setOfile hlive⟩
  rw [slots_open (hempty hS)]
  exact h.filed hS

/-- A slot is to be cleared; its reference is in the hands of the call. -/
theorem Rests.clear {fd : Fin nOFile} (h : Rests S k H) (hfd : (k.procs a).ofile fd = some f) :
    Ledger S k (f ::ₘ slots (k.setOfile a fd none).procs) H ∅ := by
  rw [← slots_close hfd]
  exact h.ledger

theorem Rests.setNextpid (h : Rests S k H) (n : Int) : Rests S { k with nextpid := n } H :=
  ⟨⟨h.ledger.filed, fun hS => (h.ledger.accounts hS).of_same rfl rfl rfl⟩, h.idle⟩

theorem Rests.kept (h : Rests S k H) : Rests S k (H + 0) := by
  rw [add_zero]
  exact h

theorem deref_does {α : Type} {x : Option α} :
    Does S sb k (deref x) fun v k' => x = some v ∧ k' = k := by
  refine .of_ends (deref_ends (E := fun e => e = "null pointer") rfl) ?_ ?_
  · rintro _ _ ⟨-, rfl⟩
    rfl
  · rintro _ rfl
    decide

theorem current_does : Does S sb k (current a) fun p k' => k' = k ∧
    (k.procs a).cwd = some p.cwd ∧ p.inNewroot = (k.procs a).inNewroot ∧
    p.newrootInode = (k.procs a).newrootInode := by
  refine .of_ends (current_ends (E := fun e => e = "null pointer") rfl) ?_ ?_
  · rintro _ _ ⟨rfl, -⟩
    rfl
  · rintro _ rfl
    decide

theorem argfd_does {fd : Int} : Does S sb k (argfd a fd) fun r k' => k' = k ∧
    ∀ fd f, r = some (fd, f) → (k.procs a).ofile fd = some f := by
  refine .of_ends (argfd_ends (E := fun _ => False)) ?_ fun _ => False.elim
  rintro _ _ ⟨rfl, -⟩
  rfl

theorem fdalloc_does : Does S sb k (fdalloc a f) fun r k' => (r = none ∧ k' = k) ∨ ∃ fd, r = some fd ∧
      (k.procs a).ofile fd = none ∧ k' = k.setOfile a fd (some f) := by
  refine .of_ends (fdalloc_ends (E := fun _ => False)) ?_ fun _ => False.elim
  rintro _ _ (⟨-, rfl⟩ | ⟨fd, -, -, rfl⟩)
  · rfl
  · rfl

/-- The file takes over the reference that the call has to the inode. -/
theorem openInode_does (h : Ledger S k (slots k.procs) (ip ::ₘ H) (insert ip ∅)) (hidle : S.filed → Idle k.procs)
    (hlive : (k.procs a).Live) : Does S sb k (openInode a ip omode) fun _ k' => Rests S k' H := by
  have hfail : ∀ {k1 : Kernel}, k1.procs = k.procs → Ledger S k1 (slots k.procs) (ip ::ₘ H) (insert ip ∅) →
      Does S sb k1 (do onStore (iunlockput ip); return (-1 : Int)) fun _ k' => Rests S k' H := by
    intro k1 hprocs h1
    refine h1.fail.imp ?_
    rintro _ k2 ⟨hprocs2, h2⟩
    exact .of_procs h2 (hprocs2.trans hprocs) hidle
  refine (filealloc_does h).bind ?_
  rintro _ k1 (⟨rfl, rfl⟩ | ⟨f, rfl, hprocs1, h1, hnew, -, -⟩)
  · exact hfail rfl h
  refine fdalloc_does.bind ?_
  rintro _ _ (⟨rfl, rfl⟩ | ⟨fd, rfl, hempty, rfl⟩)
  · refine (fileclose_does h1).bind ?_
    rintro _ k2 ⟨hprocs2, h2⟩
    exact hfail (hprocs2.trans hprocs1) h2
  rw [← hprocs1] at h1 hidle hlive
  rw [← slots_open hempty] at h1
  have hpos : 0 < (k1.ftable f).ref := by
    rw [hnew.ref]
    exact Int.one_pos
  refine (h1.setOfile a fd (some f)).iunlock.bind ?_
  rintro _ _ ⟨s, rfl, h3⟩
  refine .modify_bind rfl (.pure ⟨h3.setFile (fun hS own hb => ?_) fun hS ha => ?_, fun hS =>
    (hidle hS).setOfile hlive⟩)
  · exact hb.setInode (hnew.type (.inl hS)) rfl hpos rfl
  · refine ha.setFile f ?_ fun _ => hpos
    have hnone : (k1.ftable f).refs = 0 := if_neg (by rw [hnew.type (.inr hS)]; exact nofun)
    show H + ({ip} : Multiset Slot) = ip ::ₘ H + (k1.ftable f).refs
    rw [hnone, add_zero, ← Multiset.singleton_add, add_comm]

theorem filewriteLoop_does (h : Ledger S k R H ∅) :
    Does S sb k (filewriteLoop sb f fuel src) fun _ k' => k'.procs = k.procs ∧ Ledger S k' R H ∅ := by
  induction fuel generalizing k src with
  | zero => exact .pure ⟨rfl, h⟩
  | succ fuel ih =>
    refine .ite (fun _ => .pure ⟨rfl, h⟩) fun _ => .get_bind ?_
    set ip := (k.ftable f).ip
    refine h.ilock.bind ?_
    rintro _ _ ⟨s, rfl, h1⟩
    refine (h1.runs (writei_owns (Finset.mem_insert_self ip ∅))).bind ?_
    rintro r _ ⟨t, rfl, h2⟩
    refine .modify_bind rfl ?_
    have h3 := h2.setFile (f := f) (g := fun x => { x with off := (x.off + r.getD 0) % uintMod })
      (fun _ own hb => hb.setFile (fun _ _ => Iff.rfl) (hb.ref_eq f) (hb.closed f) fun _ _ => rfl)
      fun _ ha => ha.setFile_same f rfl rfl (ha.files f)
    refine h3.iunlock.bind ?_
    rintro _ _ ⟨u, rfl, h4⟩
    cases r with
    | none => exact .pure ⟨rfl, h4⟩
    | some n => exact .ite (fun _ => .throw (by decide)) fun _ => ih h4

theorem sysWrite_does {fd : Int} (h : Rests S k H) :
    Does S sb k (sysWrite sb a fd src) fun _ k' => Rests S k' H := by
  refine argfd_does.bind ?_
  rintro (_ | ⟨fd, f⟩) k ⟨rfl, -⟩
  · exact .pure h
  refine .get_bind (.ite (fun _ => .pure h) fun _ => ?_)
  cases (k.ftable f).type with
  | none => exact .throw (by decide)
  | pipe => exact .pure h
  | inode =>
    refine (filewriteLoop_does h.ledger).bind ?_
    rintro r k' ⟨hprocs, h'⟩
    have hrests := Rests.of_procs h' hprocs h.idle
    cases r with
    | false | true => exact .pure hrests

theorem loadLoop_owns {offset sz : Nat} (hip : ip ∈ K) :
    Owns sb H K (loadLoop sb ip input fuel offset sz) fun _ => Now H K := by
  induction fuel generalizing offset sz with
  | zero => exact .ret
  | succ fuel ih =>
    refine .ite (fun _ => .ret) fun _ => (readi_owns hip).next ?_
    rintro (_ | bytes)
    · exact .ret
    · exact .ite (fun _ => .ret) fun _ => ih

theorem execLoop_owns {mem : ExecMem} {i off : Nat} (hip : ip ∈ K) :
    Owns sb H K (execLoop sb ip mem input fuel i off) fun _ => Now H K := by
  induction fuel generalizing i off with
  | zero => exact .ret
  | succ fuel ih =>
    refine (readi_owns hip).next ?_
    rintro (_ | ph)
    · exact .ret
    refine .ite (fun _ => .ret) fun _ => .ite (fun _ => ih) fun _ =>
      .ite (fun _ => .ret) fun _ => (loadLoop_owns hip).next fun _ => ?_
    exact .ite (fun _ => ih) fun _ => .ret

theorem execLoad_owns {mem : ExecMem} (hip : ip ∈ K) : Owns sb H K (execLoad sb ip mem input) fun _ => Now H K := by
  refine (readi_owns hip).next ?_
  rintro (_ | elf)
  · exact .ret
  · exact .ite (fun _ => .ret) fun _ => execLoop_owns hip

theorem wait_does (h : Rests S k H) : Does S sb k (wait a) fun _ k' => Rests S k' H := by
  refine .get_bind ?_
  cases hfind : zombieChild (fun q => (k.procs q).parent) (fun q => (k.procs q).state) a with
  | none => exact .ite (fun _ => .pure h) fun _ => .pure h
  | some q =>
    have hdead : ¬ (k.procs q).Live := fun hlive => hlive.2 (zombieChild_some hfind).2
    refine .modify_bind rfl (.pure (h.setProc_same q rfl ?_ rfl rfl rfl))
    exact iff_of_false (fun hlive => hlive.1 rfl) hdead

section Calls

variable (h : Rests S k H) (hlive : (k.procs a).Live)

include h hlive

theorem sysDup_does {fd : Int} : Does S sb k (sysDup a fd) fun _ k' => Rests S k' H := by
  refine argfd_does.bind ?_
  rintro (_ | ⟨fd, f⟩) _ ⟨rfl, -⟩
  · exact .pure h
  refine fdalloc_does.bind ?_
  rintro _ _ (⟨rfl, rfl⟩ | ⟨fd, rfl, hempty, rfl⟩)
  · exact .pure h
  refine (filedup_does (h.ledger.setOfile a fd (some f))).bind ?_
  rintro _ k2 ⟨hprocs, h2⟩
  rw [← slots_open hempty] at h2
  exact .pure (.of_procs h2 hprocs fun hS => (h.idle hS).setOfile hlive)

theorem sysClose_does {fd : Int} : Does S sb k (sysClose a fd) fun _ k' => Rests S k' H := by
  refine argfd_does.bind ?_
  rintro (_ | ⟨fd, f⟩) _ ⟨rfl, hfound⟩
  · exact .pure h
  refine .modify_bind rfl ((fileclose_does ((h.clear (hfound fd f rfl)).setOfile a fd none)).bind ?_)
  rintro _ k2 ⟨hprocs, h2⟩
  exact .pure (.of_procs h2 hprocs fun hS => (h.idle hS).setOfile hlive)

theorem sysPipe_does : Does S sb k (sysPipe a) fun _ k' => Rests S k' H := by
  refine (pipealloc_does h.ledger).bind ?_
  rintro _ k1 ⟨hprocs1, ⟨rfl, h1⟩ | ⟨rf, wf, rfl, h1⟩⟩
  · exact .pure (.of_procs h1 hprocs1 h.idle)
  -- both references are given back to the state the call found
  have hback : ∀ {k2 : Kernel}, k2.procs = k.procs → Ledger S k2 (rf ::ₘ wf ::ₘ slots k.procs) H ∅ →
      Does S sb k2 (do fileclose rf; fileclose wf; return (-1 : Int)) fun _ k' => Rests S k' H := by
    intro k2 hprocs h2
    refine (fileclose_does h2).bind ?_
    rintro _ k3 ⟨hprocs3, h3⟩
    refine (fileclose_does h3).bind ?_
    rintro _ k4 ⟨hprocs4, h4⟩
    exact .pure (.of_procs h4 ((hprocs4.trans hprocs3).trans hprocs) h.idle)
  refine fdalloc_does.bind ?_
  rintro _ _ (⟨rfl, rfl⟩ | ⟨fd, rfl, hempty, rfl⟩)
  · exact hback hprocs1 h1
  refine fdalloc_does.bind ?_
  rintro _ _ (⟨rfl, rfl⟩ | ⟨fd', rfl, hempty', rfl⟩)
  · exact .modify_bind rfl (hback ((procs_setOfile_none hempty).trans hprocs1)
      ((h1.setOfile a fd (some rf)).setOfile a fd none))
  refine .pure ((Ledger.store (k := k1.setOfile a fd (some rf)) ?_ ?_ ?_ fun _ => hempty'))
  · rw [slots_open hempty, Multiset.cons_swap, hprocs1]
    exact h1.setOfile a fd (some rf)
  · rw [← hprocs1] at hlive
    exact fun hS => Idle.setOfile (by rw [hprocs1]; exact h.idle hS) hlive
  · rw [live_setOfile, hprocs1]
    exact hlive

theorem sysOpen_does : Does S sb k (sysOpen sb a path omode buf) fun _ k' => Rests S k' H := by
  refine current_does.bind ?_
  rintro p _ ⟨rfl, hcwd, -, -⟩
  refine .ite (fun _ => ?_) fun _ => ?_
  · refine (h.ledger.runs (F := fun r => withFound r H) (G := fun r => r.elim ∅ fun i => insert i ∅) ?_).bind ?_
    · simp only [← withFound_add]
      have hmem := Multiset.mem_add.mpr (.inr (Accounts.cwd_mem hlive hcwd) : p.cwd ∈ H ∨ _)
      exact create_owns hmem (by decide)
    · rintro (_ | ip) _ ⟨s, rfl, h1⟩
      · exact .pure ⟨h1, h.idle⟩
      · exact openInode_does h1 h.idle hlive
  · refine (h.ledger.namei hlive hcwd).bind ?_
    rintro (_ | ip) _ ⟨s, rfl, -, h1⟩
    · exact .pure ⟨h1, h.idle⟩
    refine h1.ilock.bind ?_
    rintro _ _ ⟨s, rfl, h2⟩
    refine .get_bind (.ite (fun _ => h2.fail.imp ?_) fun _ => openInode_does h2 h.idle hlive)
    rintro _ k' ⟨hprocs, h'⟩
    exact .of_procs h' hprocs h.idle

theorem sysChdir_does : Does S sb k (sysChdir sb a path buf) fun _ k' => Rests S k' H := by
  refine current_does.bind ?_
  rintro p _ ⟨rfl, hcwd, -, -⟩
  refine (h.ledger.namei hlive hcwd).bind ?_
  rintro (_ | ip) _ ⟨s, rfl, -, h1⟩
  · exact .pure ⟨h1, h.idle⟩
  refine h1.ilock.bind ?_
  rintro _ _ ⟨t, rfl, h2⟩
  refine .get_bind (.ite (fun _ => h2.fail.imp ?_) fun _ => h2.iunlock.bind ?_)
  · rintro _ k' ⟨hprocs, h'⟩
    exact .of_procs h' hprocs h.idle
  rintro _ _ ⟨u, rfl, h3⟩
  rw [show withFound (some ip) H = target (some ip) + H from (Multiset.singleton_add ip H).symm] at h3
  refine (h3.leave hlive hcwd).bind ?_
  rintro _ _ ⟨v, rfl, h4⟩
  exact .modify_bind rfl (.pure (.of_setProc h4 h.idle rfl fun _ hdead _ => absurd hlive hdead))

theorem onCurrent_does {x : Fs.Proc → Code Store Int} (hx : ∀ p : Fs.Proc, p.cwd ∈ H + refs k → Owns sb (H + refs k) ∅ (x p) fun _ => Now (H + refs k) ∅) :
    Does S sb k (do return some (← onStore (x (← current a)))) fun _ k' => Rests S k' H := by
  refine current_does.bind ?_
  rintro p _ ⟨rfl, hcwd, -, -⟩
  have hmem := Multiset.mem_add.mpr (.inr (Accounts.cwd_mem hlive hcwd) : p.cwd ∈ H ∨ _)
  refine (h.ledger.runs (hx p hmem)).bind ?_
  rintro _ _ ⟨s, rfl, h1⟩
  exact .pure ⟨h1, h.idle⟩

theorem exec_does {mem : ExecMem} :
    Does S sb k (exec sb a path mem input buf) fun _ k' => Rests S k' H := by
  refine current_does.bind ?_
  rintro p _ ⟨rfl, hcwd, -, -⟩
  refine (h.ledger.namei hlive hcwd).bind ?_
  rintro (_ | ip) _ ⟨s, rfl, -, h1⟩
  · exact .pure ⟨h1, h.idle⟩
  refine h1.ilock.bind ?_
  rintro _ _ ⟨t, rfl, h2⟩
  refine (h2.runs (execLoad_owns (Finset.mem_insert_self ip ∅))).bind ?_
  rintro loaded _ ⟨u, rfl, h3⟩
  refine h3.iunlockput.bind ?_
  rintro _ _ ⟨v, rfl, h4⟩
  exact .ite (fun _ => .pure ⟨h4, h.idle⟩) fun _ => .pure ⟨h4, h.idle⟩

end Calls

/-! ## `exit` and `fork` -/

/-- A process without working directory stops, and nobody looks at its root again. -/
theorem Accounts.stop (h : Accounts k H K) (hlive : (k.procs a).Live) (hcwd : (k.procs a).cwd = none)
    {state : ProcState} (hstate : state = .unused ∨ state = .zombie) :
    Accounts (k.setProc a fun x => { x with state := state })
      (H + target (k.procs a).newrootInode) K := by
  have hdead : ¬ ({ k.procs a with state := state } : Proc).Live := fun hl => hstate.elim hl.1 hl.2
  refine h.setProc a ?_ ⟨fun _ => hcwd, fun hl => absurd hl hdead⟩
  rw [Proc.refs_of_dead hdead, Proc.refs_of_live hlive, hcwd]
  show _ + 0 = H + (0 + _)
  rw [add_zero, zero_add]

/-- The processes differ in their descriptors at most. -/
def SameButFiles (k t : Kernel) : Prop := ∀ q, ∃ o, t.procs q = { k.procs q with ofile := o }

theorem SameButFiles.of_eq (h : t.procs = k.procs) : SameButFiles k t :=
  fun q => ⟨(k.procs q).ofile, by rw [h]⟩

theorem SameButFiles.setOfile (h : SameButFiles k t) (a : ProcSlot) (fd : Fin nOFile) (v : Option FileSlot) :
    SameButFiles k (t.setOfile a fd v) := by
  intro q
  obtain ⟨o, ho⟩ := h q
  by_cases hq : q = a
  · subst hq
    refine ⟨update (t.procs q).ofile fd v, ?_⟩
    rw [Kernel.setOfile, procs_setProc_self, ho]
  · exact ⟨o, (procs_setProc_of_ne hq).trans ho⟩

theorem SameButFiles.trans {u : Kernel} (h : SameButFiles k t) (h' : SameButFiles t u) : SameButFiles k u := by
  intro q
  obtain ⟨o, ho⟩ := h q
  obtain ⟨o', ho'⟩ := h' q
  exact ⟨o', by rw [ho', ho]⟩

theorem SameButFiles.live (h : SameButFiles k t) (q : ProcSlot) : (t.procs q).Live ↔ (k.procs q).Live := by
  obtain ⟨o, ho⟩ := h q
  rw [ho]
  exact Iff.rfl

theorem closeLoop_does (h : Rests S k H) (hlive : (k.procs a).Live) :
    Does S sb k ((List.finRange nOFile).forM fun fd => do
      match ((← get).procs a).ofile fd with
      | none => return
      | some f =>
        fileclose f
        modify (·.setOfile a fd none)) fun _ t => Rests S t H ∧ SameButFiles k t ∧
          ∀ fd, (t.procs a).ofile fd = none := by
  refine (Does.forM (fun l t => Rests S t H ∧ SameButFiles k t ∧
    ∀ fd, fd ∈ l ∨ (t.procs a).ofile fd = none) ?_ ⟨h, .of_eq rfl, fun fd => .inl (List.mem_finRange fd)⟩).imp ?_
  · rintro fd l t ⟨ht, hsame, hclosed⟩
    have hrest : ∀ i, i ≠ fd → i ∈ l ∨ (t.procs a).ofile i = none := fun i hi =>
      (hclosed i).imp_left fun hmem => (List.mem_cons.mp hmem).resolve_left hi
    refine .get_bind ?_
    cases hfd : (t.procs a).ofile fd with
    | none =>
      refine .pure ⟨ht, hsame, fun i => ?_⟩
      by_cases hi : i = fd
      · exact .inr (hi ▸ hfd)
      · exact hrest i hi
    | some f =>
      refine (fileclose_does (ht.clear hfd)).bind ?_
      rintro _ u ⟨hprocs, hu⟩
      refine .modify rfl ⟨.of_procs (hu.setOfile a fd none) (procs_setOfile_congr hprocs a fd none) fun hS =>
        (ht.idle hS).setOfile ((hsame.live a).mpr hlive),
        (hsame.trans (.of_eq hprocs)).setOfile a fd none, fun i => ?_⟩
      rw [ofile_setOfile, hprocs]
      by_cases hi : i = fd
      · exact .inr (hi ▸ update_self ..)
      · rw [update_of_ne hi]
        exact hrest i hi
  · rintro _ t ⟨ht, hsame, hclosed⟩
    exact ⟨ht, hsame, fun fd => (hclosed fd).resolve_left List.not_mem_nil⟩

theorem Rests.reparent (h : Rests S k H) (a : ProcSlot) : Rests S (k.reparent a) H := by
  have hofile : ∀ q, ((k.reparent a).procs q).ofile = (k.procs q).ofile := fun q => by
    obtain ⟨parent, hparent⟩ := procs_reparent k a q
    rw [hparent]
  refine ⟨⟨?_, fun hS => (h.ledger.accounts hS).reparent a⟩, fun hS => (h.idle hS).congr hofile fun q => ?_⟩
  · rw [slots_congr hofile]
    exact h.ledger.filed
  · obtain ⟨parent, hparent⟩ := procs_reparent k a q
    rw [hparent]
    exact fun hdead hlive => absurd hlive hdead

theorem Rests.stop (h : Rests S k H) (hlive : (k.procs a).Live) (hcwd : S.accounted → (k.procs a).cwd = none)
    (hofile : S.filed → ∀ fd, (k.procs a).ofile fd = none) {state : ProcState}
    (hstate : state = .unused ∨ state = .zombie) :
    Rests S (k.setProc a fun x => { x with state := state }) (H + target (k.procs a).newrootInode) := by
  refine .of_setProc ⟨h.ledger.filed, fun hS => ?_⟩ h.idle rfl fun hS _ _ => hofile hS
  exact (h.ledger.accounts hS).stop hlive (hcwd hS) hstate

theorem exit_does (h : Rests S k H) (hlive : (k.procs a).Live) :
    Does S sb k (exit a) fun _ k' => Rests S k' (H + target (k.procs a).newrootInode) := by
  refine .get_bind (.ite (fun _ => .throw (by decide)) fun _ => (closeLoop_does h hlive).bind ?_)
  rintro _ k1 ⟨h1, hsame, hclosed⟩
  have hlive1 := (hsame.live a).mpr hlive
  refine .get_bind (deref_does.bind ?_)
  rintro cwd k1 ⟨hcwd, rfl⟩
  have h1' : Ledger S k1 (slots k1.procs) (target none + H) ∅ := by
    rw [show target none + H = H from zero_add H]
    exact h1.ledger
  refine (h1'.leave hlive1 hcwd).bind ?_
  rintro _ _ ⟨s, rfl, h2⟩
  refine .modify_bind rfl (.modify_bind rfl (.modify rfl ?_))
  have hleft : Rests S (({ k1 with store := s } : Kernel).setProc a fun x => { x with cwd := none }) H :=
    .of_setProc h2 h1.idle rfl fun _ hdead _ => absurd hlive1 hdead
  obtain ⟨parent, hparent⟩ := procs_reparent (({ k1 with store := s } : Kernel).setProc a
    fun x => { x with cwd := none }) a a
  rw [procs_setProc_self] at hparent
  have hend := (hleft.reparent a).stop (by rw [hparent]; exact hlive1) (fun _ => by rw [hparent])
    (fun _ => by rw [hparent]; exact hclosed) (.inr rfl : ProcState.zombie = .unused ∨ _)
  obtain ⟨o, ho⟩ := hsame a
  rw [hparent, show (k1.procs a).newrootInode = (k.procs a).newrootInode by rw [ho]] at hend
  exact hend

/-- A child that no file and no working directory has been handed to yet. -/
structure Fresh (S : Scope) (k k' : Kernel) (np : ProcSlot) : Prop where
  unused : (k.procs np).state = .unused
  other : ∀ q, q ≠ np → k'.procs q = k.procs q
  live : (k'.procs np).Live
  cwd : S.accounted → (k'.procs np).cwd = none
  ofile : S.filed → ∀ fd, (k'.procs np).ofile fd = none

theorem Fresh.ne (h : Fresh S k t np) (hlive : (k.procs a).Live) : a ≠ np := by
  rintro rfl
  exact hlive.1 h.unused

theorem Fresh.of_procs {u : Kernel} (h : Fresh S k t np) (hprocs : u.procs = t.procs) : Fresh S k u np := by
  obtain ⟨hunused, hother, hlive, hcwd, hofile⟩ := h
  rw [← hprocs] at hother hlive hcwd hofile
  exact ⟨hunused, hother, hlive, hcwd, hofile⟩

theorem Fresh.setProc (h : Fresh S k t np) (hlive : (g (t.procs np)).Live)
    (hcwd : (g (t.procs np)).cwd = (t.procs np).cwd) (hofile : (g (t.procs np)).ofile = (t.procs np).ofile) :
    Fresh S k (t.setProc np g) np := by
  refine ⟨h.unused, fun q hq => (procs_setProc_of_ne hq).trans (h.other q hq), ?_, ?_, ?_⟩ <;>
    rw [procs_setProc_self]
  · exact hlive
  · rw [hcwd]
    exact h.cwd
  · rw [hofile]
    exact h.ofile

theorem allocproc_does {stack : Bool} (h : Rests S k H) :
    Does S sb k (allocproc stack) fun r k' => Rests S k' H ∧
      ((r = none ∧ (stack = true → ∀ q, (k.procs q).state ≠ .unused)) ∨
        ∃ np, r = some np ∧ stack = true ∧ Fresh S k k' np ∧ (k'.procs np).newrootInode = none) := by
  refine (Does.of_ends (allocproc_ends (E := fun _ => False)) ?_ fun _ => False.elim).imp ?_
  · rintro r k' (⟨-, rfl, -⟩ | ⟨np, -, -, rfl⟩)
    · rfl
    · rfl
  rintro r k' (⟨rfl, rfl, hfull⟩ | ⟨np, hunused, rfl, rfl⟩)
  · exact ⟨h, .inl ⟨rfl, fun _ => hfull⟩⟩
  have hdead : ¬ (k.procs np).Live := fun hl => hl.1 hunused
  cases stack with
  | true =>
    have hfresh : Fresh S k (k.setProc np (Proc.allocated k.nextpid true)) np := by
      refine ⟨hunused, fun q hq => procs_setProc_of_ne hq, ?_, ?_, ?_⟩ <;> rw [procs_setProc_self]
      · exact ⟨nofun, nofun⟩
      · exact fun hS => ((h.ledger.accounts hS).procs np).dead hdead
      · exact fun hS => h.idle hS np hdead
    have h' : Rests S (k.setProc np (Proc.allocated k.nextpid true)) H := by
      refine h.setProc rfl (fun _ _ hlive => absurd hlive hdead) fun _ ha => ?_
      have hcwd := (ha.procs np).dead hdead
      refine ha.setProc np ?_ ⟨fun _ => hcwd, fun _ _ => rfl⟩
      rw [Proc.refs_of_dead hdead]
      simp [Proc.refs, Proc.allocated, hcwd, target]
    refine ⟨h'.setNextpid _, .inr ⟨np, rfl, rfl, hfresh.of_procs rfl, ?_⟩⟩
    rw [procs_setProc_self]
    rfl
  | false =>
    refine ⟨Rests.setNextpid (h.setProc_same np rfl ?_ rfl rfl rfl) _, .inl ⟨rfl, nofun⟩⟩
    exact iff_of_false (fun hl => hl.1 rfl) hdead

theorem forkRoot_does (h : Rests S t H) (hlive : (k.procs a).Live) (hfresh : Fresh S k t np)
    (hroot : (t.procs np).newrootInode = none) :
    Does S sb t (forkRoot a np) fun _ k' => Rests S k' H ∧ Fresh S k k' np ∧
      ((k'.procs np).newrootInode = none ↔ (k.procs a).inNewroot = 0) := by
  have hne := hfresh.ne hlive
  refine .get_bind (.modify_bind rfl ?_)
  rw [hfresh.other a hne]
  have h1 : Rests S (t.setProc np fun x => { x with inNewroot := (k.procs a).inNewroot }) H := by
    refine h.setProc rfl (fun _ hdead _ => absurd hfresh.live hdead) fun _ ha => ?_
    exact ha.setLive hfresh.live hfresh.live rfl fun _ => hroot
  have hfresh1 := hfresh.setProc (g := fun x => { x with inNewroot := (k.procs a).inNewroot }) hfresh.live rfl rfl
  have hself := procs_setProc_self (k := t) (a := np) (g := fun x => { x with inNewroot := (k.procs a).inNewroot })
  generalize (t.setProc np fun x => { x with inNewroot := (k.procs a).inNewroot }) = t1 at h1 hself hfresh1 ⊢
  have hnone : (t1.procs np).newrootInode = none := by
    rw [hself]
    exact hroot
  refine .ite (fun hin => ?_) fun hin => ?_
  · refine deref_does.bind ?_
    rintro ip t1 ⟨hroot, rfl⟩
    have hmem : ip ∈ refs t1 := by
      rw [← hfresh1.other a hne] at hlive hroot
      exact Accounts.root_mem hlive hroot
    refine (h1.ledger.idup hmem).bind ?_
    rintro _ _ ⟨s, rfl, h2⟩
    have hfresh2 := hfresh1.of_procs (u := { t1 with store := s }) rfl
    refine .modify rfl ⟨.of_setProc (h2.setProc fun _ ha => ?_) h1.idle rfl fun _ hdead _ =>
      absurd hfresh1.live hdead, hfresh2.setProc hfresh1.live rfl rfl, ?_⟩
    · refine ha.setLive hfresh1.live hfresh1.live ?_ fun hz => ?_
      · show H + (target (t1.procs np).cwd + {ip}) =
          ip ::ₘ H + (target (t1.procs np).cwd + target (t1.procs np).newrootInode)
        rw [hnone, ← Multiset.singleton_add]
        show H + (target (t1.procs np).cwd + {ip}) = {ip} + H + (target (t1.procs np).cwd + 0)
        rw [add_zero]
        ac_rfl
      · have hzero : (t1.procs np).inNewroot = 0 := hz
        rw [hself] at hzero
        exact absurd hzero hin
    · rw [procs_setProc_self]
      exact iff_of_false nofun hin
  · refine .modify rfl ⟨h1.setProc rfl (fun _ hdead _ => absurd hfresh1.live hdead) fun _ ha =>
      ha.setLive hfresh1.live hfresh1.live ?_ fun _ => rfl, hfresh1.setProc hfresh1.live rfl rfl, ?_⟩
    · rw [hnone]
    · rw [procs_setProc_self]
      exact iff_of_true rfl (not_not.mp hin)

theorem forkFiles_does (h : Rests S t H) (hlive : (t.procs a).Live) (hfresh : Fresh S k t np) :
    Does S sb t (forkFiles a np) fun _ k' => Rests S k' H ∧ (k'.procs np).Live := by
  refine (Does.forM (fun l u => Rests S u H ∧ SameButFiles t u ∧ l.Nodup ∧
    (S.filed → ∀ fd ∈ l, (u.procs np).ofile fd = none)) ?_
    ⟨h, .of_eq rfl, List.nodup_finRange _, fun hS fd _ => hfresh.ofile hS fd⟩).bind ?_
  · rintro fd l u ⟨hu, hsame, hnodup, hempty⟩
    rw [List.nodup_cons] at hnodup
    refine .get_bind ?_
    cases hfd : (u.procs a).ofile fd with
    | none => exact .pure ⟨hu, hsame, hnodup.2, fun hS i hi => hempty hS i (List.mem_cons_of_mem fd hi)⟩
    | some f =>
      refine (filedup_does hu.ledger).bind ?_
      rintro _ v ⟨hprocs, hv⟩
      have hidle := hu.idle
      rw [← hprocs] at hv hidle hempty
      have hsame' : SameButFiles t v := hsame.trans (.of_eq hprocs)
      refine .modify rfl ⟨hv.store hidle ((hsame'.live np).mpr hfresh.live) fun hS =>
        hempty hS fd List.mem_cons_self, hsame'.setOfile np fd _, hnodup.2, fun hS i hi => ?_⟩
      have hfi : i ≠ fd := fun hc => hnodup.1 (hc ▸ hi)
      rw [ofile_setOfile, update_of_ne hfi]
      exact hempty hS i (List.mem_cons_of_mem fd hi)
  rintro _ u ⟨hu, hsame, -, -⟩
  have hlive' := (hsame.live a).mpr hlive
  have hnp' := (hsame.live np).mpr hfresh.live
  refine .get_bind (deref_does.bind ?_)
  rintro cwd u ⟨hdir, rfl⟩
  refine (hu.ledger.idup (Accounts.cwd_mem hlive' hdir)).bind ?_
  rintro _ _ ⟨s, rfl, h2⟩
  refine .modify rfl ⟨.of_setProc (h2.setProc fun hS ha => ?_) hu.idle rfl fun _ hdead _ => absurd hnp' hdead, ?_⟩
  · refine ha.setLive hnp' hnp' ?_ ((ha.procs np).root hnp')
    obtain ⟨o, hchild⟩ := hsame np
    have hcwd' : (u.procs np).cwd = none := by
      rw [hchild]
      exact hfresh.cwd hS
    show H + ({cwd} + target (u.procs np).newrootInode) =
      cwd ::ₘ H + (target (u.procs np).cwd + target (u.procs np).newrootInode)
    rw [hcwd', ← Multiset.singleton_add]
    show H + ({cwd} + target (u.procs np).newrootInode) =
      {cwd} + H + (0 + target (u.procs np).newrootInode)
    rw [zero_add]
    ac_rfl
  · rw [procs_setProc_self]
    exact hnp'

theorem fork_does {mem : ForkMem} (h : Rests S k H) (hlive : (k.procs a).Live) :
    Does S sb k (fork a mem) fun _ k' => ∃ D, Rests S k' (H + D) ∧ (D = 0 ↔
      ¬ (mem.stack = true ∧ mem.copy = false ∧ (k.procs a).inNewroot ≠ 0 ∧
        ∃ q, (k.procs q).state = .unused)) := by
  refine (allocproc_does h).bind ?_
  rintro _ k1 ⟨h1, ⟨rfl, hfull⟩ | ⟨np, rfl, hstack, hfresh1, hnone⟩⟩
  · refine .pure ⟨0, h1.kept, iff_of_true rfl ?_⟩
    rintro ⟨hstack, -, -, q, hq⟩
    exact hfull hstack q hq
  have hne := hfresh1.ne hlive
  refine (forkRoot_does h1 hlive hfresh1 hnone).bind ?_
  rintro _ k2 ⟨h2, hfresh, hroot⟩
  refine .ite (fun hcopy => ?_) fun hcopy => ?_
  · refine .modify_bind rfl ?_
    have h3 := h2.setProc_same np (g := fun x => { x with parent := some a }) rfl Iff.rfl rfl rfl rfl
    refine (forkFiles_does h3 ?_ (hfresh.setProc hfresh.live rfl rfl)).bind ?_
    · rw [procs_setProc_of_ne hne, hfresh.other a hne]
      exact hlive
    rintro _ k4 ⟨h4, hnp4⟩
    refine .modify_bind rfl (.get_bind (.pure ⟨0, (h4.setProc_same np rfl ?_ rfl rfl rfl).kept, ?_⟩))
    · exact iff_of_true ⟨nofun, nofun⟩ hnp4
    · refine iff_of_true rfl ?_
      rintro ⟨-, hnot, -⟩
      rw [hcopy] at hnot
      cases hnot
  · refine .modify_bind rfl (.pure ⟨_, h2.stop hfresh.live hfresh.cwd hfresh.ofile (.inl rfl), ?_⟩)
    cases hr : (k2.procs np).newrootInode with
    | none =>
      refine iff_of_true rfl ?_
      rintro ⟨-, -, hin, -⟩
      exact hin (hroot.mp hr)
    | some ip =>
      refine iff_of_false (Multiset.singleton_ne_zero ip) (not_not.mpr ?_)
      refine ⟨hstack, by simpa using hcopy, fun hin => ?_, np, hfresh.unused⟩
      rw [hroot.mpr hin] at hr
      cases hr

/-! ## `do_setroot` -/

/-- The path is one that `do_setroot` looks up, and it names an inode that is no directory. -/
def NamesNoDir (sb : Superblock) (k : Kernel) (a : ProcSlot) (path buf : CString) : Prop :=
  ∃ cwd ip s t, (k.procs a).cwd = some cwd ∧
    namei sb ⟨cwd, (k.procs a).inNewroot, (k.procs a).newrootInode⟩ path buf k.store =
      .ok (some ip, s) ∧ isInodeDirectory ip s = .ok (false, t)

theorem doSetroot_does {pathLen : Int} (h : Rests S k H) (hlive : (k.procs a).Live) :
    Does S sb k (doSetroot sb a path pathLen buf) fun _ k' => ∃ D, Rests S k' (H + D) ∧ (D = 0 ↔
      ¬ ((k.procs a).inNewroot = 0 ∧ path.headD 0 = slash ∧ pathLen < maxPath ∧
        NamesNoDir sb k a path buf)) := by
  refine .get_bind (.ite (fun hin => ?_) fun hin => .ite (fun hpath => ?_) fun hpath => ?_)
  · exact .pure ⟨0, h.kept, iff_of_true rfl fun hall => hin hall.1⟩
  · refine .pure ⟨0, h.kept, iff_of_true rfl fun hall => ?_⟩
    exact hpath.elim (fun hne => hne hall.2.1) fun hge => by omega
  refine current_does.bind ?_
  rintro ⟨cwd, _, _⟩ k ⟨rfl, hcwd, hin', hroot'⟩
  subst hin' hroot'
  refine (h.ledger.namei (p := ⟨cwd, _, _⟩) hlive hcwd).bind ?_
  rintro (_ | ip) _ ⟨s, rfl, hnamei, h1⟩
  · refine .pure ⟨0, Rests.kept ⟨h1, h.idle⟩, iff_of_true rfl ?_⟩
    rintro ⟨-, -, -, cwd', ip, s', t, hcwd', hsome, -⟩
    rw [hcwd] at hcwd'
    cases hcwd'
    rw [hnamei] at hsome
    cases hsome
  refine (h1.does isInodeDirectory_owns).bind ?_
  rintro isDir _ ⟨t, rfl, hdir, h2⟩
  cases isDir with
  | true =>
    have hlive2 : (({ k with store := t } : Kernel).procs a).Live := hlive
    refine .modify_bind rfl (.pure ⟨0, Rests.kept (.of_setProc (h2.setProc fun _ ha =>
      ha.setLive hlive2 hlive ?_ nofun) h.idle rfl fun _ hdead _ => absurd hlive hdead), ?_⟩)
    · have hnone : (k.procs a).newrootInode = none := (ha.procs a).root hlive (not_not.mp hin)
      show H + (target (k.procs a).cwd + {ip}) =
        ip ::ₘ H + (target (k.procs a).cwd + target (k.procs a).newrootInode)
      rw [hnone, ← Multiset.singleton_add]
      show H + (target (k.procs a).cwd + {ip}) = {ip} + H + (target (k.procs a).cwd + 0)
      rw [add_zero]
      ac_rfl
    · refine iff_of_true rfl ?_
      rintro ⟨-, -, -, cwd', ip', s', t', hcwd', hnamei', hdir'⟩
      rw [hcwd] at hcwd'
      cases hcwd'
      rw [hnamei] at hnamei'
      cases hnamei'
      rw [hdir] at hdir'
      cases hdir'
  | false =>
    refine .pure ⟨{ip}, ?_, iff_of_false (Multiset.singleton_ne_zero ip) (not_not.mpr ?_)⟩
    · rw [add_comm, Multiset.singleton_add]
      exact ⟨h2, h.idle⟩
    · rw [not_or] at hpath
      exact ⟨not_not.mp hin, not_not.mp hpath.1, by omega, cwd, ip, s, t, hcwd, hnamei, hdir⟩

end Accounts

/-! ## Every event -/

/-- The calls after which a reference is counted that nobody has: a process with a root of its
own exits; it forks, and the child gets a stack but no memory; or a new root is to be what is not a
directory. -/
def Leaks (sb : Superblock) (k : Kernel) : Event → Prop
  | .call a .exit _ => (k.procs a).newrootInode ≠ none
  | .call a (.fork mem) _ => mem.stack = true ∧ mem.copy = false ∧ (k.procs a).inNewroot ≠ 0 ∧
      ∃ q, (k.procs q).state = .unused
  | .call a (.setroot path pathLen) buf => (k.procs a).inNewroot = 0 ∧ path.headD 0 = slash ∧
      pathLen < maxPath ∧ NamesNoDir sb k a path buf
  | _ => False

theorem call_does {S : Scope} {sb : Superblock} {a : ProcSlot} {c : Call} {buf : CString} (h : Rests S k H)
    (hlive : (k.procs a).Live) : Does S sb k (call sb a buf c) fun _ k' => ∃ D, Rests S k' (H + D) ∧
      (D = 0 ↔ ¬ Leaks sb k (.call a c buf)) := by
  have hmap : ∀ {x : Code Kernel Int} {Q : Kernel → Prop}, Does S sb k x (fun _ => Q) →
      Does S sb k (some <$> x) fun _ => Q := by
    intro x Q hx
    rw [map_eq_pure_bind]
    exact hx.bind fun _ _ hq => .pure hq
  have hkeep : ∀ {x : Code Kernel (Option Int)}, Does S sb k x (fun _ k' => Rests S k' H) →
      Does S sb k x fun _ k' => ∃ D, Rests S k' (H + D) ∧ (D = 0 ↔ ¬ False) :=
    fun hx => hx.imp fun _ _ h' => ⟨0, h'.kept, iff_of_true rfl id⟩
  cases c with
  | «open» path omode => exact hkeep (hmap (sysOpen_does h hlive))
  | dup fd => exact hkeep (hmap (sysDup_does h hlive))
  | pipe => exact hkeep (hmap (sysPipe_does h hlive))
  | close fd => exact hkeep (hmap (sysClose_does h hlive))
  | write fd src => exact hkeep (hmap (sysWrite_does h))
  | chdir path => exact hkeep (hmap (sysChdir_does h hlive))
  | link old new => exact hkeep (onCurrent_does h hlive fun _ => sysLink_owns)
  | unlink path => exact hkeep (onCurrent_does h hlive fun _ => sysUnlink_owns)
  | mkdir path => exact hkeep (onCurrent_does h hlive fun _ => sysMkdir_owns)
  | mknod path major minor => exact hkeep (onCurrent_does h hlive fun _ => sysMknod_owns)
  | fork mem => exact hmap (fork_does h hlive)
  | exit =>
    refine (exit_does h hlive).bind fun _ k' h' => .pure ⟨_, h', ?_⟩
    cases hroot : (k.procs a).newrootInode with
    | none => exact iff_of_true rfl (not_not.mpr hroot)
    | some ip =>
      refine iff_of_false (Multiset.singleton_ne_zero ip) (not_not.mpr ?_)
      show (k.procs a).newrootInode ≠ none
      rw [hroot]
      exact nofun
  | wait => exact hkeep (wait_does h)
  | exec path mem input => exact hkeep (hmap (exec_does h hlive))
  | setroot path pathLen => exact hmap (doSetroot_does h hlive)

/-- The books of inodes alone. -/
def inodesOnly : Scope := ⟨False, True, [], []⟩

theorem Accounts.rests (h : Accounts k H ∅) : Rests inodesOnly k H := ⟨⟨False.elim, fun _ => h⟩, False.elim⟩

theorem Accounts.step {sb : Superblock} {k' : Kernel} {e : Event} (h : Accounts k H ∅)
    (hstep : Step sb k e k') : ∃ D, Accounts k' (H + D) ∅ ∧ (D = 0 ↔ ¬ Leaks sb k e) := by
  cases hstep with
  | call hlive hcall =>
    obtain ⟨D, h', hleak⟩ := (Ends.returned (call_does h.rests hlive) hcall).2
    exact ⟨D, h'.ledger.accounts trivial, hleak⟩
  | kalloc =>
    refine ⟨0, ?_, iff_of_true rfl id⟩
    rw [add_zero]
    unfold takePage
    split
    · exact h
    · exact h.of_same rfl rfl rfl
  | kfree page =>
    refine ⟨0, ?_, iff_of_true rfl id⟩
    rw [add_zero]
    unfold givePage
    split
    · exact h.of_same rfl rfl rfl
    · exact h

/-! ## Whole runs -/

/-- Each entry of the inode cache counts the open files, the working directories and the roots of
live processes that refer to it. -/
def Balanced (k : Kernel) : Prop := ∀ i, (k.store.icache i).ref =
  ((Finset.univ.filter fun f => 0 < (k.ftable f).ref ∧ (k.ftable f).type = .inode ∧
      (k.ftable f).ip = i).card +
    ((Finset.univ.filter fun a => (k.procs a).Live ∧ (k.procs a).cwd = some i).card +
      (Finset.univ.filter fun a => (k.procs a).Live ∧ (k.procs a).newrootInode = some i).card) : Nat)

instance decidableBalanced (k : Kernel) : Decidable (Balanced k) :=
  inferInstanceAs (Decidable (∀ _, _ = _))

theorem count_target (x : Option Slot) (i : Slot) :
    (target x).count i = if x = some i then 1 else 0 := by
  cases x with
  | none => simp [target]
  | some j => simp [target, Multiset.count_singleton, eq_comm]

theorem count_fileRefs (hfiles : ∀ f, (k.ftable f).type ≠ .none → 0 < (k.ftable f).ref) (i : Slot) :
    (fileRefs k.ftable).count i = (Finset.univ.filter fun f => 0 < (k.ftable f).ref ∧
      (k.ftable f).type = .inode ∧ (k.ftable f).ip = i).card := by
  unfold fileRefs
  rw [Multiset.count_sum', Finset.card_filter]
  refine Finset.sum_congr rfl fun f _ => ?_
  unfold File.refs
  by_cases htype : (k.ftable f).type = .inode
  · have hpos := hfiles f (by rw [htype]; exact nofun)
    simp [htype, hpos, Multiset.count_singleton, eq_comm]
  · simp [htype]

theorem count_procRefs (procs : ProcSlot → Proc) (i : Slot) : (procRefs procs).count i =
    (Finset.univ.filter fun a => (procs a).Live ∧ (procs a).cwd = some i).card +
      (Finset.univ.filter fun a => (procs a).Live ∧ (procs a).newrootInode = some i).card := by
  unfold procRefs
  rw [Multiset.count_sum', Finset.card_filter, Finset.card_filter, ← Finset.sum_add_distrib]
  refine Finset.sum_congr rfl fun a _ => ?_
  by_cases hlive : (procs a).Live
  · simp only [Proc.refs_of_live hlive, Multiset.count_add, count_target, hlive, true_and]
  · simp [Proc.refs_of_dead hlive, hlive]

theorem count_refs (hfiles : ∀ f, (k.ftable f).type ≠ .none → 0 < (k.ftable f).ref) (i : Slot) :
    (Finset.univ.filter fun f => 0 < (k.ftable f).ref ∧ (k.ftable f).type = .inode ∧
      (k.ftable f).ip = i).card +
    ((Finset.univ.filter fun a => (k.procs a).Live ∧ (k.procs a).cwd = some i).card +
      (Finset.univ.filter fun a => (k.procs a).Live ∧ (k.procs a).newrootInode = some i).card) =
    (refs k).count i := by
  rw [← count_fileRefs hfiles, ← count_procRefs, ← Multiset.count_add]
  rfl

/-- What is counted beyond the pointers is what is lost. -/
theorem Accounts.balanced_iff {K : Finset Slot} (h : Accounts k H K) : Balanced k ↔ H = 0 := by
  have hone : ∀ i, (k.store.icache i).ref = ((refs k).count i : Nat) ↔ H.count i = 0 := by
    intro i
    rw [h.held.ref_eq i, Multiset.count_add]
    omega
  unfold Balanced
  simp only [count_refs h.files, hone]
  exact ⟨fun hall => Multiset.ext.mpr hall, fun hH i => by rw [hH, Multiset.count_zero]⟩

structure Between (k : Kernel) : Prop where
  unlocked : ∀ i, (k.store.icache i).locked = false
  dev : ∀ i, 0 < (k.store.icache i).ref → (k.store.icache i).dev = rootDev
  files : ∀ f, (k.ftable f).type ≠ .none → 0 < (k.ftable f).ref
  procs : ∀ q, (k.procs q).Tidy

theorem Between.accounts (h : Between k) (hbal : Balanced k) : Accounts k 0 ∅ := by
  have hcount : ∀ i, (k.store.icache i).ref = (refs k).count i := by
    intro i
    rw [hbal i, count_refs h.files]
  refine ⟨⟨fun i => ?_, fun i => ?_, fun i hi => ?_⟩, h.files, h.procs⟩
  · rw [zero_add]
    exact hcount i
  · rw [h.unlocked i]
    exact iff_of_false nofun (Finset.notMem_empty i)
  · rw [zero_add] at hi
    have := Multiset.count_pos.mpr hi
    exact h.dev i (by rw [hcount i]; omega)

/-- As long as no call leaks, every entry of the inode cache counts exactly the pointers to it;
and the calls that leak are those after which some entry counts more. -/
theorem inode_references (sb : Superblock) {k0 k : Kernel} {es : List Event} (hquiet : Between k0)
    (hbal : Balanced k0) (hrun : Run (Guarded (Step sb) fun k e => ¬ Leaks sb k e) k0 es k) :
    Balanced k ∧ ∀ e k', Step sb k e k' → (Balanced k' ↔ ¬ Leaks sb k e) := by
  have hpreserved : ∀ s e t, Accounts s 0 ∅ → ¬ Leaks sb s e → Step sb s e t → Accounts t 0 ∅ := by
    intro s e t hs hok hstep
    obtain ⟨D, ht, hD⟩ := hs.step hstep
    rw [hD.mpr hok, add_zero] at ht
    exact ht
  have h := hrun.invariant_of_guarded hpreserved (hquiet.accounts hbal)
  refine ⟨h.balanced_iff.mpr rfl, fun e k' hstep => ?_⟩
  obtain ⟨D, h', hD⟩ := h.step hstep
  rw [zero_add] at h'
  exact h'.balanced_iff.trans hD

/-- Two processes in the root directory, which is all there is. -/
def rootOnly : Kernel where
  store := {
    bitmap := fun _ => false
    dinodes := fun n => if n = rootIno then { Dinode.new tDir with nlink := 1 } else Dinode.new 0
    blocks := fun _ _ => 0
    icache := fun i => ⟨rootDev, rootIno, if i = 0 then 2 else 0, false, true,
      { Dinode.new tDir with nlink := 1 }⟩ }
  ftable := fun _ => ⟨.none, 0, false, false, 0, 0, 0⟩
  pipes := fun _ => ⟨false, false⟩
  kmem := []
  others := []
  procs := fun q => ⟨if q.val < 2 then .runnable else .unused, q.val, none, false, fun _ => none,
    if q.val < 2 then some 0 else none, 0, none⟩
  nextpid := 2
  initproc := 0

theorem rootOnly_between : Between rootOnly := by
  refine ⟨fun _ => rfl, fun _ _ => rfl, fun _ hne => absurd rfl hne, fun q => ⟨fun hq => ?_, fun _ _ => rfl⟩⟩
  by_cases hlt : q.val < 2
  · refine absurd ?_ hq
    simp only [rootOnly, Proc.Live, if_pos hlt]
    decide
  · simp only [rootOnly, if_neg hlt]

theorem rootOnly_balanced : Balanced rootOnly := by decide +kernel

/-- An open file and a child share the root directory, and the child exits. -/
theorem inode_references_shared :
    ∃ k k', Run (Guarded (Step ⟨0, 0, 0⟩) fun k e => ¬ Leaks ⟨0, 0, 0⟩ k e) rootOnly
        [.call 1 (.open [slash] 0) [], .call 1 (.fork ⟨true, true⟩) []] k ∧
      Step ⟨0, 0, 0⟩ k (.call 2 .exit []) k' ∧ (k.store.icache 0).ref = 4 ∧
      (k'.store.icache 0).ref = 3 ∧ Balanced k ∧ Balanced k' := by
  have hrun : (execute (next ⟨0, 0, 0⟩) rootOnly [.call 1 (.open [slash] 0) [],
      .call 1 (.fork ⟨true, true⟩) []]).any fun k => (k.store.icache 0).ref = 4 ∧
        (k.procs 2).newrootInode = none ∧ (next ⟨0, 0, 0⟩ k (.call 2 .exit [])).any fun k' =>
          (k'.store.icache 0).ref = 3 := by decide +kernel
  obtain ⟨k, hk, href, hroot, hexit⟩ := exists_of_any hrun
  obtain ⟨k', hk', href'⟩ := exists_of_any hexit
  have hguarded : Run (Guarded (Step ⟨0, 0, 0⟩) fun k e => ¬ Leaks ⟨0, 0, 0⟩ k e) rootOnly
      [.call 1 (.open [slash] 0) [], .call 1 (.fork ⟨true, true⟩) []] k := by
    refine (Run.of_execute step_of_next hk).guard fun e he s => ?_
    simp only [List.mem_cons, List.not_mem_nil, or_false] at he
    rcases he with rfl | rfl
    · exact id
    · exact fun hl => Bool.noConfusion hl.2.1
  have hbal := inode_references ⟨0, 0, 0⟩ rootOnly_between rootOnly_balanced hguarded
  refine ⟨k, k', hguarded, step_of_next hk', href, href', hbal.1, ?_⟩
  exact (hbal.2 _ k' (step_of_next hk')).mpr (not_not.mpr hroot)

/-- A process makes the root directory its root and exits: the entry counts a reference that
nobody has. -/
theorem inode_references_lost : Between rootOnly ∧ Balanced rootOnly ∧
    ∃ k, Run (Step ⟨0, 0, 0⟩) rootOnly [.call 1 (.setroot [slash] 1) [], .call 1 .exit []] k ∧
      (k.store.icache 0).ref = 2 ∧ ¬ Balanced k := by
  exact ⟨rootOnly_between, rootOnly_balanced,
    Run.found step_of_next _ (by decide +kernel) fun _ _ h => h⟩

end Xv6.Files
