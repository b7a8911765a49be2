import Mathlib.Data.Finset.Basic
import Mathlib.Data.Multiset.AddSub
import Mathlib.Logic.Relation
import Xv6.Files.Names

/-! # References and locks

Code over inodes owns references to cache entries and holds locks on them. `Owns` says what a
piece of code does to both, and that to the disk it does nothing but what the inode layer
does, each time on an entry that it holds, or has locked, as that function asks.
-/

namespace Xv6.Files

open Lib
open Fs (Slot tDir direntSize namecmp skipelem)

variable {ip : Slot} {s t : Store} {H : Multiset Slot} {K : Finset Slot} {type : Nat}

/-! ## What the block layer leaves alone -/

/-- All that may change in the cache is the copy of the disk inode at `ip`. -/
structure Steady (ip : Slot) (s t : Store) : Prop where
  other : ∀ j, j ≠ ip → t.icache j = s.icache j
  self : ∃ d, t.icache ip = { s.icache ip with copy := d }

theorem Steady.refl (ip : Slot) (s : Store) : Steady ip s s := ⟨fun _ _ => rfl, _, rfl⟩

theorem Steady.trans {u : Store} (h : Steady ip s t) (h' : Steady ip t u) : Steady ip s u := by
  obtain ⟨d, hd⟩ := h.self
  obtain ⟨d', hd'⟩ := h'.self
  refine ⟨fun j hj => (h'.other j hj).trans (h.other j hj), d', ?_⟩
  rw [hd', hd]

theorem Steady.of_icache (h : t.icache = s.icache) : Steady ip s t :=
  ⟨fun j _ => by rw [h], _, by rw [h]⟩

theorem set_self (s : Store) (ip : Slot) (f : Inode → Inode) :
    (s.set ip f).icache ip = f (s.icache ip) := Function.update_self ..

theorem set_of_ne (s : Store) {j : Slot} (f : Inode → Inode) (h : j ≠ ip) :
    (s.set ip f).icache j = s.icache j := Function.update_of_ne h ..

theorem Steady.edit (ip : Slot) (s : Store) (f : Dinode → Dinode) : Steady ip s (s.edit ip f) :=
  ⟨fun _ hj => set_of_ne s _ hj, f (s.icache ip).copy, set_self s ip _⟩

theorem Steady.fields (h : Steady ip s t) (j : Slot) :
    (t.icache j).dev = (s.icache j).dev ∧ (t.icache j).inum = (s.icache j).inum ∧
    (t.icache j).ref = (s.icache j).ref ∧ (t.icache j).locked = (s.icache j).locked ∧
    (t.icache j).valid = (s.icache j).valid := by
  by_cases hj : j = ip
  · obtain ⟨d, hd⟩ := h.self
    rw [hj, hd]
    exact ⟨rfl, rfl, rfl, rfl, rfl⟩
  · rw [h.other j hj]
    exact ⟨rfl, rfl, rfl, rfl, rfl⟩

instance steady_refl (ip : Slot) : Std.Refl (Steady ip) := ⟨Steady.refl ip⟩

instance steady_trans (ip : Slot) : IsTrans Store (Steady ip) := ⟨fun _ _ _ => Steady.trans⟩

section Blocks

variable (sb : Superblock) (ip : Slot)

theorem balloc_stays : Within (Steady ip) (balloc sb) := by
  refine .get fun s => ?_
  split
  · exact .bind (.modify fun _ => .of_icache rfl) fun _ =>
      .bind (.modify fun _ => .of_icache rfl) fun _ => .pure _
  · exact .throw _

theorem bfree_stays (b : Nat) : Within (Steady ip) (bfree b) :=
  .get fun _ => .ite (.modify fun _ => .of_icache rfl) (.throw _)

theorem addrOrAlloc_stays (i : Fin (nDirect + 1)) : Within (Steady ip) (addrOrAlloc sb ip i) :=
  .get fun _ => .ite ((balloc_stays sb ip).bind fun _ => .bind (.modify fun s => .edit ip s _) fun _ => .pure _)
    (.pure _)

theorem bmap_stays (bn : Nat) : Within (Steady ip) (bmap sb ip bn) := by
  unfold bmap
  split
  · exact addrOrAlloc_stays sb ip _
  · refine .ite ?_ (.throw _)
    refine (addrOrAlloc_stays sb ip _).bind fun bp => .get fun s => .ite ?_ (.pure _)
    exact (balloc_stays sb ip).bind fun _ => .bind (.modify fun _ => .of_icache rfl) fun _ => .pure _

theorem iupdate_stays : Within (Steady ip) (iupdate ip) := .modify fun _ => .of_icache rfl

theorem readLoop_stays (fuel off n : Nat) : Within (Steady ip) (readLoop sb ip fuel off n) := by
  induction fuel generalizing off n with
  | zero => exact .pure _
  | succ fuel ih =>
    refine .ite (.pure _) ((bmap_stays sb ip _).bind fun b => .get fun s => ?_)
    exact (ih _ _).bind fun _ => .pure _

theorem readi_stays (off n : Nat) (input : List UInt8) : Within (Steady ip) (readi sb ip off n input) := by
  refine .get fun s => .ite (.ite (.pure _) (.pure _)) (.ite (.pure _) ?_)
  exact (readLoop_stays sb ip _ _ _).bind fun _ => .pure _

theorem writeLoop_stays (fuel : Nat) (src : List UInt8) (off : Nat) :
    Within (Steady ip) (writeLoop sb ip fuel src off) := by
  induction fuel generalizing src off with
  | zero => exact .pure _
  | succ fuel ih =>
    refine .ite (.pure _) ((bmap_stays sb ip _).bind fun b => ?_)
    exact .bind (.modify fun _ => .of_icache rfl) fun _ => ih _ _

theorem writei_stays (src : List UInt8) (off : Nat) : Within (Steady ip) (writei sb ip src off) := by
  refine .get fun s => .ite (.ite (.pure _) (.pure _)) (.ite (.pure _) (.ite (.pure _) ?_))
  refine (writeLoop_stays sb ip _ _ _).bind fun _ => .get fun s => .bind (.ite ?_ (.pure _)) fun _ => .pure _
  exact .bind (.modify fun s => .edit ip s _) fun _ => iupdate_stays ip

theorem truncDirect_stays (i : Fin nDirect) : Within (Steady ip) (truncDirect ip i) :=
  .get fun _ => .ite (.pure _) ((bfree_stays ip _).bind fun _ => .modify fun s => .edit ip s _)

theorem truncIndirect_stays : Within (Steady ip) (truncIndirect ip) := by
  refine .get fun s => .ite (.pure _) (.get fun s => .bind ?_ fun _ => (bfree_stays ip _).bind fun _ => ?_)
  · exact .forM fun j => .ite (.pure _) (bfree_stays ip _)
  · exact .modify fun s => .edit ip s _

theorem itrunc_stays : Within (Steady ip) (itrunc ip) :=
  .bind (.forM (truncDirect_stays ip)) fun _ => (truncIndirect_stays ip).bind fun _ =>
    .bind (.modify fun s => .edit ip s _) fun _ => iupdate_stays ip

theorem change_stays (f : Dinode → Dinode) : Within (Steady ip) (change ip f) :=
  .bind (.modify fun s => .edit ip s f) fun _ => iupdate_stays ip

end Blocks

/-! ## What the cache functions do to references and locks -/

/-- An entry other than `ip` is as it was; `ip` stands for the same inode. -/
structure Touched (ip : Slot) (s t : Store) (ref : Int) (locked : Bool) : Prop where
  other : ∀ j, j ≠ ip → t.icache j = s.icache j
  dev : (t.icache ip).dev = (s.icache ip).dev
  inum : (t.icache ip).inum = (s.icache ip).inum
  ref : (t.icache ip).ref = ref
  locked : (t.icache ip).locked = locked

theorem Touched.set (ip : Slot) (s : Store) (f : Inode → Inode)
    (hdev : (f (s.icache ip)).dev = (s.icache ip).dev)
    (hinum : (f (s.icache ip)).inum = (s.icache ip).inum) :
    Touched ip s (s.set ip f) (f (s.icache ip)).ref (f (s.icache ip)).locked := by
  refine ⟨fun j hj => set_of_ne s f hj, ?_, ?_, ?_, ?_⟩
  all_goals rw [set_self]
  · exact hdev
  · exact hinum

theorem Touched.trans {u : Store} {r r' : Int} {l l' : Bool} (h : Touched ip s t r l)
    (h' : Touched ip t u r' l') : Touched ip s u r' l' :=
  ⟨fun j hj => (h'.other j hj).trans (h.other j hj), h'.dev.trans h.dev, h'.inum.trans h.inum,
    h'.ref, h'.locked⟩

theorem Steady.touched (h : Steady ip s t) : Touched ip s t (s.icache ip).ref (s.icache ip).locked := by
  obtain ⟨hdev, hinum, href, hlocked, -⟩ := h.fields ip
  exact ⟨h.other, hdev, hinum, href, hlocked⟩

theorem acquiresleep_ends (ip : Slot) (s : Store) :
    Ends (acquiresleep ip) s (fun _ t => (s.icache ip).locked = false ∧
      t = s.set ip fun x => { x with locked := true })
      fun e => e = "acquiresleep: held by the caller" ∧ (s.icache ip).locked = true := by
  unfold acquiresleep
  rw [ends_get_bind]
  refine ends_ite (fun hheld => ⟨rfl, hheld⟩) fun hfree => ⟨?_, rfl⟩
  simpa using hfree

theorem ilock_ends (ip : Slot) (s : Store) :
    Ends (ilock ip) s (fun _ t => 0 < (s.icache ip).ref ∧ (s.icache ip).locked = false ∧
      ∃ d, ((s.icache ip).valid = true ∧ d = (s.icache ip).copy ∨
          d = s.dinodes (s.icache ip).inum ∧ d.type ≠ 0) ∧
        t = s.set ip fun x => { x with locked := true, copy := d, valid := true })
      fun e => e ≠ "freeing free block" ∧ (0 < (s.icache ip).ref → (s.icache ip).locked = false →
        (s.dinodes (s.icache ip).inum).type = 0) := by
  unfold ilock
  rw [ends_get_bind]
  refine ends_ite (fun href => ⟨by decide, fun hpos => by omega⟩) fun href => ?_
  have hpos : 0 < (s.icache ip).ref := by omega
  refine ((acquiresleep_ends ip s).mono (fun _ _ => id) ?_).bind ?_
  · rintro _ ⟨rfl, hheld⟩
    refine ⟨by decide, fun _ hfree => ?_⟩
    rw [hheld] at hfree
    cases hfree
  rintro _ _ ⟨hfree, rfl⟩
  have hself := set_self s ip fun x => { x with locked := true }
  rw [ends_get_bind, hself]
  refine ends_ite (fun hvalid => ?_) fun _ => ?_
  · refine ⟨hpos, hfree, _, .inl ⟨hvalid, rfl⟩, congrArg (fun x => { s with icache := Function.update s.icache ip x }) ?_⟩
    dsimp only at hvalid ⊢
    rw [hvalid]
  · unfold iload
    rw [ends_modify_bind, ends_get_bind, set_self, hself]
    refine ends_ite (fun hzero => ⟨by decide, fun _ _ => hzero⟩) fun htype => ?_
    refine ⟨hpos, hfree, _, .inr ⟨rfl, htype⟩, ?_⟩
    simp only [Store.set, Function.update_self, Function.update_idem]

theorem ilock_touched (ip : Slot) (s : Store) :
    Ends (ilock ip) s (fun _ t => (s.icache ip).locked = false ∧
      Touched ip s t (s.icache ip).ref true) fun _ => True := by
  refine (ilock_ends ip s).mono ?_ fun _ _ => trivial
  rintro _ _ ⟨-, hfree, d, -, rfl⟩
  exact ⟨hfree, .set ip s _ rfl rfl⟩

theorem iunlock_ends (ip : Slot) (s : Store) :
    Ends (iunlock ip) s (fun _ t => 0 < (s.icache ip).ref ∧
      t = s.set ip fun x => { x with locked := false })
      fun e => e = "iunlock" ∧ ((s.icache ip).locked = false ∨ (s.icache ip).ref < 1) := by
  unfold iunlock
  rw [ends_get_bind]
  refine ends_ite (fun hbad => ⟨rfl, hbad⟩) fun hok => ⟨?_, rfl⟩
  rw [not_or] at hok
  omega

theorem iunlock_touched (ip : Slot) (s : Store) :
    Ends (iunlock ip) s (fun _ t => Touched ip s t (s.icache ip).ref false) fun _ => True := by
  refine (iunlock_ends ip s).mono ?_ fun _ _ => trivial
  rintro _ _ ⟨-, rfl⟩
  exact .set ip s _ rfl rfl

theorem ifree_touched (ip : Slot) (s : Store) :
    Ends (ifree ip) s (fun _ t => Touched ip s t (s.icache ip).ref (s.icache ip).locked)
      fun _ => True := by
  have hfree : Within (Steady ip) (do
      itrunc ip
      modify (·.edit ip fun d => { d with type := 0 })
      iupdate ip) :=
    (itrunc_stays ip).bind fun _ => .bind (.modify fun s => .edit ip s _) fun _ => iupdate_stays ip
  have hassoc : ifree ip = (do
      itrunc ip
      modify (·.edit ip fun d => { d with type := 0 })
      iupdate ip) >>= fun _ => modify (·.set ip fun x => { x with valid := false }) := by
    simp only [ifree, bind_assoc]
  rw [hassoc]
  refine (hfree s).bind fun _ t ht => ?_
  have hset := Touched.set ip t (fun x => { x with valid := false }) rfl rfl
  have hall := ht.touched.trans hset
  rw [(ht.fields ip).2.2.1, (ht.fields ip).2.2.2.1] at hall
  exact hall

theorem iput_touched (ip : Slot) (s : Store) :
    Ends (iput ip) s (fun _ t => (s.icache ip).locked = false ∧
      Touched ip s t ((s.icache ip).ref - 1) false) fun _ => True := by
  unfold iput
  refine ((acquiresleep_ends ip s).mono (fun _ _ => id) fun _ _ => trivial).bind ?_
  rintro _ _ ⟨hfree, rfl⟩
  have hlock : Touched ip s (s.set ip fun x => { x with locked := true }) (s.icache ip).ref true :=
    .set ip s _ rfl rfl
  rw [ends_get_bind]
  refine Ends.bind (Q := fun _ t => Touched ip s t (s.icache ip).ref true) ?_ fun _ t ht => ?_
  · refine ends_ite (fun _ => ?_) fun _ => hlock
    refine (ifree_touched ip _).imp fun _ t ht => ?_
    rw [hlock.ref, hlock.locked] at ht
    exact hlock.trans ht
  unfold releasesleep
  rw [ends_modify_bind]
  have hunlock := Touched.set ip t (fun x => { x with locked := false }) rfl rfl
  refine ⟨hfree, (ht.trans hunlock).trans ?_⟩
  have hdrop := Touched.set ip (t.set ip fun x => { x with locked := false })
    (fun x => { x with ref := x.ref - 1 }) rfl rfl
  rw [set_self, ht.ref] at hdrop
  exact hdrop

theorem iget_ends (dev inum : Nat) (s : Store) :
    Ends (iget dev inum) s (fun i t => (∀ j, j ≠ i → t.icache j = s.icache j) ∧
      t.dinodes = s.dinodes ∧ t.blocks = s.blocks ∧ t.bitmap = s.bitmap ∧
      (t.icache i).dev = dev ∧ (t.icache i).inum = inum ∧ (t.icache i).ref = (s.icache i).ref + 1 ∧
      (t.icache i).locked = (s.icache i).locked ∧
      ((s.icache i).ref = 0 ∧ (t.icache i).valid = false ∧
          (∀ j, 0 < (s.icache j).ref → ¬ ((s.icache j).dev = dev ∧ (s.icache j).inum = inum)) ∨
        0 < (s.icache i).ref ∧ (s.icache i).dev = dev ∧ (s.icache i).inum = inum ∧
          (t.icache i).valid = (s.icache i).valid ∧ (t.icache i).copy = (s.icache i).copy))
      fun e => e = "iget: no inodes" ∧ ∀ i, (s.icache i).ref ≠ 0 := by
  unfold iget
  rw [ends_get_bind]
  rcases Fs.scanCache_cases (fun i => (s.icache i).ref) fun i =>
      (s.icache i).dev == dev && (s.icache i).inum == inum with
    ⟨i, hscan, hpos, hid⟩ | ⟨i, hscan, hz, hnone⟩ | ⟨hscan, hfull, -⟩
  · simp only [Bool.and_eq_true, beq_iff_eq] at hid
    obtain ⟨hdev, hinum⟩ := hid
    rw [hscan]
    refine ⟨fun j hj => set_of_ne s _ hj, rfl, rfl, rfl, ?_⟩
    rw [set_self]
    exact ⟨hdev, hinum, rfl, rfl, .inr ⟨hpos, hdev, hinum, rfl, rfl⟩⟩
  · simp only [Bool.and_eq_false_iff, beq_eq_false_iff_ne] at hnone
    rw [hscan]
    refine ⟨fun j hj => set_of_ne s _ hj, rfl, rfl, rfl, ?_⟩
    rw [set_self, hz]
    refine ⟨rfl, rfl, rfl, rfl, .inl ⟨rfl, rfl, fun j hpos hid => ?_⟩⟩
    exact (hnone j hpos).elim (· hid.1) (· hid.2)
  · rw [hscan]
    exact ⟨rfl, hfull⟩

/-! ## The operations of the inode layer -/

/-- The operations that directories, paths and calls are written in. -/
inductive Op : Type → Type
  | iget (inum : Nat) : Op Slot
  | idup (ip : Slot) : Op Unit
  | ilock (ip : Slot) : Op Unit
  | iunlock (ip : Slot) : Op Unit
  | iput (ip : Slot) : Op Unit
  | ialloc (type : Nat) : Op Slot
  | change (ip : Slot) (f : Dinode → Dinode) : Op Unit
  | readi (ip : Slot) (off n : Nat) (input : List UInt8) : Op (Option (List UInt8))
  | writei (ip : Slot) (src : List UInt8) (off : Nat) : Op (Option Nat)

def Op.code (sb : Superblock) {α : Type} : Op α → Code Store α
  | .iget inum => Files.iget rootDev inum
  | .idup ip => Files.idup ip
  | .ilock ip => Files.ilock ip
  | .iunlock ip => Files.iunlock ip
  | .iput ip => Files.iput ip
  | .ialloc type => Files.ialloc sb rootDev type
  | .change ip f => Files.change ip f
  | .readi ip off n input => Files.readi sb ip off n input
  | .writei ip src off => Files.writei sb ip src off

/-- What the caller of an operation has to see to: the entry is in use, or locked, and only the
fields that the block layer does not know are changed from outside. -/
def Op.Allowed {α : Type} (s : Store) : Op α → Prop
  | .iget _ | .ilock _ | .iunlock _ => True
  | .idup ip | .iput ip => 0 < (s.icache ip).ref
  | .ialloc type => type ≠ 0
  | .change ip f => (s.icache ip).locked = true ∧
      ∀ d, (f d).type = d.type ∧ (f d).size = d.size ∧ (f d).addrs = d.addrs
  | .readi ip _ _ _ => (s.icache ip).locked = true
  | .writei ip _ _ => (s.icache ip).locked = true

/-- An operation that is allowed leads from one state to the other. -/
def Prim (sb : Superblock) (s t : Store) : Prop :=
  ∃ (α : Type) (o : Op α) (r : α), o.Allowed s ∧ o.code sb s = .ok (r, t)

/-- The state after any number of operations. -/
abbrev Prims (sb : Superblock) : Store → Store → Prop := Relation.ReflTransGen (Prim sb)

/-- The messages of the code above the inode layer. -/
def upper : List String :=
  ["dirlookup not DIR", "dirlookup read", "dirlink read", "dirlink", "isdirempty: readi",
    "namex: out of fuel", "create dots", "create: dirlink", "unlink: nlink < 1", "unlink: writei",
    "null pointer", "filedup", "fileclose", "short filewrite", "filewrite", "init exiting"]

/-- The code stops in an operation, or with a message of its own. -/
def Fails (sb : Superblock) (s : Store) (e : String) : Prop :=
  e ∈ upper ∨ ∃ t, Prims sb s t ∧ ∃ (α : Type) (o : Op α), o.Allowed t ∧ o.code sb t = .error e

theorem Fails.of_prims {sb : Superblock} (h : Prims sb s t) {e : String} (hfail : Fails sb t e) :
    Fails sb s e :=
  hfail.imp_right fun ⟨u, hu, hpanic⟩ => ⟨u, h.trans hu, hpanic⟩

/-! ## Owning references and locks -/

/-- The references to cache entries are `H`, and the locks that are held are those of `K`. -/
structure Held (s : Store) (H : Multiset Slot) (K : Finset Slot) : Prop where
  ref_eq : ∀ i, (s.icache i).ref = H.count i
  locked : ∀ i, (s.icache i).locked = true ↔ i ∈ K
  dev : ∀ i ∈ H, (s.icache i).dev = rootDev

theorem Held.ref_pos (h : Held s H K) {i : Slot} (hi : i ∈ H) : 0 < (s.icache i).ref := by
  have := Multiset.count_pos.mpr hi
  rw [h.ref_eq i]
  omega

theorem Held.touch {H' : Multiset Slot} {K' : Finset Slot} {r : Int} {l : Bool} (h : Held s H K)
    (ht : Touched ip s t r l) (hr : r = H'.count ip) (hH : ∀ j, j ≠ ip → H'.count j = H.count j)
    (hl : l = true ↔ ip ∈ K') (hK : ∀ j, j ≠ ip → (j ∈ K' ↔ j ∈ K)) (hdev : ip ∈ H' → ip ∈ H) :
    Held t H' K' := by
  refine ⟨fun j => ?_, fun j => ?_, fun j hj => ?_⟩
  · by_cases hip : j = ip
    · rw [hip, ht.ref, hr]
    · rw [ht.other j hip, h.ref_eq j, hH j hip]
  · by_cases hip : j = ip
    · rw [hip, ht.locked, hl]
    · rw [ht.other j hip, h.locked j, hK j hip]
  · by_cases hip : j = ip
    · subst hip
      rw [ht.dev]
      exact h.dev j (hdev hj)
    · rw [ht.other j hip]
      refine h.dev j ?_
      rw [← Multiset.count_pos, ← hH j hip]
      exact Multiset.count_pos.mpr hj

theorem Held.steady (h : Held s H K) (ht : Steady ip s t) : Held t H K :=
  h.touch ht.touched (h.ref_eq ip) (fun _ _ => rfl) (h.locked ip) (fun _ _ => Iff.rfl) id

/-- With the references `H` and the locks `K`, the code returns with `Q` of its result and of the
references and locks it is left with. -/
def Owns (sb : Superblock) {α : Type} (H : Multiset Slot) (K : Finset Slot) (x : Code Store α)
    (Q : α → Multiset Slot → Finset Slot → Prop) : Prop :=
  ∀ s, Held s H K → Ends x s
    (fun r t => Prims sb s t ∧ ∃ H' K', Held t H' K' ∧ Q r H' K') (Fails sb s)

section Owns

variable {sb : Superblock} {α β : Type} {H : Multiset Slot} {K : Finset Slot} {x y : Code Store α}
  {Q R : α → Multiset Slot → Finset Slot → Prop}

theorem Owns.pure {a : α} (h : Q a H K) : Owns sb H K (pure a : Code Store α) Q :=
  fun _ hs => ⟨.refl, H, K, hs, h⟩

theorem Owns.throw {e : String} (h : e ∈ upper) : Owns sb H K (throw e : Code Store α) Q :=
  fun _ _ => .inl h

theorem Owns.get {f : Store → Code Store α} (h : ∀ s, Held s H K → Owns sb H K (f s) Q) :
    Owns sb H K (get >>= f) Q := fun s hs => h s hs s hs

theorem Owns.ite {c : Prop} [Decidable c] (hx : c → Owns sb H K x Q) (hy : ¬ c → Owns sb H K y Q) :
    Owns sb H K (if c then x else y) Q := fun s hs =>
  ends_ite (fun hc => hx hc s hs) fun hc => hy hc s hs

theorem Owns.imp (h : Owns sb H K x Q) (hQ : ∀ a H' K', Q a H' K' → R a H' K') :
    Owns sb H K x R := fun s hs =>
  (h s hs).imp fun _ _ ⟨hp, H', K', ht, hq⟩ => ⟨hp, H', K', ht, hQ _ H' K' hq⟩

theorem Owns.bind {f : α → Code Store β} {R : β → Multiset Slot → Finset Slot → Prop}
    (h : Owns sb H K x Q) (hf : ∀ a H' K', Q a H' K' → Owns sb H' K' (f a) R) :
    Owns sb H K (x >>= f) R := by
  intro s hs
  refine (h s hs).bind ?_
  rintro a t ⟨hp, H', K', ht, hq⟩
  refine (hf a H' K' hq t ht).mono ?_ fun e => .of_prims hp
  rintro b u ⟨hp', hrest⟩
  exact ⟨hp.trans hp', hrest⟩

abbrev Now (H : Multiset Slot) (K : Finset Slot) (H' : Multiset Slot) (K' : Finset Slot) : Prop :=
  H' = H ∧ K' = K

theorem Owns.ret {a : α} : Owns sb H K (Pure.pure a : Code Store α) fun _ => Now H K := .pure ⟨rfl, rfl⟩

/-- What follows code that is left with known references and locks. -/
theorem Owns.next {f : α → Code Store β} {F : α → Multiset Slot} {G : α → Finset Slot}
    {R : β → Multiset Slot → Finset Slot → Prop} (h : Owns sb H K x fun a => Now (F a) (G a))
    (hf : ∀ a, Owns sb (F a) (G a) (f a) R) : Owns sb H K (x >>= f) R := by
  refine h.bind fun a H' K' hnow => ?_
  rw [hnow.1, hnow.2]
  exact hf a

/-- An operation, by what it is allowed on and what it does to the references and locks. -/
theorem Owns.op {o : Op α} (hallowed : ∀ s, Held s H K → o.Allowed s)
    (h : ∀ s, Held s H K → Ends (o.code sb) s (fun r t => ∃ H' K', Held t H' K' ∧ Q r H' K')
      fun _ => True) : Owns sb H K (o.code sb) Q := by
  intro s hs
  refine ends_iff.mpr ⟨fun r t hok => ?_, fun e herr => ?_⟩
  · exact ⟨.single ⟨α, o, r, hallowed s hs, hok⟩, (h s hs).returned hok⟩
  · exact .inr ⟨s, .refl, α, o, hallowed s hs, herr⟩

/-- The references after a lookup: the entry found counts for one. -/
def withFound (found : Option Slot) (H : Multiset Slot) : Multiset Slot :=
  match found with
  | some i => i ::ₘ H
  | none => H

variable {ip : Slot} {p : Fs.Proc} {off n inum fuel : Nat} {src input : List UInt8} {major minor : Int}
  {path name buf old new : CString} {parent : Bool}

theorem Held.taken {i : Slot} (h : Held s H K) (hother : ∀ j, j ≠ i → t.icache j = s.icache j)
    (hdev : (t.icache i).dev = rootDev) (href : (t.icache i).ref = (s.icache i).ref + 1)
    (hlocked : (t.icache i).locked = (s.icache i).locked) : Held t (i ::ₘ H) K := by
  refine ⟨fun j => ?_, fun j => ?_, fun j hj => ?_⟩
  · by_cases hji : j = i
    · rw [hji, href, h.ref_eq, Multiset.count_cons_self]
      omega
    · rw [hother j hji, h.ref_eq, Multiset.count_cons_of_ne hji]
  · by_cases hji : j = i
    · rw [hji, hlocked]
      exact h.locked i
    · rw [hother j hji]
      exact h.locked j
  · by_cases hji : j = i
    · rw [hji, hdev]
    · rw [hother j hji]
      exact h.dev j ((Multiset.mem_cons.mp hj).resolve_left hji)

theorem iget_owns : Owns sb H K (iget rootDev inum) fun i => Now (i ::ₘ H) K := by
  refine .op (o := .iget inum) (fun _ _ => trivial) fun s hs => ?_
  refine (iget_ends rootDev inum s).mono ?_ fun _ _ => trivial
  rintro i t ⟨hother, -, -, -, hdev, -, href, hlocked, -⟩
  exact ⟨_, _, hs.taken hother hdev href hlocked, rfl, rfl⟩

theorem ialloc_owns (htype : type ≠ 0) : Owns sb H K (ialloc sb rootDev type) fun i => Now (i ::ₘ H) K := by
  refine .op (o := .ialloc type) (fun _ _ => htype) fun s hs => ?_
  show Ends (ialloc sb rootDev type) s _ _
  unfold ialloc
  rw [ends_get_bind]
  split
  · rw [ends_modify_bind]
    refine (iget_ends rootDev _ _).mono ?_ fun _ _ => trivial
    rintro i t ⟨hother, -, -, -, hdev, -, href, hlocked, -⟩
    exact ⟨_, _, hs.taken hother hdev href hlocked, rfl, rfl⟩
  · trivial

theorem idup_owns (hip : ip ∈ H) : Owns sb H K (idup ip) fun _ => Now (ip ::ₘ H) K := by
  refine .op (o := .idup ip) (fun s hs => hs.ref_pos hip) fun s hs => ?_
  refine ⟨_, _, hs.taken (i := ip) (fun j hj => set_of_ne s _ hj) ?_ ?_ ?_, rfl, rfl⟩
  all_goals rw [set_self]
  exact hs.dev ip hip

theorem ilock_owns : Owns sb H K (ilock ip) fun _ H' K' => ip ∉ K ∧ Now H (insert ip K) H' K' := by
  refine .op (o := .ilock ip) (fun _ _ => trivial) fun s hs => ?_
  refine (ilock_touched ip s).imp ?_
  rintro _ t ⟨hfree, ht⟩
  have hip : ip ∉ K := fun hc => by
    rw [(hs.locked ip).mpr hc] at hfree
    cases hfree
  refine ⟨H, insert ip K, hs.touch ht (hs.ref_eq ip) (fun _ _ => rfl) ?_ (fun j hj => ?_) id, hip, rfl, rfl⟩
  · exact iff_of_true rfl (Finset.mem_insert_self ip K)
  · rw [Finset.mem_insert, or_iff_right hj]

theorem iunlock_owns : Owns sb H K (iunlock ip) fun _ => Now H (K.erase ip) := by
  refine .op (o := .iunlock ip) (fun _ _ => trivial) fun s hs => ?_
  refine (iunlock_touched ip s).imp ?_
  rintro _ t ht
  refine ⟨_, _, hs.touch ht (hs.ref_eq ip) (fun _ _ => rfl) ?_ (fun j hj => ?_) id, rfl, rfl⟩
  · exact iff_of_false nofun (Finset.notMem_erase ip K)
  · rw [Finset.mem_erase, and_iff_right hj]

theorem iput_owns : Owns sb (ip ::ₘ H) K (iput ip) fun _ H' K' => ip ∉ K ∧ Now H K H' K' := by
  refine .op (o := .iput ip) (fun s hs => hs.ref_pos (Multiset.mem_cons_self ip H)) fun s hs => ?_
  refine (iput_touched ip s).imp ?_
  rintro _ t ⟨hfree, ht⟩
  have hip : ip ∉ K := fun hc => by
    rw [(hs.locked ip).mpr hc] at hfree
    cases hfree
  refine ⟨H, K, hs.touch ht ?_ (fun j hj => ?_) ?_ (fun _ _ => Iff.rfl) Multiset.mem_cons_of_mem, hip,
    rfl, rfl⟩
  · rw [hs.ref_eq ip, Multiset.count_cons_self]
    omega
  · rw [Multiset.count_cons_of_ne hj]
  · exact iff_of_false nofun hip

theorem ilock_locks : Owns sb H K (ilock ip) fun _ => Now H (insert ip K) :=
  ilock_owns.imp fun _ _ _ h => h.2

theorem iput_drops : Owns sb (ip ::ₘ H) K (iput ip) fun _ => Now H K := iput_owns.imp fun _ _ _ h => h.2

theorem iunlock_last : Owns sb H (insert ip ∅) (iunlock ip) fun _ => Now H ∅ := by
  refine iunlock_owns.imp fun _ _ _ h => ⟨h.1, ?_⟩
  rw [h.2, Finset.erase_insert (Finset.notMem_empty ip)]

theorem iunlockput_owns : Owns sb (ip ::ₘ H) K (iunlockput ip) fun _ => Now H (K.erase ip) :=
  iunlock_owns.next fun _ => iput_drops

theorem iunlockput_last : Owns sb (ip ::ₘ H) (insert ip ∅) (iunlockput ip) fun _ => Now H ∅ :=
  iunlock_last.next fun _ => iput_drops

theorem iunlockput_return {a : α} :
    Owns sb (ip ::ₘ H) (insert ip ∅) (do iunlockput ip; return a) fun _ => Now H ∅ :=
  iunlockput_last.next fun _ => .ret

theorem readi_owns (hip : ip ∈ K) : Owns sb H K (readi sb ip off n input) fun _ => Now H K := by
  refine .op (o := .readi ip off n input) (fun s hs => (hs.locked ip).mpr hip) fun s hs => ?_
  exact (readi_stays sb ip off n input s).imp fun _ t ht => ⟨_, _, hs.steady ht, rfl, rfl⟩

theorem writei_owns (hip : ip ∈ K) : Owns sb H K (writei sb ip src off) fun _ => Now H K := by
  refine .op (o := .writei ip src off) (fun s hs => (hs.locked ip).mpr hip) fun s hs => ?_
  exact (writei_stays sb ip src off s).imp fun _ t ht => ⟨_, _, hs.steady ht, rfl, rfl⟩

theorem change_owns (hip : ip ∈ K) {f : Dinode → Dinode}
    (hf : ∀ d, (f d).type = d.type ∧ (f d).size = d.size ∧ (f d).addrs = d.addrs) :
    Owns sb H K (change ip f) fun _ => Now H K := by
  refine .op (o := .change ip f) (fun s hs => ⟨(hs.locked ip).mpr hip, hf⟩) fun s hs => ?_
  exact (change_stays ip f s).imp fun _ t ht => ⟨_, _, hs.steady ht, rfl, rfl⟩

theorem addLink_owns {n : Int} (hip : ip ∈ K) : Owns sb H K (addLink ip n) fun _ => Now H K :=
  change_owns hip fun _ => ⟨rfl, rfl, rfl⟩

/-! ## Directories -/

section Directories

variable {dp : Slot}

theorem readDirent_owns {msg : String} (hmsg : msg ∈ upper) (hdp : dp ∈ K) :
    Owns sb H K (readDirent sb msg dp off) fun _ => Now H K := by
  refine (readi_owns hdp).next ?_
  rintro (_ | de)
  · exact .throw hmsg
  · exact .ite (fun _ => .ret) fun _ => .throw hmsg

theorem lookupLoop_owns (hdp : dp ∈ K) :
    Owns sb H K (lookupLoop sb dp name fuel off) fun _ => Now H K := by
  induction fuel generalizing off with
  | zero => exact .ret
  | succ fuel ih =>
    refine .get fun s _ => .ite (fun _ => ?_) fun _ => .ret
    refine (readDirent_owns (by decide) hdp).next fun de => ?_
    exact .ite (fun _ => ih) fun _ => .ite (fun _ => .ret) fun _ => ih

theorem dirlookup_owns (href : dp ∈ H) (hdp : dp ∈ K) :
    Owns sb H K (dirlookup sb dp name) fun r =>
      Now (withFound (r.map Prod.fst) H) K := by
  refine .get fun s hs => .ite (fun _ => .throw (by decide)) fun _ => ?_
  refine (lookupLoop_owns hdp).next ?_
  rintro (_ | ⟨inum, off⟩)
  · exact .pure ⟨rfl, rfl⟩
  · rw [hs.dev dp href]
    exact iget_owns.next fun i => .pure ⟨rfl, rfl⟩

theorem emptyLoop_owns (hdp : dp ∈ K) :
    Owns sb H K (emptyLoop sb dp fuel off) fun _ => Now H K := by
  induction fuel generalizing off with
  | zero => exact .ret
  | succ fuel ih =>
    refine .get fun s _ => .ite (fun _ => ?_) fun _ => .ret
    refine (readDirent_owns (by decide) hdp).next fun de => ?_
    exact .ite (fun _ => .ret) fun _ => ih

theorem dirlink_owns (href : dp ∈ H) (hdp : dp ∈ K) :
    Owns sb H K (dirlink sb dp name inum) fun _ => Now H K := by
  refine (dirlookup_owns href hdp).next ?_
  rintro (_ | ⟨ip, off⟩)
  · refine .get fun s _ => (emptyLoop_owns hdp).next fun off => ?_
    refine (writei_owns hdp).next fun r => ?_
    exact .ite (fun _ => .ret) fun _ => .throw (by decide)
  · exact iput_drops.next fun _ => .ret

theorem isdirempty_owns (hdp : dp ∈ K) : Owns sb H K (isdirempty sb dp) fun _ => Now H K := by
  have hloop : ∀ fuel off, Owns sb H K (isdiremptyLoop sb dp fuel off) fun _ => Now H K := by
    intro fuel
    induction fuel with
    | zero => exact fun off => .ret
    | succ fuel ih =>
      intro off
      refine .get fun s _ => .ite (fun _ => ?_) fun _ => .ret
      refine (readDirent_owns (by decide) hdp).next fun de => ?_
      exact .ite (fun _ => ih _) fun _ => .ret
  exact .get fun s _ => hloop _ _

end Directories

/-! ## Paths -/

/-- Whatever way a lookup ends, it has let go of all it took, but for the entry it returns. -/
theorem namexLoop_owns : Owns sb (ip ::ₘ H) ∅ (namexLoop sb p parent fuel path name ip) fun r =>
      Now (withFound (r.map Prod.fst) H) ∅ := by
  induction fuel generalizing path name ip with
  | zero => exact .throw (by decide)
  | succ fuel ih =>
    unfold namexLoop
    cases skipelem path name with
    | none =>
      exact .ite (fun _ => iput_drops.next fun _ => .pure ⟨rfl, rfl⟩) fun _ => .pure ⟨rfl, rfl⟩
    | some rest =>
      obtain ⟨path, name⟩ := rest
      have hmem : ip ∈ (insert ip ∅ : Finset Slot) := Finset.mem_insert_self ip ∅
      refine ilock_locks.next fun _ => ?_
      have hgone : Owns sb (ip ::ₘ H) (insert ip ∅) (do iunlockput ip; return none)
          fun (r : Option (Slot × CString)) => Now (withFound (r.map Prod.fst) H) ∅ :=
        iunlockput_last.next fun _ => .pure ⟨rfl, rfl⟩
      have hlast : Owns sb (ip ::ₘ H) (insert ip ∅) (do iunlock ip; return some (ip, name))
          fun (r : Option (Slot × CString)) => Now (withFound (r.map Prod.fst) H) ∅ :=
        iunlock_last.next fun _ => .pure ⟨rfl, rfl⟩
      refine .get fun s _ => .ite (fun _ => hgone) fun _ => .ite (fun _ => ?_) fun _ => ?_
      · refine .ite (fun _ => hlast) fun _ => ?_
        refine (idup_owns (Multiset.mem_cons_self ip H)).next fun _ => ?_
        exact iunlockput_last.next fun _ => ih
      refine .ite (fun _ => hlast) fun _ => ?_
      refine (dirlookup_owns (Multiset.mem_cons_self ip H) hmem).next ?_
      rintro (_ | ⟨next, off⟩)
      · exact hgone
      · show Owns sb (next ::ₘ ip ::ₘ H) _ _ _
        rw [Multiset.cons_swap]
        exact iunlockput_last.next fun _ => ih

theorem namexStart_owns (hcwd : p.cwd ∈ H) : Owns sb H K (namexStart p path) fun i => Now (i ::ₘ H) K := by
  have hdup : Owns sb H K (do idup p.cwd; return p.cwd) fun i => Now (i ::ₘ H) K :=
    (idup_owns hcwd).next fun _ => .pure ⟨rfl, rfl⟩
  refine .ite (fun _ => .ite (fun _ => .get fun s hs => ?_) fun _ => hdup) fun _ =>
    .ite (fun _ => iget_owns) fun _ => hdup
  dsimp only
  rw [hs.dev _ hcwd]
  exact iget_owns

theorem namex_owns (hcwd : p.cwd ∈ H) :
    Owns sb H ∅ (namex sb p path parent name) fun r => Now (withFound (r.map Prod.fst) H) ∅ := by
  exact (namexStart_owns hcwd).next fun _ => namexLoop_owns

theorem namei_owns (hcwd : p.cwd ∈ H) :
    Owns sb H ∅ (namei sb p path buf) fun r => Now (withFound r H) ∅ := by
  refine (namex_owns hcwd).next ?_
  rintro (_ | ⟨i, name⟩)
  · exact .pure ⟨rfl, rfl⟩
  · exact .pure ⟨rfl, rfl⟩

theorem isInodeDirectory_owns : Owns sb H ∅ (isInodeDirectory ip) fun _ => Now H ∅ := by
  refine ilock_locks.next fun _ => ?_
  exact .get fun s _ => iunlock_last.next fun _ => .ret

/-! ## Calls on inodes -/

section Calls

variable {dp : Slot}

theorem linkDots_owns (hdp : dp ∈ K) (href : ip ∈ H) (hip : ip ∈ K) :
    Owns sb H K (linkDots sb dp ip) fun _ => Now H K := by
  refine (addLink_owns hdp).next fun _ => ?_
  refine .get fun s _ => (dirlink_owns href hip).next fun _ => ?_
  refine .ite (fun _ => .throw (by decide)) fun _ => (dirlink_owns href hip).next fun _ => ?_
  exact .ite (fun _ => .throw (by decide)) fun _ => .ret

theorem createNew_owns (htype : type ≠ 0) :
    Owns sb (dp ::ₘ H) (insert dp ∅) (createNew sb dp name type major minor) fun ip =>
      Now (ip ::ₘ H) (insert ip ∅) := by
  refine .get fun s hs => ?_
  rw [hs.dev dp (Multiset.mem_cons_self dp H)]
  refine (ialloc_owns htype).next fun ip => ?_
  refine ilock_owns.bind ?_
  rintro _ _ _ ⟨hne, rfl, rfl⟩
  have hdp : dp ∈ (insert ip (insert dp ∅) : Finset Slot) := by simp
  have hip : ip ∈ (insert ip (insert dp ∅) : Finset Slot) := Finset.mem_insert_self ip _
  refine Owns.next (change_owns hip ?_) fun _ => ?_
  · exact fun _ => ⟨rfl, rfl, rfl⟩
  refine Owns.bind (Q := fun _ => Now (ip ::ₘ dp ::ₘ H) (insert ip (insert dp ∅))) ?_ ?_
  · exact .ite (fun _ => linkDots_owns hdp (Multiset.mem_cons_self ip _) hip) fun _ => .ret
  rintro _ _ _ ⟨rfl, rfl⟩
  refine .get fun s _ => ?_
  rw [Multiset.cons_swap]
  refine (dirlink_owns (Multiset.mem_cons_self dp _) hdp).next fun _ => ?_
  refine .ite (fun _ => .throw (by decide)) fun _ => iunlockput_owns.next fun _ => ?_
  refine .pure ⟨rfl, ?_⟩
  rw [Finset.insert_comm, Finset.erase_insert (by simpa [eq_comm] using hne)]

theorem create_owns (hcwd : p.cwd ∈ H) (htype : type ≠ 0) :
    Owns sb H ∅ (create sb p path type major minor buf) fun r =>
      Now (withFound r H) (r.elim ∅ fun i => insert i ∅) := by
  refine (namex_owns hcwd).next ?_
  rintro (_ | ⟨dp, name⟩)
  · exact .pure ⟨rfl, rfl⟩
  refine ilock_locks.next fun _ => ?_
  refine (dirlookup_owns (Multiset.mem_cons_self dp H) (Finset.mem_insert_self dp ∅)).next ?_
  rintro (_ | ⟨ip, off⟩)
  · exact (createNew_owns htype).next fun _ => .pure ⟨rfl, rfl⟩
  show Owns sb (ip ::ₘ dp ::ₘ H) _ _ _
  rw [Multiset.cons_swap]
  refine iunlockput_last.next fun _ => ?_
  refine ilock_locks.next fun _ => ?_
  refine .get fun s _ => .ite (fun _ => .pure ⟨rfl, rfl⟩) fun _ =>
    iunlockput_last.next fun _ => .pure ⟨rfl, rfl⟩

theorem linkBad_owns : Owns sb (ip ::ₘ H) ∅ (linkBad ip) fun _ => Now H ∅ := by
  refine ilock_locks.next fun _ => ?_
  exact (addLink_owns (Finset.mem_insert_self ip ∅)).next fun _ => iunlockput_return

theorem linkTo_owns (hcwd : p.cwd ∈ H) :
    Owns sb (ip ::ₘ H) ∅ (linkTo sb p ip new buf) fun _ => Now H ∅ := by
  refine (namex_owns (Multiset.mem_cons_of_mem hcwd)).next ?_
  rintro (_ | ⟨dp, name⟩)
  · exact linkBad_owns
  refine ilock_locks.next fun _ => ?_
  have hgone : Owns sb (dp ::ₘ ip ::ₘ H) (insert dp ∅) (do iunlockput dp; linkBad ip)
      fun _ => Now H ∅ := iunlockput_last.next fun _ => linkBad_owns
  refine .get fun s _ => .ite (fun _ => hgone) fun _ => ?_
  refine (dirlink_owns (Multiset.mem_cons_self dp _) (Finset.mem_insert_self dp ∅)).next fun _ => ?_
  refine .ite (fun _ => hgone) fun _ => iunlockput_last.next fun _ => ?_
  exact iput_drops.next fun _ => .ret

theorem sysLink_owns (hcwd : p.cwd ∈ H) : Owns sb H ∅ (sysLink sb p old new buf) fun _ => Now H ∅ := by
  refine (namei_owns hcwd).next ?_
  rintro (_ | ip)
  · exact .ret
  refine ilock_locks.next fun _ => ?_
  refine .get fun s _ => .ite (fun _ => iunlockput_return) fun _ => ?_
  refine (addLink_owns (Finset.mem_insert_self ip ∅)).next fun _ => ?_
  exact iunlock_last.next fun _ => linkTo_owns hcwd

theorem unlinkEntry_owns (hne : dp ≠ ip) :
    Owns sb (ip ::ₘ dp ::ₘ H) (insert ip (insert dp ∅)) (unlinkEntry sb dp ip off) fun _ => Now H ∅ := by
  have hdp : dp ∈ (insert ip (insert dp ∅) : Finset Slot) := by simp
  refine (writei_owns hdp).next fun _ => ?_
  refine .ite (fun _ => .throw (by decide)) fun _ => .get fun s _ => ?_
  refine Owns.bind (Q := fun _ => Now (ip ::ₘ dp ::ₘ H) (insert ip (insert dp ∅))) ?_ ?_
  · exact .ite (fun _ => addLink_owns hdp) fun _ => .ret
  rintro _ _ _ ⟨rfl, rfl⟩
  rw [Multiset.cons_swap]
  refine iunlockput_owns.next fun _ => ?_
  rw [Finset.insert_comm, Finset.erase_insert (by simpa using hne)]
  exact (addLink_owns (Finset.mem_insert_self ip ∅)).next fun _ => iunlockput_return

theorem sysUnlink_owns (hcwd : p.cwd ∈ H) : Owns sb H ∅ (sysUnlink sb p path buf) fun _ => Now H ∅ := by
  refine (namex_owns hcwd).next ?_
  rintro (_ | ⟨dp, name⟩)
  · exact .ret
  refine ilock_locks.next fun _ => ?_
  have hgone : Owns sb (dp ::ₘ H) (insert dp ∅) (do iunlockput dp; return (-1 : Int))
      fun _ => Now H ∅ := iunlockput_return
  refine .ite (fun _ => hgone) fun _ => ?_
  refine (dirlookup_owns (Multiset.mem_cons_self dp H) (Finset.mem_insert_self dp ∅)).next ?_
  rintro (_ | ⟨ip, off⟩)
  · exact hgone
  refine ilock_owns.bind ?_
  rintro _ _ _ ⟨hne, rfl, rfl⟩
  refine .get fun s _ => .ite (fun _ => .throw (by decide)) fun _ => ?_
  refine Owns.bind (Q := fun _ => Now (ip ::ₘ dp ::ₘ H) (insert ip (insert dp ∅))) ?_ ?_
  · exact .ite (fun _ => isdirempty_owns (Finset.mem_insert_self ip _)) fun _ => .ret
  rintro removable _ _ ⟨rfl, rfl⟩
  refine .ite (fun _ => unlinkEntry_owns (by simpa [eq_comm] using hne)) fun _ => ?_
  refine iunlockput_owns.next fun _ => ?_
  rw [Finset.erase_insert hne]
  exact hgone

theorem sysMkdir_owns (hcwd : p.cwd ∈ H) : Owns sb H ∅ (sysMkdir sb p path buf) fun _ => Now H ∅ := by
  refine (create_owns hcwd (by decide)).next ?_
  rintro (_ | ip)
  · exact .ret
  · exact iunlockput_return

theorem sysMknod_owns (hcwd : p.cwd ∈ H) :
    Owns sb H ∅ (sysMknod sb p path major minor buf) fun _ => Now H ∅ := by
  refine (create_owns hcwd (by decide)).next ?_
  rintro (_ | ip)
  · exact .ret
  · exact iunlockput_return

end Calls

end Owns

end Xv6.Files
