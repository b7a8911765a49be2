import Xv6.Fs.Walk

/-! # Reference counts over a lookup

Whatever is on the disk: a lookup that comes back holds one reference more, on the inode it
returns, or none if it returns `0`, and the entries in use still stand for the same inodes.
The last section forgets all but the counts, for callers that only count references.
-/

namespace Xv6.Fs

variable {s0 s s' : FsState} {ip : Slot}

variable {name path : CString} {p : Proc} {r : Option Slot} {n : Int}

/-- What a lookup from `s0` leaves behind when it comes back. -/
def Looked (s0 : FsState) : Option Slot → FsState → Prop
  | some ip, s => Walking s0 s ip
  | none, s => Returned s0 s

theorem Walking.of_taken {next : Slot} (hok : CacheOk s') (hdisk : s'.disk = s.disk)
    (href : (s'.icache next).ref = (s.icache next).ref + 1)
    (hhit : 0 < (s.icache next).ref → (s'.icache next).dev = (s.icache next).dev ∧
      (s'.icache next).inum = (s.icache next).inum)
    (hother : ∀ j, j ≠ next → s'.icache j = s.icache j) : Walking s s' next where
  ok := hok
  ref_eq := fun i => by
    by_cases hi : i = next
    · rw [hi, href, if_pos rfl]
    · rw [hother i hi, if_neg hi, Int.add_zero]
  kept := fun i hi => by
    by_cases hin : i = next
    · rw [hin] at hi ⊢
      exact hhit hi
    · rw [hother i hin]
      exact ⟨rfl, rfl⟩
  disk := fun d n => by
    rw [hdisk]
    exact .inl rfl

theorem Walking.of_idup (h : CacheOk s) (hip : 0 < (s.icache ip).ref) : Walking s (idup s ip) ip := by
  refine .of_taken (h.setRef hip (· + 1) (by omega)) rfl ?_ (fun _ => ?_) fun j hj => set_of_ne s _ hj
  · simp [idup]
  · simp [idup]

theorem Walking.of_iget (h : CacheOk s) {dev inum : Nat} (hget : iget s dev inum = .ok (ip, s')) :
    Walking s s' ip := by
  rcases iget_cases s h dev inum with
    ⟨herr, -⟩ | ⟨i, t, hget', hok, hdisk, hdev, hinum, href, hhit, hother⟩
  · rw [herr] at hget
    cases hget
  · rw [hget'] at hget
    cases hget
    exact .of_taken hok hdisk href
      (fun hpos => ⟨hdev.trans (hhit hpos).1.symm, hinum.trans (hhit hpos).2.symm⟩) hother

/-! ## The rounds of `namex` -/

theorem Walking.of_ilock (h0 : CacheOk s0) (h : Walking s0 s ip) (hlock : Fs.ilock s ip = .ok s') :
    Walking s0 s' ip := by
  rcases ilock_cases s h.ok (h.ref_pos h0) with ⟨herr, -⟩ | ⟨t, hlock', hok, hdisk, hident, -⟩
  · rw [herr] at hlock
    cases hlock
  · rw [hlock'] at hlock
    cases hlock
    exact h.ilock hok hdisk hident

theorem Walking.stay (h0 : CacheOk s0) (h : Walking s0 s ip) :
    Walking s0 (Fs.iput (idup s ip) ip) ip := by
  have hlive := h.ref_pos h0
  have hok : CacheOk (idup s ip) := h.ok.setRef hlive (· + 1) (by omega)
  refine (h.move h0 hok rfl ?_ (fun _ => ?_) fun j hj => set_of_ne s _ hj).1
  · simp [idup]
  · simp [idup]

/-- A lookup in a directory leaves the state alone or takes the entry it returns. -/
theorem Walking.of_dirlookup (h0 : CacheOk s0) (h : Walking s0 s ip) {r : Option (Slot × Nat)}
    (hlook : dirlookup s ip name = .ok (r, s')) :
    (r = none ∧ s' = s) ∨ ∃ next off, r = some (next, off) ∧ Walking s0 (Fs.iput s' ip) next := by
  unfold dirlookup at hlook
  dsimp only at hlook
  split at hlook
  · cases hlook
  split at hlook
  · cases hlook
  · cases hlook
    exact .inl ⟨rfl, rfl⟩
  rename_i inum off _
  split at hlook
  · cases hlook
  rename_i next t hget
  cases hlook
  rcases iget_cases s h.ok (s.icache ip).dev inum with
    ⟨herr, -⟩ | ⟨i, u, hget', hok, hdisk, hdev, hinum, href, hhit, hother⟩
  · rw [herr] at hget
    cases hget
  · rw [hget'] at hget
    cases hget
    refine .inr ⟨next, off, rfl, (h.move h0 hok hdisk href (fun hpos => ?_) hother).1⟩
    exact ⟨hdev.trans (hhit hpos).1.symm, hinum.trans (hhit hpos).2.symm⟩

theorem namexLoop_looked {par : Bool} {fuel : Nat} {name' : CString} (h0 : CacheOk s0) (h : Walking s0 s ip)
    (hres : namexLoop p par fuel path name ip s = .ok (r, name', s')) : Looked s0 r s' := by
  induction fuel generalizing path name ip s with
  | zero => cases hres
  | succ fuel ih =>
    simp only [namexLoop] at hres
    split at hres
    · split at hres
      · cases hres
        exact h.iput h0
      · cases hres
        exact h
    split at hres
    · cases hres
    rename_i t hlock
    have h' := h.of_ilock h0 hlock
    split at hres
    · cases hres
      exact h'.iput h0
    split at hres
    · split at hres
      · cases hres
        exact h'
      · exact ih (h'.stay h0) hres
    split at hres
    · cases hres
      exact h'
    split at hres
    · cases hres
    · rename_i u hlook
      rcases h'.of_dirlookup h0 hlook with ⟨-, rfl⟩ | ⟨_, _, hr, -⟩
      · cases hres
        exact h'.iput h0
      · cases hr
    · rename_i next off u hlook
      rcases h'.of_dirlookup h0 hlook with ⟨hr, -⟩ | ⟨_, _, hr, hnext⟩
      · cases hr
      · cases hr
        exact ih hnext hres

/-! ## Lookups and `cm_setroot` -/

theorem namei_looked (h : CacheOk s) (hcwd : 0 < (s.icache p.cwd).ref)
    (hres : namei p path name s = .ok (r, s')) : Looked s r s' := by
  unfold namei namex at hres
  have hstart : ∀ {ip t}, namexStart p path s = .ok (ip, t) → Walking s t ip := by
    intro ip t hs
    unfold namexStart at hs
    split at hs
    · split at hs
      · exact .of_iget h hs
      · cases hs
        exact .of_idup h hcwd
    · split at hs
      · exact .of_iget h hs
      · cases hs
        exact .of_idup h hcwd
  cases hs : namexStart p path s with
  | error e =>
    rw [hs] at hres
    cases hres
  | ok x =>
    obtain ⟨ip, t⟩ := x
    rw [hs] at hres
    split at hres
    · cases hres
    · rename_i hloop
      cases hres
      exact namexLoop_looked h (hstart hs) hloop

theorem doSetroot_looked {p' : Proc} {r : Int} (h : CacheOk s) (hcwd : 0 < (s.icache p.cwd).ref)
    (hres : doSetroot p path name n s = .ok (r, p', s')) :
    (r = -1 ∧ p' = p ∧ (s' = s ∨ ∃ found, Looked s found s')) ∨
      ∃ ip, r = 0 ∧ p.inNewroot = 0 ∧ p' = { p with newrootInode := some ip, inNewroot := 1 } ∧
        Walking s s' ip := by
  unfold doSetroot at hres
  split at hres
  · cases hres
    exact .inl ⟨rfl, rfl, .inl rfl⟩
  rename_i hout
  split at hres
  · cases hres
    exact .inl ⟨rfl, rfl, .inl rfl⟩
  split at hres
  · cases hres
  · rename_i hname
    cases hres
    exact .inl ⟨rfl, rfl, .inr ⟨none, namei_looked h hcwd hname⟩⟩
  rename_i ip t hname
  have hwalk : Walking s t ip := namei_looked h hcwd hname
  unfold isInodeDirectory at hres
  cases hlock : ilock t ip with
  | error e =>
    rw [hlock] at hres
    cases hres
  | ok u =>
    rw [hlock] at hres
    have hwalk' := hwalk.of_ilock h hlock
    dsimp only at hres
    cases hdir : (u.icache ip).copy.type == tDir with
    | false =>
      rw [hdir] at hres
      cases hres
      exact .inl ⟨rfl, rfl, .inr ⟨some ip, hwalk'⟩⟩
    | true =>
      rw [hdir] at hres
      cases hres
      exact .inr ⟨ip, rfl, not_not.mp hout, rfl, hwalk'⟩

/-! ## Counting references -/

/-- Each entry `i` has gained at least `d i` references, and the entries in use stand for the same
inodes. -/
structure Balance (s s' : FsState) (d : Slot → Int) : Prop where
  ok : CacheOk s'
  ref_ge : ∀ i, (s.icache i).ref + d i ≤ (s'.icache i).ref
  kept : ∀ i, 0 < (s.icache i).ref →
    (s'.icache i).dev = (s.icache i).dev ∧ (s'.icache i).inum = (s.icache i).inum

theorem Balance.refl (h : CacheOk s) : Balance s s (fun _ => 0) :=
  ⟨h, fun i => by omega, fun _ _ => ⟨rfl, rfl⟩⟩

theorem Balance.trans {s'' : FsState} {d d' : Slot → Int} (h : Balance s s' d)
    (hd : ∀ i, 0 ≤ d i) (h' : Balance s' s'' d') : Balance s s'' (fun i => d i + d' i) := by
  refine ⟨h'.ok, fun i => ?_, fun i hi => ?_⟩
  · have := h.ref_ge i
    have := h'.ref_ge i
    omega
  · have hpos : 0 < (s'.icache i).ref := by
      have := h.ref_ge i
      have := hd i
      omega
    obtain ⟨hdev, hinum⟩ := h.kept i hi
    obtain ⟨hdev', hinum'⟩ := h'.kept i hpos
    exact ⟨hdev'.trans hdev, hinum'.trans hinum⟩

theorem Balance.mono {d d' : Slot → Int} (h : Balance s s' d) (hd : ∀ i, d' i ≤ d i) : Balance s s' d' := by
  refine ⟨h.ok, fun i => ?_, h.kept⟩
  have := h.ref_ge i
  have := hd i
  omega

theorem Walking.balance (h : Walking s s' ip) : Balance s s' (fun i => if i = ip then 1 else 0) :=
  ⟨h.ok, fun i => Int.le_of_eq (h.ref_eq i).symm, h.kept⟩

theorem Returned.balance (h : Returned s s') : Balance s s' (fun _ => 0) :=
  ⟨h.ok, fun i => by rw [h.ref_eq i]; omega, h.kept⟩

theorem Looked.balance (h : Looked s r s') : Balance s s' (fun _ => 0) := by
  cases r with
  | none => exact Returned.balance h
  | some ip =>
    refine Walking.balance h |>.mono fun i => ?_
    split <;> omega

theorem Balance.of_iput (h : CacheOk s) (hip : 0 < (s.icache ip).ref) :
    Balance s (iput s ip) (fun i => - if i = ip then 1 else 0) := by
  obtain ⟨hok, href, hident, _⟩ := iput_spec h hip
  refine ⟨hok, fun i => ?_, fun i _ => hident i⟩
  rw [href i]
  omega

end Xv6.Fs
