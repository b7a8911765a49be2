import Xv6.Kernel.Image
import Xv6.Kernel.Progress

/-! # Runs of one process's address-space calls

From the image of `exec` on, a process calls `sbrk`, `shm_get` and `shm_rem`, and other
processes run in between. The address space stays in order along the run exactly when every
`shm_rem` takes the top page.
-/

namespace Xv6.Kernel

open Lib Vm

variable {L : Layout} {a : Slot} {k : State}

inductive Move
  | sbrk (n : Int)
  | shmGet (name : CString)
  | shmRem (name : CString)
  | other

/-- The moves of process `a`: `sbrk` and `shm_rem` that succeed, `shm_get`, and whatever
leaves its address space alone. -/
def Moves (L : Layout) (a : Slot) (k : State) : Move → State → Prop
  | .sbrk n, k' => growproc L k a n = .ok (0, k')
  | .shmGet name, k' => ∃ r, shmGet L k a (some name) = .ok (r, k')
  | .shmRem name, k' => shmRem L k a (some name) = .ok (0, k')
  | .other, k' => (k'.procs a).sz = (k.procs a).sz ∧ (k'.procs a).pgdir = (k.procs a).pgdir ∧
      (k'.procs a).shm = (k.procs a).shm

def RemovesTop (a : Slot) (k : State) : Move → Prop
  | .shmRem name => TopMapping (k.procs a) name
  | _ => True

theorem moves_spans {k' : State} {mv : Move} (h : (k.procs a).Spans) (htop : RemovesTop a k mv)
    (hstep : Moves L a k mv k') : (k'.procs a).Spans := by
  cases mv with
  | sbrk n => exact growproc_spans h hstep
  | shmGet name =>
    obtain ⟨r, hget⟩ := hstep
    exact shmGet_spans h hget
  | shmRem name =>
    rcases shmRem_ok hstep with ⟨-, hr, -⟩ | ⟨i, d, hi, hd, hproc, -⟩
    · cases hr
    · rw [hproc]
      exact removed_spans h hd hi htop
  | other =>
    obtain ⟨hsz, hpgdir, _⟩ := hstep
    unfold Proc.Spans at *
    rw [hsz, hpgdir]
    exact h

theorem moves_inOrder_iff {k' : State} {mv : Move} (h : (k.procs a).Spans) (hstep : Moves L a k mv k') :
    (k'.procs a).InOrder ↔ RemovesTop a k mv := by
  cases mv with
  | sbrk n | shmGet name | other =>
    exact ⟨fun _ => trivial, fun htop => (moves_spans h htop hstep).inOrder⟩
  | shmRem name =>
    rcases shmRem_ok hstep with ⟨-, hr, -⟩ | ⟨i, d, hi, hd, hproc, -⟩
    · cases hr
    · rw [hproc]
      exact removed_inOrder_iff h hd hi

/-- No call of process `a` finds a page mapped already, and the system calls read its
arguments without a fault. -/
structure Faultless (L : Layout) (a : Slot) (k : State) : Prop where
  sbrk : ∀ n, growproc L k a n ≠ .error "remap"
  shmGet : ∀ name, shmGet L k a name ≠ .error "remap"
  fetchint : ∀ d, (k.procs a).pgdir = some d → ∀ addr,
    ∃ r, fetchint (k.procs a) d k.mem addr = .ok r
  fetchstr : ∀ d, (k.procs a).pgdir = some d → ∀ addr,
    ∃ r, fetchstr (k.procs a) d k.mem addr = .ok r
  argptr : ∀ d, (k.procs a).pgdir = some d → ∀ n size, size < 2 ^ 31 →
    ∃ r, argptr (k.procs a) d k.mem n size = .ok r ∧ ∀ i, r = some i → (d.entry i).present = true ∧
      ∀ va, i ≤ va → va < i + size.toNat → (d.entry va).present = true

theorem Proc.Spans.faultless (h : (k.procs a).Spans) : Faultless L a k := by
  have hbelow : ∀ d, (k.procs a).pgdir = some d → ∀ va, va < (k.procs a).sz →
      (d.entry va).present = true := by
    intro d hd va hva
    obtain ⟨d', hd', _, hmapped⟩ := h.inOrder
    rw [hd] at hd'
    cases hd'
    exact hmapped va hva
  exact
    { sbrk := growproc_not_remap h
      shmGet := shmGet_not_remap h
      fetchint := fun d hd => fetchint_total h.1 (hbelow d hd) k.mem
      fetchstr := fun d hd => fetchstr_total (hbelow d hd) k.mem
      argptr := fun d hd n _ hsize => argptr_total h.1 (hbelow d hd) k.mem n hsize }

/-- From the image that `exec` installs, the address space is in order in every state of a
run exactly when every `shm_rem` of the run takes the top page; and then no call meets a
mapped page or reads an argument that is not mapped. -/
theorem address_space_in_order_iff {L : Layout} {k0 k1 : State} {a : Slot} {path buf : CString}
    {argv : List CString} (hexec : exec L k0 a path buf argv = .ok (0, k1)) :
    (k1.procs a).InOrder ∧ ∀ moves k,
      (Run (fun s mv t => Moves L a s mv t ∧ (t.procs a).InOrder) k1 moves k ↔
        Run (Guarded (Moves L a) (RemovesTop a)) k1 moves k) ∧
      (Run (Guarded (Moves L a) (RemovesTop a)) k1 moves k →
        (k.procs a).InOrder ∧ Faultless L a k) := by
  have hstart := exec_spans hexec
  refine ⟨hstart.inOrder, fun moves k => ⟨?_, fun hrun => ?_⟩⟩
  · exact Run.guarded_iff (fun k => (k.procs a).Spans)
      (fun s mv t h hstep => moves_inOrder_iff h hstep)
      (fun s mv t h htop hstep => moves_spans h htop hstep) hstart
  have hspans : (k.procs a).Spans := by
    apply hrun.invariant_of_guarded _ hstart
    intro s mv t h htop hstep
    exact moves_spans h htop hstep
  exact ⟨hspans.inOrder, hspans.faultless⟩

/-! ## A page taken from the middle -/

theorem small_file : ∃ ip fs fs',
    Fs.namei (childProc.toFs 0) [Fs.slash, 97] [] smallFs = .ok (some ip, fs) ∧
      Fs.ilock fs ip = .ok fs' ∧ (fs'.icache ip).copy.content = stubFile := by
  have hread : (Fs.namei (childProc.toFs 0) [Fs.slash, 97] [] smallFs).toOption.any fun x =>
      x.1.any (fun ip => (Fs.ilock x.2 ip).toOption.any fun fs => (fs.icache ip).copy.content = stubFile) := by
    decide +kernel
  obtain ⟨⟨_, fs⟩, hname, hread⟩ := (Option.any_eq_true ..).mp hread
  obtain ⟨ip, rfl, hread⟩ := (Option.any_eq_true ..).mp hread
  obtain ⟨fs', hlock, hcontent⟩ := ok_of_any hread
  exact ⟨ip, fs, fs', eq_ok_of_toOption hname, hlock, hcontent⟩

theorem small_exec : ∃ k1 d, exec smallLayout smallMachine 1 [Fs.slash, 97] [] [] = .ok (0, k1) ∧
    (k1.procs 1).pgdir = some d ∧ (k1.procs 1).sz = 2 * pgSize ∧
    (k1.procs 1).shm = childProc.shm ∧ k1.shared = smallMachine.shared ∧ Room d k1.mem 2 := by
  obtain ⟨ip, fs, fs', hname, hlock, hcontent⟩ := small_file
  have hlen : npdEntries + 1 + (2 + 2) ≤ smallMachine.mem.free.length := by
    simp only [smallMachine, List.length_map, List.length_range]
    decide
  obtain ⟨d, sp, m, himage, hroom⟩ : ∃ d sp m,
      execImage smallLayout stubFile [] smallMachine.mem = .ok (some (d, 2 * pgSize, sp), m) ∧
        Room d m 2 :=
    execImage_stub (by decide) (by decide) (by decide) hlen
  obtain ⟨m', hfree⟩ := childDir_freevm m
  have hproc : smallMachine.procs 1 = childProc := rfl
  have hexec := exec_of_image (k := smallMachine) (a := 1) (by rw [hproc]; rfl)
    (by rw [hproc]; rfl) hname hlock (hcontent ▸ himage) hfree
  refine ⟨_, d, hexec, ?_, ?_, ?_, rfl, hroom.freevm hfree⟩
  · rw [update_self]
  · rw [update_self]
  · rw [update_self]
    rfl

theorem small_session : ∃ k1 k2 k3 d,
    exec smallLayout smallMachine 1 [Fs.slash, 97] [] [] = .ok (0, k1) ∧
    shmGet smallLayout k1 1 (some [97]) = .ok (8192, k2) ∧
    growproc smallLayout k2 1 4096 = .ok (0, k3) ∧
    (k3.procs 1).pgdir = some d ∧ (k3.procs 1).sz = 16384 ∧
    (k3.procs 1).shm = recordMapping childProc.shm [97] 8192 ∧
    findShm k3.shared [97] = some 0 ∧ (k3.shared.mems 0).ref = 2 ∧ Room d k3.mem 1 := by
  obtain ⟨k1, d1, hexec, hd1, hsz1, hshm1, hshared1, hroom1⟩ := small_exec
  have hspans1 := exec_spans hexec
  have hfind : findShm k1.shared [97] = some 0 := by
    rw [hshared1]
    decide
  have hpa : (k1.shared.mems 0).pa ≠ 0 := by
    rw [hshared1]
    decide
  obtain ⟨k2, d2, hget, hproc2, hshared2, hroom2⟩ := shmGet_total (L := smallLayout) hspans1 hd1
    (by rw [hsz1]; decide) hfind hpa hroom1
  have hspans2 := shmGet_spans hspans1 hget
  rw [hsz1] at hget
  have hsz2 : (k2.procs 1).sz = 12288 := by
    rw [hproc2, hsz1]
    rfl
  have hd2 : (k2.procs 1).pgdir = some d2 := by rw [hproc2]
  obtain ⟨k3, d3, hgrow, hproc3, hshared3, hroom3⟩ := growproc_total (L := smallLayout) (n := 4096)
    (c := 1) hspans2 hd2 (by decide) (by rw [hsz2]; decide) (by rw [hsz2]; exact hroom2)
  refine ⟨k1, k2, k3, d3, hexec, hget, hgrow, ?_, ?_, ?_, ?_, ?_, hroom3⟩
  · rw [hproc3]
  · rw [hproc3, hsz2]
  · rw [hproc3, hproc2, hsz1, hshm1]
    rfl
  · rw [hshared3, hshared2, hshared1]
    decide
  · rw [hshared3, hshared2, hshared1]
    decide

theorem address_space_in_order_session : ∃ k1 k2 k3,
    exec smallLayout smallMachine 1 [Fs.slash, 97] [] [] = .ok (0, k1) ∧
    shmGet smallLayout k1 1 (some [97]) = .ok (8192, k2) ∧
    growproc smallLayout k2 1 4096 = .ok (0, k3) ∧
    (k3.procs 1).InOrder ∧ Faultless smallLayout 1 k3 := by
  obtain ⟨k1, k2, k3, d, hexec, hget, hgrow, _⟩ := small_session
  have hrun : Run (Guarded (Moves smallLayout 1) (RemovesTop 1)) k1 [.shmGet [97], .sbrk 4096] k3 :=
    .cons ⟨trivial, _, hget⟩ (.cons ⟨trivial, hgrow⟩ (.nil k3))
  exact ⟨k1, k2, k3, hexec, hget, hgrow, ((address_space_in_order_iff hexec).2 _ k3).2 hrun⟩

/-- `shm_rem("a")` takes a page from the middle: the page at `8192` is gone while the size is
`12288` and the page at `12288` is still there. Then a `fetchint` of `8192` faults, and the
next `sbrk(4096)` panics. -/
theorem shm_rem_leaves_gap : ∃ k1 k2 k3 k4 d,
    exec smallLayout smallMachine 1 [Fs.slash, 97] [] [] = .ok (0, k1) ∧
    shmGet smallLayout k1 1 (some [97]) = .ok (8192, k2) ∧
    growproc smallLayout k2 1 4096 = .ok (0, k3) ∧
    shmRem smallLayout k3 1 (some [97]) = .ok (0, k4) ∧
    (k4.procs 1).pgdir = some d ∧ (k4.procs 1).sz = 12288 ∧
    (d.entry 8192).present = false ∧ (d.entry 12288).present = true ∧
    fetchint (k4.procs 1) d k4.mem 8192 = .error "trap" ∧
    growproc smallLayout k4 1 4096 = .error "remap" := by
  obtain ⟨k1, k2, k3, d, hexec, hget, hgrow, hd, hsz, hshm, hfind, href, hroom⟩ := small_session
  obtain ⟨_, d0, hd0, hspan⟩ := growproc_spans (shmGet_spans (exec_spans hexec) hget) hgrow
  rw [hd] at hd0
  cases hd0
  have hmapping : mappingOf (k3.procs 1) [97] = some 0 := by
    unfold mappingOf
    rw [hshm]
    decide
  have hva : ((k3.procs 1).shm 0).va = 8192 := by
    rw [hshm]
    decide
  obtain ⟨k4, hrem, hproc, hmem⟩ := shmRem_total (L := smallLayout) hmapping hd hfind (by rw [href]; decide)
  have hd4 : (k4.procs 1).pgdir = some (d.set 8192 .zero) := by
    rw [hproc]
    unfold Proc.removed
    rw [hva]
  have hsz4 : (k4.procs 1).sz = 12288 := by
    rw [hproc]
    unfold Proc.removed
    rw [hsz]
    exact (by decide : szLess 16384 = 12288)
  have hgone : ((d.set 8192 .zero).entry 8192).present = false := by
    rw [entry_clear]
    rfl
  have hthere : ((d.set 8192 .zero).entry 12288).present = true := by
    rw [entry_clear, if_neg (by decide), hspan 12288 (by decide), hsz]
    decide
  refine ⟨k1, k2, k3, k4, d.set 8192 .zero, hexec, hget, hgrow, hrem, hd4, hsz4, hgone, hthere, ?_, ?_⟩
  · unfold fetchint
    rw [hsz4, if_neg (by decide), loadUser_trap hgone]
    rfl
  have hroom4 : Room (d.set 8192 .zero) k4.mem (0 + 1) := by
    unfold Room
    rw [absent_set, hmem]
    exact hroom
  have halloc : allocuvm smallLayout (d.set 8192 .zero) 12288 16384 k4.mem = .error "remap" :=
    allocuvm_remap (by decide) (by decide) (by decide) hthere hroom4
  have hsum : (((12288 : Nat) : Int) + 4096) % uintMod = 16384 := by decide
  unfold growproc resize
  rw [hd4, hsz4]
  dsimp only
  rw [if_pos (by decide), hsum]
  show (allocuvm smallLayout (d.set 8192 .zero) 12288 16384 k4.mem >>= _) = _
  rw [halloc]
  rfl

end Xv6.Kernel
