import Xv6.Lib.Search
import Xv6.Sync.Atomic

/-! # The two models of the mutex calls

Where nobody interrupts a call, its instructions come to what `call` gives in one piece: the same
result, or a process asleep at the same place, and the same memory.
-/

namespace Xv6.Sync.Atomic

open Lib Lib.Spin

def Place.chan : Place → Option Mux
  | .lock m => some m
  | _ => none

def Proc.fields (x : Proc) : Sync.Proc := ⟨x.state, x.place.chan, x.killed, x.procMutexes⟩

/-- The memory of a state, as the instructions have it. -/
def State.mem (s : State) : Mem Slot := ⟨s.mutexes, fun q => (s.procs q).fields⟩

def State.table (s : State) : Table Slot :=
  ⟨List.finRange nproc, fun q => (s.procs q).pid, fun q => (s.procs q).nameSpace⟩

variable {s : State} {p : Slot} {m : Mux}

@[simp] theorem mem_mutexes (s : State) : s.mem.mutexes = s.mutexes := rfl

@[simp] theorem mem_mutex (f : Mutex → Mutex) : (s.mutex m f).mem = s.mem.mutex m f := rfl

theorem mem_update {f : Proc → Proc} (g : Sync.Proc → Sync.Proc)
    (h : (f (s.procs p)).fields = g (s.procs p).fields) : (s.update p f).mem = s.mem.update p g := by
  unfold State.mem Mem.update State.update
  congr 1
  dsimp only
  rw [← h]
  exact Function.comp_update Proc.fields s.procs p _

theorem place_chan {x : Place} : x.chan = some m ↔ x = .lock m := by
  cases x <;> simp [Place.chan]

theorem mem_wakeup {P : Table Slot} (h : P.slots = List.finRange nproc) :
    (s.wakeup m).mem = s.mem.wakeup1 P m := by
  unfold State.wakeup Mem.wakeup1 State.mem
  congr 1
  funext q
  simp only [Proc.fields, h, place_chan, List.mem_finRange, true_and]
  split <;> rfl

theorem mem_wakePid (pid : Int) : (s.wakePid pid).mem = s.mem.wakePid s.table pid := by
  unfold State.wakePid Mem.wakePid
  have h : (s.table.slots.find? fun q => s.table.pid q == pid && (s.mem.proc q).state == .sleeping) =
    (List.finRange nproc).find? fun q => (s.procs q).pid == pid && (s.procs q).state == .sleeping := rfl
  rw [h]
  cases (List.finRange nproc).find? _ with
  | none => rfl
  | some q => exact mem_update _ rfl

/-- From `c` on, `p` alone comes to what a call gives in one piece. -/
def Agrees (s : State) (p : Slot) (c : Pc) (x : Option Int × State) : Prop :=
  ∃ n k, alone (code s.table p) n c s.mem = (k, x.2.mem) ∧ (code s.table p k).outcome x.2.mem = some x.1

theorem mem_take : (s.take p m).mem = ((s.mem.mutex m fun x => { x with locked := 1 }).mutex m
    fun x => { x with pid := (s.procs p).pid }).update p fun x =>
      { x with procMutexes := replaceFirst (-1) m.val x.procMutexes } := by
  rw [State.take, mem_update (fun x => { x with procMutexes := replaceFirst (-1) m.val x.procMutexes }) rfl]
  simp [Mem.mutex]

theorem lockLoop_alone : Agrees s p (.lockAcquire m) (lockLoop s p m) := by
  unfold lockLoop
  split_ifs with hlocked
  · have hmem := mem_update (s := s) (p := p) (f := fun x => { x with state := .sleeping, place := .lock m })
      (fun x => { x with state := .sleeping, chan := some m }) rfl
    refine ⟨6, .sleepWait m, ?_, ?_⟩
    · simp [alone, code, *]
    · simp [code, Instr.outcome, hmem, Mem.update]
  · exact ⟨6, .lockDone m, by simp [alone, code, State.table, mem_take, not_ne_iff.mp hlocked], rfl⟩

theorem take_alone : Agrees s p (.cvReacquire m) (some 1, s.take p m) :=
  ⟨6, .cvDone m, by simp [alone, code, State.table, mem_take], rfl⟩

theorem mutexLock_alone : Agrees s p (.lockUsed m) (mutexLock s p m) := by
  unfold mutexLock
  split_ifs with hused hname hpid
  · exact ⟨1, .done (-1), by simp [alone, code, *], rfl⟩
  · exact ⟨2, .done (-2), by simp [alone, code, State.table, *], rfl⟩
  · exact ⟨3, .done (-3), by simp [alone, code, State.table, *], rfl⟩
  · obtain ⟨n, k, halone, hends⟩ := lockLoop_alone (s := s) (p := p) (m := m)
    exact ⟨n + 3, k, by simpa [alone, code, hused, not_ne_iff.mp hname, hpid, State.table] using halone, hends⟩

theorem mutexUnlock_alone : Agrees s p (.unlockAcquire m) (mutexUnlock s p m) := by
  unfold mutexUnlock
  split_ifs with hused hpid
  · exact ⟨4, .done (-1), by simp [alone, code, *], rfl⟩
  · exact ⟨4, .done (-1), by simp [alone, code, State.table, *], rfl⟩
  · rw [not_ne_iff] at hpid
    refine ⟨10, .done 1, ?_, rfl⟩
    rw [mem_wakeup (P := s.table) rfl, mem_mutex,
      mem_update (fun x => { x with procMutexes := replaceFirst m.val (-1) x.procMutexes }) rfl]
    simp [alone, code, Mem.mutex, show s.table.pid p = (s.procs p).pid from rfl, *]

theorem cvWait_alone (hp : (s.procs p).InUser) : Agrees s p (.cvAcquire m) (cvWait s p m) := by
  unfold cvWait
  split_ifs with hused hpid hfull
  · exact ⟨5, .done (-1), by simp [alone, code, *], rfl⟩
  · exact ⟨6, .done (-3), by simp [alone, code, State.table, *], rfl⟩
  · exact ⟨5, .cvQueueFull m, by simp [alone, code, State.table, *], rfl⟩
  · dsimp only
    have hsleep : ∀ f, ((s.mutex m f).update p fun x => { x with state := .sleeping, place := .wait m }).mem =
        (s.mem.mutex m f).update p fun x => { x with state := .sleeping } := fun f =>
      mem_update _ (by simp [Proc.fields, Place.chan, hp.2, State.mutex])
    refine ⟨9, .cvWait m, ?_, ?_⟩
    · simp [alone, code, State.table, show (s.mutexes m).numWaiters ≠ 16 from hfull, *]
    · simp [code, Instr.outcome, hsleep, Mem.update]

theorem cvSignal_alone : Agrees s p (.signalAcquire m) (cvSignal s m) := by
  unfold cvSignal
  split_ifs with hzero
  · exact ⟨5, .done 0, by simp [alone, code, *], rfl⟩
  · exact ⟨7, .done 1, by rw [mem_wakePid]; simp [alone, code, *]; rfl, rfl⟩

theorem kill_alone (pid : Int) : Agrees s p (.killAcquire pid) (kill s pid) := by
  unfold kill
  cases h : (List.finRange nproc).find? fun q => (s.procs q).pid == pid with
  | none => exact ⟨3, .done (-1), by simp [alone, code, State.table, Mem.kill, h], rfl⟩
  | some q =>
    refine ⟨3, .done 0, ?_, rfl⟩
    rw [mem_update (fun x => { x with killed := true, state := if x.state = .sleeping then .runnable else x.state }) rfl]
    simp [alone, code, State.table, Mem.kill, h]

theorem mutexDelete_alone : Agrees s p (.deleteAcquire m) (mutexDelete s m) := by
  unfold mutexDelete deleteMux
  split_ifs with hused hlocked hwaiters
  · exact ⟨3, .done (-1), by simp [alone, code, *], rfl⟩
  · exact ⟨4, .done (-3), by simp [alone, code, *], rfl⟩
  · exact ⟨4, .deleteBusy, by simp [alone, code, not_ne_iff.mp hlocked, *], rfl⟩
  · exact ⟨7, .done 1, by simp [alone, code, Mem.mutex, not_ne_iff.mp hlocked, *]; rfl, rfl⟩

theorem createScan_alone (j i : Nat) (h : i + j = muxMaxNum)
    (hbelow : ∀ l : Mux, l.val < i → (s.mutexes l).used ≠ 0) :
    Agrees s p (.createScan i) (mutexCreate s p) := by
  induction j generalizing i with
  | zero =>
    have hnone : freeMux s.mutexes = none :=
      find?_finRange_eq_none.mpr fun l => by simpa using hbelow l (by omega)
    exact ⟨1, .done (-1), by simp [alone, code, mutexCreate, hnone, ← h], by simp [mutexCreate, hnone]; rfl⟩
  | succ j ih =>
    have hi : i < muxMaxNum := by omega
    by_cases hused : (s.mutexes ⟨i, hi⟩).used = 0
    · have hfree : freeMux s.mutexes = some ⟨i, hi⟩ :=
        find?_finRange_eq_some.mpr ⟨by simpa using hused, fun l hl => by simpa using hbelow l hl⟩
      refine ⟨3, .done i, ?_, by simp [mutexCreate, hfree]; rfl⟩
      simp [alone, code, mutexCreate, hfree, hi, hused, Mem.mutex]
      rfl
    · obtain ⟨n, k, halone, hends⟩ := ih (i + 1) (by omega) fun l hl => by
        rcases Nat.lt_succ_iff_lt_or_eq.mp hl with hlt | heq
        · exact hbelow l hlt
        · rwa [show l = ⟨i, hi⟩ from Fin.ext heq]
      exact ⟨n + 1, k, by simpa [alone, code, hi, hused] using halone, hends⟩

theorem checkMuxid_val (m : Mux) (err : Int) (next : Mux → Pc) : checkMuxid m err next = next m := by
  rw [checkMuxid, withMux_val]
  rfl

/-- A process that is not interrupted does instruction by instruction what a call does in one piece. -/
theorem call_alone {c : Call} {x : Option Int × State} (hp : (s.procs p).InUser) (h : call s p c = some x) :
    Agrees s p (entry c) x := by
  cases did_of_call h with
  | refused hentry =>
    rw [hentry]
    exact ⟨0, _, rfl, rfl⟩
  | create =>
    obtain ⟨n, k, halone, hends⟩ := createScan_alone (s := s) (p := p) muxMaxNum 0 rfl fun _ hl =>
      absurd hl (Nat.not_lt_zero _)
    exact ⟨n + 1, k, by simpa [alone, code, entry] using halone, hends⟩
  | kill pid => exact kill_alone pid
  | delete m => simpa only [entry, checkMuxid_val] using mutexDelete_alone
  | lock m => simpa only [entry, checkMuxid_val] using mutexLock_alone
  | unlock m => simpa only [entry, checkMuxid_val] using mutexUnlock_alone
  | wait m => simpa only [entry, checkMuxid_val] using cvWait_alone hp
  | signal m => simpa only [entry, checkMuxid_val] using cvSignal_alone

/-- A run of one call that nobody interrupts, to its return or its sleep. -/
theorem uninterrupted {σ τ : Sync.State Slot} {n : Nat} {c : Call} {k : Pc} {r : Option Int}
    {x : Option Int × State} (hp : (s.procs p).InUser) (hmem : σ.mem = s.mem) (hcall : call s p c = some x)
    (hrun : Run (Spin.Step (program s.table)) σ (.call p c :: List.replicate n (.step p)) τ)
    (hk : τ.pc p = some k) (hends : (code s.table p k).outcome τ.mem = some r) : r = x.1 ∧ τ.mem = x.2.mem := by
  obtain ⟨σ1, hfirst, hrest⟩ := hrun.cons_inv
  obtain ⟨-, rfl⟩ := called_of_step hfirst
  have halone := alone_of_run hrest goto_pc_self hk
  obtain ⟨n', k', halone', hends'⟩ := call_alone hp hcall
  rw [goto_mem, hmem] at halone
  have hone := alone_unique halone hends n'
  rw [Nat.add_comm] at hone
  obtain ⟨rfl, hsame⟩ := Prod.mk.inj (hone.symm.trans (alone_unique halone' hends' n))
  rw [hsame] at hends
  exact ⟨Option.some.inj (hends.symm.trans hends'), hsame⟩

end Xv6.Sync.Atomic
