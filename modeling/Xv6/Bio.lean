import Xv6.Lib.Transition
import Xv6.Log.Model

/-! # The buffer cache

`bio.c` over the disk of `memide.c`. A process takes a buffer under `bcache.lock`, waits for its
sleep lock, works on it, gives back the sleep lock, and then, under `bcache.lock`, the buffer.
Other processes run between these steps; they are counted at the buffer they use.
-/

namespace Xv6.Bio

open Lib Function
open Log (Block)

abbrev nBuf : Nat := maxOpBlocks * 3

structure Buf where
  valid : Bool
  dirty : Bool
  dev : Nat
  blockno : Nat
  locked : Bool
  refcnt : Nat
  data : Block
  /-- The processes in `acquiresleep`, and those in `brelse` after `releasesleep`. -/
  waiting : Nat
  leaving : Nat

structure State where
  buf : Fin nBuf → Buf
  /-- The buffers in the order of the links `next` from `bcache.head` on; `prev` goes backwards. -/
  lru : List (Fin nBuf)
  disk : Nat → Block

instance : CoeFun State fun _ => Fin nBuf → Buf := ⟨State.buf⟩

def State.put (s : State) (b : Fin nBuf) (x : Buf) : State := { s with buf := update s b x }

/-- Each buffer is put in front of the list. -/
def binit : List (Fin nBuf) := (List.finRange nBuf).foldl (fun l b => b :: l) []

/-- `bget` until it releases `bcache.lock`. -/
def bget (s : State) (dev blockno : Nat) : Except String State :=
  match s.lru.find? fun b => (s b).dev = dev ∧ (s b).blockno = blockno with
  | some b =>
    .ok (s.put b { s b with refcnt := (s b).refcnt + 1, waiting := (s b).waiting + 1 })
  | none =>
    match s.lru.reverse.find? fun b => (s b).refcnt = 0 ∧ (s b).dirty = false with
    | some b => .ok (s.put b { s b with
        dev := dev, blockno := blockno, valid := false, dirty := false, refcnt := 1
        waiting := (s b).waiting + 1 })
    | none => .error "bget: no buffers"

def iderw (disksize : Nat) (s : State) (b : Fin nBuf) : Except String State :=
  let x := s b
  if x.locked = false then .error "iderw: buf not locked"
  else if x.valid ∧ x.dirty = false then .error "iderw: nothing to do"
  else if x.dev ≠ 1 then .error "iderw: request not for disk 1"
  else if x.blockno ≥ disksize then .error "iderw: block out of range"
  else if x.dirty then
    .ok { s.put b { x with dirty := false, valid := true } with
      disk := update s.disk x.blockno x.data }
  else .ok (s.put b { x with data := s.disk x.blockno, valid := true })

/-- `acquiresleep` once the lock is free, and the rest of `bread`. -/
def bread (disksize : Nat) (s : State) (b : Fin nBuf) : Except String State :=
  let s := s.put b { s b with locked := true, waiting := (s b).waiting - 1 }
  if (s b).valid = false then iderw disksize s b else .ok s

def bwrite (disksize : Nat) (s : State) (b : Fin nBuf) : Except String State :=
  if (s b).locked = false then .error "bwrite"
  else iderw disksize (s.put b { s b with dirty := true }) b

/-- `brelse` with its `releasesleep`. -/
def unlock (s : State) (b : Fin nBuf) : Except String State :=
  if (s b).locked = false then .error "brelse"
  else .ok (s.put b { s b with locked := false, leaving := (s b).leaving + 1 })

/-- `brelse` under `bcache.lock`. -/
def brelse (s : State) (b : Fin nBuf) : State :=
  let x := { s b with refcnt := (s b).refcnt - 1, leaving := (s b).leaving - 1 }
  { s.put b x with lru := if x.refcnt = 0 then b :: s.lru.erase b else s.lru }

/-! ## Runs -/

inductive Event
  | bget (dev blockno : Nat)
  | bread (b : Fin nBuf)
  /-- The holder changes the data and calls `log_write`, which marks the buffer dirty. -/
  | logWrite (b : Fin nBuf) (blockno : Nat) (data : Block)
  | bwrite (b : Fin nBuf) (blockno : Nat) (data : Block)
  | unlock (b : Fin nBuf)
  | brelse (b : Fin nBuf)

/-- A step of the process that is at this point of the code. -/
def Step (disksize : Nat) (s : State) (e : Event) (t : State) : Prop :=
  match e with
  | .bget dev blockno => Bio.bget s dev blockno = .ok t
  | .bread b => (0 < (s b).waiting ∧ (s b).locked = false) ∧ Bio.bread disksize s b = .ok t
  | .logWrite b blockno data => ((s b).locked ∧ (s b).blockno = blockno) ∧
    t = s.put b { s b with data := data, dirty := true }
  | .bwrite b blockno data => ((s b).locked ∧ (s b).blockno = blockno) ∧
    Bio.bwrite disksize (s.put b { s b with data := data }) b = .ok t
  | .unlock b => (s b).locked ∧ Bio.unlock s b = .ok t
  | .brelse b => 0 < (s b).leaving ∧ t = Bio.brelse s b

/-- The valid buffers, as the model of the log has them. -/
def State.cache (s : State) (n : Nat) : Option Block :=
  (s.lru.find? fun b => (s b).valid ∧ (s b).blockno = n).map fun b => (s b).data

def Event.written : Event → List (Nat × Block)
  | .logWrite _ blockno data | .bwrite _ blockno data => [(blockno, data)]
  | _ => []

def booted (disk : Nat → Block) : State where
  buf := fun _ => ⟨false, false, 0, 0, false, 0, fun _ => 0, 0, 0⟩
  lru := binit
  disk := disk

/-! ## The invariant -/

/-- A buffer counts its processes, and holds the content of its block as the kernel sees it. -/
@[mk_iff]
structure Buf.Fine (x : Buf) (view : Nat → Block) : Prop where
  refcnt : x.refcnt = x.waiting + x.locked.toNat + x.leaving
  locked : x.locked → x.valid
  dirty : x.dirty → x.valid
  valid : x.valid → x.dev = 1 ∧ x.data = view x.blockno

structure Sound (s : State) (view : Nat → Block) : Prop where
  lru : s.lru.Perm (List.finRange nBuf)
  unique : ∀ b c, (s b).dev ≠ 0 → (s b).dev = (s c).dev →
    (s b).blockno = (s c).blockno → b = c
  fine : ∀ b, (s b).Fine view
  disk : ∀ n, (∀ b, (s b).dirty → (s b).blockno ≠ n) → s.disk n = view n

variable {s t : State} {view view' d disk : Nat → Block} {b : Fin nBuf} {x : Buf} {disksize : Nat}
  {es : List Event}

attribute [grind =] Buf.fine_iff

theorem Sound.mem_lru (h : Sound s view) (b : Fin nBuf) : b ∈ s.lru := h.lru.mem_iff.mpr (List.mem_finRange b)

/-- A buffer that is dirty or in use stays with its block. -/
def Kept (s t : State) : Prop := ∀ b, 0 < (s b).refcnt ∨ (s b).dirty →
  (t b).dev = (s b).dev ∧ (t b).blockno = (s b).blockno

theorem Sound.put (h : Sound s view) {l : List (Fin nBuf)} (hlru : l.Perm (List.finRange nBuf)) (hfine : x.Fine view')
    (hkey : ∀ c, c ≠ b → x.dev ≠ 0 → x.dev = (s c).dev → x.blockno ≠ (s c).blockno)
    (hview : ∀ c, c ≠ b → (s c).valid → view' (s c).blockno = view (s c).blockno)
    (hdisk : ∀ n, (x.dirty → x.blockno ≠ n) → d n = view' n ∨ d n = s.disk n ∧ view' n = view n ∧
      ((s b).dirty → (s b).blockno ≠ n))
    (hkept : 0 < (s b).refcnt ∨ (s b).dirty → x.dev = (s b).dev ∧ x.blockno = (s b).blockno) :
    Sound ⟨update s b x, l, d⟩ view' ∧ Kept s ⟨update s b x, l, d⟩ := by
  refine ⟨⟨hlru, fun c c' => ?_, fun c => ?_, fun n hn => ?_⟩, fun c hc => ?_⟩ <;>
    simp only [update_apply] at *
  · have := h.unique c c'
    grind
  · have := h.fine c
    grind
  · rcases hdisk n (by grind) with hd | ⟨hd, hv, hb⟩
    · exact hd
    · rw [hd, hv]
      refine h.disk n fun c => ?_
      grind
  · grind

theorem iderw_ok (h : iderw disksize s b = .ok t) : (s b).dev = 1 ∧
    t = if (s b).dirty then { s.put b { s b with dirty := false, valid := true } with
        disk := update s.disk (s b).blockno (s b).data }
      else s.put b { s b with data := s.disk (s b).blockno, valid := true } := by
  unfold iderw at h
  grind

/-- One event keeps the buffers in order; what it writes is the new content of the block. -/
theorem step_sound {e : Event} (h : Sound s view) (hstep : Step disksize s e t) :
    Sound t (applyWrites e.written view) ∧ Kept s t := by
  have hunique := h.unique
  have hfine := h.fine
  cases e with
  | bget dev blockno =>
    change Sound t view ∧ _
    simp only [Step, bget] at hstep
    split at hstep
    · cases hstep
      refine h.put h.lru ?_ ?_ ?_ ?_ ?_ <;> grind
    · rename_i hmiss
      -- the block is in no buffer, so the one that is taken for it is the only one
      have hmiss : ∀ c, ¬ ((s c).dev = dev ∧ (s c).blockno = blockno) := fun c => by
        simpa using List.find?_eq_none.mp hmiss c (h.mem_lru c)
      split at hstep
      · rename_i b hfound
        have hfree : (s b).refcnt = 0 ∧ (s b).dirty = false := by simpa using List.find?_some hfound
        cases hstep
        refine h.put h.lru ?_ ?_ ?_ ?_ ?_ <;> grind
      · cases hstep
  | bread b =>
    change Sound t view ∧ _
    obtain ⟨⟨hwait, hfree⟩, hok⟩ := hstep
    simp only [bread, State.put, update_self] at hok
    split at hok
    · obtain ⟨hdev, rfl⟩ := iderw_ok hok
      simp only [State.put, update_self, update_idem] at hdev ⊢
      -- no buffer is dirty for the block, so the disk has its content
      have hdisk := h.disk (s b).blockno fun c => by grind
      rw [if_neg (by grind)]
      refine h.put h.lru ?_ ?_ ?_ ?_ ?_ <;> grind
    · cases hok
      refine h.put h.lru ?_ ?_ ?_ ?_ ?_ <;> grind
  | logWrite b blockno data =>
    obtain ⟨⟨hlock, rfl⟩, rfl⟩ := hstep
    change Sound _ (update view _ _) ∧ _
    refine h.put h.lru ?_ ?_ ?_ ?_ ?_ <;> grind
  | bwrite b blockno data =>
    obtain ⟨⟨hlock, rfl⟩, hok⟩ := hstep
    change Sound t (update view _ _) ∧ _
    simp only [bwrite] at hok
    split at hok
    · cases hok
    · obtain ⟨hdev, rfl⟩ := iderw_ok hok
      simp only [State.put, update_self, update_idem, if_true] at hdev ⊢
      refine h.put h.lru ?_ ?_ ?_ ?_ ?_ <;> grind
  | unlock b =>
    obtain ⟨hlock, hok⟩ := hstep
    change Sound t view ∧ _
    simp only [unlock, hlock, Bool.true_eq_false, if_false] at hok
    cases hok
    refine h.put h.lru ?_ ?_ ?_ ?_ ?_ <;> grind
  | brelse b =>
    obtain ⟨hleave, rfl⟩ := hstep
    change Sound _ view ∧ _
    have hfront := (List.perm_cons_erase (h.mem_lru b)).symm.trans h.lru
    refine h.put (d := s.disk) (by split <;> [exact hfront; exact h.lru]) ?_ ?_ ?_ ?_ ?_ <;> grind

theorem run_sound (h : Sound s view) (hrun : Run (Step disksize) s es t) :
    Sound t (applyWrites (es.flatMap Event.written) view) := by
  induction hrun generalizing view with
  | nil => exact h
  | cons hstep _ ih =>
    rw [List.flatMap_cons, applyWrites_append]
    exact ih (step_sound h hstep).1

theorem booted_sound (disk : Nat → Block) : Sound (booted disk) disk where
  lru := by
    change binit.Perm _
    decide
  unique := fun _ _ hdev => absurd rfl hdev
  fine := fun _ => ⟨rfl, nofun, nofun, nofun⟩
  disk := fun _ _ => rfl

/-- Whatever has been recycled, the holder of a buffer finds in it what was last written to its
block, and so does `bread` in the model of the log; a block that is older on the disk is kept in a
dirty buffer. -/
theorem held_buffer_content (hrun : Run (Step disksize) (booted disk) es s) :
    (∀ b, (s b).locked → (s b).dev = 1 ∧
      (s b).data = applyWrites (es.flatMap Event.written) disk (s b).blockno) ∧
    (∀ l : Log.LogState, l.disk = s.disk → l.cache = s.cache →
      l.bread = applyWrites (es.flatMap Event.written) disk) ∧
    ∀ n, s.disk n ≠ applyWrites (es.flatMap Event.written) disk n →
      ∃ b, (s b).dirty ∧ (s b).dev = 1 ∧ (s b).blockno = n := by
  have h := run_sound (booted_sound disk) hrun
  have hfine := h.fine
  refine ⟨fun b hb => (hfine b).valid ((hfine b).locked hb), fun l hdisk hcache => ?_, fun n hn => ?_⟩
  · funext n
    have hdisk' := h.disk n
    have hmem := h.mem_lru
    rw [Log.LogState.bread, hdisk, hcache, State.cache]
    cases hfind : s.lru.find? fun b => (s b).valid ∧ (s b).blockno = n <;> grind
  · by_contra hnone
    exact hn (h.disk n fun b hdirty hno => hnone ⟨b, hdirty, by grind⟩)

/-- A block is changed, given back and read once more. -/
def reread : List Event :=
  [.bget 1 5, .bread 0, .logWrite 0 5 fun _ => 7, .unlock 0, .brelse 0, .bget 1 5, .bread 0]

theorem reread_runs : ∃ s, Run (Step 8) (booted fun _ _ => 0) reread s ∧
    (s 0).locked ∧ (s 0).blockno = 5 ∧ (s 0).dirty :=
  ⟨_, .cons rfl (.cons ⟨⟨by decide, rfl⟩, rfl⟩ (.cons ⟨⟨rfl, rfl⟩, rfl⟩ (.cons ⟨rfl, rfl⟩
    (.cons ⟨Nat.one_pos, rfl⟩ (.cons rfl (.single ⟨⟨by decide, rfl⟩, rfl⟩)))))), rfl, rfl, rfl⟩

theorem held_buffer_content_reread : ∃ s, Run (Step 8) (booted fun _ _ => 0) reread s ∧
    (s 0).blockno = 5 ∧ (s 0).data = fun _ => 7 := by
  obtain ⟨s, hrun, hlocked, hno, -⟩ := reread_runs
  have hdata := ((held_buffer_content hrun).1 0 hlocked).2
  rw [hno] at hdata
  exact ⟨s, hrun, hno, hdata⟩

/-- In every reachable state the list has each buffer once, no two buffers cache one block, and
`refcnt` counts the processes at a buffer. No step takes a buffer that is dirty or in use from its
block, and `bget` only fails if all buffers are. -/
theorem buffers_in_order (hrun : Run (Step disksize) (booted disk) es s) : s.lru.Perm (List.finRange nBuf) ∧
    (∀ b c, (s b).dev ≠ 0 → (s b).dev = (s c).dev → (s b).blockno = (s c).blockno → b = c) ∧
    (∀ b, (s b).refcnt = (s b).waiting + (s b).locked.toNat + (s b).leaving) ∧
    (∀ e t, Step disksize s e t → Kept s t) ∧ ∀ dev blockno msg, bget s dev blockno = .error msg →
      ∀ b, 0 < (s b).refcnt ∨ (s b).dirty := by
  have h := run_sound (booted_sound disk) hrun
  refine ⟨h.lru, h.unique, fun b => (h.fine b).refcnt, fun e t hstep => (step_sound h hstep).2, ?_⟩
  intro dev blockno msg herr b
  have := h.mem_lru b
  unfold bget at herr
  grind

theorem buffers_in_order_reread : ∃ s, Run (Step 8) (booted fun _ _ => 0) reread s ∧
    (s 0).dirty ∧ ∀ e t, Step 8 s e t → Kept s t := by
  obtain ⟨s, hrun, -, -, hdirty⟩ := reread_runs
  exact ⟨s, hrun, hdirty, (buffers_in_order hrun).2.2.2.1⟩

end Xv6.Bio
