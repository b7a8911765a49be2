import Xv6.Log.Model

/-! # Crash atomicity of the log

Every disk a crash can leave is in one of two phases: the header reads empty, or the
header and the log copies spell out the whole transaction while its home blocks may be
in any state. Recovery keeps each phase at every one of its own writes, and its last
write closes the second phase with the new contents in place.
-/

namespace Xv6.Log

open Function Lib

variable {ws : List (Nat × Block)} {b i : Nat} {w : Nat × Block} {s : LogState} {d d' : Nat → Block}

/-! ## Batches of disk writes -/

def LogState.bwriteAll (s : LogState) (ws : List (Nat × Block)) : LogState :=
  ws.foldl (fun s w => s.bwrite w.1 w.2) s

@[simp] theorem bwrite_writes (data : Block) : (s.bwrite b data).writes = s.writes ++ [(b, data)] := rfl

theorem bread_bwrite {c : Nat} (data : Block) :
    (s.bwrite b data).bread c = if c = b then data else s.bread c := by
  unfold LogState.bread LogState.bwrite
  by_cases h : c = b
  · subst h; simp
  · simp [h]

theorem bwriteAll_append {vs : List (Nat × Block)} : s.bwriteAll (ws ++ vs) = (s.bwriteAll ws).bwriteAll vs :=
  List.foldl_append

@[simp] theorem bwriteAll_lh :
    (s.bwriteAll ws).lh = s.lh := by
  induction ws generalizing s with
  | nil => rfl
  | cons w ws ih => exact ih

@[simp] theorem bwriteAll_writes :
    (s.bwriteAll ws).writes = s.writes ++ ws := by
  induction ws generalizing s with
  | nil => exact (List.append_nil _).symm
  | cons w ws ih =>
    have := ih (s := s.bwrite w.1 w.2)
    rw [bwrite_writes, List.append_assoc] at this
    exact this

@[simp] theorem bwriteAll_disk :
    (s.bwriteAll ws).disk = applyWrites ws s.disk := by
  induction ws generalizing s with
  | nil => rfl
  | cons w ws ih => exact ih

theorem bread_bwriteAll_of_not_mem (s : LogState) (h : b ∉ ws.map Prod.fst) :
    (s.bwriteAll ws).bread b = s.bread b := by
  induction ws generalizing s with
  | nil => rfl
  | cons w ws ih =>
    simp only [List.map_cons, List.mem_cons, not_or] at h
    have := ih (s.bwrite w.1 w.2) h.2
    rw [bread_bwrite, if_neg h.1] at this
    exact this

theorem bread_bwriteAll_of_mem (s : LogState) (hnd : (ws.map Prod.fst).Nodup) (hw : w ∈ ws) :
    (s.bwriteAll ws).bread w.1 = w.2 := by
  induction ws generalizing s with
  | nil => cases hw
  | cons v ws ih =>
    simp only [List.map_cons, List.nodup_cons] at hnd
    rcases List.mem_cons.mp hw with rfl | hmem
    · have := bread_bwriteAll_of_not_mem (s.bwrite w.1 w.2) hnd.1
      rw [bread_bwrite, if_pos rfl] at this
      exact this
    · exact ih (s.bwrite v.1 v.2) hnd.2 hmem

/-- A loop that writes block `addr tail` with what it reads from block `src tail` is a
batch of writes, when the data read before the loop is what each round reads. -/
theorem foldl_bwrite_eq (addr src : LogState → Nat → Nat)
    (haddr : ∀ (k i : Nat) (w : Nat × Block), ws[i]? = some w →
      addr (s.bwriteAll (ws.take k)) i = w.1) (hsrc : ∀ (i : Nat) (w : Nat × Block), ws[i]? = some w →
      (s.bwriteAll (ws.take i)).bread (src (s.bwriteAll (ws.take i)) i) = w.2) :
    (List.range ws.length).foldl (fun s i => s.bwrite (addr s i) (s.bread (src s i))) s =
      s.bwriteAll ws := by
  have prefix_eq : ∀ k, k ≤ ws.length →
      (List.range k).foldl (fun s i => s.bwrite (addr s i) (s.bread (src s i))) s =
        s.bwriteAll (ws.take k) := by
    intro k
    induction k with
    | zero => intro _; rfl
    | succ k ih =>
      intro hk
      have hw : ws[k]? = some ws[k] := List.getElem?_eq_getElem (by omega)
      rw [List.range_succ, List.foldl_append, ih (by omega), List.take_succ_eq_append_getElem
        (by omega), bwriteAll_append]
      simp only [List.foldl_cons, List.foldl_nil, LogState.bwriteAll]
      have ha := haddr k k _ hw
      have hs := hsrc k _ hw
      unfold LogState.bwriteAll at ha hs
      rw [ha, hs]
  have h := prefix_eq ws.length (Nat.le_refl _)
  rwa [List.take_length] at h

/-! ## The header block -/

/-- The entries `write_head` has stored after `k` rounds of its loop. -/
theorem encodeHead_loop (buf : Block) (f : Nat → Nat) (k : Nat) :
    let hb := (List.range k).foldl (fun hb i => hb.setWord (4 + 4 * i) (f i)) buf
    hb.word 0 = buf.word 0 ∧ ∀ i, i < k → hb.word (4 + 4 * i) = f i % 2 ^ 32 := by
  induction k with
  | zero => exact ⟨rfl, fun i hi => by omega⟩
  | succ k ih =>
    obtain ⟨hn, hb⟩ := ih
    rw [List.range_succ, List.foldl_append]
    simp only [List.foldl_cons, List.foldl_nil]
    constructor
    · rw [Bytes.word_setWord_disjoint _ _ (by omega), hn]
    intro i hi
    by_cases hik : i = k
    · subst hik
      rw [Bytes.word_setWord]
    · rw [Bytes.word_setWord_disjoint _ _ (by omega), hb i (by omega)]

theorem headerN_encodeHead (buf : Block) {lh : LogHeader} (hlo : 0 ≤ lh.n) (hhi : lh.n < 2 ^ 31) :
    headerN (encodeHead buf lh) = lh.n := by
  unfold headerN encodeHead
  rw [(encodeHead_loop _ lh.block lh.n.toNat).1, Bytes.word_setWord,
    Nat.mod_eq_of_lt (ofInt32_lt _), toInt32_ofInt32 (by omega) hhi]

theorem headerBlock_encodeHead (buf : Block) {lh : LogHeader} (hi : i < lh.n.toNat)
    (hb : lh.block i < uintMod) : headerBlock (encodeHead buf lh) i = lh.block i := by
  unfold headerBlock encodeHead
  rw [(encodeHead_loop _ lh.block lh.n.toNat).2 i hi, Nat.mod_eq_of_lt hb]

/-! ## The writes of a transaction -/

variable {g : Geometry} {tx : Transaction g}

/-- The copies `write_log` puts into the log area. -/
def Transaction.copies (tx : Transaction g) : List (Nat × Block) :=
  tx.blocks.zipIdx.map fun p => (g.start + p.2 + 1, p.1.2)

theorem Transaction.length_copies :
    tx.copies.length = tx.blocks.length := by
  simp [Transaction.copies]

theorem Transaction.copies_getElem? (tx : Transaction g) (h : tx.blocks[i]? = some w) :
    tx.copies[i]? = some (g.start + i + 1, w.2) := by
  simp [Transaction.copies, h]

theorem Transaction.getElem?_of_copies (tx : Transaction g) {c : Nat × Block} (h : tx.copies[i]? = some c) :
    ∃ w, tx.blocks[i]? = some w ∧ c = (g.start + i + 1, w.2) := by
  have hi : i < tx.blocks.length := by
    rw [← tx.length_copies]
    exact (List.getElem?_eq_some_iff.mp h).1
  refine ⟨_, List.getElem?_eq_getElem hi, ?_⟩
  rw [tx.copies_getElem? (List.getElem?_eq_getElem hi)] at h
  exact (Option.some.inj h).symm

/-- A copy goes to a log block past the header and inside the log area. -/
theorem Transaction.copies_mem (tx : Transaction g) {c : Nat × Block} (h : c ∈ tx.copies) :
    g.start < c.1 ∧ c.1 < g.start + g.size := by
  obtain ⟨i, hi⟩ := List.getElem?_of_mem h
  obtain ⟨w, hw, rfl⟩ := tx.getElem?_of_copies hi
  have := (List.getElem?_eq_some_iff.mp hw).1
  have := tx.length_le
  omega

theorem Transaction.copies_nodup (tx : Transaction g) : (tx.copies.map Prod.fst).Nodup := by
  have : tx.copies.map Prod.fst = (List.range tx.blocks.length).map fun i => g.start + i + 1 := by
    apply List.ext_getElem?
    intro i
    by_cases hi : i < tx.blocks.length
    · simp [Transaction.copies, hi]
    · simp [Transaction.copies, hi]
  rw [this]
  refine List.Pairwise.map _ ?_ List.nodup_range
  intro i j hij
  omega

theorem Transaction.home_not_copy (tx : Transaction g) (hb : b < g.start ∨ g.start + g.size ≤ b) :
    b ∉ tx.copies.map Prod.fst := by
  intro h
  obtain ⟨c, hc, rfl⟩ := List.mem_map.mp h
  have := tx.copies_mem hc
  omega

theorem Transaction.mem_home (tx : Transaction g) (h : b ∈ tx.blocks.map Prod.fst) :
    b < g.start ∨ g.start + g.size ≤ b := by
  obtain ⟨w, hw, rfl⟩ := List.mem_map.mp h
  exact tx.home w hw

theorem Transaction.start_not_home : g.start ∉ tx.blocks.map Prod.fst := by
  intro hm
  have := tx.mem_home hm
  have := g.size_pos
  omega

theorem Transaction.log_not_home (tx : Transaction g) (hi : i < tx.blocks.length) :
    g.start + i + 1 ∉ tx.blocks.map Prod.fst := by
  intro hm
  have := tx.mem_home hm
  have := tx.length_le
  omega

/-! ## Install and log loops -/

/-- `log.lh` lists the blocks of the transaction. -/
def Lists (tx : Transaction g) (lh : LogHeader) : Prop :=
  lh.n = tx.blocks.length ∧ ∀ (i : Nat) (w : Nat × Block), tx.blocks[i]? = some w → lh.block i = w.1

/-- The kernel reads the copies of the transaction in the log area. -/
def Copied (tx : Transaction g) (s : LogState) : Prop :=
  ∀ (i : Nat) (w : Nat × Block), tx.blocks[i]? = some w → s.bread (g.start + i + 1) = w.2

theorem installTrans_eq (hl : Lists tx s.lh) (hc : Copied tx s) :
    installTrans g s = s.bwriteAll tx.blocks := by
  unfold installTrans
  rw [hl.1, Int.toNat_natCast]
  refine foldl_bwrite_eq (fun s i => s.lh.block i) (fun _ i => g.start + i + 1) ?_ ?_
  · intro k i w hw
    rw [bwriteAll_lh]
    exact hl.2 i w hw
  intro i w hw
  have hi := (List.getElem?_eq_some_iff.mp hw).1
  rw [bread_bwriteAll_of_not_mem, hc i w hw]
  intro hm
  rw [List.map_take] at hm
  exact tx.log_not_home hi (List.mem_of_mem_take hm)

theorem writeLog_eq (h : Pending g tx s) : writeLog g s = s.bwriteAll tx.copies := by
  unfold writeLog
  rw [h.n_eq, Int.toNat_natCast, ← tx.length_copies]
  refine foldl_bwrite_eq (fun _ i => g.start + i + 1) (fun s i => s.lh.block i) ?_ ?_
  · intro k i c hc
    obtain ⟨w, _, rfl⟩ := tx.getElem?_of_copies hc
    rfl
  intro i c hc
  obtain ⟨w, hw, rfl⟩ := tx.getElem?_of_copies hc
  have hmem := List.mem_of_getElem? hw
  rw [bwriteAll_lh, h.block_eq i w hw, bread_bwriteAll_of_not_mem]
  · simp [LogState.bread, h.pinned w hmem]
  · intro hm
    rw [List.map_take] at hm
    exact tx.home_not_copy (tx.home w hmem) (List.mem_of_mem_take hm)

theorem clearHead_bwriteAll :
    clearHead (s.bwriteAll ws) = (clearHead s).bwriteAll ws := by
  induction ws generalizing s with
  | nil => rfl
  | cons w ws ih => exact ih

theorem writeHead_clearHead (g : Geometry) (s : LogState) :
    ∃ erased : Block, headerN erased = 0 ∧
      writeHead g (clearHead s) = (clearHead s).bwriteAll [(g.start, erased)] := by
  refine ⟨encodeHead ((clearHead s).bread g.start) (clearHead s).lh, ?_, rfl⟩
  have hn : (clearHead s).lh.n = 0 := rfl
  rw [headerN_encodeHead _ (by omega) (by omega), hn]

/-- A header block that spells out the transaction. -/
def Names (tx : Transaction g) (head : Block) : Prop :=
  headerN head = tx.blocks.length ∧
    ∀ (i : Nat) (w : Nat × Block), tx.blocks[i]? = some w → headerBlock head i = w.1

theorem writeHead_lists (hl : Lists tx s.lh) :
    ∃ head : Block, Names tx head ∧ writeHead g s = s.bwriteAll [(g.start, head)] := by
  have hlen : tx.blocks.length ≤ 30 := by
    have hlog : logSize = 30 := rfl
    have := g.size_le
    have := tx.length_le
    omega
  refine ⟨encodeHead (s.bread g.start) s.lh, ⟨?_, ?_⟩, rfl⟩
  · rw [headerN_encodeHead _ (by rw [hl.1]; omega) (by rw [hl.1]; omega), hl.1]
  intro i w hw
  have hi := (List.getElem?_eq_some_iff.mp hw).1
  have hb := hl.2 i w hw
  have hu := tx.isUint w (List.mem_of_getElem? hw)
  rw [headerBlock_encodeHead _ (by rw [hl.1]; omega) (by rw [hb]; exact hu), hb]

/-- The disk writes of `commit()`: the copies, the header, the home blocks, the header. -/
theorem commit_eq (h : Pending g tx s) (hne : tx.blocks ≠ []) :
    ∃ head erased : Block, Names tx head ∧ headerN erased = 0 ∧
      commit g s = (clearHead s).bwriteAll
        (tx.copies ++ [(g.start, head)] ++ tx.blocks ++ [(g.start, erased)]) := by
  have hpos := List.length_pos_iff.mpr hne
  have hn : s.lh.n > 0 := by rw [h.n_eq]; omega
  have hl : Lists tx s.lh := ⟨h.n_eq, h.block_eq⟩
  obtain ⟨head, hnames, hhead⟩ := writeHead_lists (s := s.bwriteAll tx.copies) (by rwa [bwriteAll_lh])
  rw [← bwriteAll_append] at hhead
  -- the copies are read back through the cache, past the header write
  have hc : Copied tx (s.bwriteAll (tx.copies ++ [(g.start, head)])) := by
    intro i w hw
    have hmem := List.mem_of_getElem? (tx.copies_getElem? hw)
    rw [bwriteAll_append, bread_bwriteAll_of_not_mem _ (by simp; omega)]
    exact bread_bwriteAll_of_mem s tx.copies_nodup hmem
  have hinst := installTrans_eq (by rwa [bwriteAll_lh]) hc
  obtain ⟨erased, he, herase⟩ :=
    writeHead_clearHead g (s.bwriteAll (tx.copies ++ [(g.start, head)] ++ tx.blocks))
  refine ⟨head, erased, hnames, he, ?_⟩
  unfold commit
  rw [if_pos hn, writeLog_eq h, hhead, hinst, ← bwriteAll_append, herase, clearHead_bwriteAll,
    ← bwriteAll_append]

theorem commit_writes_nil (h : Pending g tx s) (hnil : tx.blocks = []) :
    (commit g s).writes = [] := by
  have hn : ¬ s.lh.n > 0 := by rw [h.n_eq, hnil]; simp
  unfold commit
  rw [if_neg hn, h.writes_eq]

/-! ## The two phases of the disk -/

/-- The log reads empty and the home blocks are those of `d`. -/
def Idle (g : Geometry) (d d' : Nat → Block) : Prop :=
  headerN (d' g.start) = 0 ∧ HomeEq g d' d

/-- The header and the copies spell out the transaction; home blocks outside it are
those of `d`. -/
structure Committed (tx : Transaction g) (d d' : Nat → Block) : Prop where
  n_eq : headerN (d' g.start) = tx.blocks.length
  block_eq : ∀ (i : Nat) (w : Nat × Block), tx.blocks[i]? = some w → headerBlock (d' g.start) i = w.1
  copy_eq : ∀ (i : Nat) (w : Nat × Block), tx.blocks[i]? = some w → d' (g.start + i + 1) = w.2
  rest_eq : ∀ b, b < g.start ∨ g.start + g.size ≤ b → b ∉ tx.blocks.map Prod.fst → d' b = d b

theorem Committed.install (h : Committed tx d d') (k : Nat) :
    Committed tx d (applyWrites (tx.blocks.take k) d') := by
  have untouched : ∀ b, b ∉ tx.blocks.map Prod.fst →
      applyWrites (tx.blocks.take k) d' b = d' b := by
    intro b hb
    apply applyWrites_of_not_mem
    rw [List.map_take]
    exact fun hm => hb (List.mem_of_mem_take hm)
  have hstart := untouched g.start (tx.start_not_home)
  refine ⟨by rw [hstart]; exact h.n_eq, fun i w hw => by rw [hstart]; exact h.block_eq i w hw, ?_, ?_⟩
  · intro i w hw
    rw [untouched _ (tx.log_not_home (List.getElem?_eq_some_iff.mp hw).1)]
    exact h.copy_eq i w hw
  · intro b hb hout
    rw [untouched b hout]
    exact h.rest_eq b hb hout

theorem Committed.installed (h : Committed tx d d') :
    HomeEq g (applyWrites tx.blocks d') (applyWrites tx.blocks d) := by
  intro b hb
  exact applyWrites_congr tx.nodup (h.rest_eq b hb)

theorem homeEq_update (g : Geometry) (d : Nat → Block) (data : Block) :
    HomeEq g (update d g.start data) d := by
  intro b hb
  have := g.size_pos
  have hne : b ≠ g.start := by omega
  exact update_of_ne hne data d

theorem HomeEq.trans {e f : Nat → Block} (h1 : HomeEq g d e) (h2 : HomeEq g e f) : HomeEq g d f :=
  fun b hb => (h1 b hb).trans (h2 b hb)

/-! ## Recovery -/

theorem recover_idle (h : Idle g d d') : ∃ erased : Block, headerN erased = 0 ∧
      recoverFromLog g (booted d') =
        (clearHead (readHead g (booted d'))).bwriteAll [(g.start, erased)] := by
  have hn : (readHead g (booted d')).lh.n = 0 := h.1
  have hinst : installTrans g (readHead g (booted d')) = readHead g (booted d') := by
    unfold installTrans
    rw [hn]
    rfl
  unfold recoverFromLog
  rw [hinst]
  exact writeHead_clearHead g _

theorem recover_committed (h : Committed tx d d') : ∃ erased : Block, headerN erased = 0 ∧
      recoverFromLog g (booted d') =
        (clearHead (readHead g (booted d'))).bwriteAll (tx.blocks ++ [(g.start, erased)]) := by
  have hl : Lists tx (readHead g (booted d')).lh := by
    refine ⟨h.n_eq, fun i w hw => ?_⟩
    have hi := (List.getElem?_eq_some_iff.mp hw).1
    have hlt : (i : Int) < headerN (d' g.start) := by rw [h.n_eq]; omega
    exact (if_pos hlt).trans (h.block_eq i w hw)
  have hinst := installTrans_eq hl (fun i w hw => h.copy_eq i w hw)
  obtain ⟨erased, he, herase⟩ :=
    writeHead_clearHead g ((readHead g (booted d')).bwriteAll tx.blocks)
  refine ⟨erased, he, ?_⟩
  unfold recoverFromLog
  rw [hinst, herase, clearHead_bwriteAll, ← bwriteAll_append]

theorem recoveryWrites_idle (h : Idle g d d') :
    ∃ erased : Block, headerN erased = 0 ∧ recoveryWrites g d' = [(g.start, erased)] ∧
      recovered g d' = update d' g.start erased := by
  obtain ⟨erased, he, heq⟩ := recover_idle h
  refine ⟨erased, he, ?_, ?_⟩
  · rw [recoveryWrites, heq, bwriteAll_writes]
    rfl
  · rw [recovered, heq, bwriteAll_disk]
    rfl

theorem recoveryWrites_committed (h : Committed tx d d') :
    ∃ erased : Block, headerN erased = 0 ∧
      recoveryWrites g d' = tx.blocks ++ [(g.start, erased)] ∧
      recovered g d' = update (applyWrites tx.blocks d') g.start erased := by
  obtain ⟨erased, he, heq⟩ := recover_committed h
  refine ⟨erased, he, ?_, ?_⟩
  · rw [recoveryWrites, heq, bwriteAll_writes]
    rfl
  · rw [recovered, heq, bwriteAll_disk, applyWrites_append]
    rfl

/-- Erasing the header of an idle or fully installed disk leaves it idle. -/
theorem idle_update {erased : Block} (he : headerN erased = 0) (h : HomeEq g d' d) :
    Idle g d (update d' g.start erased) :=
  ⟨by rw [update_self]; exact he, (homeEq_update g d' erased).trans h⟩

theorem Idle.crash (h : Idle g d d') (k : Nat) : Idle g d (crashAfter k (recoveryWrites g d') d') := by
  obtain ⟨erased, he, hw, _⟩ := recoveryWrites_idle h
  rw [hw]
  cases k with
  | zero => exact h
  | succ k => simpa [crashAfter] using idle_update he h.2

/-- What a crash may leave while a committed transaction is being installed. -/
def Redo (tx : Transaction g) (d d' : Nat → Block) : Prop :=
  Committed tx d d' ∨ Idle g (applyWrites tx.blocks d) d'

theorem redo_of_prefix {erased : Block} (he : headerN erased = 0)
    (h : Committed tx d d') (k : Nat) : Redo tx d (crashAfter k (tx.blocks ++ [(g.start, erased)]) d') := by
  unfold crashAfter
  rw [List.take_append, applyWrites_append]
  by_cases hk : k ≤ tx.blocks.length
  · rw [Nat.sub_eq_zero_of_le hk]
    exact .inl (h.install k)
  · have hlast : 1 ≤ k - tx.blocks.length := by omega
    rw [List.take_of_length_le (i := k) (by omega), List.take_of_length_le hlast]
    exact .inr (idle_update he h.installed)

theorem Redo.crash (h : Redo tx d d') (k : Nat) :
    Redo tx d (crashAfter k (recoveryWrites g d') d') := by
  rcases h with h | h
  · obtain ⟨erased, he, hw, _⟩ := recoveryWrites_committed h
    rw [hw]
    exact redo_of_prefix he h k
  · exact .inr (h.crash k)

theorem Idle.crashes (h : Idle g d d') (ks : List Nat) : Idle g d (crashedRecoveries g d' ks) := by
  induction ks generalizing d' with
  | nil => exact h
  | cons k ks ih => exact ih (h.crash k)

theorem Redo.crashes (h : Redo tx d d') (ks : List Nat) :
    Redo tx d (crashedRecoveries g d' ks) := by
  induction ks generalizing d' with
  | nil => exact h
  | cons k ks ih => exact ih (h.crash k)

theorem Idle.recovered (h : Idle g d d') : Idle g d (recovered g d') := by
  obtain ⟨erased, he, _, hd⟩ := recoveryWrites_idle h
  rw [hd]
  exact idle_update he h.2

theorem Redo.recovered (h : Redo tx d d') :
    Idle g (applyWrites tx.blocks d) (recovered g d') := by
  rcases h with h | h
  · obtain ⟨erased, he, _, hd⟩ := recoveryWrites_committed h
    rw [hd]
    exact idle_update he h.installed
  · exact h.recovered

/-! ## Crash points of `commit()` -/

theorem lookup_of_mem (hnd : (ws.map Prod.fst).Nodup) (hw : w ∈ ws) : ws.lookup w.1 = some w.2 := by
  induction ws with
  | nil => cases hw
  | cons v ws ih =>
    obtain ⟨b, data⟩ := v
    simp only [List.map_cons, List.nodup_cons] at hnd
    rcases List.mem_cons.mp hw with rfl | hmem
    · exact List.lookup_cons_self
    · have hne : w.1 ≠ b := fun e => hnd.1 (e ▸ List.mem_map_of_mem hmem)
      rw [List.lookup_cons, beq_false_of_ne hne]
      exact ih hnd.2 hmem

theorem pending_pendingState (tx : Transaction g) (d : Nat → Block) : Pending g tx (pendingState tx d) where
  n_eq := rfl
  block_eq := fun i w hw => by simp [pendingState, hw]
  pinned := fun w hw => lookup_of_mem tx.nodup hw
  writes_eq := rfl

theorem idle_of_prefix (hdr : headerN (d g.start) = 0) (ws : List (Nat × Block))
    {k : Nat} (hk : k ≤ tx.blocks.length) : Idle g d (crashAfter k (tx.copies ++ ws) d) := by
  unfold crashAfter
  rw [List.take_append_of_le_length (by rw [tx.length_copies]; exact hk)]
  constructor
  · rw [applyWrites_of_not_mem]
    · exact hdr
    intro hm
    rw [List.map_take] at hm
    obtain ⟨c, hc, he⟩ := List.mem_map.mp (List.mem_of_mem_take hm)
    have := tx.copies_mem hc
    omega
  · intro b hb
    apply applyWrites_of_not_mem
    intro hm
    rw [List.map_take] at hm
    exact tx.home_not_copy hb (List.mem_of_mem_take hm)

theorem committed_of_head {head : Block} (hnames : Names tx head) :
    Committed tx d (applyWrites (tx.copies ++ [(g.start, head)]) d) := by
  rw [applyWrites_append]
  simp only [applyWrites_cons, applyWrites_nil]
  have hstart : update (applyWrites tx.copies d) g.start head g.start = head :=
    update_self ..
  refine ⟨by rw [hstart]; exact hnames.1, fun i w hw => by rw [hstart]; exact hnames.2 i w hw, ?_, ?_⟩
  · intro i w hw
    rw [update_of_ne (by omega)]
    exact applyWrites_of_mem tx.copies_nodup (List.mem_of_getElem? (tx.copies_getElem? hw))
  · intro b hhome hout
    rw [homeEq_update g _ head b hhome, applyWrites_of_not_mem (tx.home_not_copy hhome)]

/-- Every crash point of `commit()` leaves the old phase or the one to redo. -/
theorem commit_crash (h : Pending g tx s) (hne : tx.blocks ≠ [])
    (hdr : headerN (s.disk g.start) = 0) (k : Nat) :
    (k ≤ tx.blocks.length ∧ Idle g s.disk (crashAfter k (commit g s).writes s.disk)) ∨
      (tx.blocks.length < k ∧ Redo tx s.disk (crashAfter k (commit g s).writes s.disk)) := by
  obtain ⟨head, erased, hnames, he, heq⟩ := commit_eq h hne
  have hw : (clearHead s).writes = [] := h.writes_eq
  rw [heq, bwriteAll_writes, hw, List.nil_append]
  rcases Nat.lt_or_ge tx.blocks.length k with hk | hk
  · right
    refine ⟨hk, ?_⟩
    have hlen : (tx.copies ++ [(g.start, head)]).length = tx.blocks.length + 1 := by
      rw [List.length_append, tx.length_copies]
      rfl
    have hredo := redo_of_prefix he (committed_of_head (d := s.disk) hnames)
      (k - (tx.blocks.length + 1))
    unfold crashAfter at hredo ⊢
    rw [List.append_assoc, List.take_append, List.take_of_length_le (by omega), hlen,
      applyWrites_append]
    exact hredo
  · left
    rw [List.append_assoc, List.append_assoc]
    exact ⟨hk, idle_of_prefix hdr _ hk⟩

/-- Crash atomicity. Crash `commit()` after any number `k` of its disk writes, crash the
recovery any number of times after any number of its own writes, then let it finish: the
home blocks are all old or all new, they are new once the first `write_head` is on disk,
and the header reads empty. -/
theorem commit_atomic (g : Geometry) (tx : Transaction g) (s : LogState) (h : Pending g tx s)
    (hdr : headerN (s.disk g.start) = 0) (k : Nat) (ks : List Nat) :
    let final := recovered g (crashedRecoveries g (crashAfter k (commit g s).writes s.disk) ks)
    (HomeEq g final s.disk ∨ HomeEq g final (applyWrites tx.blocks s.disk)) ∧
      (tx.blocks.length < k → HomeEq g final (applyWrites tx.blocks s.disk)) ∧
      headerN (final g.start) = 0 := by
  intro final
  by_cases hnil : tx.blocks = []
  · -- nothing to commit, no write is made
    have hcrash : Idle g s.disk (crashAfter k (commit g s).writes s.disk) := by
      rw [commit_writes_nil h hnil, crashAfter, List.take_nil, applyWrites_nil]
      exact ⟨hdr, fun _ _ => rfl⟩
    have hidle : Idle g s.disk final := (hcrash.crashes ks).recovered
    rw [hnil, applyWrites_nil]
    exact ⟨.inl hidle.2, fun _ => hidle.2, hidle.1⟩
  · rcases commit_crash h hnil hdr k with ⟨hk, hidle⟩ | ⟨hk, hredo⟩
    · have hfin := (hidle.crashes ks).recovered
      exact ⟨.inl hfin.2, fun hlt => by omega, hfin.1⟩
    · have hfin := (hredo.crashes ks).recovered
      exact ⟨.inr hfin.2, fun _ => hfin.2, hfin.1⟩

/-- The log area of an image written by `mkfs`. -/
def mkfsLog : Geometry := ⟨2, logSize, by decide, by decide⟩

def twoBlocks : Transaction mkfsLog where
  blocks := [(60, fun _ => 7), (61, fun _ => 8)]
  length_le := by simp [mkfsLog, logSize, maxOpBlocks]
  nodup := by simp
  home := by simp [mkfsLog, logSize, maxOpBlocks]
  isUint := by simp [uintMod]

/-- The disk after `k` writes of the `commit()` of two blocks, two crashed recoveries and one more. -/
def twoRecovered (k : Nat) : Nat → Block :=
  recovered mkfsLog (crashedRecoveries mkfsLog
    (crashAfter k (commit mkfsLog (pendingState twoBlocks fun _ _ => 0)).writes fun _ _ => 0) [0, 1])

/-- Both blocks are old or both are new, and new right after the first `write_head`. -/
theorem commit_atomic_twoBlocks :
    (∀ k, ((twoRecovered k 60 = fun _ => 0) ∧ twoRecovered k 61 = fun _ => 0) ∨
      (twoRecovered k 60 = fun _ => 7) ∧ twoRecovered k 61 = fun _ => 8) ∧
    (twoRecovered 3 60 = fun _ => 7) ∧ twoRecovered 3 61 = fun _ => 8 := by
  have h := fun k => commit_atomic mkfsLog twoBlocks (pendingState twoBlocks fun _ _ => 0)
    (pending_pendingState _ _) (by decide) k [0, 1]
  refine ⟨fun k => (h k).1.imp (fun h => ⟨h 60 (by decide), h 61 (by decide)⟩) fun h => ?_, ?_⟩
  · exact ⟨h 60 (by decide), h 61 (by decide)⟩
  · have hnew := (h 3).2.1 (by decide)
    exact ⟨hnew 60 (by decide), hnew 61 (by decide)⟩

end Xv6.Log
