import Xv6.Params
import Xv6.Lib.Transition
import Xv6.Lib.WrapRing

/-! # The input of the console

`consoleintr` and `consoleread` of `console.c`. Both hold `cons.lock`, which a reader gives away only
while it sleeps, so all that a reader does between two sleeps is one step. The echo of a character
and `procdump` are left out.
-/

namespace Xv6.Console

open Function Lib
open Lib.WrapRing (Holds segment mod_eq_iff_of_lt distance)

abbrev inputBuf : Nat := 128

abbrev ctrlD : UInt8 := 4
abbrev ctrlH : UInt8 := 8
abbrev newline : UInt8 := 10
abbrev ctrlP : UInt8 := 16
abbrev ctrlU : UInt8 := 21
abbrev delete : UInt8 := 127

structure Input where
  buf : Nat → UInt8
  r : Nat
  w : Nat
  e : Nat

/-! ## `consoleintr` -/

/-- `input.e--`. -/
def Input.back (x : Input) : Input := { x with e := (x.e + uintMod - 1) % uintMod }

/-- The loop that kills a line, which has `fuel` characters. -/
def killLine : Nat → Input → Input
  | 0, x => x
  | fuel + 1, x =>
    if x.e ≠ x.w ∧ x.buf ((x.e + uintMod - 1) % uintMod % inputBuf) ≠ newline then killLine fuel x.back
    else x

/-- A character goes into the buffer; the end of a line, or of the buffer, commits it. -/
def Input.store (x : Input) (c : UInt8) : Input :=
  let x := { x with buf := update x.buf (x.e % inputBuf) c, e := (x.e + 1) % uintMod }
  if c = newline ∨ c = ctrlD ∨ x.e = (x.r + inputBuf) % uintMod then { x with w := x.e } else x

/-- The loop of `consoleintr` for one character. -/
def Input.handle (x : Input) (c : UInt8) : Input :=
  if c = ctrlP then x
  else if c = ctrlU then killLine ((x.e + uintMod - x.w) % uintMod) x
  else if c = ctrlH ∨ c = delete then if x.e ≠ x.w then x.back else x
  else if c ≠ 0 ∧ (x.e + uintMod - x.r) % uintMod < inputBuf then
    x.store (if c = 13 then newline else c)
  else x

/-! ## `consoleread` -/

/-- A reader when it stops, with `n` as it is then: `value` is what it returns, unless it sleeps. -/
structure Stop where
  input : Input
  dst : List UInt8
  n : Nat
  value : Option Int

/-- The loop of `consoleread`, from where `n` bytes are left to be read. -/
def readLoop (killed : Bool) (target : Nat) : Nat → Input → List UInt8 → Stop
  | 0, x, dst => ⟨x, dst, 0, some target⟩
  | n + 1, x, dst =>
    if x.r = x.w then ⟨x, dst, n + 1, if killed then some (-1) else none⟩
    else
      let c := x.buf (x.r % inputBuf)
      let y := { x with r := (x.r + 1) % uintMod }
      if c = ctrlD then
        ⟨if n + 1 < target then { y with r := (y.r + uintMod - 1) % uintMod } else y, dst, n + 1,
          some (target - (n + 1 : Nat))⟩
      else if c = newline then ⟨y, dst ++ [c], n, some (target - n)⟩
      else readLoop killed target n y (dst ++ [c])

/-! ## Runs -/

/-- A call of `consoleread` that sleeps. -/
structure Reader where
  target : Nat
  n : Nat
  dst : List UInt8

/-- A call that is over: what it was to read, what it returned and what it stored. -/
structure Result (ι : Type) where
  proc : ι
  target : Nat
  value : Int
  dst : List UInt8
  deriving DecidableEq

/-- The input, the readers and the calls that are over. The run also notes which characters `w`
has passed, and which `r` has passed and for whom. -/
structure State (ι : Type) where
  input : Input
  readers : ι → Option Reader
  results : List (Result ι)
  committed : List UInt8
  taken : List (ι × UInt8)

inductive Event (ι : Type)
  | intr (cs : List UInt8)
  | read (p : ι) (n : Int) (killed : Bool)
  | wake (p : ι) (killed : Bool)

def Input.between (x : Input) (i j : Nat) : List UInt8 := segment inputBuf uintMod x.buf i j

variable {ι : Type} [DecidableEq ι]

def State.handle (s : State ι) (c : UInt8) : State ι :=
  let x := s.input.handle c
  { s with input := x, committed := s.committed ++ x.between s.input.w x.w }

/-- The reader `p` runs until it sleeps or returns. -/
def State.resume (s : State ι) (p : ι) (x : Reader) (killed : Bool) : State ι :=
  let y := readLoop killed x.target x.n s.input x.dst
  { s with
    input := y.input
    readers := update s.readers p (if y.value = none then some ⟨x.target, y.n, y.dst⟩ else none)
    results := s.results ++ (y.value.map fun v => ⟨p, x.target, v, y.dst⟩).toList
    taken := s.taken ++ (s.input.between s.input.r y.input.r).map (p, ·) }

/-- A negative `n` asks for nothing, as `0` does. -/
def State.step (s : State ι) : Event ι → Option (State ι)
  | .intr cs => some (cs.foldl State.handle s)
  | .read p n killed =>
    if (s.readers p).isNone then some (s.resume p ⟨n.toNat, n.toNat, []⟩ killed) else none
  | .wake p killed => (s.readers p).map fun x => s.resume p x killed

abbrev Step (s : State ι) (e : Event ι) (t : State ι) : Prop := s.step e = some t

/-- What the calls of `p` have stored, in order. -/
def State.delivered (s : State ι) (p : ι) : List UInt8 :=
  (s.results.filter (·.proc = p)).flatMap Result.dst ++ ((s.readers p).map Reader.dst).getD []

/-- What `r` has passed for `p`. -/
def State.takenBy (s : State ι) (p : ι) : List UInt8 := (s.taken.filter (·.1 = p)).map Prod.snd

/-- The calls that were to read something and returned `0`. -/
def State.zeroReads (s : State ι) : List (Result ι) :=
  s.results.filter fun x => 0 < x.target ∧ x.value = 0

/-! ## The indices -/

/-- The characters up to `w` are `done`, those behind it `line`, and `n` of them have been read. -/
structure Input.Keeps (x : Input) (done line : List UInt8) (n : Nat) : Prop where
  ring : Holds inputBuf uintMod x.buf x.r x.e (done ++ line) n
  commit : x.w = done.length % uintMod
  behind : n ≤ done.length

variable {x : Input} {done line dst : List UInt8} {n m target : Nat} {killed : Bool}

theorem Input.Keeps.room (h : x.Keeps done line n) : done.length + line.length ≤ n + inputBuf := by
  have := h.ring.fits
  rw [List.length_append] at this
  omega

theorem Input.Keeps.edited_iff (h : x.Keeps done line n) : x.e = x.w ↔ line = [] := by
  have hroom := h.room
  have hbehind := h.behind
  have hlt : inputBuf < uintMod := by decide
  rw [h.ring.writes, h.commit, eq_comm, List.length_append, mod_eq_iff_of_lt (by omega) (by omega),
    ← List.length_eq_zero_iff]
  omega

theorem Input.Keeps.back (h : x.Keeps done line n) (hne : x.e ≠ x.w) :
    x.back.Keeps done line.dropLast n := by
  have hline : line ≠ [] := fun hnil => hne (h.edited_iff.mpr hnil)
  have hring := h.ring
  rw [← List.dropLast_concat_getLast hline, ← List.append_assoc] at hring
  have hle : n ≤ (done ++ line.dropLast).length := by
    rw [List.length_append]
    exact Nat.le_add_right_of_le h.behind
  unfold Input.back
  exact ⟨hring.unput (Nat.two_pow_pos 32) hle, h.commit, h.behind⟩

theorem killLine_keeps (h : x.Keeps done line n) (fuel : Nat) :
    ∃ line', (killLine fuel x).Keeps done line' n := by
  induction fuel generalizing x line with
  | zero => exact ⟨line, h⟩
  | succ fuel ih =>
    unfold killLine
    split
    · rename_i hmore
      exact ih (h.back hmore.1)
    · exact ⟨line, h⟩

theorem Input.Keeps.store (h : x.Keeps done line n) (hroom : (x.e + uintMod - x.r) % uintMod < inputBuf)
    (c : UInt8) : ∃ more line', (x.store c).Keeps (done ++ more) line' n := by
  rw [h.ring.used (by decide)] at hroom
  have hput := h.ring.put (by decide) hroom c
  rw [List.append_assoc] at hput
  unfold Input.store
  dsimp only
  split
  · refine ⟨line ++ [c], [], ?_, hput.writes, ?_⟩
    · rw [List.append_nil]
      exact hput
    · rw [List.length_append]
      exact Nat.le_add_right_of_le h.behind
  · refine ⟨[], line ++ [c], ?_⟩
    rw [List.append_nil]
    exact ⟨hput, h.commit, h.behind⟩

/-- A character is added to what `w` has passed, or to the line, or it edits the line. -/
theorem Input.Keeps.handle (h : x.Keeps done line n) (c : UInt8) :
    ∃ more line', (x.handle c).Keeps (done ++ more) line' n ∧
      (c = ctrlU ∨ c = ctrlH ∨ c = delete → more = []) := by
  have hsame : ∀ {y : Input} {line'}, y.Keeps done line' n → y.Keeps (done ++ []) line' n := by
    intro y line' hy
    rwa [List.append_nil]
  unfold Input.handle
  split
  · exact ⟨[], line, hsame h, fun _ => rfl⟩
  split
  · obtain ⟨line', h'⟩ := killLine_keeps h ((x.e + uintMod - x.w) % uintMod)
    exact ⟨[], line', hsame h', fun _ => rfl⟩
  split
  · split
    · rename_i hne
      exact ⟨[], _, hsame (h.back hne), fun _ => rfl⟩
    · exact ⟨[], line, hsame h, fun _ => rfl⟩
  rename_i hnotU hnotH
  split
  · rename_i hroom
    obtain ⟨more, line', h'⟩ := h.store hroom.2 (if c = 13 then newline else c)
    exact ⟨more, line', h', fun hc => absurd hc (not_or.mpr ⟨hnotU, hnotH⟩)⟩
  · exact ⟨[], line, hsame h, fun _ => rfl⟩

theorem Input.Keeps.between (h : x.Keeps done line n) {i j : Nat} (hi : n ≤ i) (hij : i ≤ j)
    (hj : j ≤ done.length) : x.between (i % uintMod) (j % uintMod) = (done.take j).drop i := by
  have hseg := h.ring.segment_eq (by decide) (by decide) hi hij
    (Nat.le_trans hj (List.length_append ▸ Nat.le_add_right _ _))
  rw [List.take_append_of_le_length hj] at hseg
  exact hseg

/-! ## A reader -/

/-- What a reader has done that had stored `dst` when `n` characters had been read. -/
structure Serves (done line : List UInt8) (n target : Nat) (dst : List UInt8) (y : Stop) (n' : Nat) :
    Prop where
  le : n ≤ n'
  keeps : y.input.Keeps done line n'
  bytes : y.dst = dst ++ ((done.take n').drop n).filter (· ≠ ctrlD)
  eofs : ((done.take n').drop n).count ctrlD = if 0 < target ∧ y.value = some 0 then 1 else 0
  length : y.dst.length + y.n = target

theorem Input.Keeps.take (h : x.Keeps done line n) (hne : x.r ≠ x.w) :
    ∃ c, c = x.buf (x.r % inputBuf) ∧ done.drop n = c :: done.drop (n + 1) ∧ n < done.length ∧
      { x with r := (x.r + 1) % uintMod }.Keeps done line (n + 1) := by
  have hlt : n < done.length := by
    refine Nat.lt_of_le_of_ne h.behind ?_
    rintro rfl
    exact hne (h.ring.reads.trans h.commit.symm)
  obtain ⟨hget, hring⟩ := h.ring.take (by decide) (by rw [List.length_append]; omega)
  rw [List.getElem?_append_left hlt, List.getElem?_eq_getElem hlt, Option.some.injEq] at hget
  exact ⟨done[n], hget, List.drop_eq_getElem_cons hlt, hlt, hring, h.commit, hlt⟩

theorem Input.Keeps.put_back (h : x.Keeps done line n) :
    ((x.r + 1) % uintMod + uintMod - 1) % uintMod = x.r := by
  have := h.ring.reads
  simp only [uintMod] at this ⊢
  omega

theorem drop_take_succ {c : UInt8} {n' : Nat} (h : done.drop n = c :: done.drop (n + 1)) (hle : n + 1 ≤ n') :
    (done.take n').drop n = c :: (done.take n').drop (n + 1) := by
  rw [List.drop_take, List.drop_take, h, show n' - n = n' - (n + 1) + 1 by omega, List.take_succ_cons]

theorem readLoop_serves (killed : Bool) (h : x.Keeps done line n) (hlen : dst.length + m = target) :
    ∃ n', Serves done line n target dst (readLoop killed target m x dst) n' := by
  induction m generalizing x n dst with
  | zero =>
    refine ⟨n, Nat.le_refl n, h, by simp [readLoop], ?_, hlen⟩
    simp [readLoop]
    omega
  | succ m ih =>
    unfold readLoop
    split
    · refine ⟨n, Nat.le_refl n, h, by simp, ?_, hlen⟩
      cases killed <;> simp
    rename_i hne
    obtain ⟨c, hc, hdrop, hlt, hkeeps⟩ := h.take hne
    have hone := drop_take_succ hdrop (Nat.le_refl (n + 1))
    rw [List.drop_eq_nil_of_le (List.length_take_le ..)] at hone
    dsimp only
    rw [← hc]
    split
    · rename_i heof
      split
      · -- the character is put back, and the reader returns what it has stored
        refine ⟨n, Nat.le_refl n, ?_, by simp, ?_, hlen⟩
        · rw [h.put_back]
          exact h
        · simp
          omega
      · refine ⟨n + 1, Nat.le_succ n, hkeeps, ?_, ?_, hlen⟩
        · simp [hone, heof]
        · rw [hone, heof]
          simp
          omega
    rename_i heof
    split
    · refine ⟨n + 1, Nat.le_succ n, hkeeps, by simp [hone, heof], ?_, by simp; omega⟩
      rw [hone]
      simp [heof]
      omega
    have hstored : (dst ++ [c]).length + m = target := by
      simp
      omega
    obtain ⟨n', hs⟩ := ih hkeeps hstored
    have hcons := drop_take_succ hdrop hs.le
    refine ⟨n', Nat.le_of_succ_le hs.le, hs.keeps, ?_, ?_, hs.length⟩
    · rw [hs.bytes, hcons]
      simp [heof]
    · rw [hcons, ← hs.eofs]
      simp [heof]

theorem Input.Keeps.next {c : UInt8} {rest : List UInt8} (h : x.Keeps done line n)
    (hdrop : done.drop n = c :: rest) : x.r ≠ x.w ∧ x.buf (x.r % inputBuf) = c ∧
      { x with r := (x.r + 1) % uintMod }.Keeps done line (n + 1) ∧ done.drop (n + 1) = rest := by
  have hlt : n < done.length := by
    by_contra hge
    simp [List.drop_eq_nil_of_le (Nat.le_of_not_lt hge)] at hdrop
  have hunread : x.r ≠ x.w := by
    have hroom := h.room
    have hsmall : inputBuf < uintMod := by decide
    rw [h.ring.reads, h.commit, Ne, mod_eq_iff_of_lt hlt.le (by omega)]
    exact hlt.ne
  obtain ⟨b, hb, hcons, -, hkeeps⟩ := h.take hunread
  obtain ⟨rfl, hrest⟩ := List.cons.inj (hcons.symm.trans hdrop)
  exact ⟨hunread, hb.symm, hkeeps, hrest⟩

structure Balanced (s : State ι) (line : List UInt8) : Prop where
  keeps : s.input.Keeps s.committed line s.taken.length
  order : s.taken.map Prod.snd = s.committed.take s.taken.length
  readers : ∀ p x, s.readers p = some x → x.dst.length + x.n = x.target
  bytes : ∀ p, s.delivered p = (s.takenBy p).filter (· ≠ ctrlD)
  eofs : s.zeroReads.length = (s.taken.map Prod.snd).count ctrlD

variable {s t : State ι} {p : ι}

omit [DecidableEq ι] in
theorem State.handle_committed {more line' : List UInt8} {c : UInt8} (h : s.input.Keeps s.committed line n)
    (h' : (s.input.handle c).Keeps (s.committed ++ more) line' n) :
    (s.handle c).committed = s.committed ++ more := by
  have hbetween := h'.between h.behind (List.length_append ▸ Nat.le_add_right _ _) (Nat.le_refl _)
  rw [List.take_length, List.drop_left] at hbetween
  unfold State.handle
  dsimp only
  rw [h.commit, h'.commit, hbetween]

/-- A character adds to what is committed; one that edits the line adds nothing. -/
theorem Balanced.handle (h : Balanced s line) (c : UInt8) : ∃ more line', Balanced (s.handle c) line' ∧
    (s.handle c).committed = s.committed ++ more ∧ (c = ctrlU ∨ c = ctrlH ∨ c = delete → more = []) := by
  obtain ⟨more, line', hkeeps, hedit⟩ := h.keeps.handle c
  have hcommitted := State.handle_committed h.keeps hkeeps
  refine ⟨more, line', ⟨?_, ?_, h.readers, h.bytes, h.eofs⟩, hcommitted, hedit⟩
  · rw [hcommitted]
    exact hkeeps
  · rw [hcommitted]
    exact h.order.trans (List.take_append_of_le_length h.keeps.behind).symm

theorem Balanced.resume {x : Reader} (h : Balanced s line) (hlen : x.dst.length + x.n = x.target)
    (hdst : ((s.readers p).map Reader.dst).getD [] = x.dst) (killed : Bool) :
    Balanced (s.resume p x killed) line := by
  obtain ⟨n', hs⟩ := readLoop_serves killed h.keeps hlen
  unfold State.resume
  dsimp only
  generalize readLoop killed x.target x.n s.input x.dst = y at hs ⊢
  have hbetween : s.input.between s.input.r y.input.r = (s.committed.take n').drop s.taken.length := by
    rw [h.keeps.ring.reads, hs.keeps.ring.reads]
    exact h.keeps.between (Nat.le_refl _) hs.le hs.keeps.behind
  rw [hbetween]
  have hle := hs.le
  have hbehind := hs.keeps.behind
  have hbytes := hs.bytes
  have heofs := hs.eofs
  have horder : s.committed.take s.taken.length ++ (s.committed.take n').drop s.taken.length =
      s.committed.take n' := by
    have hsplit := List.take_append_drop s.taken.length (s.committed.take n')
    rwa [List.take_take, Nat.min_eq_left hle] at hsplit
  have htaken : s.taken.length + ((s.committed.take n').drop s.taken.length).length = n' := by
    simp
    omega
  generalize (s.committed.take n').drop s.taken.length = seg at *
  refine ⟨?_, ?_, fun q z hz => ?_, fun q => ?_, ?_⟩
  · rw [List.length_append, List.length_map, htaken]
    exact hs.keeps
  · simp only [List.map_append, List.map_map, comp_def, List.map_id', List.length_append, List.length_map,
      htaken, h.order, horder]
  · dsimp only at hz
    by_cases hq : q = p
    · subst hq
      rw [update_self] at hz
      split at hz
      · cases hz
        exact hs.length
      · cases hz
    · rw [update_of_ne hq] at hz
      exact h.readers q z hz
  · have hold := h.bytes q
    simp only [State.delivered, State.takenBy] at hold ⊢
    by_cases hq : q = p
    · subst hq
      rw [hdst] at hold
      simp only [List.filter_append, List.map_append, ← hold]
      cases hv : y.value with
      | none => simp [hbytes, List.filter_map, comp_def]
      | some v => simp [hbytes, List.filter_map, comp_def]
    · rw [update_of_ne hq]
      cases hv : y.value with
      | none => simp [hold, List.filter_map, comp_def, Ne.symm hq]
      | some v => simp [hold, List.filter_map, comp_def, Ne.symm hq]
  · rw [List.map_append, List.count_append, ← h.eofs, List.map_map]
    simp only [State.zeroReads, List.filter_append, List.length_append, comp_def, List.map_id', heofs]
    cases hv : y.value with
    | none => simp
    | some v => by_cases hz : 0 < x.target ∧ v = 0 <;> simp [hz]

theorem Balanced.step {e : Event ι} (h : ∃ line, Balanced s line) (hstep : Step s e t) :
    ∃ line, Balanced t line := by
  obtain ⟨line, h⟩ := h
  cases e with
  | intr cs =>
    cases hstep
    induction cs generalizing s line with
    | nil => exact ⟨line, h⟩
    | cons c cs ih =>
      obtain ⟨-, line', h', -⟩ := h.handle c
      exact ih line' h'
  | read p n killed =>
    obtain ⟨hnone, hstep⟩ := Option.ite_none_right_eq_some.mp hstep
    cases hstep
    rw [Option.isNone_iff_eq_none] at hnone
    exact ⟨line, h.resume (Nat.zero_add _) (by rw [hnone]; rfl) killed⟩
  | wake p killed =>
    obtain ⟨x, hx, rfl⟩ := Option.map_eq_some_iff.mp hstep
    exact ⟨line, h.resume (h.readers p x hx) (by rw [hx]; rfl) killed⟩

def booted (ι : Type) (buf : Nat → UInt8) : State ι := ⟨⟨buf, 0, 0, 0⟩, fun _ => none, [], [], []⟩

/-- Two readers wait for more than the buffer holds, and then there is a control-D. -/
def twoWaiting : List (Event (Fin 3)) :=
  [.intr (List.replicate 128 97), .read 0 200 false, .intr (List.replicate 128 98), .read 1 200 false,
    .intr [ctrlD], .wake 0 false, .wake 1 false, .read 2 10 false]

end Xv6.Console
