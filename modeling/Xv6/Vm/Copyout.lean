import Xv6.Vm.AddressRange

/-! # `copyout`

The bytes go to the user addresses from `va` on, one behind the other and around the end of the
address space, up to the first page that is not a present user page. There `copyout` gives up; but
where such a page has no page table, `uva2ka` reads the entry through a null pointer.
-/

namespace Xv6.Vm

open Function Lib

variable {bytes : List UInt8} {m : Mem}

def PgDir.UserPage (d : PgDir) (va : Nat) : Prop :=
  (d.entry va).present = true ∧ (d.entry va).perm.user = true

instance (d : PgDir) (va : Nat) : Decidable (d.UserPage va) := inferInstanceAs (Decidable (_ ∧ _))

def PgDir.phys (d : PgDir) (va : Nat) : Nat := (d.entry va).addr + va % pgSize

/-- Bytes stored one by one at the addresses from `va` on. -/
def storeBytes (d : PgDir) : Nat → List UInt8 → (Nat → UInt8) → Nat → UInt8
  | _, [], ram => ram
  | va, b :: bytes, ram => storeBytes d ((va + 1) % uintMod) bytes (update ram (d.phys va) b)

/-- The first `k` bytes from `va` on lie on user pages. -/
def PgDir.UserRange (d : PgDir) (va k : Nat) : Prop := ∀ j, j < k → d.UserPage ((va + j) % uintMod)

/-! ## One page -/

variable {d : PgDir} {va : Nat}

theorem PgDir.UserPage.walk (h : d.UserPage va) : d.walk va ≠ none := by
  intro hnone
  have hpresent := h.1
  unfold PgDir.entry at hpresent
  rw [hnone] at hpresent
  cases hpresent

theorem walk_roundDown (hva : va < uintMod) : d.walk (pgRoundDown va) = d.walk va := by
  obtain ⟨hpdx, hptx⟩ := samePage_of_roundDown hva rfl
  unfold PgDir.walk
  rw [hpdx, hptx]

theorem entry_offset (d : PgDir) (k : Nat) (hva : va < uintMod) (hk : va % pgSize + k < pgSize) :
    (va + k) % uintMod = va + k ∧ d.walk (va + k) = d.walk va ∧ d.entry (va + k) = d.entry va := by
  have hlt : va + k < uintMod := by
    simp only [pgSize, uintMod, Nat.reducePow] at *
    omega
  have hsame : SamePage (va + k) va := by
    rw [samePage_iff hlt hva]
    simp only [pgSize] at *
    omega
  refine ⟨Nat.mod_eq_of_lt hlt, ?_, entry_samePage hsame⟩
  unfold PgDir.walk
  rw [hsame.1, hsame.2]

theorem storeBytes_append {bytes' : List UInt8} {ram : Nat → UInt8} (hva : va < uintMod) :
    storeBytes d va (bytes ++ bytes') ram =
      storeBytes d ((va + bytes.length) % uintMod) bytes' (storeBytes d va bytes ram) := by
  induction bytes generalizing va ram with
  | nil =>
    rw [List.nil_append, List.length_nil, Nat.add_zero, Nat.mod_eq_of_lt hva]
    rfl
  | cons b bytes ih =>
    have hnext : (va + 1) % uintMod < uintMod := Nat.mod_lt _ (by decide)
    rw [List.cons_append, storeBytes, storeBytes, ih hnext, List.length_cons, Nat.mod_add_mod,
      Nat.add_assoc, Nat.add_comm 1]

theorem storeBytes_page {ram : Nat → UInt8} (hva : va < uintMod)
    (hpage : va % pgSize + bytes.length ≤ pgSize) :
    storeBytes d va bytes ram = fun x =>
      if d.phys va ≤ x ∧ x < d.phys va + bytes.length then bytes.getD (x - d.phys va) 0 else ram x := by
  induction bytes generalizing va ram with
  | nil =>
    funext x
    rw [List.length_nil, if_neg (by omega)]
    rfl
  | cons b bytes ih =>
    rw [storeBytes]
    rw [List.length_cons] at hpage ⊢
    have hnext : bytes ≠ [] → (va + 1) % uintMod = va + 1 ∧ d.phys (va + 1) = d.phys va + 1 := by
      intro hne
      have hpos := List.length_pos_iff.mpr hne
      obtain ⟨hmod, -, hentry⟩ := entry_offset d 1 hva (by omega)
      refine ⟨hmod, ?_⟩
      unfold PgDir.phys
      rw [hentry]
      simp only [pgSize] at *
      omega
    have hrest : storeBytes d ((va + 1) % uintMod) bytes (update ram (d.phys va) b) = fun x =>
        if d.phys va + 1 ≤ x ∧ x < d.phys va + 1 + bytes.length then bytes.getD (x - (d.phys va + 1)) 0
        else update ram (d.phys va) b x := by
      by_cases hnil : bytes = []
      · subst hnil
        funext x
        rw [List.length_nil, if_neg (by omega)]
        rfl
      · obtain ⟨hmod, hphys⟩ := hnext hnil
        have hlt : va + 1 < uintMod := hmod ▸ Nat.mod_lt _ (by decide)
        rw [hmod, ih hlt (by simp only [pgSize] at *; omega), hphys]
    rw [hrest]
    funext x
    by_cases hx : x = d.phys va
    · subst hx
      rw [if_neg (by omega), if_pos (by omega), update_self, Nat.sub_self, List.getD_cons_zero]
    rw [update_of_ne hx]
    by_cases hin : d.phys va + 1 ≤ x ∧ x < d.phys va + 1 + bytes.length
    · have hsub : x - d.phys va = x - (d.phys va + 1) + 1 := by omega
      rw [if_pos hin, if_pos (by omega), hsub, List.getD_cons_succ]
    · rw [if_neg hin, if_neg (by omega)]

theorem entry_of_walk {pte : Pte} (h : d.walk va = some pte) : d.entry va = pte := by
  unfold PgDir.entry
  rw [h]
  rfl

theorem uva2ka_user (h : d.UserPage va) : uva2ka d va = .ok (some (d.entry va).addr) := by
  obtain ⟨pte, hwalk⟩ := Option.ne_none_iff_exists'.mp h.walk
  unfold PgDir.UserPage at h
  rw [entry_of_walk hwalk] at h ⊢
  unfold uva2ka
  rw [hwalk]
  dsimp only
  rw [if_pos h]

theorem uva2ka_other (hwalk : d.walk va ≠ none) (h : ¬ d.UserPage va) : uva2ka d va = .ok none := by
  obtain ⟨pte, hwalk⟩ := Option.ne_none_iff_exists'.mp hwalk
  unfold PgDir.UserPage at h
  rw [entry_of_walk hwalk] at h
  unfold uva2ka
  rw [hwalk]
  dsimp only
  rw [if_neg h]

theorem uva2ka_null (h : d.walk va = none) : uva2ka d va = .error "uva2ka: null pte" := by
  unfold uva2ka
  rw [h]

/-! ## The loop -/

/-- How `copyout` ends: all bytes are stored; or it gives up at a page that is not a user page, and
the bytes in front of it are stored. -/
structure CopyoutEnds (d : PgDir) (va : Nat) (bytes : List UInt8) (m : Mem) (ok : Bool) (m' : Mem) : Prop where
  free : m'.free = m.free
  done : ok = true → d.UserRange va bytes.length ∧ m'.ram = storeBytes d va bytes m.ram
  stopped : ok = false → ∃ k, k < bytes.length ∧ d.UserRange va k ∧
    d.walk ((va + k) % uintMod) ≠ none ∧ ¬ d.UserPage ((va + k) % uintMod) ∧
    m'.ram = storeBytes d va (bytes.take k) m.ram

def chunk (va len : Nat) : Nat := min (pgSize - va % pgSize) len

theorem chunk_le (va len : Nat) : chunk va len ≤ len := Nat.min_le_right ..

theorem chunk_page (va len : Nat) : va % pgSize + chunk va len ≤ pgSize := by
  unfold chunk pgSize
  omega

theorem copyoutLoop_succ {fuel : Nat} (hne : bytes ≠ []) :
    copyoutLoop d (fuel + 1) va bytes m = (uva2ka d (pgRoundDown va) >>= fun r =>
      r.elim (.ok (false, m)) fun pa =>
        copyoutLoop d fuel ((pgRoundDown va + pgSize) % uintMod) (bytes.drop (chunk va bytes.length))
          (m.memmove (pa + va % pgSize) (bytes.take (chunk va bytes.length)))) := by
  have hoff : va - pgRoundDown va = va % pgSize := by
    unfold pgRoundDown pgSize
    omega
  simp only [copyoutLoop]
  rw [if_neg hne, hoff]
  congr 1
  funext r
  cases r with
  | none => rfl
  | some pa => rfl

theorem copyoutLoop_nil {fuel : Nat} : copyoutLoop d fuel va [] m = .ok (true, m) := by
  cases fuel with
  | zero => rfl
  | succ fuel => rfl

theorem PgDir.UserRange.append {n k : Nat} (h : d.UserRange va n) (h' : d.UserRange ((va + n) % uintMod) k) :
    d.UserRange va (n + k) := by
  intro j hj
  by_cases hlt : j < n
  · exact h j hlt
  · have hrest := h' (j - n) (by omega)
    have hsum : va + n + (j - n) = va + j := by omega
    rw [Nat.mod_add_mod, hsum] at hrest
    exact hrest

theorem userRange_chunk (hva : va < uintMod) (h : d.UserPage va) (len : Nat) : d.UserRange va (chunk va len) := by
  intro j hj
  have hpage := chunk_page va len
  obtain ⟨hmod, -, hentry⟩ := entry_offset d j hva (by omega)
  unfold PgDir.UserPage
  rw [hmod, hentry]
  exact h

/-- A round that leaves bytes ends at the end of its page. -/
theorem chunk_next {len : Nat} (hlt : chunk va len < len) :
    (pgRoundDown va + pgSize) % uintMod = (va + chunk va len) % uintMod ∧
      va % pgSize + len = pgSize + (len - chunk va len) := by
  unfold chunk at *
  have hsum : pgRoundDown va + pgSize = va + min (pgSize - va % pgSize) len := by
    simp only [pgRoundDown, pgSize] at *
    omega
  constructor
  · rw [hsum]
  · simp only [pgSize] at *
    omega

theorem memmove_chunk (d : PgDir) (bytes : List UInt8) (m : Mem) (hva : va < uintMod) :
    (m.memmove ((d.entry va).addr + va % pgSize) (bytes.take (chunk va bytes.length))).ram =
      storeBytes d va (bytes.take (chunk va bytes.length)) m.ram := by
  have hpage := chunk_page va bytes.length
  rw [storeBytes_page hva (by rw [List.length_take]; omega)]
  rfl

theorem entry_roundDown (hva : va < uintMod) : d.entry (pgRoundDown va) = d.entry va := by
  unfold PgDir.entry
  rw [walk_roundDown hva]

theorem CopyoutEnds.nil (d : PgDir) (va : Nat) (m : Mem) : CopyoutEnds d va [] m true m where
  free := rfl
  done := fun _ => ⟨fun j hj => absurd hj (Nat.not_lt_zero j), rfl⟩
  stopped := fun h => by cases h

theorem CopyoutEnds.round {m' : Mem} {ok : Bool} (hva : va < uintMod) (hpage : d.UserPage va)
    (h : CopyoutEnds d ((va + chunk va bytes.length) % uintMod) (bytes.drop (chunk va bytes.length))
      (m.memmove ((d.entry va).addr + va % pgSize) (bytes.take (chunk va bytes.length))) ok m') :
    CopyoutEnds d va bytes m ok m' := by
  have hmove := memmove_chunk d bytes m hva
  have hrange := userRange_chunk hva hpage bytes.length
  have hle := chunk_le va bytes.length
  generalize chunk va bytes.length = n at *
  have hlen : (bytes.take n).length = n := by
    rw [List.length_take]
    omega
  have hstore : ∀ rest, storeBytes d ((va + n) % uintMod) rest (storeBytes d va (bytes.take n) m.ram) =
      storeBytes d va (bytes.take n ++ rest) m.ram := by
    intro rest
    rw [storeBytes_append hva, hlen]
  constructor
  · exact h.free
  · intro hok
    obtain ⟨hrest, hram⟩ := h.done hok
    constructor
    · have hall := hrange.append hrest
      rw [List.length_drop, Nat.add_sub_cancel' hle] at hall
      exact hall
    · rw [hram, hmove, hstore, List.take_append_drop]
  · intro hok
    obtain ⟨k, hk, hrest, hwalk, hnot, hram⟩ := h.stopped hok
    rw [List.length_drop] at hk
    rw [Nat.mod_add_mod, Nat.add_assoc] at hwalk hnot
    refine ⟨n + k, by omega, hrange.append hrest, hwalk, hnot, ?_⟩
    rw [hram, hmove, hstore, List.take_add]

/-- How the loop of `copyout` ends; it stops only at a page without a page table. -/
theorem copyoutLoop_gives {fuel : Nat} (hva : va < uintMod)
    (hfuel : va % pgSize + bytes.length ≤ fuel * pgSize) :
    Gives (copyoutLoop d fuel va bytes m) (fun r => CopyoutEnds d va bytes m r.1 r.2) fun e =>
      e = "uva2ka: null pte" ∧ ∃ k, k < bytes.length ∧ d.UserRange va k ∧ d.walk ((va + k) % uintMod) = none := by
  have hmod : (va + 0) % uintMod = va := Nat.mod_eq_of_lt hva
  have hnone : d.UserRange va 0 := fun j hj => absurd hj (Nat.not_lt_zero j)
  induction fuel generalizing va bytes m with
  | zero =>
    obtain rfl : bytes = [] := List.length_eq_zero_iff.mp (by omega)
    exact .ok (.nil d va m)
  | succ fuel ih =>
    by_cases hne : bytes = []
    · rw [hne, copyoutLoop_nil]
      exact .ok (.nil d va m)
    have hpos := List.length_pos_iff.mpr hne
    have hround := walk_roundDown (d := d) hva
    rw [copyoutLoop_succ hne]
    by_cases hwalk : d.walk va = none
    · rw [uva2ka_null (hround.trans hwalk)]
      exact .error ⟨rfl, 0, hpos, hnone, hmod.symm ▸ hwalk⟩
    have hpage' : d.UserPage (pgRoundDown va) ↔ d.UserPage va := by
      unfold PgDir.UserPage
      rw [entry_roundDown hva]
    by_cases hpage : d.UserPage va
    · rw [uva2ka_user (hpage'.mpr hpage), ok_bind, entry_roundDown hva]
      dsimp only [Option.elim]
      by_cases hlast : bytes.drop (chunk va bytes.length) = []
      · rw [hlast, copyoutLoop_nil]
        refine .ok (.round hva hpage ?_)
        rw [hlast]
        exact .nil d _ _
      have hlt : chunk va bytes.length < bytes.length := by
        rw [List.drop_eq_nil_iff] at hlast
        omega
      obtain ⟨hnext, hleft⟩ := chunk_next hlt
      have hstart : (va + chunk va bytes.length) % uintMod % pgSize = 0 := by
        rw [← hnext]
        simp only [pgRoundDown, pgSize, uintMod, Nat.reducePow]
        omega
      rw [hnext]
      refine (ih (Nat.mod_lt _ (by decide)) ?_ ?_ ?_).mono (fun r h => .round hva hpage h) ?_
      · rw [hstart, List.length_drop]
        simp only [pgSize] at *
        omega
      · exact Nat.mod_mod ..
      · exact fun j hj => absurd hj (Nat.not_lt_zero j)
      rintro e ⟨he, k, hk, hrange, hnull⟩
      rw [List.length_drop] at hk
      rw [Nat.mod_add_mod, Nat.add_assoc] at hnull
      exact ⟨he, chunk va bytes.length + k, by omega, (userRange_chunk hva hpage _).append hrange, hnull⟩
    · rw [uva2ka_other (by rw [hround]; exact hwalk) (mt hpage'.mp hpage), ok_bind]
      refine .ok ⟨rfl, by simp, fun _ => ⟨0, hpos, hnone, ?_, ?_, rfl⟩⟩
      · rw [hmod]
        exact hwalk
      · rw [hmod]
        exact hpage

theorem copyout_gives (hva : va < uintMod) :
    Gives (copyout d va bytes m) (fun r => CopyoutEnds d va bytes m r.1 r.2) fun e =>
      e = "uva2ka: null pte" ∧ ∃ k, k < bytes.length ∧ d.UserRange va k ∧ d.walk ((va + k) % uintMod) = none := by
  refine copyoutLoop_gives hva ?_
  simp only [pgSize]
  omega

/-- What `copyout` promises: it reads only entries that exist, and it has stored the bytes on user
pages and returns `0`, or it returns `-1` and has stored some of the first ones on user pages. -/
def KeepsToUser (d : PgDir) (va : Nat) (bytes : List UInt8) (m : Mem) : Prop :=
  ∃ ok m', copyout d va bytes m = .ok (ok, m') ∧ m'.free = m.free ∧
    (ok = true → d.UserRange va bytes.length ∧ m'.ram = storeBytes d va bytes m.ram) ∧
    (ok = false → ∃ k, k < bytes.length ∧ d.UserRange va k ∧ m'.ram = storeBytes d va (bytes.take k) m.ram)

/-- `copyout` keeps to the user pages exactly where the first page that is not one has a page
table. -/
theorem copyout_keeps_to_user (d : PgDir) (va : Nat) (hva : va < uintMod) (bytes : List UInt8) (m : Mem) :
    KeepsToUser d va bytes m ↔
      ∀ k, k < bytes.length → d.UserRange va k → d.walk ((va + k) % uintMod) ≠ none := by
  have hgives := @copyout_gives bytes m d va hva
  constructor
  · intro hkeeps k hk hrange
    obtain ⟨ok, m', hrun, -⟩ := hkeeps
    have hends := hgives.value hrun
    cases ok with
    | true => exact ((hends.done rfl).1 k hk).walk
    | false =>
      obtain ⟨k', -, hrange', hwalk, hnot, -⟩ := hends.stopped rfl
      obtain hlt | heq | hgt := Nat.lt_trichotomy k k'
      · exact (hrange' k hlt).walk
      · rw [heq]
        exact hwalk
      · exact absurd (hrange k' hgt) hnot
  · intro hread
    cases hrun : copyout d va bytes m with
    | error e =>
      obtain ⟨-, k, hk, hrange, hnull⟩ := hgives.fault hrun
      exact absurd hnull (hread k hk hrange)
    | ok r =>
      have hends := hgives.value hrun
      refine ⟨r.1, r.2, hrun, hends.free, hends.done, ?_⟩
      intro hok
      obtain ⟨k, hk, hrange, -, -, hram⟩ := hends.stopped hok
      exact ⟨k, hk, hrange, hram⟩

/-- A directory with one user page, at address `0`. -/
def onePage : PgDir :=
  ⟨0, fun i => if i = 0 then some ⟨pgSize, fun j => if j = 0 then ⟨2 * pgSize, true, .wu⟩ else .zero⟩ else none⟩

/-- Two bytes fit, and the third is for a page that is not there. -/
theorem copyout_keeps_to_user_onePage : KeepsToUser onePage 4094 [1, 2, 3] ⟨[], fun _ => 0⟩ := by
  have hwalk : ∀ k, k < 3 → onePage.walk ((4094 + k) % uintMod) ≠ none := by decide
  rw [copyout_keeps_to_user onePage 4094 (by decide)]
  intro k hk _
  exact hwalk k hk

/-- Behind the page table the entry is read through a null pointer. -/
theorem copyout_null_pte :
    copyout onePage 0x400000 [1] ⟨[], fun _ => 0⟩ = .error "uva2ka: null pte" ∧
      ¬ KeepsToUser onePage 0x400000 [1] ⟨[], fun _ => 0⟩ := by
  have hrun : copyout onePage 0x400000 [1] ⟨[], fun _ => 0⟩ = .error "uva2ka: null pte" := rfl
  refine ⟨hrun, ?_⟩
  intro hkeeps
  obtain ⟨ok, m', hok, -⟩ := hkeeps
  rw [hrun] at hok
  cases hok

end Xv6.Vm
