import Xv6.Vm.Accounting

/-! # What the paging functions write

A function that builds page tables takes pages off the free list and writes to these pages only.
-/

namespace Xv6.Vm

open Lib

variable {pa x : Nat} {m m1 : Mem}

def OnPage (pa x : Nat) : Prop := pa ≤ x ∧ x < pa + pgSize

instance (pa x : Nat) : Decidable (OnPage pa x) := inferInstanceAs (Decidable (_ ∧ _))

theorem OnPage.unique {pb : Nat} (ha : pgSize ∣ pa) (hb : pgSize ∣ pb) (h : OnPage pa x) (h' : OnPage pb x) :
    pa = pb := by
  obtain ⟨c, rfl⟩ := ha
  obtain ⟨c', rfl⟩ := hb
  simp only [OnPage, pgSize] at *
  omega

/-- The pages `taken` have left the free list, and only they have been written to. -/
structure Takes (m : Mem) (taken : List Nat) (m' : Mem) : Prop where
  free : m.free = taken ++ m'.free
  ram : ∀ x, (∀ pa ∈ taken, ¬ OnPage pa x) → m'.ram x = m.ram x

theorem Takes.refl (m : Mem) : Takes m [] m := ⟨rfl, fun _ _ => rfl⟩

theorem Takes.trans {m2 : Mem} {l l' : List Nat} (h : Takes m l m1) (h' : Takes m1 l' m2) :
    Takes m (l ++ l') m2 where
  free := by rw [h.free, h'.free, List.append_assoc]
  ram := by
    intro x hx
    rw [h'.ram x fun pa hpa => hx pa (List.mem_append_right l hpa)]
    exact h.ram x fun pa hpa => hx pa (List.mem_append_left l' hpa)

/-- No page is free twice, and free pages are whole pages. -/
structure Mem.Proper (m : Mem) : Prop where
  nodup : m.free.Nodup
  aligned : ∀ pa ∈ m.free, pgSize ∣ pa

namespace Takes

variable {m m' : Mem} {taken : List Nat}

theorem mem_free (h : Takes m taken m') (hpa : pa ∈ taken) : pa ∈ m.free := by
  rw [h.free]
  exact List.mem_append_left _ hpa

theorem subset (h : Takes m taken m') (hpa : pa ∈ m'.free) : pa ∈ m.free := by
  rw [h.free]
  exact List.mem_append_right _ hpa

theorem proper (h : Takes m taken m') (hm : m.Proper) : m'.Proper := by
  constructor
  · have hnodup := hm.nodup
    rw [h.free] at hnodup
    exact hnodup.of_append_right
  · intro pa hpa
    exact hm.aligned pa (h.subset hpa)

theorem ram_of_not_free (h : Takes m taken m') (hm : m.Proper) (haligned : pgSize ∣ pa) (hpa : pa ∉ m.free)
    (hx : OnPage pa x) : m'.ram x = m.ram x := by
  apply h.ram
  intro pb hpb hx'
  have hfree := h.mem_free hpb
  rw [OnPage.unique haligned (hm.aligned pb hfree) hx hx'] at hpa
  exact hpa hfree

theorem ram_of_taken (h : Takes m taken m') {m0 : Mem} (hm : m0.Proper) {l : List Nat} (h0 : Takes m0 l m)
    (hpa : pa ∈ l) (hx : OnPage pa x) : m'.ram x = m.ram x := by
  have hnodup := hm.nodup
  rw [h0.free] at hnodup
  refine h.ram_of_not_free (h0.proper hm) (hm.aligned pa (h0.mem_free hpa)) ?_ hx
  intro hin
  exact (List.nodup_append.mp hnodup).2.2 pa hpa pa hin rfl

end Takes

/-! ## Building page tables -/

theorem kalloc_ram (h : kalloc m = some (pa, m1)) : m1.ram = m.ram := by
  unfold kalloc at h
  split at h
  · cases h
  · cases h
    rfl

theorem memset_takes (h : kalloc m = some (pa, m1)) (c : UInt8) : Takes m [pa] (m1.memset pa c pgSize) where
  free := (kalloc_some h).1
  ram := by
    intro x hx
    have hout : ¬ (pa ≤ x ∧ x < pa + pgSize) := hx pa List.mem_cons_self
    show (if pa ≤ x ∧ x < pa + pgSize then c else m1.ram x) = m.ram x
    rw [if_neg hout, kalloc_ram h]

theorem memmove_takes (h : kalloc m = some (pa, m1)) {bytes : List UInt8} (hlen : bytes.length = pgSize) :
    Takes m [pa] (m1.memmove pa bytes) where
  free := (kalloc_some h).1
  ram := by
    intro x hx
    have hout : ¬ (pa ≤ x ∧ x < pa + pgSize) := hx pa List.mem_cons_self
    show (if pa ≤ x ∧ x < pa + bytes.length then bytes.getD (x - pa) 0 else m1.ram x) = m.ram x
    rw [hlen, if_neg hout, kalloc_ram h]

theorem walkpgdir_takes {d d' : PgDir} {m' : Mem} {va : Nat} (h : walkpgdir d va m = some (d', m')) :
    ∃ l, Takes m l m' := by
  unfold walkpgdir at h
  split at h
  · cases h
    exact ⟨[], .refl m⟩
  split at h
  · cases h
  · rename_i pgtab m1 hk
    cases h
    exact ⟨[pgtab], memset_takes hk 0⟩

theorem mappage_takes {d d' : PgDir} {m' : Mem} {a : Nat} {perm : Perm} {ok : Bool}
    (h : mappage d a pa perm m = .ok (ok, d', m')) : ∃ l, Takes m l m' := by
  unfold mappage at h
  split at h
  · cases h
    exact ⟨[], .refl m⟩
  rename_i d1 m1 hwalk
  split at h
  · cases h
  · cases h
    exact walkpgdir_takes hwalk

end Xv6.Vm
