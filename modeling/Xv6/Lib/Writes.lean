import Mathlib.Logic.Function.Basic

/-! # Sequences of single-cell writes

A store maps addresses to cells; a list of writes is applied from left to right. The
facts are those a redo log rests on: cells no write names keep their content, and
replaying a list over any of its own prefixes gives what one replay gives.
-/

namespace Xv6.Lib

variable {β γ : Type _} [DecidableEq β] {ws vs : List (β × γ)} {d : β → γ} {w : β × γ} {x : β}

def applyWrites (ws : List (β × γ)) (d : β → γ) : β → γ :=
  ws.foldl (fun d w => Function.update d w.1 w.2) d

@[simp] theorem applyWrites_nil : applyWrites [] d = d := rfl

@[simp] theorem applyWrites_cons : applyWrites (w :: ws) d = applyWrites ws (Function.update d w.1 w.2) := rfl

theorem applyWrites_append : applyWrites (ws ++ vs) d = applyWrites vs (applyWrites ws d) :=
  List.foldl_append

theorem applyWrites_of_not_mem (h : x ∉ ws.map Prod.fst) : applyWrites ws d x = d x := by
  induction ws generalizing d with
  | nil => rfl
  | cons w ws ih =>
    simp only [List.map_cons, List.mem_cons, not_or] at h
    rw [applyWrites_cons, ih h.2, Function.update_of_ne h.1]

theorem applyWrites_of_mem (hnd : (ws.map Prod.fst).Nodup) (hw : w ∈ ws) : applyWrites ws d w.1 = w.2 := by
  induction ws generalizing d with
  | nil => cases hw
  | cons v ws ih =>
    simp only [List.map_cons, List.nodup_cons] at hnd
    rw [applyWrites_cons]
    rcases List.mem_cons.mp hw with rfl | hmem
    · rw [applyWrites_of_not_mem hnd.1, Function.update_self]
    · exact ih hnd.2 hmem

theorem applyWrites_congr {e : β → γ} (hnd : (ws.map Prod.fst).Nodup)
    (h : x ∉ ws.map Prod.fst → d x = e x) : applyWrites ws d x = applyWrites ws e x := by
  by_cases hx : x ∈ ws.map Prod.fst
  · obtain ⟨w, hw, rfl⟩ := List.mem_map.mp hx
    rw [applyWrites_of_mem hnd hw, applyWrites_of_mem hnd hw]
  · rw [applyWrites_of_not_mem hx, applyWrites_of_not_mem hx, h hx]

end Xv6.Lib
