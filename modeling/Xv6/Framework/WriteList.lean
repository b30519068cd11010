import Mathlib.Data.List.Basic

namespace Xv6.Framework

variable {ι β : Type} [DecidableEq ι] {ws : List (ι × β)}

/-- A store after a list of writes, oldest first. -/
def applyWrites (d : ι → β) : List (ι × β) → ι → β
  | [] => d
  | w :: ws => applyWrites (Function.update d w.1 w.2) ws

@[simp] theorem applyWrites_nil (d : ι → β) : applyWrites d [] = d := rfl

@[simp] theorem applyWrites_append (d : ι → β) (ws ws' : List (ι × β)) :
    applyWrites d (ws ++ ws') = applyWrites (applyWrites d ws) ws' := by
  induction ws generalizing d with
  | nil => rfl
  | cons w ws ih => exact ih _

theorem applyWrites_of_not_mem {d : ι → β} {a : ι}
    (h : a ∉ ws.map Prod.fst) : applyWrites d ws a = d a := by
  induction ws generalizing d with
  | nil => rfl
  | cons w ws ih =>
    simp only [List.map_cons, List.mem_cons, not_or] at h
    rw [applyWrites, ih h.2, Function.update_of_ne h.1]

theorem applyWrites_of_mem {d : ι → β} {a : ι} {v : β}
    (hn : (ws.map Prod.fst).Nodup) (h : (a, v) ∈ ws) : applyWrites d ws a = v := by
  induction ws generalizing d with
  | nil => simp at h
  | cons w ws ih =>
    obtain ⟨hw, hws⟩ := List.nodup_cons.mp hn
    rcases List.mem_cons.mp h with rfl | h
    · rw [applyWrites, applyWrites_of_not_mem hw, Function.update_self]
    · exact ih hws h

/-- If every write carries the final value of its address and the store is final elsewhere,
applying the writes yields the final store: this is why a redo log may be replayed over any
partly installed state. -/
theorem applyWrites_eq_final {d T : ι → β} {a : ι}
    (hw : ∀ w ∈ ws, w.2 = T w.1) (ha : a ∉ ws.map Prod.fst → d a = T a) :
    applyWrites d ws a = T a := by
  induction ws generalizing d with
  | nil => exact ha (by simp)
  | cons w ws ih =>
    refine ih (fun x hx => hw x (by simp [hx])) fun hn => ?_
    by_cases hwa : a = w.1
    · subst hwa
      rw [Function.update_self]
      exact hw w (by simp)
    · rw [Function.update_of_ne hwa]
      exact ha (by simpa [hwa] using hn)

end Xv6.Framework
