import Mathlib.Logic.Relation

namespace Xv6.Framework

variable {γ ι : Type} {waits holds : γ → ι → Prop} {rank : ι → Nat}

/-- c waits for a lock that d holds. -/
def WaitsFor (waits holds : γ → ι → Prop) (c d : γ) : Prop := ∃ l, waits c l ∧ holds d l

/-- Along a chain of waiting parties the locks grow in rank, if each party waits for a lock of
larger rank than all it holds. -/
theorem rank_of_waitsFor (hord : ∀ c l l', waits c l → holds c l' → rank l' < rank l) {c d : γ}
    (h : Relation.TransGen (WaitsFor waits holds) c d) :
    ∃ l l', waits c l ∧ holds d l' ∧ rank l ≤ rank l' := by
  induction h with
  | single h =>
    obtain ⟨l, hw, hh⟩ := h
    exact ⟨l, l, hw, hh, Nat.le_refl _⟩
  | tail _ h ih =>
    obtain ⟨l, l', hw, hh, hle⟩ := ih
    obtain ⟨m, hw', hh'⟩ := h
    exact ⟨l, m, hw, hh', Nat.le_of_lt (Nat.lt_of_le_of_lt hle (hord _ m l' hw' hh))⟩

theorem no_circular_wait (rank : ι → Nat)
    (hord : ∀ c l l', waits c l → holds c l' → rank l' < rank l) (c : γ) :
    ¬ Relation.TransGen (WaitsFor waits holds) c c := by
  intro h
  obtain ⟨l, l', hw, hh, hle⟩ := rank_of_waitsFor hord h
  exact absurd (hord c l l' hw hh) (Nat.not_lt.mpr hle)

end Xv6.Framework
