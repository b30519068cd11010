import Mathlib.Tactic.Common

namespace Xv6.Framework

open Function (update update_self update_of_ne)

variable {ι : Type} {lo hi : Nat} {used used' : Nat → Prop} {H H' : ι → Nat}

/-- Resources from `lo` up to `hi` that are given out one by one, to holders that have at most one
each; a holder with 0 has none. Those below `lo` are always in use. -/
structure Owned (lo hi : Nat) (used : Nat → Prop) (H : ι → Nat) : Prop where
  range : ∀ x, H x ≠ 0 → lo ≤ H x ∧ H x < hi
  distinct : ∀ x y, H x ≠ 0 → H x = H y → x = y
  used : ∀ b, b < hi → (used b ↔ b < lo ∨ b ≠ 0 ∧ ∃ x, H x = b)

namespace Owned

theorem congr (h : Owned lo hi used H) (hu : ∀ b, b < hi → (used' b ↔ used b)) (hH : ∀ x, H' x = H x) :
    Owned lo hi used' H' := by
  obtain rfl : H' = H := funext hH
  exact ⟨h.range, h.distinct, fun b hb => (hu b hb).trans (h.used b hb)⟩

theorem used_of_held (h : Owned lo hi used H) {x : ι} (hx : H x ≠ 0) : used (H x) :=
  (h.used (H x) (h.range x hx).2).mpr (.inr ⟨hx, x, rfl⟩)

theorem not_held (h : Owned lo hi used H) {b : Nat} (hb : ¬ used b) (hlt : b < hi) (h0 : b ≠ 0)
    (x : ι) : H x ≠ b :=
  fun hx => hb ((h.used b hlt).mpr (.inr ⟨h0, x, hx⟩))

theorem le_of_not_used (h : Owned lo hi used H) {b : Nat} (hb : ¬ used b) (hlt : b < hi) : lo ≤ b := by
  by_contra hl
  exact hb ((h.used b hlt).mpr (.inl (by omega)))

variable [DecidableEq ι]

/-- A resource that is not in use is given to a holder that has none. -/
theorem assign (h : Owned lo hi used H) {x : ι} {b : Nat} (hx : H x = 0) (hb : ¬ used b)
    (hlt : b < hi) (hlo : 0 < lo) (hu : ∀ c, c < hi → (used' c ↔ used c ∨ c = b)) :
    Owned lo hi used' (update H x b) := by
  have hle := h.le_of_not_used hb hlt
  have hb0 : b ≠ 0 := by omega
  refine ⟨fun y hy => ?_, fun y z hy hyz => ?_, fun c hc => ?_⟩
  · by_cases he : y = x
    · rw [he, update_self]
      exact ⟨hle, hlt⟩
    · rw [update_of_ne he] at hy ⊢
      exact h.range y hy
  · by_cases hyx : y = x <;> by_cases hzx : z = x
    · rw [hyx, hzx]
    · subst hyx
      rw [update_self, update_of_ne hzx] at hyz
      exact absurd hyz.symm (h.not_held hb hlt hb0 z)
    · subst hzx
      rw [update_self, update_of_ne hyx] at hyz
      exact absurd hyz (h.not_held hb hlt hb0 y)
    · rw [update_of_ne hyx] at hy
      rw [update_of_ne hyx, update_of_ne hzx] at hyz
      exact h.distinct y z hy hyz
  · rw [hu c hc, h.used c hc]
    constructor
    · rintro ((hl | ⟨h0, y, hy⟩) | rfl)
      · exact .inl hl
      · refine .inr ⟨h0, y, ?_⟩
        have hne : y ≠ x := by
          rintro rfl
          exact h0 (hy.symm.trans hx)
        rw [update_of_ne hne, hy]
      · exact .inr ⟨hb0, x, update_self _ _ _⟩
    · rintro (hl | ⟨h0, y, hy⟩)
      · exact .inl (.inl hl)
      · by_cases he : y = x
        · rw [he, update_self] at hy
          exact .inr hy.symm
        · rw [update_of_ne he] at hy
          exact .inl (.inr ⟨h0, y, hy⟩)

theorem release (h : Owned lo hi used H) {x : ι} (hx : H x ≠ 0)
    (hu : ∀ c, c < hi → (used' c ↔ used c ∧ c ≠ H x)) :
    Owned lo hi used' (update H x 0) := by
  refine ⟨fun y hy => ?_, fun y z hy hyz => ?_, fun c hc => ?_⟩
  · have he : y ≠ x := by
      rintro rfl
      exact hy (update_self _ _ _)
    rw [update_of_ne he] at hy ⊢
    exact h.range y hy
  · have hyx : y ≠ x := by
      rintro rfl
      exact hy (update_self _ _ _)
    rw [update_of_ne hyx] at hy hyz
    have hzx : z ≠ x := by
      rintro rfl
      rw [update_self] at hyz
      exact hy hyz
    rw [update_of_ne hzx] at hyz
    exact h.distinct y z hy hyz
  · rw [hu c hc, h.used c hc]
    constructor
    · rintro ⟨hl | ⟨h0, y, hy⟩, hne⟩
      · exact .inl hl
      · refine .inr ⟨h0, y, ?_⟩
        have he : y ≠ x := by
          rintro rfl
          exact hne hy.symm
        rw [update_of_ne he, hy]
    · rintro (hl | ⟨h0, y, hy⟩)
      · have := h.range x hx
        exact ⟨.inl hl, by omega⟩
      · have he : y ≠ x := by
          rintro rfl
          rw [update_self] at hy
          exact h0 hy.symm
        rw [update_of_ne he] at hy
        refine ⟨.inr ⟨h0, y, hy⟩, fun hc' => ?_⟩
        exact he (h.distinct x y hx (hc'.symm.trans hy.symm)).symm

end Owned

end Xv6.Framework
