import Mathlib.Logic.Function.Basic

namespace Xv6.Framework

open Function (update update_self update_of_ne)

/-- Numbered slots, each empty or with a key and a value. -/
abbrev Table (κ β : Type) := Nat → Option (κ × β)

namespace Table

variable {κ β : Type} {t : Table κ β} {j : Nat} {k : κ} {v : β} {m : κ → Option β}

/-- No key is in two slots. -/
def Distinct (t : Table κ β) : Prop :=
  ∀ i j k v w, t i = some (k, v) → t j = some (k, w) → i = j

/-- The map that a table stands for. -/
def Maps (t : Table κ β) (m : κ → Option β) : Prop :=
  ∀ k v, m k = some v ↔ ∃ j, t j = some (k, v)

theorem Maps.absent (h : Maps t m) (hk : m k = none) (j : Nat) (v : β) : t j ≠ some (k, v) := by
  intro hj
  have := (h k v).mpr ⟨j, hj⟩
  rw [hk] at this
  cases this

/-- A key that is new is put into an empty slot. -/
theorem Distinct.insert (h : Distinct t) (hk : ∀ i w, t i ≠ some (k, w)) :
    Distinct (update t j (some (k, v))) := by
  intro a b k' v' w' ha hb
  by_cases hja : a = j
  · by_cases hjb : b = j
    · rw [hja, hjb]
    · rw [hja, update_self] at ha
      rw [update_of_ne hjb] at hb
      cases ha
      exact absurd hb (hk b w')
  · rw [update_of_ne hja] at ha
    by_cases hjb : b = j
    · rw [hjb, update_self] at hb
      cases hb
      exact absurd ha (hk a v')
    · rw [update_of_ne hjb] at hb
      exact h a b k' v' w' ha hb

theorem Maps.insert [DecidableEq κ] (h : Maps t m) (hj : t j = none) (hk : m k = none) :
    Maps (update t j (some (k, v))) (update m k (some v)) := by
  intro k' v'
  constructor
  · intro hm
    by_cases he : k' = k
    · rw [he, update_self] at hm
      exact ⟨j, by rw [update_self, he, Option.some.inj hm]⟩
    · rw [update_of_ne he] at hm
      obtain ⟨i, hi⟩ := (h k' v').mp hm
      have hne : i ≠ j := by
        rintro rfl
        rw [hj] at hi
        cases hi
      exact ⟨i, by rw [update_of_ne hne, hi]⟩
  · rintro ⟨i, hi⟩
    by_cases hij : i = j
    · rw [hij, update_self] at hi
      cases hi
      rw [update_self]
    · rw [update_of_ne hij] at hi
      have hm := (h k' v').mpr ⟨i, hi⟩
      have hne : k' ≠ k := by
        rintro rfl
        rw [hk] at hm
        cases hm
      rw [update_of_ne hne, hm]

theorem Distinct.remove (h : Distinct t) : Distinct (update t j none) := by
  intro a b k' v' w' ha hb
  have hold : ∀ i u, update t j none i = some (k', u) → t i = some (k', u) := by
    intro i u hi
    by_cases hij : i = j
    · rw [hij, update_self] at hi
      cases hi
    · rwa [update_of_ne hij] at hi
  exact h a b k' v' w' (hold a v' ha) (hold b w' hb)

theorem Maps.remove [DecidableEq κ] (h : Maps t m) (hd : Distinct t) (hj : t j = some (k, v)) :
    Maps (update t j none) (update m k none) := by
  intro k' v'
  constructor
  · intro hm
    by_cases he : k' = k
    · rw [he, update_self] at hm
      cases hm
    · rw [update_of_ne he] at hm
      obtain ⟨i, hi⟩ := (h k' v').mp hm
      have hne : i ≠ j := by
        rintro rfl
        rw [hj] at hi
        cases hi
        exact he rfl
      exact ⟨i, by rw [update_of_ne hne, hi]⟩
  · rintro ⟨i, hi⟩
    by_cases hij : i = j
    · rw [hij, update_self] at hi
      cases hi
    · rw [update_of_ne hij] at hi
      have hne : k' ≠ k := by
        rintro rfl
        exact hij (hd i j k' v' v hi hj)
      rw [update_of_ne hne]
      exact (h k' v').mpr ⟨i, hi⟩

end Table

end Xv6.Framework
