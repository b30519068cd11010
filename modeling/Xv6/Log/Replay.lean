import Xv6.Log.Model

namespace Xv6.Log

open Xv6.Framework

variable {g : Geometry} {w w' : World} {lh : List Nat}

def applyGroups (base : Nat → Data) (gs : List (List Write)) : Nat → Data :=
  applyWrites base (gs.flatten.map Write.pair)

theorem applyGroups_snoc (base : Nat → Data) (gs : List (List Write)) (x : List Write) :
    applyGroups base (gs ++ [x]) = applyWrites (applyGroups base gs) (x.map Write.pair) := by
  simp [applyGroups]

/-- The store after the first k groups handed to commit(). -/
def World.spec (w : World) (k : Nat) : Nat → Data :=
  applyGroups w.hist.base (w.hist.called.take k)

def World.full (w : World) : Nat → Data := w.spec w.hist.called.length

theorem getHead_putHead (d : Data) (lh : List Nat) : getHead (putHead d lh) = lh := by
  apply List.ext_getElem
  · simp [getHead, putHead]
  · intro i h1 h2
    simp [getHead, putHead, h2]

theorem getHead_zero {d : Data} (h : d 0 = 0) : getHead d = [] := by simp [getHead, h]

theorem mem_absorb {b x : Nat} : x ∈ absorb b lh ↔ x = b ∨ x ∈ lh := by
  induction lh with
  | nil => simp [absorb]
  | cons y ys ih =>
    by_cases h : y = b
    · subst h
      simp [absorb]
    · simp only [absorb, h, if_false, List.mem_cons]
      tauto

theorem absorb_nodup {b : Nat} (h : lh.Nodup) : (absorb b lh).Nodup := by
  induction lh with
  | nil => simp [absorb]
  | cons y ys ih =>
    obtain ⟨hy, hys⟩ := List.nodup_cons.mp h
    by_cases hb : y = b
    · subst hb
      simpa [absorb] using h
    · simp only [absorb, hb, if_false, List.nodup_cons]
      refine ⟨?_, ih hys⟩
      rw [mem_absorb]
      simp [hb, hy]

theorem absorb_length_le (b : Nat) (lh : List Nat) : (absorb b lh).length ≤ lh.length + 1 := by
  induction lh with
  | nil => simp [absorb]
  | cons y ys ih => simp only [absorb]; split <;> simp [ih]

/-- What log.lh and the header on disk always satisfy. -/
structure LhOk (g : Geometry) (lh : List Nat) : Prop where
  nodup : lh.Nodup
  home : ∀ b ∈ lh, Home g b
  fits : lh.length < g.size

theorem LhOk.of_nil (h : lh = []) : LhOk g lh := by
  subst h
  exact ⟨List.nodup_nil, by simp, g.pos⟩

/-- A log block in use is not a home block. -/
theorem Home.ne_log {i b x : Nat} (hx : Home g x) (h : LhOk g lh)
    (hi : lh[i]? = some b) : x ≠ g.start + i + 1 := by
  have hlt := (List.getElem?_eq_some_iff.mp hi).1
  have := h.fits
  unfold Home at hx
  omega

theorem Home.ne_start {x : Nat} (hx : Home g x) : x ≠ g.start := by
  have := g.pos
  unfold Home at hx
  omega

/-- The redo entries that the disk holds for the header lh. -/
def entries (g : Geometry) (disk : Nat → Data) (lh : List Nat) : List (Nat × Data) :=
  lh.mapIdx fun i b => (b, disk (g.start + i + 1))

theorem entries_keys (g : Geometry) (disk : Nat → Data) (lh : List Nat) :
    (entries g disk lh).map Prod.fst = lh := by
  apply List.ext_getElem <;> simp [entries]

/-- What a completed recovery makes of a disk image. -/
def replay (g : Geometry) (disk : Nat → Data) : Nat → Data :=
  applyWrites disk (entries g disk (getHead (disk g.start)))

theorem replay_of_empty {disk : Nat → Data} (h : getHead (disk g.start) = []) :
    replay g disk = disk := by
  simp [replay, h, entries]

/-- Replaying yields T if the log blocks hold T and the blocks outside the header already do. -/
theorem replay_eq {disk T : Nat → Data} {b : Nat}
    (hh : getHead (disk g.start) = lh)
    (hlog : ∀ i x, lh[i]? = some x → disk (g.start + i + 1) = T x)
    (hb : b ∉ lh → disk b = T b) : replay g disk b = T b := by
  rw [replay, hh]
  apply applyWrites_eq_final
  · intro x hx
    obtain ⟨i, hi, rfl⟩ := List.mem_mapIdx.mp hx
    exact hlog i _ (List.getElem?_eq_getElem hi)
  · rw [entries_keys]
    exact hb

theorem replay_at {disk : Nat → Data} (hl : LhOk g (getHead (disk g.start))) {i b : Nat}
    (hi : (getHead (disk g.start))[i]? = some b) : replay g disk b = disk (g.start + i + 1) := by
  obtain ⟨hlt, rfl⟩ := List.getElem?_eq_some_iff.mp hi
  apply applyWrites_of_mem
  · rw [entries_keys]
    exact hl.nodup
  · exact List.mem_mapIdx.mpr ⟨i, hlt, rfl⟩

end Xv6.Log
