import Xv6.Fs.Holds
import Xv6.Framework.Returns

namespace Xv6.Fs

open Xv6.Framework

namespace Hold

def edits : Hold → Bool
  | .locked _ _ _ _ _ => true
  | .freed _ _ => true
  | _ => false

/-- What a hold says about its inode `v`, which is `d` on disk. -/
def Fits (v : Inode) (d : Dinode) : Hold → Prop
  | .ref _ inum _ => v.inum = inum
  | .fresh _ inum => v.inum = inum
  | .locking _ inum _ => v.inum = inum
  | .locked _ inum freeing m d' => v.inum = inum ∧ v.valid = true ∧ v.copy = m ∧ d = d' ∧
      d'.type ≠ .free ∧ (freeing = true → m.nlink = 0)
  | .freed _ inum => v.inum = inum ∧ v.copy.blocks = []
  | .dropping _ inum => v.inum = inum
  | _ => True

theorem edits_eq_false {h : Hold} (hl : h.locks = false) : h.edits = false := by
  cases h <;> simp_all [edits, locks]

/-- Who does not have the lock knows no more than the inode's number. -/
theorem Fits.frame {h : Hold} {v v' : Inode} {d d' : Dinode} (hh : h.Fits v d)
    (hl : h.locks = false) (hi : v'.inum = v.inum) : h.Fits v' d' := by
  cases h <;> simp_all [Fits, locks]

end Hold

/-- One inode of the table, with its value on disk, the open files and working directories that
refer to it, what processes hold of it, and which of them are freeing it. -/
structure Entry (v : Inode) (d : Dinode) (anchors : Nat) (hs : ProcId → Multiset Hold)
    (putting : ProcId → Prop) : Prop where
  ref : v.ref = anchors + ∑ p, (hs p).card
  lock : ∀ p, v.lock = some p ↔ ∃ h ∈ hs p, h.locks = true
  lockOnce : ∀ p, (hs p).countP (·.locks = true) ≤ 1
  putting : ∀ p, putting p ↔ ∃ h ∈ hs p, h.puts = true
  putOnce : ∀ p, (hs p).countP (·.puts = true) ≤ 1
  fits : ∀ p, ∀ h ∈ hs p, h.Fits v d
  coherent : v.valid = true → 0 < v.ref → (∀ p, ∀ h ∈ hs p, h.edits = false) →
    v.copy = d ∧ d.type ≠ .free

namespace Entry

variable {v v' : Inode} {d d' : Dinode} {a : Nat} {hs : ProcId → Multiset Hold}
  {putting putting' : ProcId → Prop} {p : ProcId} {h h' : Hold} {r : Multiset Hold}

theorem card_update (hs : ProcId → Multiset Hold) (p : ProcId) (m : Multiset Hold) :
    ∑ q, (update hs p m q).card + (hs p).card = ∑ q, (hs q).card + m.card :=
  sum_update_add hs (fun _ m => m.card) p m

theorem forall_update {P : ProcId → Hold → Prop} {m : Multiset Hold} (hm : ∀ x ∈ m, P p x)
    (ho : ∀ q, q ≠ p → ∀ x ∈ hs q, P q x) : ∀ q, ∀ x ∈ update hs p m q, P q x := by
  intro q x hx
  by_cases hq : q = p
  · subst hq
    rw [update_self] at hx
    exact hm x hx
  · rw [update_of_ne hq] at hx
    exact ho q hq x hx

/-- The holder of the lock is the only one. -/
theorem sole (he : Entry v d a hs putting) (hp : hs p = h ::ₘ r) (hl : h.locks = true) :
    ∀ q, ∀ x ∈ update hs p r q, x.locks = false := by
  refine forall_update ?_ ?_
  · intro x hx
    by_contra hc
    have hone := he.lockOnce p
    rw [hp, Multiset.countP_cons_of_pos r hl] at hone
    have hpos : 0 < r.countP (·.locks = true) :=
      Multiset.countP_pos.mpr ⟨x, hx, by simpa using hc⟩
    omega
  · intro q hq x hx
    by_contra hc
    have h1 : v.lock = some q := (he.lock q).mpr ⟨x, hx, by simpa using hc⟩
    have h2 : v.lock = some p := (he.lock p).mpr ⟨h, by simp [hp], hl⟩
    exact hq (by simpa [h1] using h2)

theorem unlocked (he : Entry v d a hs putting) (hl : v.lock = none) (q : ProcId) :
    ∀ x ∈ hs q, x.locks = false := by
  intro x hx
  by_contra hc
  have h1 := (he.lock q).mpr ⟨x, hx, by simpa using hc⟩
  simp [hl] at h1

theorem owner (he : Entry v d a hs putting) (hp : hs p = h ::ₘ r) (hl : h.locks = true) :
    v.lock = some p :=
  (he.lock p).mpr ⟨h, by simp [hp], hl⟩

theorem fits_head (he : Entry v d a hs putting) (hp : hs p = h ::ₘ r) : h.Fits v d :=
  he.fits p h (by simp [hp])

theorem ref_pos (he : Entry v d a hs putting) (hp : hs p = h ::ₘ r) : 0 < v.ref := by
  have h1 := he.ref
  have h2 := le_sum_univ (fun q => (hs q).card) p
  simp only [hp, Multiset.card_cons] at h2
  omega

theorem empty (he : Entry v d a hs putting) (hr : v.ref = 0) (q : ProcId) : hs q = 0 := by
  have h1 := he.ref
  have h2 := le_sum_univ (fun q => (hs q).card) q
  exact Multiset.card_eq_zero.mp (by omega)

/-- A lone reference: no file, no directory and no other process has one. -/
theorem alone (he : Entry v d a hs putting) (hp : hs p = h ::ₘ r) (hr : v.ref = 1) :
    a = 0 ∧ r = 0 ∧ ∀ q, q ≠ p → hs q = 0 := by
  have h1 := he.ref
  have h2 := le_sum_univ (fun q => (hs q).card) p
  simp only [hp, Multiset.card_cons] at h2
  refine ⟨by omega, Multiset.card_eq_zero.mp (by omega), fun q hq => ?_⟩
  have h3 := add_le_sum_univ (fun q => (hs q).card) hq
  simp only [hp, Multiset.card_cons] at h3
  exact Multiset.card_eq_zero.mp (by omega)

/-- The step of a process that brings one of its holds into another state, when nobody else has
the lock. -/
theorem replace (he : Entry v d a hs putting) (hp : hs p = h ::ₘ r)
    (hnone : ∀ q, ∀ x ∈ update hs p r q, x.locks = false) (hi : v'.inum = v.inum)
    (hr : v'.ref = v.ref) (hl : v'.lock = if h'.locks then some p else none)
    (hput : ∀ q, q ≠ p → (putting' q ↔ putting q)) (hput' : putting' p ↔ ∃ x ∈ h' ::ₘ r, x.puts = true)
    (honce : (h' ::ₘ r).countP (·.puts = true) ≤ 1) (hf : h'.Fits v' d')
    (hc : v'.valid = true → h'.edits = false → v'.copy = d' ∧ d'.type ≠ .free) :
    Entry v' d' a (update hs p (h' ::ₘ r)) putting' := by
  have hrest : ∀ x ∈ r, x.locks = false := fun x hx => hnone p x (by simpa using hx)
  have hother : ∀ q, q ≠ p → ∀ x ∈ hs q, x.locks = false :=
    fun q hq x hx => hnone q x (by simpa [update_of_ne hq] using hx)
  constructor
  · have h1 := card_update hs p (h' ::ₘ r)
    have h2 := he.ref
    rw [hp, Multiset.card_cons, Multiset.card_cons] at h1
    omega
  · intro q
    by_cases hq : q = p
    · subst hq
      rw [update_self, hl]
      constructor
      · intro h1
        exact ⟨h', by simp, by by_contra hc'; simp [hc'] at h1⟩
      · rintro ⟨x, hx, hxl⟩
        rcases Multiset.mem_cons.mp hx with rfl | hx
        · simp [hxl]
        · simp [hrest x hx] at hxl
    · rw [update_of_ne hq, hl]
      constructor
      · intro h1
        split at h1
        · exact absurd (Option.some_injective _ h1).symm hq
        · cases h1
      · rintro ⟨x, hx, hxl⟩
        simp [hother q hq x hx] at hxl
  · intro q
    by_cases hq : q = p
    · subst hq
      rw [update_self, Multiset.countP_cons]
      have hz : r.countP (·.locks = true) = 0 :=
        Multiset.countP_eq_zero.mpr fun x hx => by simp [hrest x hx]
      split <;> omega
    · rw [update_of_ne hq]
      exact he.lockOnce q
  · intro q
    by_cases hq : q = p
    · subst hq
      rw [update_self]
      exact hput'
    · rw [update_of_ne hq, hput q hq]
      exact he.putting q
  · intro q
    by_cases hq : q = p
    · subst hq
      rw [update_self]
      exact honce
    · rw [update_of_ne hq]
      exact he.putOnce q
  · refine forall_update ?_ ?_
    · intro x hx
      rcases Multiset.mem_cons.mp hx with rfl | hx
      · exact hf
      · exact (he.fits p x (by simp [hp, hx])).frame (hrest x hx) hi
    · intro q hq x hx
      exact (he.fits q x hx).frame (hother q hq x hx) hi
  · intro hv _ hn
    exact hc hv (hn p h' (by simp))

theorem swap (he : Entry v d a hs putting) (hp : hs p = h ::ₘ r)
    (hnone : ∀ q, ∀ x ∈ update hs p r q, x.locks = false) (hi : v'.inum = v.inum)
    (hr : v'.ref = v.ref) (hl : v'.lock = if h'.locks then some p else none)
    (hput : h'.puts = h.puts) (hf : h'.Fits v' d')
    (hc : v'.valid = true → h'.edits = false → v'.copy = d' ∧ d'.type ≠ .free) :
    Entry v' d' a (update hs p (h' ::ₘ r)) putting := by
  refine he.replace hp hnone hi hr hl (fun _ _ => Iff.rfl) ?_ ?_ hf hc
  · rw [he.putting p, hp]
    simp [hput]
  · have hone := he.putOnce p
    rw [hp] at hone
    simpa [Multiset.countP_cons, hput] using hone

/-- A reference more for the process: a new one, or one that a file or a directory gave up. -/
theorem add {n a' : Nat} (he : Entry v d a hs putting) (hpos : 0 < v.ref) (hr : n + a = v.ref + a' + 1)
    (hl : h.locks = false) (hput : h.puts = false) (hf : h.Fits v d) :
    Entry { v with ref := n } d a' (update hs p (h ::ₘ hs p)) putting := by
  constructor
  · have h1 := card_update hs p (h ::ₘ hs p)
    have h2 := he.ref
    rw [Multiset.card_cons] at h1
    show n = _
    omega
  · intro q
    rw [he.lock q]
    by_cases hq : q = p
    · subst hq
      simp [hl]
    · rw [update_of_ne hq]
  · intro q
    by_cases hq : q = p
    · subst hq
      simpa [hl] using he.lockOnce q
    · rw [update_of_ne hq]
      exact he.lockOnce q
  · intro q
    rw [he.putting q]
    by_cases hq : q = p
    · subst hq
      simp [hput]
    · rw [update_of_ne hq]
  · intro q
    by_cases hq : q = p
    · subst hq
      simpa [hput] using he.putOnce q
    · rw [update_of_ne hq]
      exact he.putOnce q
  · refine forall_update ?_ ?_
    · intro x hx
      rcases Multiset.mem_cons.mp hx with rfl | hx
      · exact hf.frame hl rfl
      · exact he.fits p x hx
    · intro q hq x hx
      exact he.fits q x hx
  · intro hv _ hn
    refine he.coherent hv hpos fun q x hx => ?_
    by_cases hq : q = p
    · subst hq
      exact hn q x (by simp [hx])
    · exact hn q x (by simpa [update_of_ne hq] using hx)

/-- A reference less for the process: it is gone, or a file or a directory takes it. -/
theorem remove {n a' : Nat} (he : Entry v d a hs putting) (hp : hs p = h ::ₘ r)
    (hr : n + a + 1 = v.ref + a') (hl : h.locks = false)
    (hput : ∀ q, q ≠ p → (putting' q ↔ putting q)) (hput' : putting' p ↔ ∃ x ∈ r, x.puts = true)
    (hd : 0 < n → d' = d) :
    Entry { v with ref := n } d' a' (update hs p r) putting' := by
  have hone := he.lockOnce p
  have hpone := he.putOnce p
  rw [hp, Multiset.countP_cons] at hone hpone
  have hn : n = a' + ∑ q, (update hs p r q).card := by
    have h1 := card_update hs p r
    have h2 := he.ref
    rw [hp, Multiset.card_cons] at h1
    omega
  constructor
  · exact hn
  · intro q
    rw [he.lock q]
    by_cases hq : q = p
    · subst hq
      simp [hp, hl]
    · rw [update_of_ne hq]
  · intro q
    by_cases hq : q = p
    · subst hq
      rw [update_self]
      omega
    · rw [update_of_ne hq]
      exact he.lockOnce q
  · intro q
    by_cases hq : q = p
    · subst hq
      rw [update_self]
      exact hput'
    · rw [update_of_ne hq, hput q hq]
      exact he.putting q
  · intro q
    by_cases hq : q = p
    · subst hq
      rw [update_self]
      omega
    · rw [update_of_ne hq]
      exact he.putOnce q
  · intro q x hx
    have hpos : 0 < n := by
      have h1 := le_sum_univ (fun q => (update hs p r q).card) q
      have h2 : 0 < (update hs p r q).card := Multiset.card_pos_iff_exists_mem.mpr ⟨x, hx⟩
      omega
    rw [hd hpos]
    by_cases hq : q = p
    · subst hq
      exact he.fits q x (by simpa [hp] using .inr (by simpa using hx))
    · exact he.fits q x (by simpa [update_of_ne hq] using hx)
  · intro hv hpos hn'
    rw [hd hpos]
    refine he.coherent hv (he.ref_pos hp) fun q x hx => ?_
    by_cases hq : q = p
    · subst hq
      rw [hp] at hx
      rcases Multiset.mem_cons.mp hx with rfl | hx
      · exact Hold.edits_eq_false hl
      · exact hn' q x (by simpa using hx)
    · exact hn' q x (by simpa [update_of_ne hq] using hx)

/-- An unused entry taken for another inode. -/
theorem recycle {inum : Nat} (he : Entry v d a hs putting) (hr : v.ref = 0) (hl : h.locks = false)
    (hput : h.puts = false) (hf : h.Fits { v with inum := inum, ref := 1, valid := false } d') :
    Entry { v with inum := inum, ref := 1, valid := false } d' a
      (update hs p (h ::ₘ hs p)) putting := by
  have he' : Entry { v with inum := inum, ref := 1, valid := false } d' (a + 1) hs putting := by
    constructor
    · have h1 := he.ref
      show 1 = _
      omega
    · exact he.lock
    · exact he.lockOnce
    · exact he.putting
    · exact he.putOnce
    · intro q x hx
      rw [he.empty hr q] at hx
      simp at hx
    · intro hv
      cases hv
  exact he'.add Nat.one_pos (by show 1 + (a + 1) = 1 + a + 1; omega) hl hput hf

end Entry

end Xv6.Fs
