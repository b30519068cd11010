import Mathlib.NumberTheory.Multiplicity

namespace Xv6.Sysutil

def multiplier : Nat := 1664525

def increment : Nat := 1013904223

/-- One call: the value returned, which is also the new seed. -/
def sysSysrand (seed : UInt32) : UInt64 × UInt32 :=
  let seed := seed * UInt32.ofNat multiplier + UInt32.ofNat increment
  (seed.toUInt64, seed)

/-- The values n calls return, and the seed they leave. -/
def calls : Nat → UInt32 → List UInt64 × UInt32
  | 0, seed => ([], seed)
  | n + 1, seed =>
    let r := sysSysrand seed
    let rs := calls n r.2
    (r.1 :: rs.1, rs.2)

def after (n : Nat) (seed : UInt32) : UInt32 := (fun s => (sysSysrand s).2)^[n] seed

theorem after_succ (n : Nat) (seed : UInt32) :
    after (n + 1) seed = after n (sysSysrand seed).2 :=
  Function.iterate_succ_apply _ n seed

theorem after_add (m n : Nat) (seed : UInt32) : after (m + n) seed = after m (after n seed) :=
  Function.iterate_add_apply _ m n seed

theorem calls_eq (n : Nat) (seed : UInt32) :
    calls n seed =
      ((List.range n).map fun i => (after (i + 1) seed).toUInt64, after n seed) := by
  induction n generalizing seed with
  | zero => rfl
  | succ n ih =>
    rw [calls, ih, List.range_succ_eq_map, List.map_cons, List.map_map]
    simp only [Function.comp_def, after_succ]
    rfl

/-- How far n calls move the seed, as a multiple of what one call adds. -/
def drift (n : Nat) : Nat := ∑ i ∈ Finset.range n, multiplier ^ i

theorem drift_succ (n : Nat) : drift (n + 1) = multiplier * drift n + 1 :=
  geom_sum_succ

theorem after_eq (n : Nat) (seed : UInt32) :
    after n seed =
      UInt32.ofNat (seed.toNat + drift n * ((multiplier - 1) * seed.toNat + increment)) := by
  induction n with
  | zero => simp [after, drift]
  | succ n ih =>
    have hstep : seed.toNat + drift (n + 1) * ((multiplier - 1) * seed.toNat + increment) =
        (seed.toNat + drift n * ((multiplier - 1) * seed.toNat + increment)) * multiplier +
          increment := by
      rw [drift_succ, multiplier]
      ring
    rw [hstep, UInt32.ofNat_add, UInt32.ofNat_mul, ← ih, Nat.add_comm, after_add]
    rfl

/-- The twos of multiplier ^ n - 1 are those of multiplier - 1 and those of n. -/
theorem emultiplicity_drift (n : Nat) : emultiplicity 2 (drift n) = emultiplicity 2 n := by
  have hlift := Int.two_pow_sub_pow' (x := multiplier) (y := 1) n (by decide) (by decide)
  have hgeom : (multiplier : ℤ) ^ n - 1 ^ n = (multiplier - 1) * drift n := by
    rw [drift, one_pow, mul_comm]
    push_cast
    exact (geom_sum_mul _ n).symm
  have hfin : emultiplicity (2 : ℤ) (multiplier - 1) ≠ ⊤ :=
    finiteMultiplicity_iff_emultiplicity_ne_top.mp (Int.finiteMultiplicity_iff.mpr (by decide))
  rw [hgeom, emultiplicity_mul Int.prime_two] at hlift
  have h := WithTop.add_left_cancel hfin hlift
  exact_mod_cast h

theorem two_pow_dvd_drift (k n : Nat) : 2 ^ k ∣ drift n ↔ 2 ^ k ∣ n := by
  rw [pow_dvd_iff_le_emultiplicity, pow_dvd_iff_le_emultiplicity, emultiplicity_drift]

/-- The seed comes back after the multiples of 2 ^ 32 calls only. -/
theorem after_eq_self_iff (n : Nat) (seed : UInt32) : after n seed = seed ↔ 2 ^ 32 ∣ n := by
  have hodd : Odd ((multiplier - 1) * seed.toNat + increment) := by
    rw [Nat.odd_iff, multiplier, increment]
    omega
  have hcop := (Nat.coprime_two_left.mpr hodd).pow_left 32
  rw [← two_pow_dvd_drift, ← hcop.dvd_mul_right, after_eq, ← UInt32.toNat_inj, UInt32.toNat_ofNat']
  generalize drift n * _ = m
  have := seed.toNat_lt
  omega

theorem after_inj {i j : Nat} {seed : UInt32} (hi : i < 2 ^ 32) (hj : j < 2 ^ 32)
    (h : after i seed = after j seed) : i = j := by
  wlog hij : i ≤ j
  · exact (this hj hi h.symm (by omega)).symm
  obtain ⟨k, rfl⟩ := Nat.exists_eq_add_of_le' hij
  rw [after_add, eq_comm, after_eq_self_iff] at h
  omega

theorem after_surj (v seed : UInt32) : ∃ i < 2 ^ 32, after (i + 1) seed = v := by
  have hinj : Function.Injective fun i : Fin (2 ^ 32) => (after i.1 (sysSysrand seed).2).toFin := by
    intro i j h
    exact Fin.ext (after_inj i.2 j.2 (UInt32.toFin_inj.mp h))
  obtain ⟨i, hi⟩ := Finite.surjective_of_injective hinj v.toFin
  refine ⟨i.1, i.2, ?_⟩
  rw [after_succ]
  exact UInt32.toFin_inj.mp hi

/-- In 2 ^ 32 calls every value is returned once, and then the seed is what it was. -/
theorem sysrand_full_period (seed : UInt32) :
    (calls (2 ^ 32) seed).1.length = 2 ^ 32 ∧
      (∀ v : UInt32, (calls (2 ^ 32) seed).1.count v.toUInt64 = 1) ∧
      (calls (2 ^ 32) seed).2 = seed ∧
      ∀ n, 0 < n → n < 2 ^ 32 → (calls n seed).2 ≠ seed := by
  simp only [calls_eq, List.length_map, List.length_range, true_and, ne_eq, after_eq_self_iff]
  refine ⟨fun v => ?_, dvd_rfl, fun n h0 hn hd => ?_⟩
  · apply List.count_eq_one_of_mem
    · refine List.Nodup.map_on ?_ List.nodup_range
      intro i hi j hj h
      rw [List.mem_range] at hi hj
      rw [after_succ, after_succ] at h
      exact after_inj hi hj (UInt32.toUInt64_inj.mp h)
    · obtain ⟨i, hi, h⟩ := after_surj v seed
      exact List.mem_map.mpr ⟨i, List.mem_range.mpr hi, by rw [h]⟩
  · exact absurd (Nat.le_of_dvd h0 hd) (by omega)

end Xv6.Sysutil
