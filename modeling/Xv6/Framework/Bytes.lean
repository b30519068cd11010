import Mathlib.Data.Nat.Bitwise
import Mathlib.Tactic.IntervalCases

namespace Xv6.Framework

export Function (update update_self update_of_ne update_apply update_eq_self update_idem update_comm)

/-- Bytes at addresses, or of a block. -/
abbrev Bytes := Nat → UInt8

namespace Bytes

variable {a b : Bytes} {off n : Nat}

def byteOf (v j : Nat) : UInt8 := UInt8.ofNat (v / 256 ^ j)

def u16 (a : Bytes) (off : Nat) : UInt16 :=
  UInt16.ofNat ((a off).toNat + 256 * (a (off + 1)).toNat)

def u32 (a : Bytes) (off : Nat) : UInt32 :=
  UInt32.ofNat ((a off).toNat + 256 * (a (off + 1)).toNat + 256 ^ 2 * (a (off + 2)).toNat +
    256 ^ 3 * (a (off + 3)).toNat)

def u64 (a : Bytes) (off : Nat) : UInt64 :=
  UInt64.ofNat ((a.u32 off).toNat + 256 ^ 4 * (a.u32 (off + 4)).toNat)

/-- The bytes from `off` on are taken from `src`. -/
def copy (a : Bytes) (off n : Nat) (src : Bytes) : Bytes := fun i =>
  if off ≤ i ∧ i < off + n then src (i - off) else a i

def setU32 (a : Bytes) (off : Nat) (v : UInt32) : Bytes := a.copy off 4 (byteOf v.toNat)

def setU64 (a : Bytes) (off : Nat) (v : UInt64) : Bytes := a.copy off 8 (byteOf v.toNat)

def slice (a : Bytes) (off n : Nat) : List UInt8 := (List.range n).map fun i => a (off + i)

/-- A string in memory, with nothing but zero after it. -/
def ofList (l : List UInt8) : Bytes := fun i => l.getD i 0

theorem copy_inside {src : Bytes} {i : Nat} (h : i < n) : a.copy off n src (off + i) = src i := by
  rw [copy, if_pos (by omega), Nat.add_sub_cancel_left]

theorem copy_outside {src : Bytes} {i : Nat} (h : i < off ∨ off + n ≤ i) :
    a.copy off n src i = a i := by
  rw [copy, if_neg (by omega)]

theorem copy_congr {f g : Bytes} (h : ∀ j < n, f j = g j) : a.copy off n f = a.copy off n g := by
  funext i
  rw [copy, copy]
  split
  · exact h _ (by omega)
  · rfl

theorem copy_zero (a : Bytes) (pos : Nat) (f : Bytes) : a.copy pos 0 f = a := by
  funext i
  exact copy_outside (by omega)

/-- Two copies one after the other. -/
theorem copy_copy (a : Bytes) (pos m r : Nat) (f : Bytes) :
    (a.copy pos m f).copy (pos + m) r (fun i => f (m + i)) = a.copy pos (m + r) f := by
  funext i
  have he (h : pos + m ≤ i) : m + (i - (pos + m)) = i - pos := by omega
  grind [copy]

theorem u16_congr (h : ∀ j < 2, a (off + j) = b (off + j)) : a.u16 off = b.u16 off := by
  have h0 := h 0 (by omega)
  have h1 := h 1 (by omega)
  rw [Nat.add_zero] at h0
  rw [u16, u16, h0, h1]

theorem u32_congr (h : ∀ j < 4, a (off + j) = b (off + j)) : a.u32 off = b.u32 off := by
  have h0 := h 0 (by omega)
  have h1 := h 1 (by omega)
  have h2 := h 2 (by omega)
  have h3 := h 3 (by omega)
  rw [Nat.add_zero] at h0
  rw [u32, u32, h0, h1, h2, h3]

theorem u16_of_bytes {v : UInt16} (h : ∀ j < 2, a (off + j) = byteOf v.toNat j) : a.u16 off = v := by
  have h0 := h 0 (by omega)
  have h1 := h 1 (by omega)
  have hv := v.toNat_lt
  rw [Nat.add_zero] at h0
  apply UInt16.toNat.inj
  rw [u16, h0, h1]
  simp only [byteOf, UInt8.toNat_ofNat', UInt16.toNat_ofNat']
  omega

theorem u32_of_bytes {v : UInt32} (h : ∀ j < 4, a (off + j) = byteOf v.toNat j) : a.u32 off = v := by
  have h0 := h 0 (by omega)
  have h1 := h 1 (by omega)
  have h2 := h 2 (by omega)
  have h3 := h 3 (by omega)
  have hv := v.toNat_lt
  rw [Nat.add_zero] at h0
  apply UInt32.toNat.inj
  rw [u32, h0, h1, h2, h3]
  simp only [byteOf, UInt8.toNat_ofNat', UInt32.toNat_ofNat']
  omega

theorem u32_setU32 (v : UInt32) : (a.setU32 off v).u32 off = v :=
  u32_of_bytes fun _ hj => copy_inside hj

theorem u32_setU32_of_disjoint {v : UInt32} {off' : Nat} (h : off' + 4 ≤ off ∨ off + 4 ≤ off') :
    (a.setU32 off v).u32 off' = a.u32 off' :=
  u32_congr fun j hj => copy_outside (by omega)

theorem u32_zero (h : ∀ j < 4, a (off + j) = 0) : a.u32 off = 0 := by
  refine u32_of_bytes fun j hj => ?_
  rw [h j hj]
  simp [byteOf]

theorem u64_congr (h : ∀ j < 8, a (off + j) = b (off + j)) : a.u64 off = b.u64 off := by
  have hlow : a.u32 off = b.u32 off := u32_congr fun j hj => h j (by omega)
  have hhigh : a.u32 (off + 4) = b.u32 (off + 4) := by
    refine u32_congr fun j hj => ?_
    rw [Nat.add_assoc]
    exact h (4 + j) (by omega)
  rw [u64, u64, hlow, hhigh]

/-- Eight bytes of a number give it back, as two halves. -/
theorem u64_of_bytes {v : UInt64} (h : ∀ j < 8, a (off + j) = byteOf v.toNat j) : a.u64 off = v := by
  have hv := v.toNat_lt
  have hlow : a.u32 off = UInt32.ofNat (v.toNat % 256 ^ 4) := by
    refine u32_of_bytes fun j hj => ?_
    rw [h j (by omega), UInt32.toNat_ofNat', byteOf, byteOf]
    apply UInt8.toNat.inj
    simp only [UInt8.toNat_ofNat']
    interval_cases j <;> omega
  have hhigh : a.u32 (off + 4) = UInt32.ofNat (v.toNat / 256 ^ 4) := by
    refine u32_of_bytes fun j hj => ?_
    rw [Nat.add_assoc, h (4 + j) (by omega), UInt32.toNat_ofNat', byteOf, byteOf]
    apply UInt8.toNat.inj
    simp only [UInt8.toNat_ofNat']
    interval_cases j <;> omega
  apply UInt64.toNat.inj
  rw [u64, hlow, hhigh]
  simp only [UInt32.toNat_ofNat', UInt64.toNat_ofNat']
  omega

theorem u64_setU64 (v : UInt64) : (a.setU64 off v).u64 off = v :=
  u64_of_bytes fun _ hj => copy_inside hj

theorem u64_setU64_of_disjoint {v : UInt64} {off' : Nat} (h : off' + 8 ≤ off ∨ off + 8 ≤ off') :
    (a.setU64 off v).u64 off' = a.u64 off' :=
  u64_congr fun j hj => copy_outside (by omega)

theorem u64_zero (h : ∀ j < 8, a (off + j) = 0) : a.u64 off = 0 := by
  refine u64_of_bytes fun j hj => ?_
  rw [h j hj]
  simp [byteOf]

end Bytes

end Xv6.Framework
