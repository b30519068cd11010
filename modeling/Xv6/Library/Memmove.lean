import Xv6.Framework.Words

namespace Xv6.Library

open Function (update update_self update_of_ne)

abbrev Memory := UInt64 → UInt8

/-- `while(n-- > 0) *d++ = *s++` -/
def copyUp (mem : Memory) (d s : UInt64) : Nat → Memory
  | 0 => mem
  | n + 1 => copyUp (update mem d (mem s)) (d + 1) (s + 1) n

/-- `while(n-- > 0) *--d = *--s` -/
def copyDown (mem : Memory) (d s : UInt64) : Nat → Memory
  | 0 => mem
  | n + 1 => copyDown (update mem (d - 1) (mem (s - 1))) (d - 1) (s - 1) n

/-- memmove of string.c: the memory, and the pointer that it returns. -/
def memmove (mem : Memory) (dst src : UInt64) (n : UInt32) : Memory × UInt64 :=
  if n = 0 then (mem, dst)
  else if src < dst ∧ src + n.toUInt64 > dst then
    (copyDown mem (dst + n.toUInt64) (src + n.toUInt64) n.toNat, dst)
  else (copyUp mem dst src n.toNat, dst)

def userMemmove (mem : Memory) (vdst vsrc : UInt64) (n : Int32) : Memory × UInt64 :=
  if vsrc > vdst then (copyUp mem vdst vsrc n.toInt.toNat, vdst)
  else (copyDown mem (vdst + n.toInt64.toUInt64) (vsrc + n.toInt64.toUInt64) n.toInt.toNat, vdst)

/-- The bytes at `src` are at `dst`, and nothing else has changed. -/
structure Moved (mem : Memory) (dst src : UInt64) (n : Nat) (mem' : Memory) : Prop where
  copied : ∀ i < n, mem' (dst + UInt64.ofNat i) = mem (src + UInt64.ofNat i)
  kept : ∀ a, (∀ i < n, a ≠ dst + UInt64.ofNat i) → mem' a = mem a

variable {mem mem' mem'' : Memory} {dst src : UInt64} {n : Nat}

theorem Moved.unique (h : Moved mem dst src n mem') (h' : Moved mem dst src n mem'') :
    mem' = mem'' := by
  funext a
  by_cases ha : ∃ i < n, a = dst + UInt64.ofNat i
  · obtain ⟨i, hi, rfl⟩ := ha
    rw [h.copied i hi, h'.copied i hi]
  · have hne : ∀ i < n, a ≠ dst + UInt64.ofNat i := fun i hi he => ha ⟨i, hi, he⟩
    rw [h.kept a hne, h'.kept a hne]

theorem toNat_add_ofNat {p : UInt64} {i : Nat} (h : p.toNat + i < 2 ^ 64) :
    (p + UInt64.ofNat i).toNat = p.toNat + i := by
  rw [UInt64.toNat_add, UInt64.toNat_ofNat']
  omega

theorem ne_of_toNat_ne {a b : UInt64} (h : a.toNat ≠ b.toNat) : a ≠ b :=
  fun he => h (congrArg UInt64.toNat he)

theorem add_ofNat_zero (p : UInt64) : p + UInt64.ofNat 0 = p := UInt64.add_zero p

theorem add_ofNat_succ (p : UInt64) (i : Nat) :
    p + UInt64.ofNat (i + 1) = p + 1 + UInt64.ofNat i := by
  rw [Nat.add_comm, UInt64.ofNat_add, ← UInt64.add_assoc]
  rfl

/-- The first loop overwrites no byte that it has still to read. -/
theorem copyUp_moved (hs : src.toNat + n ≤ 2 ^ 64) (hd : dst.toNat + n ≤ 2 ^ 64)
    (h : dst.toNat ≤ src.toNat ∨ src.toNat + n ≤ dst.toNat) :
    Moved mem dst src n (copyUp mem dst src n) := by
  induction n generalizing mem dst src with
  | zero => exact ⟨fun _ hi => absurd hi (Nat.not_lt_zero _), fun _ _ => rfl⟩
  | succ n ih =>
    have hsrc : (src + 1).toNat = (src.toNat + 1) % 2 ^ 64 := UInt64.toNat_add _ _
    have hdst : (dst + 1).toNat = (dst.toNat + 1) % 2 ^ 64 := UInt64.toNat_add _ _
    have hm : Moved (update mem dst (mem src)) (dst + 1) (src + 1) n
        (copyUp mem dst src (n + 1)) := ih (by omega) (by omega) (by omega)
    constructor
    · intro i hi
      cases i with
      | zero =>
        rw [add_ofNat_zero, add_ofNat_zero]
        refine (hm.kept dst fun j hj => ?_).trans (update_self _ _ _)
        apply ne_of_toNat_ne
        rw [toNat_add_ofNat (by omega)]
        omega
      | succ i =>
        rw [add_ofNat_succ, add_ofNat_succ]
        refine (hm.copied i (by omega)).trans (update_of_ne ?_ _ _)
        apply ne_of_toNat_ne
        rw [toNat_add_ofNat (by omega)]
        omega
    · intro a ha
      have hne := ha 0 (Nat.succ_pos n)
      rw [add_ofNat_zero] at hne
      refine (hm.kept a fun i hi => ?_).trans (update_of_ne hne _ _)
      rw [← add_ofNat_succ]
      exact ha (i + 1) (by omega)

theorem add_ofNat_succ_sub (p : UInt64) (i : Nat) :
    p + UInt64.ofNat (i + 1) - 1 = p + UInt64.ofNat i := by
  rw [UInt64.ofNat_add, ← UInt64.add_assoc]
  exact UInt64.add_sub_cancel _ _

theorem copyDown_moved (hs : src.toNat + n ≤ 2 ^ 64) (hd : dst.toNat + n ≤ 2 ^ 64)
    (h : src.toNat ≤ dst.toNat) :
    Moved mem dst src n
      (copyDown mem (dst + UInt64.ofNat n) (src + UInt64.ofNat n) n) := by
  induction n generalizing mem with
  | zero => exact ⟨fun _ hi => absurd hi (Nat.not_lt_zero _), fun _ _ => rfl⟩
  | succ n ih =>
    rw [copyDown, add_ofNat_succ_sub, add_ofNat_succ_sub]
    let mem' := update mem (dst + UInt64.ofNat n) (mem (src + UInt64.ofNat n))
    have hm : Moved mem' dst src n _ := ih (by omega) (by omega)
    constructor
    · intro i hi
      rcases Nat.lt_succ_iff_lt_or_eq.mp hi with hlt | rfl
      · refine (hm.copied i hlt).trans (update_of_ne ?_ _ _)
        apply ne_of_toNat_ne
        rw [toNat_add_ofNat (by omega), toNat_add_ofNat (by omega)]
        omega
      · refine (hm.kept _ fun j hj => ?_).trans (update_self _ _ _)
        apply ne_of_toNat_ne
        rw [toNat_add_ofNat (by omega), toNat_add_ofNat (by omega)]
        omega
    · intro a ha
      refine (hm.kept a fun i hi => ha i (by omega)).trans ?_
      exact update_of_ne (ha n (Nat.lt_succ_self n)) _ _

variable {n : UInt32}

theorem memmove_moved (hs : src.toNat + n.toNat ≤ 2 ^ 64) (hd : dst.toNat + n.toNat ≤ 2 ^ 64) :
    Moved mem dst src n.toNat (memmove mem dst src n).1 := by
  have hn : n.toUInt64 = UInt64.ofNat n.toNat := by
    apply UInt64.toNat_inj.mp
    simp
  rw [memmove]
  split_ifs with h0 hover
  · subst h0
    exact ⟨fun _ hi => absurd hi (Nat.not_lt_zero _), fun _ _ => rfl⟩
  · rw [hn]
    exact copyDown_moved hs hd (Nat.le_of_lt hover.1)
  · refine copyUp_moved hs hd ?_
    by_contra hc
    refine hover ⟨UInt64.lt_iff_toNat_lt.mpr (by omega), UInt64.lt_iff_toNat_lt.mpr ?_⟩
    rw [hn, toNat_add_ofNat (by omega)]
    omega

theorem userMemmove_moved (hs : src.toNat + n.toNat ≤ 2 ^ 64)
    (hd : dst.toNat + n.toNat ≤ 2 ^ 64) (h : n.toNat < 2 ^ 31) :
    Moved mem dst src n.toNat (userMemmove mem dst src n.toInt32).1 := by
  have hint : n.toInt32.toInt = n.toNat := Framework.Words.toInt_toInt32 h
  have hlong : n.toInt32.toInt64 = Int64.ofNat n.toNat := by
    rw [← Int64.toInt_inj, Int32.toInt_toInt64, hint, Int64.toInt_ofNat_of_lt (by omega)]
  have hn : n.toInt32.toInt64.toUInt64 = UInt64.ofNat n.toNat := by
    rw [hlong, Int64.toUInt64_ofNat']
  rw [userMemmove, hn, hint]
  split_ifs with hgt
  · exact copyUp_moved hs hd (.inl (Nat.le_of_lt hgt))
  · exact copyDown_moved hs hd (Nat.not_lt.mp hgt)

/-- Both memmoves copy the source as it was, overlap or not, and so they do the same. -/
theorem memmove_correct (mem : Memory) (dst src : UInt64) (n : UInt32)
    (hs : src.toNat + n.toNat ≤ 2 ^ 64) (hd : dst.toNat + n.toNat ≤ 2 ^ 64) :
    Moved mem dst src n.toNat (memmove mem dst src n).1 ∧
      (n.toNat < 2 ^ 31 → Moved mem dst src n.toNat (userMemmove mem dst src n.toInt32).1 ∧
        userMemmove mem dst src n.toInt32 = memmove mem dst src n) := by
  refine ⟨memmove_moved hs hd, fun h => ⟨userMemmove_moved hs hd h, ?_⟩⟩
  refine Prod.ext ((userMemmove_moved hs hd h).unique (memmove_moved hs hd)) ?_
  rw [memmove, userMemmove]
  split_ifs <;> rfl

/-- Three bytes moved up by one. -/
theorem memmove_correct_up :
    (userMemmove (fun a => a.toUInt8) 11 10 3).1 13 = 12 ∧
      (memmove (fun a => a.toUInt8) 11 10 3).1 13 = 12 := by
  have h := memmove_correct (fun a => a.toUInt8) 11 10 3 (by decide) (by decide)
  exact ⟨(h.2 (by decide)).1.copied 2 (by decide), h.1.copied 2 (by decide)⟩

end Xv6.Library
