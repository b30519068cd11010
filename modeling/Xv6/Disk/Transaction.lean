import Xv6.Disk.Contents
import Xv6.Memory.PageTable

namespace Xv6.Disk

open Xv6.Framework
open Xv6.Memory (PGSIZE)

/-- The disk as bread shows it, and the blocks that log_write was called for. -/
structure Buffers where
  data : Image
  lh : Finset Nat

def Buffers.put (w : Buffers) (b : Nat) (a : Bytes) : Buffers :=
  ⟨Function.update w.data b a, insert b w.lh⟩

def Buffers.change (w : Buffers) (b : Nat) (a : Bytes) : Buffers :=
  { w with data := Function.update w.data b a }

/-- The pages of a process that are mapped, by their numbers. -/
abbrev UserMem := Nat → Option Bytes

/-- copyin: whether it succeeds, and the destination, into which it copies from `pos` on. -/
def copyin (mem : UserMem) : Nat → Bytes → Nat → Nat → Nat → Bool × Bytes
  | 0, dst, _, _, _ => (true, dst)
  | fuel + 1, dst, pos, srcva, len =>
    if len = 0 then (true, dst)
    else match mem (srcva / PGSIZE) with
      | none => (false, dst)
      | some page =>
        let n := min len (PGSIZE - srcva % PGSIZE)
        copyin mem fuel (dst.copy pos n fun i => page (srcva % PGSIZE + i)) (pos + n) (srcva + n)
          (len - n)

namespace Logged

/-- balloc with its calls of log_write; so are the functions that follow. -/
def balloc (sb : Superblock) (w : Buffers) : UInt32 × Buffers :=
  match (List.range sb.size).find? fun b => !w.data.bit sb b with
  | some b =>
    let w := w.put (sb.BBLOCK b) (setBit (w.data (sb.BBLOCK b)) (b % BPB))
    (UInt32.ofNat b, w.put b fun _ => 0)
  | none => (0, w)

def loadIndirect (sb : Superblock) (w : Buffers) (x : Dinode) : UInt32 × Buffers × Dinode :=
  if x.ind = 0 then
    let (addr, w) := balloc sb w
    if addr = 0 then (0, w, x) else (addr, w, x.setAddr (Fin.last NDIRECT) addr)
  else (x.ind, w, x)

def bmap (sb : Superblock) (w : Buffers) (x : Dinode) (bn : Nat) :
    Except Panic (UInt32 × Buffers × Dinode) :=
  if bn < NDIRECT then
    if x.addrs (Fin.ofNat _ bn) = 0 then
      let (addr, w) := balloc sb w
      if addr = 0 then .ok (0, w, x) else .ok (addr, w, x.setAddr (Fin.ofNat _ bn) addr)
    else .ok (x.addrs (Fin.ofNat _ bn), w, x)
  else if bn - NDIRECT < NINDIRECT then
    let (ind, w, x) := loadIndirect sb w x
    if ind = 0 then .ok (0, w, x)
    else
      let a := (w.data ind.toNat).u32 (4 * (bn - NDIRECT))
      if a = 0 then
        let (addr, w) := balloc sb w
        if addr = 0 then .ok (0, w, x)
        else .ok (addr, w.put ind.toNat ((w.data ind.toNat).setU32 (4 * (bn - NDIRECT)) addr), x)
      else .ok (a, w, x)
  else .error .bmapRange

def writeLoop (sb : Superblock) (mem : UserMem) (src n : Nat) :
    Nat → Buffers → Dinode → Nat → Nat → Except Panic (Nat × Nat × Buffers × Dinode)
  | 0, w, x, off, tot => .ok (off, tot, w, x)
  | fuel + 1, w, x, off, tot =>
    if tot < n then do
      let (addr, w, x) ← bmap sb w x (off / BSIZE)
      if addr = 0 then .ok (off, tot, w, x)
      else
        let m := min (n - tot) (BSIZE - off % BSIZE)
        let (fine, data) := copyin mem m (w.data addr.toNat) (off % BSIZE) (src + tot) m
        if fine then
          writeLoop sb mem src n fuel (w.put addr.toNat data) x (off + m) (tot + m)
        else .ok (off, tot, w.change addr.toNat data, x)
    else .ok (off, tot, w, x)

def writei (sb : Superblock) (w : Buffers) (inum : Nat) (x : Dinode) (mem : UserMem) (src : Nat)
    (off n : UInt32) : Except Panic (Int × Buffers × Dinode) :=
  if x.size < off ∨ off + n < off then .ok (-1, w, x)
  else if MAXFILE * BSIZE < (off + n).toNat then .ok (-1, w, x)
  else do
    let (off, tot, w, x) ← writeLoop sb mem src n.toNat n.toNat w x off.toNat 0
    let x := if x.size.toNat < off then { x with size := UInt32.ofNat off } else x
    return (tot, w.put (sb.IBLOCK inum) ((w.data (sb.IBLOCK inum)).copy (inum % IPB * DINODE) DINODE
      x.bytes), x)

end Logged

variable {sb : Superblock} {mem : UserMem} {va n k : Nat}

namespace UserMem

def byte (mem : UserMem) (va : Nat) : UInt8 := ((mem (va / PGSIZE)).map (· (va % PGSIZE))).getD 0

/-- Of `n` bytes from an address on, the first `k` can be read. -/
structure Readable (mem : UserMem) (va n k : Nat) : Prop where
  le : k ≤ n
  mapped : ∀ j < k, (mem ((va + j) / PGSIZE)).isSome
  stops : k < n → mem ((va + k) / PGSIZE) = none

theorem exists_readable (mem : UserMem) (va n : Nat) : ∃ k, mem.Readable va n k := by
  induction n with
  | zero => exact ⟨0, Nat.le_refl 0, by simp, by simp⟩
  | succ n ih =>
    obtain ⟨k, h⟩ := ih
    by_cases hk : k < n ∨ mem ((va + n) / PGSIZE) = none
    · refine ⟨k, Nat.le_succ_of_le h.le, h.mapped, fun _ => hk.elim h.stops fun hn => ?_⟩
      by_cases hlt : k < n
      · exact h.stops hlt
      · rw [show k = n from Nat.le_antisymm h.le (not_lt.mp hlt)]
        exact hn
    · obtain ⟨hlt, hn⟩ := not_or.mp hk
      refine ⟨n + 1, Nat.le_refl _, fun j hj => ?_, fun h => absurd h (Nat.lt_irrefl _)⟩
      by_cases he : j = n
      · rw [he]
        exact Option.isSome_iff_ne_none.mpr hn
      · exact h.mapped j (by omega)

theorem Readable.drop (h : mem.Readable va n k) {m : Nat} (hm : m ≤ k) :
    mem.Readable (va + m) (n - m) (k - m) where
  le := Nat.sub_le_sub_right h.le m
  mapped j hj := by
    rw [Nat.add_assoc]
    exact h.mapped (m + j) (by omega)
  stops hlt := by
    rw [Nat.add_assoc, Nat.add_sub_cancel' hm]
    exact h.stops (by omega)

theorem Readable.take (h : mem.Readable va n k) {m : Nat} (hm : m ≤ n) :
    mem.Readable va m (min m k) where
  le := Nat.min_le_left m k
  mapped j hj := h.mapped j (by omega)
  stops hlt := by
    rw [Nat.min_eq_right (by omega)]
    exact h.stops (by omega)

end UserMem

/-- copyin copies the bytes that can be read. -/
theorem copyin_spec {fuel : Nat} (hf : n ≤ fuel) (dst : Bytes) (pos : Nat)
    (h : mem.Readable va n k) : copyin mem fuel dst pos va n =
      (decide (n ≤ k), dst.copy pos k fun i => mem.byte (va + i)) := by
  induction fuel generalizing dst pos va n k with
  | zero =>
    obtain ⟨rfl, rfl⟩ : n = 0 ∧ k = 0 := by have := h.le; omega
    rw [Bytes.copy_zero]
    rfl
  | succ fuel ih =>
    rw [copyin]
    by_cases h0 : n = 0
    · obtain ⟨rfl, rfl⟩ : n = 0 ∧ k = 0 := by have := h.le; omega
      rw [Bytes.copy_zero]
      rfl
    rw [if_neg h0]
    rcases hp : mem (va / PGSIZE) with _ | page
    · obtain rfl : k = 0 := by
        by_contra hk
        have := h.mapped 0 (by omega)
        rw [Nat.add_zero, hp] at this
        cases this
      rw [Bytes.copy_zero, decide_eq_false (by omega)]
    · simp only
      generalize hm : min n (PGSIZE - va % PGSIZE) = m
      -- The bytes up to the end of the page.
      have hpage : ∀ j < m, (va + j) / PGSIZE = va / PGSIZE ∧
          (va + j) % PGSIZE = va % PGSIZE + j := by
        intro j hj
        unfold PGSIZE at *
        omega
      have hmk : m ≤ k := by
        by_contra hlt
        have hnone := h.stops (by omega)
        rw [(hpage k (by omega)).1, hp] at hnone
        cases hnone
      have hpos : 0 < m := by
        unfold PGSIZE at *
        omega
      have hbyte : (dst.copy pos m fun i => page (va % PGSIZE + i)) =
          dst.copy pos m fun i => mem.byte (va + i) :=
        Bytes.copy_congr fun j hj => by
          rw [UserMem.byte, (hpage j hj).1, hp, (hpage j hj).2]
          rfl
      rw [ih (by omega) _ _ (h.drop hmk), hbyte]
      refine Prod.ext (decide_eq_decide.mpr (by omega)) ?_
      simp only [Nat.add_assoc]
      rw [Bytes.copy_copy, Nat.add_sub_cancel' hmk]

namespace Logged

/-- Without the logged blocks, the functions are those on the image. -/
theorem balloc_data (w : Buffers) :
    Disk.balloc sb w.data = ((balloc sb w).1, (balloc sb w).2.data) := by
  rw [Disk.balloc, balloc]
  cases (List.range sb.size).find? fun b => !w.data.bit sb b with
  | none => rfl
  | some b => rfl

theorem loadIndirect_data (w : Buffers) (x : Dinode) :
    Disk.loadIndirect sb w.data x =
      ((loadIndirect sb w x).1, (loadIndirect sb w x).2.1.data, (loadIndirect sb w x).2.2) := by
  rw [Disk.loadIndirect, loadIndirect, balloc_data]
  split
  · dsimp only
    split <;> rfl
  · rfl

/-- A result on the image. -/
def erase {α : Type} (r : α × Buffers × Dinode) : α × Image × Dinode := (r.1, r.2.1.data, r.2.2)

theorem bmap_data (w : Buffers) (x : Dinode) (bn : Nat) :
    Disk.bmap sb w.data x bn = (bmap sb w x bn).map erase := by
  rw [Disk.bmap, bmap, balloc_data, loadIndirect_data]
  split
  · split
    · dsimp only
      split <;> rfl
    · rfl
  · split
    · dsimp only
      split
      · rfl
      · rw [balloc_data]
        split
        · dsimp only
          split <;> rfl
        · rfl
    · rfl

theorem writeLoop_data {src fuel off tot : Nat} (h : mem.Readable src n k) (w : Buffers)
    (x : Dinode) (htot : tot ≤ k) :
    Disk.writeLoop sb (fun i => mem.byte (src + i)) k n fuel w.data x off tot =
      (writeLoop sb mem src n fuel w x off tot).map fun r => (r.1, erase r.2) := by
  induction fuel generalizing w x off tot with
  | zero => rfl
  | succ fuel ih =>
    rw [Disk.writeLoop, writeLoop]
    by_cases hn : tot < n
    · rw [if_pos hn, if_pos hn, bmap_data]
      rcases bmap sb w x (off / BSIZE) with e | ⟨addr, w, x⟩
      · rfl
      simp only [Except.map, erase, bind, Except.bind]
      by_cases h0 : addr = 0
      · rw [if_pos h0, if_pos h0]
      have hm : min (n - tot) (BSIZE - off % BSIZE) ≤ n - tot := Nat.min_le_left _ _
      generalize min (n - tot) (BSIZE - off % BSIZE) = m at hm ⊢
      rw [if_neg h0, if_neg h0, copyin_spec (Nat.le_refl m) _ _ ((h.drop htot).take hm)]
      simp only [Nat.add_assoc]
      by_cases hl : k < tot + m
      · rw [if_pos hl, if_neg (by simp; omega), Nat.min_eq_right (by omega)]
        rfl
      · rw [if_neg hl, if_pos (by simp; omega), Nat.min_eq_left (by omega)]
        exact ih (w.put addr.toNat _) x (by omega)
    · rw [if_neg hn, if_neg hn]
      rfl

theorem writei_data {src : Nat} {off n : UInt32} (h : mem.Readable src n.toNat k) (w : Buffers)
    (inum : Nat) (x : Dinode) :
    Disk.writei sb w.data inum x (fun i => mem.byte (src + i)) off n k =
      (writei sb w inum x mem src off n).map erase := by
  rw [Disk.writei, writei, writeLoop_data h w x (Nat.zero_le k)]
  split
  · rfl
  · split
    · rfl
    · rcases writeLoop sb mem src n.toNat n.toNat w x off.toNat 0 with e | r
      · rfl
      · rfl

end Logged

end Xv6.Disk
