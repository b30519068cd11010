import Xv6.Framework.Bytes
import Xv6.Fs.Model

namespace Xv6.Disk

open Xv6.Framework

export Xv6.Fs (NINODE ROOTINO BSIZE NDIRECT NINDIRECT MAXFILE DIRSIZ)

/-- Inodes per block, and the size of struct dinode. -/
def IPB : Nat := 16
def DINODE : Nat := 64

def DIRENT : Nat := 16

def BPB : Nat := BSIZE * 8

def T_DIR : UInt16 := 1
def T_FILE : UInt16 := 2

abbrev Image := Nat → Bytes

structure Superblock where
  size : Nat
  nblocks : Nat
  ninodes : Nat
  inodestart : Nat
  bmapstart : Nat
  deriving DecidableEq

namespace Superblock

def IBLOCK (sb : Superblock) (i : Nat) : Nat := i / IPB + sb.inodestart

def BBLOCK (sb : Superblock) (b : Nat) : Nat := b / BPB + sb.bmapstart

/-- The blocks before the data: boot block, super block, log, inodes and free map. -/
def nmeta (sb : Superblock) : Nat := sb.size - sb.nblocks

/-- The inodes that the inode blocks have room for. -/
def inums (sb : Superblock) : Nat := (sb.bmapstart - sb.inodestart) * IPB

/-- The parts of the disk are one after the other and large enough. -/
structure Wf (sb : Superblock) : Prop where
  inodes : sb.inodestart < sb.bmapstart
  room : sb.ninodes ≤ sb.inums
  bitmap : sb.bmapstart + (sb.size + BPB - 1) / BPB ≤ sb.nmeta
  size : sb.size < 2 ^ 31

end Superblock

instance (priority := 2000) : @NeZero Nat Zero.ofOfNat0 (NDIRECT + 1) := ⟨Nat.succ_ne_zero _⟩

structure Dinode where
  type : UInt16
  major : UInt16
  minor : UInt16
  nlink : UInt16
  size : UInt32
  addrs : Fin (NDIRECT + 1) → UInt32

namespace Dinode

def zero : Dinode := ⟨0, 0, 0, 0, 0, fun _ => 0⟩

def ind (x : Dinode) : UInt32 := x.addrs (Fin.last NDIRECT)

def setAddr (x : Dinode) (k : Fin (NDIRECT + 1)) (v : UInt32) : Dinode :=
  { x with addrs := update x.addrs k v }

/-- The struct dinode at an offset of a block. -/
def read (a : Bytes) (off : Nat) : Dinode where
  type := a.u16 off
  major := a.u16 (off + 2)
  minor := a.u16 (off + 4)
  nlink := a.u16 (off + 6)
  size := a.u32 (off + 8)
  addrs k := a.u32 (off + 12 + 4 * k)

def bytes (x : Dinode) : Bytes := fun i =>
  if i < 2 then Bytes.byteOf x.type.toNat i
  else if i < 4 then Bytes.byteOf x.major.toNat (i - 2)
  else if i < 6 then Bytes.byteOf x.minor.toNat (i - 4)
  else if i < 8 then Bytes.byteOf x.nlink.toNat (i - 6)
  else if i < 12 then Bytes.byteOf x.size.toNat (i - 8)
  else Bytes.byteOf (x.addrs (Fin.ofNat (NDIRECT + 1) ((i - 12) / 4))).toNat ((i - 12) % 4)

theorem read_congr {a b : Bytes} {off : Nat} (h : ∀ i < DINODE, a (off + i) = b (off + i)) :
    read a off = read b off := by
  have h16 : ∀ k, k + 2 ≤ 64 → a.u16 (off + k) = b.u16 (off + k) := fun k hk =>
    Bytes.u16_congr fun j hj => by
      rw [Nat.add_assoc]
      exact h (k + j) (by unfold DINODE; omega)
  have h32 : ∀ k, k + 4 ≤ 64 → a.u32 (off + k) = b.u32 (off + k) := fun k hk =>
    Bytes.u32_congr fun j hj => by
      rw [Nat.add_assoc]
      exact h (k + j) (by unfold DINODE; omega)
  simp only [read, mk.injEq]
  refine ⟨h16 0 (by omega), h16 2 (by omega), h16 4 (by omega), h16 6 (by omega), h32 8 (by omega), ?_⟩
  funext k
  have hk : k.val < 13 := k.isLt
  rw [Nat.add_assoc]
  exact h32 (12 + 4 * k) (by omega)

/-- What is written is read back. -/
theorem read_bytes {a : Bytes} {off : Nat} {x : Dinode}
    (h : ∀ i < DINODE, a (off + i) = x.bytes i) : read a off = x := by
  have hb : ∀ k j, k + j < 64 → a (off + k + j) = x.bytes (k + j) := fun k j hk => by
    rw [Nat.add_assoc]
    exact h (k + j) (by unfold DINODE; omega)
  obtain ⟨type, major, minor, nlink, size, addrs⟩ := x
  simp only [read, mk.injEq]
  refine ⟨?_, ?_, ?_, ?_, ?_, funext fun k => ?_⟩
  · refine Bytes.u16_of_bytes fun j hj => (hb 0 j (by omega)).trans ?_
    simp only [bytes, Nat.zero_add, if_pos hj]
  · refine Bytes.u16_of_bytes fun j hj => (hb 2 j (by omega)).trans ?_
    rw [bytes, if_neg (by omega), if_pos (by omega), Nat.add_sub_cancel_left]
  · refine Bytes.u16_of_bytes fun j hj => (hb 4 j (by omega)).trans ?_
    rw [bytes, if_neg (by omega), if_neg (by omega), if_pos (by omega), Nat.add_sub_cancel_left]
  · refine Bytes.u16_of_bytes fun j hj => (hb 6 j (by omega)).trans ?_
    rw [bytes, if_neg (by omega), if_neg (by omega), if_neg (by omega), if_pos (by omega),
      Nat.add_sub_cancel_left]
  · refine Bytes.u32_of_bytes fun j hj => (hb 8 j (by omega)).trans ?_
    rw [bytes, if_neg (by omega), if_neg (by omega), if_neg (by omega), if_neg (by omega),
      if_pos (by omega), Nat.add_sub_cancel_left]
  · have hk : k.val < 13 := k.isLt
    refine Bytes.u32_of_bytes fun j hj => ?_
    rw [Nat.add_assoc off 12, hb (12 + 4 * k) j (by omega), bytes, if_neg (by omega),
      if_neg (by omega), if_neg (by omega), if_neg (by omega), if_neg (by omega)]
    have hdiv : (12 + 4 * k.val + j - 12) / 4 = k := by omega
    have hmod : (12 + 4 * k.val + j - 12) % 4 = j := by omega
    rw [hdiv, hmod, Fin.ofNat_val_eq_self]

end Dinode

/-- The free map: bit `bi` of a block. -/
def bitOf (a : Bytes) (bi : Nat) : Bool := a (bi / 8) &&& (1 <<< UInt8.ofNat (bi % 8)) ≠ 0

def setBit (a : Bytes) (bi : Nat) : Bytes :=
  update a (bi / 8) (a (bi / 8) ||| (1 <<< UInt8.ofNat (bi % 8)))

def clearBit (a : Bytes) (bi : Nat) : Bytes :=
  update a (bi / 8) (a (bi / 8) &&& ~~~(1 <<< UInt8.ofNat (bi % 8)))

theorem mask_toNat {k : Nat} (h : k < 8) : ((1 : UInt8) <<< UInt8.ofNat k).toNat = 2 ^ k := by
  have hall : ∀ k : Fin 8, ((1 : UInt8) <<< UInt8.ofNat k.val).toNat = 2 ^ k.val := by decide
  exact hall ⟨k, h⟩

theorem not_mask_testBit {k j : Nat} (hk : k < 8) (hj : j < 8) :
    (~~~((1 : UInt8) <<< UInt8.ofNat k)).toNat.testBit j = decide (j ≠ k) := by
  have hall : ∀ k j : Fin 8, (~~~((1 : UInt8) <<< UInt8.ofNat k.val)).toNat.testBit j.val =
      decide (j.val ≠ k.val) := by decide
  exact hall ⟨k, hk⟩ ⟨j, hj⟩

theorem bitOf_eq_testBit (a : Bytes) (bi : Nat) : bitOf a bi = (a (bi / 8)).toNat.testBit (bi % 8) := by
  have hk : bi % 8 < 8 := Nat.mod_lt _ (by decide)
  have hne : (a (bi / 8) &&& (1 <<< UInt8.ofNat (bi % 8)) ≠ 0) ↔
      (a (bi / 8)).toNat &&& 2 ^ (bi % 8) ≠ 0 := by
    rw [← mask_toNat hk, not_iff_not]
    exact (UInt8.toNat_inj).symm
  rw [Nat.and_two_pow] at hne
  rw [bitOf, Bool.eq_iff_iff, decide_eq_true_iff, hne]
  cases (a (bi / 8)).toNat.testBit (bi % 8) with
  | false => simp
  | true => simp

theorem bitOf_setBit (a : Bytes) (bi bj : Nat) :
    bitOf (setBit a bi) bj = (bitOf a bj || decide (bj = bi)) := by
  rw [bitOf_eq_testBit, bitOf_eq_testBit, setBit]
  by_cases hd : bj / 8 = bi / 8
  · rw [hd, update_self, UInt8.toNat_or, Nat.testBit_or, mask_toNat (Nat.mod_lt _ (by decide)),
      Nat.testBit_two_pow]
    congr 1
    exact decide_eq_decide.mpr (by omega)
  · have hne : bj ≠ bi := fun he => hd (by rw [he])
    rw [update_of_ne hd, decide_eq_false hne, Bool.or_false]

theorem bitOf_clearBit (a : Bytes) (bi bj : Nat) :
    bitOf (clearBit a bi) bj = (bitOf a bj && decide (bj ≠ bi)) := by
  rw [bitOf_eq_testBit, bitOf_eq_testBit, clearBit]
  by_cases hd : bj / 8 = bi / 8
  · rw [hd, update_self, UInt8.toNat_and, Nat.testBit_and,
      not_mask_testBit (Nat.mod_lt _ (by decide)) (Nat.mod_lt _ (by decide))]
    congr 1
    exact decide_eq_decide.mpr (by omega)
  · have hne : bj ≠ bi := fun he => hd (by rw [he])
    rw [update_of_ne hd, decide_eq_true hne, Bool.and_true]

namespace Image

variable {sb : Superblock} {d : Image} {i j b c : Nat} {x : Dinode} {a : Bytes}

def inode (sb : Superblock) (d : Image) (i : Nat) : Dinode :=
  .read (d (sb.IBLOCK i)) (i % IPB * DINODE)

/-- iupdate: an inode is put in its place on the disk. -/
def setInode (sb : Superblock) (d : Image) (i : Nat) (x : Dinode) : Image :=
  update d (sb.IBLOCK i) ((d (sb.IBLOCK i)).copy (i % IPB * DINODE) DINODE x.bytes)

def bit (sb : Superblock) (d : Image) (b : Nat) : Bool := bitOf (d (sb.BBLOCK b)) (b % BPB)

def mark (sb : Superblock) (d : Image) (b : Nat) : Image :=
  update d (sb.BBLOCK b) (setBit (d (sb.BBLOCK b)) (b % BPB))

def clear (sb : Superblock) (d : Image) (b : Nat) : Image :=
  update d (sb.BBLOCK b) (clearBit (d (sb.BBLOCK b)) (b % BPB))

theorem inode_of_ne (h : b ≠ sb.IBLOCK i) : inode sb (update d b a) i = inode sb d i := by
  rw [inode, inode, update_of_ne h.symm]

theorem bit_of_ne (h : b ≠ sb.BBLOCK c) : bit sb (update d b a) c = bit sb d c := by
  rw [bit, bit, update_of_ne h.symm]

theorem inode_setInode (sb : Superblock) (d : Image) (i : Nat) (x : Dinode) :
    inode sb (setInode sb d i x) i = x := by
  rw [inode, setInode, update_self]
  exact Dinode.read_bytes fun k hk => Bytes.copy_inside hk

theorem inode_setInode_of_ne (h : j ≠ i) : inode sb (setInode sb d i x) j = inode sb d j := by
  by_cases hb : sb.IBLOCK j = sb.IBLOCK i
  · rw [inode, inode, setInode, hb, update_self]
    refine Dinode.read_congr fun k hk => Bytes.copy_outside ?_
    unfold Superblock.IBLOCK at hb
    unfold DINODE IPB at *
    omega
  · exact inode_of_ne (Ne.symm hb)

theorem bit_mark (sb : Superblock) (d : Image) (b c : Nat) :
    bit sb (mark sb d b) c = (bit sb d c || decide (c = b)) := by
  by_cases hb : sb.BBLOCK c = sb.BBLOCK b
  · rw [bit, bit, mark, hb, update_self, bitOf_setBit]
    unfold Superblock.BBLOCK at hb
    congr 1
    refine decide_eq_decide.mpr ?_
    unfold BPB BSIZE at *
    omega
  · have hne : c ≠ b := fun he => hb (by rw [he])
    rw [mark, bit_of_ne (Ne.symm hb), decide_eq_false hne, Bool.or_false]

theorem bit_clear (sb : Superblock) (d : Image) (b c : Nat) :
    bit sb (clear sb d b) c = (bit sb d c && decide (c ≠ b)) := by
  by_cases hb : sb.BBLOCK c = sb.BBLOCK b
  · rw [bit, bit, clear, hb, update_self, bitOf_clearBit]
    unfold Superblock.BBLOCK at hb
    congr 1
    refine decide_eq_decide.mpr ?_
    unfold BPB BSIZE at *
    omega
  · have hne : c ≠ b := fun he => hb (by rw [he])
    rw [clear, bit_of_ne (Ne.symm hb), decide_eq_true hne, Bool.and_true]

end Image

namespace Superblock.Wf

variable {sb : Superblock} {i b : Nat}

theorem IBLOCK_lt (_h : sb.Wf) (hi : i < sb.inums) : sb.IBLOCK i < sb.bmapstart := by
  unfold Superblock.inums IPB at hi
  unfold Superblock.IBLOCK IPB
  omega

theorem BBLOCK_lt (h : sb.Wf) (hb : b < sb.size) : sb.BBLOCK b < sb.nmeta := by
  have := h.bitmap
  unfold BPB BSIZE at this
  unfold Superblock.BBLOCK BPB BSIZE
  omega

theorem bmapstart_le (sb : Superblock) (b : Nat) : sb.bmapstart ≤ sb.BBLOCK b := by
  exact Nat.le_add_left _ _

theorem bmapstart_le_nmeta (h : sb.Wf) : sb.bmapstart ≤ sb.nmeta :=
  (Nat.le_add_right _ _).trans h.bitmap

theorem nmeta_pos (h : sb.Wf) : 0 < sb.nmeta := by
  have := h.inodes
  have := h.bmapstart_le_nmeta
  omega

end Superblock.Wf

end Xv6.Disk
