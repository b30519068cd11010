import Xv6.Disk.Append

namespace Xv6.Disk.Mkfs

open Xv6.Framework

/-- The blocks of an inode have contents, whatever its size says. -/
structure Holds (d : Image) (x : Dinode) (l : List UInt8) : Prop where
  max : l.length ≤ MAXFILE * BSIZE
  tight : Tight d x l.length
  bytes : x.bytesAt d 0 l.length = l

structure Stored (d : Image) (i : Nat) (type : UInt16) (l : List UInt8) : Prop where
  type : (d.inode sb i).type = type
  size : (d.inode sb i).size.toNat = l.length
  holds : Holds d (d.inode sb i) l

def typeOf (i : Nat) : UInt16 := if i = ROOTINO then T_DIR else T_FILE

/-- The disk between two calls of ialloc and iappend: inodes 1 to `n` have the contents `c`, the
others are free. -/
structure Laid (m : State) (n : Nat) (c : Nat → List UInt8) : Prop where
  ready : Ready m
  freeinode : m.freeinode = n + 1
  super : m.disk 1 = zeroed.disk 1
  sound : Sound sb m.image (m.image.inode sb)
  stored : ∀ i, 1 ≤ i → i ≤ n → Stored m.image i (typeOf i) (c i)
  free : ∀ i, i < sb.inums → i = 0 ∨ n < i → (m.image.inode sb i).type = 0

variable {m m' : State} {x x' : Dinode} {d d' : Image} {i n : Nat} {c c' : Nat → List UInt8}
  {l p : List UInt8}

theorem typeOf_ne_zero (i : Nat) : typeOf i ≠ 0 := by
  unfold typeOf
  split <;> decide

theorem IBLOCK_lt (hi : i < sb.inums) : sb.IBLOCK i < sb.bmapstart := sb_wf.IBLOCK_lt hi

theorem image_IBLOCK (hi : i < sb.inums) : m.image (sb.IBLOCK i) = m.disk (sb.IBLOCK i) :=
  update_of_ne (IBLOCK_lt hi).ne _ _

theorem rsect_IBLOCK (hi : i < sb.inums) : rsect m (sb.IBLOCK i) = .ok (m.disk (sb.IBLOCK i)) := by
  rw [rsect, if_pos]
  have := IBLOCK_lt hi
  have : sb.bmapstart < FSSIZE := by decide
  omega

theorem rinode_spec (hi : i < sb.inums) : rinode m i = .ok (m.image.inode sb i) := by
  rw [rinode, rsect_IBLOCK hi, Image.inode, image_IBLOCK hi]
  rfl

/-- winode writes what iupdate would write. -/
theorem winode_spec (hi : i < sb.inums) : ∃ m', winode m i x = .ok m' ∧
    m'.image = m.image.setInode sb i x ∧ m'.freeblock = m.freeblock ∧
    m'.freeinode = m.freeinode ∧ m'.disk 1 = m.disk 1 ∧ (Ready m → Ready m') := by
  refine ⟨wsect m (sb.IBLOCK i) ((m.disk (sb.IBLOCK i)).copy (i % IPB * DINODE) DINODE x.bytes), ?_, ?_,
    rfl, rfl, ?_, fun hr => hr.wsect ?_⟩
  · rw [winode, rsect_IBLOCK hi]
    rfl
  · rw [Image.setInode, image_IBLOCK hi]
    exact update_comm (IBLOCK_lt hi).ne _ _ _
  · have hne : (1 : Nat) ≠ sb.IBLOCK i := by
      have : 1 < sb.inodestart := by decide
      unfold Superblock.IBLOCK IPB
      omega
    exact update_of_ne hne ((m.disk (sb.IBLOCK i)).copy (i % IPB * DINODE) DINODE x.bytes) m.disk
  · have := IBLOCK_lt hi
    have := bmapstart_lt_nmeta
    have := hr.lo
    omega

/-- The contents stay when the addresses and the blocks do. -/
theorem Holds.frame (h : Holds d x l) (hx : x'.addrs = x.addrs)
    (hslot : ∀ s, x.slot d' s = x.slot d s)
    (hdata : ∀ s, s ≠ .indirect → x.slot d s ≠ 0 → d' (x.slot d s).toNat = d (x.slot d s).toNat) :
    Holds d' x' l := by
  have hslot' : ∀ s, x'.slot d' s = x.slot d s := fun s => (Dinode.slot_addrs hx s).trans (hslot s)
  refine ⟨h.max, ⟨fun bn hbn => ?_, ?_⟩, Eq.trans ?_ h.bytes⟩
  · rw [hslot']
    exact h.tight.blocks bn hbn
  · rw [show x'.ind = x.ind from congrFun hx _]
    exact h.tight.ind
  · refine List.map_congr_left fun o ho => ?_
    have ho : o < l.length := List.mem_range.mp ho
    have hbn : (0 + o) / BSIZE < MAXFILE := by
      have := h.max
      unfold BSIZE at *
      omega
    have hne : x.slot d (slotOf ((0 + o) / BSIZE)) ≠ 0 := by
      rw [h.tight.blocks _ hbn]
      have := Nat.div_mul_le_self (0 + o) BSIZE
      omega
    rw [Dinode.byteAt, Dinode.byteAt, hslot', hdata _ (slotOf_ne_indirect hbn) hne]

/-- An inode is written; the contents of this and other inodes stay. -/
theorem Holds.setInode {y : Dinode} {j : Nat} {ino : Nat → Dinode} (h : Holds d x l)
    (hl : Live sb d ino i x) (hj : j < sb.inums) (hx : x'.addrs = x.addrs) :
    Holds (d.setInode sb j y) x' l :=
  h.frame hx (slot_setInode sb_wf hj hl.ind_le)
    fun _ _ hne => setInode_data sb_wf hj (hl.bit_slot hne).1

namespace Laid

theorem congr (h : Laid m n c) (hc : ∀ i, 1 ≤ i → i ≤ n → c' i = c i) : Laid m n c' :=
  ⟨h.ready, h.freeinode, h.super, h.sound, fun i h1 hn => hc i h1 hn ▸ h.stored i h1 hn, h.free⟩

theorem type (h : Laid m n c) (h1 : 1 ≤ i) (hn : i ≤ n) : (m.image.inode sb i).type ≠ 0 := by
  rw [(h.stored i h1 hn).type]
  exact typeOf_ne_zero i

theorem live (h : Laid m n c) (h1 : 1 ≤ i) (hn : i ≤ n) (hi : i < sb.inums) :
    Live sb m.image (m.image.inode sb) i (m.image.inode sb i) := by
  refine ⟨sb_wf, ?_, hi, h.type h1 hn⟩
  rw [update_eq_self]
  exact h.sound

theorem stored_setInode (h : Laid m n c) {j : Nat} (h1 : 1 ≤ i) (hn : i ≤ n) (hi : i < sb.inums)
    (hj : j < sb.inums) (hne : i ≠ j) : Stored (m.image.setInode sb j x) i (typeOf i) (c i) := by
  obtain ⟨hty, hsz, hh⟩ := h.stored i h1 hn
  have hino : (m.image.setInode sb j x).inode sb i = m.image.inode sb i :=
    Image.inode_setInode_of_ne hne
  refine ⟨hino ▸ hty, hino ▸ hsz, ?_⟩
  exact hh.setInode (h.live h1 hn hi) hj (by rw [hino])

theorem ialloc (h : Laid m n c) (hn : n + 1 < sb.inums) (hc : c (n + 1) = []) :
    ∃ m', Mkfs.ialloc m (typeOf (n + 1)) = .ok (n + 1, m') ∧ m'.freeblock = m.freeblock ∧
      Laid m' (n + 1) c := by
  have hfi := h.freeinode
  obtain ⟨m', hok, himg, hfb, hfi', hsup, hr⟩ :=
    winode_spec (m := { m with freeinode := m.freeinode + 1 }) hn
  have himg : m'.image = m.image.setInode sb (n + 1)
    { Dinode.zero with type := typeOf (n + 1), nlink := 1 } := himg
  have hino := inode_setInode_eq sb m.image (n + 1)
    { Dinode.zero with type := typeOf (n + 1), nlink := 1 }
  have hheld : ∀ s, held sb m.image (m.image.inode sb) (n + 1, s) = 0 := fun s =>
    if_neg fun hh => hh.2 (h.free (n + 1) hn (.inr (by omega)))
  refine ⟨m', ?_, hfb, hr ⟨h.ready.lo, h.ready.hi, h.ready.zero⟩, ?_, hsup.trans h.super, ?_,
    fun i h1 hi => ?_, fun i hi hfree => ?_⟩
  · rw [Mkfs.ialloc]
    rw [hfi] at hok ⊢
    rw [hok]
    rfl
  · rw [hfi']
    show m.freeinode + 1 = _
    omega
  · rw [himg, hino]
    exact (h.sound.retype hheld rfl).setInode sb_wf hn
  · rw [himg]
    by_cases he : i = n + 1
    · subst he
      rw [hc]
      have hino : (m.image.setInode sb (n + 1) { Dinode.zero with type := typeOf (n + 1), nlink := 1 }).inode
        sb (n + 1) = { Dinode.zero with type := typeOf (n + 1), nlink := 1 } := Image.inode_setInode ..
      refine ⟨by rw [hino], by rw [hino]; rfl, Nat.zero_le _, ⟨fun bn _ => ?_, ?_⟩, rfl⟩
      · rw [hino, Dinode.slot_empty rfl]
        simp
      · rw [hino]
        simp [Dinode.ind, Dinode.zero]
    · exact h.stored_setInode h1 (by omega) (by omega) hn he
  · rw [himg, Image.inode_setInode_of_ne (by omega)]
    exact h.free i hi (by omega)

theorem iappend (h : Laid m n c) (h1 : 1 ≤ i) (hin : i ≤ n) (hn : n < sb.inums)
    (hmax : (c i ++ p).length ≤ MAXFILE * BSIZE)
    (hroom : m.freeblock + cost (c i ++ p).length ≤ FSSIZE + cost (c i).length) :
    ∃ m', Mkfs.iappend m i p = .ok m' ∧
      m'.freeblock + cost (c i).length = m.freeblock + cost (c i ++ p).length ∧
      Laid m' n (update c i (c i ++ p)) := by
  have hi : i < sb.inums := by omega
  obtain ⟨hty, hsz, hh⟩ := h.stored i h1 hin
  have hl := h.live h1 hin hi
  rw [List.length_append] at hmax hroom ⊢
  obtain ⟨m1, x1, hloop, ha⟩ := appendLoop_spec hl h.ready hh.tight
    (Nat.le_refl _) hmax hroom
  obtain ⟨m2, hw, himg, hfb, hfi, hsup, hr⟩ := winode_spec hi
  have hl1 : Live sb m1.image (m.image.inode sb) i x1 :=
    ⟨sb_wf, ha.sound, hi, by rw [ha.same]; exact hl.type⟩
  have hino : m2.image.inode sb i = { x1 with size := UInt32.ofNat ((c i).length + p.length) } := by
    rw [himg]
    exact Image.inode_setInode ..
  have hothers : ∀ j, j < sb.inums → j ≠ i → m2.image.inode sb j = m.image.inode sb j := by
    intro j hj hne
    rw [himg, Image.inode_setInode_of_ne hne, ha.inode j hj]
  refine ⟨m2, ?_, ?_, hr ha.ready, ?_, ?_, ?_, fun j hj1 hjn => ?_, fun j hj hfree => ?_⟩
  · rw [Mkfs.iappend, rinode_spec hi]
    show (appendLoop p.length m (m.image.inode sb i) (m.image.inode sb i).size.toNat p >>= _) = _
    rw [hsz, hloop]
    exact hw
  · rw [hfb]
    exact ha.freeblock
  · rw [hfi, ha.freeinode, h.freeinode]
  · rw [hsup, ha.low 1 (by decide), h.super]
  · have hs : Sound sb m1.image (update (m.image.inode sb) i
        { x1 with size := UInt32.ofNat ((c i).length + p.length) }) := ha.sound.congr_addrs rfl rfl
    have hs := hs.setInode sb_wf (x := { x1 with size := UInt32.ofNat ((c i).length + p.length) }) hi
    rw [← himg] at hs
    refine hs.congr_ino fun j hj => ?_
    by_cases hne : j = i
    · rw [hne, update_self, hino]
    · rw [update_of_ne hne, hothers j hj hne]
  · have hj : j < sb.inums := by omega
    by_cases hne : j = i
    · subst hne
      rw [update_self]
      have hh1 : Holds m1.image x1 (c j ++ p) := by
        refine ⟨by rw [List.length_append]; exact hmax, ?_, ?_⟩
        · rw [List.length_append]
          exact ha.tight
        · rw [List.length_append, ha.bytes, hh.bytes]
      refine ⟨?_, ?_, ?_⟩
      · rw [hino, ← hty]
        show x1.type = _
        rw [ha.same]
      · rw [hino, List.length_append]
        refine UInt32.toNat_ofNat_of_lt' ?_
        unfold MAXFILE NDIRECT NINDIRECT BSIZE at hmax
        show _ < 2 ^ 32
        omega
      · rw [himg]
        exact hh1.setInode hl1 hi (by rw [← himg, hino])
    · rw [update_of_ne hne]
      have hjty := h.type hj1 hjn
      obtain ⟨hty', hsz', hh'⟩ := h.stored j hj1 hjn
      have hino' := hothers j hj hne
      refine ⟨hino' ▸ hty', hino' ▸ hsz', ?_⟩
      rw [hino']
      have hh1 : Holds m1.image (m.image.inode sb j) (c j) :=
        hh'.frame rfl (ha.slots j hne hj hjty) (ha.data j hne hj hjty)
      have hs : Live sb m1.image (update (m.image.inode sb) i x1) j (m.image.inode sb j) := by
        refine ⟨sb_wf, ?_, hj, hjty⟩
        rw [Function.update_eq_self_iff.mpr]
        · exact ha.sound
        · exact (update_of_ne hne _ _).symm
      rw [himg]
      exact hh1.setInode hs hi rfl
  · have : j ≠ i := by omega
    rw [hothers j hj this]
    exact h.free j hj hfree

end Laid

end Xv6.Disk.Mkfs
