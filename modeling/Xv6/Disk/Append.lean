import Xv6.Disk.Mkfs
import Xv6.Disk.Contents

namespace Xv6.Disk.Mkfs

open Xv6.Framework

theorem sb_wf : sb.Wf := ⟨by decide, by decide, by decide, by decide⟩

def bits (n : Nat) : Bytes := (List.range n).foldl setBit fun _ => 0

theorem bits_succ (n : Nat) : bits (n + 1) = setBit (bits n) n := by
  rw [bits, List.range_succ, List.foldl_append]
  rfl

theorem bitOf_bits (n b : Nat) : bitOf (bits n) b = decide (b < n) := by
  induction n with
  | zero => simp [bits, bitOf]
  | succ n ih =>
    rw [bits_succ, bitOf_setBit, ih, ← Bool.decide_or]
    exact decide_eq_decide.mpr (by omega)

/-- The image that mkfs would leave if it stopped here: only the free map is missing. -/
def State.image (m : State) : Image := update m.disk sb.bmapstart (bits m.freeblock)

/-- What is left of the disk: the blocks from `freeblock` on are zero. -/
structure Ready (m : State) : Prop where
  lo : sb.nmeta ≤ m.freeblock
  hi : m.freeblock ≤ FSSIZE
  zero : ∀ b, m.freeblock ≤ b → m.disk b = fun _ => 0

variable {m m' : State} {x x' : Dinode} {b : Nat} {ino : Nat → Dinode}

theorem bmapstart_lt_nmeta : sb.bmapstart < sb.nmeta := by decide

theorem image_data (h : sb.nmeta ≤ b) : m.image b = m.disk b := by
  refine update_of_ne ?_ _ _
  have := bmapstart_lt_nmeta
  omega

theorem BBLOCK_eq (h : b < FSSIZE) : sb.BBLOCK b = sb.bmapstart := by
  unfold Superblock.BBLOCK BPB BSIZE
  unfold FSSIZE at h
  omega

theorem image_bit (h : b < FSSIZE) : m.image.bit sb b = decide (b < m.freeblock) := by
  have hmod : b % BPB = b := by
    unfold BPB BSIZE
    unfold FSSIZE at h
    omega
  rw [Image.bit, BBLOCK_eq h, State.image, update_self, hmod, bitOf_bits]

theorem image_wsect {a : Bytes} (h : sb.nmeta ≤ b) :
    (wsect m b a).image = update m.image b a := by
  have hne : sb.bmapstart ≠ b := by
    have := bmapstart_lt_nmeta
    omega
  exact update_comm hne.symm _ _ _

/-- mkfs takes the block that balloc would take. -/
theorem balloc_image (hr : Ready m) (h : m.freeblock < FSSIZE) :
    Disk.balloc sb m.image = ((grab m).1, (grab m).2.image) := by
  have hmod : m.freeblock % BPB = m.freeblock := by
    unfold BPB BSIZE
    unfold FSSIZE at h
    omega
  have hfind : (List.range sb.size).find? (fun b => !m.image.bit sb b) = some m.freeblock := by
    refine List.find?_range_eq_some.mpr ⟨?_, List.mem_range.mpr h, fun j hj => ?_⟩
    · rw [image_bit h]
      simp
    · rw [image_bit (by omega)]
      simp [hj]
  have hmark : m.image.mark sb m.freeblock = (grab m).2.image := by
    rw [Image.mark, BBLOCK_eq h, hmod, State.image, update_self, update_idem,
      ← bits_succ]
    rfl
  rw [Disk.balloc, hfind]
  simp only
  rw [hmark]
  refine Prod.ext rfl ?_
  refine Function.update_eq_self_iff.mpr ?_
  rw [image_data (show sb.nmeta ≤ m.freeblock from hr.lo)]
  exact (hr.zero m.freeblock (Nat.le_refl _)).symm

theorem Ready.grab (hr : Ready m) (h : m.freeblock < FSSIZE) : Ready (grab m).2 :=
  ⟨by have := hr.lo; show _ ≤ m.freeblock + 1; omega, h, fun b hb => hr.zero b (by
    have hb : m.freeblock + 1 ≤ b := hb
    omega)⟩

theorem Ready.wsect (hr : Ready m) {a : Bytes} (h : b < m.freeblock) :
    Ready (wsect m b a) := by
  refine ⟨hr.lo, hr.hi, fun c hc => ?_⟩
  have hc : m.freeblock ≤ c := hc
  exact (update_of_ne (by omega) _ _).trans (hr.zero c hc)

theorem ofNat_freeblock (hr : Ready m) (h : m.freeblock < FSSIZE) :
    UInt32.ofNat m.freeblock ≠ 0 ∧ (UInt32.ofNat m.freeblock).toNat = m.freeblock :=
  ⟨ofNat_ne_zero sb_wf hr.lo h, toNat_ofNat_of_lt sb_wf h⟩

/-- The blocks that the loop of iappend takes for one block of a file. -/
def needs (d : Image) (x : Dinode) (fbn : Nat) : Nat :=
  (if fbn < NDIRECT ∨ x.ind ≠ 0 then 0 else 1) + if x.slot d (slotOf fbn) = 0 then 1 else 0

/-- What mkfs and the kernel do for one block of a file, with room on the disk. -/
structure Agrees (m m' : State) (x x' : Dinode) (fbn : Nat) (b : UInt32) : Prop where
  mkfs : blockOf m x fbn = .ok (b, m', x')
  kernel : bmap sb m.image x fbn = .ok (b, m'.image, x')
  freeblock : m'.freeblock = m.freeblock + needs m.image x fbn
  freeinode : m'.freeinode = m.freeinode
  ready : Ready m'
  found : b ≠ 0
  below : b.toNat < m'.freeblock
  low : ∀ c, c < sb.nmeta → m'.disk c = m.disk c
  direct : fbn < NDIRECT → x'.ind = x.ind
  indirect : ¬ fbn < NDIRECT → x'.ind ≠ 0

theorem blockOf_direct (hr : Ready m) {fbn : Nat} (hfbn : fbn < NDIRECT)
    (hroom : m.freeblock + needs m.image x fbn ≤ FSSIZE)
    (hslot : ∀ s, (x.slot m.image s).toNat < m.freeblock) :
    ∃ b m' x', Agrees m m' x x' fbn b := by
  have hk : Fin.ofNat (NDIRECT + 1) fbn = (⟨fbn, hfbn⟩ : Fin NDIRECT).castSucc :=
    Fin.ext (Nat.mod_eq_of_lt (by omega))
  have hs : x.slot m.image (slotOf fbn) = x.addrs (⟨fbn, hfbn⟩ : Fin NDIRECT).castSucc := by
    rw [slotOf_direct hfbn]
    rfl
  unfold needs at hroom
  rw [hs] at hroom
  by_cases h0 : x.addrs (⟨fbn, hfbn⟩ : Fin NDIRECT).castSucc = 0
  · rw [if_pos h0] at hroom
    have hlt : m.freeblock < FSSIZE := by omega
    obtain ⟨hne, hnat⟩ := ofNat_freeblock hr hlt
    refine ⟨(grab m).1, (grab m).2, x.setAddr (⟨fbn, hfbn⟩ : Fin NDIRECT).castSucc (grab m).1,
      ?_, ?_, ?_, rfl, hr.grab hlt, hne, ?_, fun _ _ => rfl, fun _ => ?_, fun h => absurd hfbn h⟩
    · rw [blockOf, if_pos hfbn, hk, if_pos h0]
    · rw [bmap, if_pos hfbn, hk, if_pos h0, balloc_image hr hlt]
      exact if_neg hne
    · rw [needs, if_pos (.inl hfbn), hs, if_pos h0]
      rfl
    · show (UInt32.ofNat m.freeblock).toNat < m.freeblock + 1
      omega
    · exact update_of_ne (Fin.castSucc_lt_last _).ne' _ _
  · refine ⟨x.addrs (⟨fbn, hfbn⟩ : Fin NDIRECT).castSucc, m, x, ?_, ?_, ?_, rfl, hr, h0, ?_,
      fun _ _ => rfl, fun _ => rfl, fun h => absurd hfbn h⟩
    · rw [blockOf, if_pos hfbn, hk, if_neg h0]
    · rw [bmap, if_pos hfbn, hk, if_neg h0]
    · rw [needs, if_pos (.inl hfbn), hs, if_neg h0]
      rfl
    · rw [← hs]
      exact hslot _

theorem indirectOf_spec (hr : Ready m)
    (hroom : m.freeblock + (if x.ind ≠ 0 then 0 else 1) ≤ FSSIZE)
    (hind : x.ind ≠ 0 → sb.nmeta ≤ x.ind.toNat ∧ x.ind.toNat < m.freeblock) :
    ∃ m' x', indirectOf m x = (m', x') ∧ loadIndirect sb m.image x = (x'.ind, m'.image, x') ∧
      m'.freeblock = m.freeblock + (if x.ind ≠ 0 then 0 else 1) ∧ m'.freeinode = m.freeinode ∧
      Ready m' ∧ x'.ind ≠ 0 ∧ sb.nmeta ≤ x'.ind.toNat ∧ x'.ind.toNat < m'.freeblock ∧
      m'.disk = m.disk ∧ ∀ j, x'.slot m'.image (.entry j) = x.slot m.image (.entry j) := by
  by_cases h0 : x.ind = 0
  · rw [if_neg (not_not.mpr h0)] at hroom ⊢
    have hlt : m.freeblock < FSSIZE := by omega
    obtain ⟨hne, hnat⟩ := ofNat_freeblock hr hlt
    have hi : (x.setAddr (Fin.last NDIRECT) (grab m).1).ind = (grab m).1 := ind_setAddr
    refine ⟨(grab m).2, x.setAddr (Fin.last NDIRECT) (grab m).1, ?_, ?_, rfl, rfl, hr.grab hlt, ?_, ?_,
      ?_, rfl, fun j => ?_⟩
    · rw [indirectOf, if_pos h0]
    · rw [loadIndirect, if_pos h0, balloc_image hr hlt]
      exact if_neg hne
    · exact hne
    · show _ ≤ (UInt32.ofNat m.freeblock).toNat
      rw [hnat]
      exact hr.lo
    · show (UInt32.ofNat m.freeblock).toNat < m.freeblock + 1
      omega
    · rw [Dinode.slot_entry, Dinode.slot_entry, if_pos h0, hi,
        if_neg (show (grab m).1 ≠ 0 from hne),
        show ((grab m).1).toNat = m.freeblock from hnat, image_data hr.lo]
      refine Bytes.u32_zero fun _ _ => ?_
      show m.disk m.freeblock _ = 0
      rw [hr.zero m.freeblock (Nat.le_refl _)]
  · rw [if_pos h0]
    refine ⟨m, x, ?_, ?_, rfl, rfl, hr, h0, (hind h0).1, (hind h0).2, rfl, fun _ => rfl⟩
    · rw [indirectOf, if_neg h0]
    · rw [loadIndirect, if_neg h0]

theorem blockOf_entry (hr : Ready m) {fbn : Nat} (hfbn : ¬ fbn < NDIRECT) (hmax : fbn < MAXFILE)
    (hroom : m.freeblock + needs m.image x fbn ≤ FSSIZE)
    (hind : x.ind ≠ 0 → sb.nmeta ≤ x.ind.toNat ∧ x.ind.toNat < m.freeblock)
    (hslot : ∀ s, (x.slot m.image s).toNat < m.freeblock) :
    ∃ b m' x', Agrees m m' x x' fbn b := by
  have he : fbn - NDIRECT < NINDIRECT := by
    unfold MAXFILE at hmax
    omega
  have hneeds : needs m.image x fbn = (if x.ind ≠ 0 then 0 else 1) +
      if x.slot m.image (.entry ⟨fbn - NDIRECT, he⟩) = 0 then 1 else 0 := by
    rw [needs, slotOf_entry hfbn he]
    congr 2
    simp [hfbn]
  rw [hneeds] at hroom
  obtain ⟨m1, x1, hof, hload, hfree, hino, hr1, hne1, hlo1, hlt1, hmem, hslots⟩ :=
    indirectOf_spec hr (by omega) hind
  have hsect : rsect m1 x1.ind.toNat = .ok (m1.disk x1.ind.toNat) := by
    rw [rsect, if_pos]
    omega
  have hdisk : m1.image x1.ind.toNat = m1.disk x1.ind.toNat := image_data hlo1
  have hent := hslots ⟨fbn - NDIRECT, he⟩
  rw [Dinode.slot_entry, if_neg hne1, hdisk] at hent
  by_cases h0 : x.slot m.image (.entry ⟨fbn - NDIRECT, he⟩) = 0
  · rw [if_pos h0] at hroom
    rw [h0] at hent
    have hlt : m1.freeblock < FSSIZE := by omega
    obtain ⟨hne, hnat⟩ := ofNat_freeblock hr1 hlt
    have hr2 := hr1.grab hlt
    refine ⟨(grab m1).1, wsect (grab m1).2 x1.ind.toNat
      ((m1.disk x1.ind.toNat).setU32 (4 * (fbn - NDIRECT)) (grab m1).1), x1, ?_, ?_, ?_, hino,
      hr2.wsect ?_, hne, ?_, fun c hc => ?_, fun h => absurd h hfbn, fun _ => hne1⟩
    · rw [blockOf, if_neg hfbn, hof]
      show (rsect m1 x1.ind.toNat >>= _) = _
      rw [hsect]
      show (if (m1.disk x1.ind.toNat).u32 (4 * (fbn - NDIRECT)) = 0 then _ else _) = _
      rw [if_pos hent]
      rfl
    · rw [bmap, if_neg hfbn, if_pos he, hload]
      simp only [if_neg hne1, hdisk]
      rw [if_pos hent, balloc_image hr1 hlt]
      simp only [if_neg (show (grab m1).1 ≠ 0 from hne)]
      rw [image_wsect hlo1, image_data hlo1]
      rfl
    · rw [hneeds, if_pos h0, ← Nat.add_assoc, ← hfree]
      rfl
    · show x1.ind.toNat < m1.freeblock + 1
      omega
    · show (UInt32.ofNat m1.freeblock).toNat < m1.freeblock + 1
      omega
    · rw [← hmem]
      exact update_of_ne (by omega) _ _
  · have hne : (m1.disk x1.ind.toNat).u32 (4 * (fbn - NDIRECT)) ≠ 0 := fun h => h0 (hent.symm.trans h)
    refine ⟨(m1.disk x1.ind.toNat).u32 (4 * (fbn - NDIRECT)), m1, x1, ?_, ?_, ?_, hino, hr1, hne, ?_,
      fun c _ => by rw [hmem], fun h => absurd h hfbn, fun _ => hne1⟩
    · rw [blockOf, if_neg hfbn, hof]
      show (rsect m1 x1.ind.toNat >>= _) = _
      rw [hsect]
      show (if (m1.disk x1.ind.toNat).u32 (4 * (fbn - NDIRECT)) = 0 then _ else _) = _
      rw [if_neg hne]
    · rw [bmap, if_neg hfbn, if_pos he, hload]
      simp only [if_neg hne1, hdisk]
      rw [if_neg hne]
    · rw [hneeds, if_neg h0, hfree, Nat.add_zero]
    · rw [hent]
      have := hslot (.entry ⟨fbn - NDIRECT, he⟩)
      omega

/-- The blocks that a file of a size takes, the indirect one included. -/
def cost (size : Nat) : Nat :=
  (size + BSIZE - 1) / BSIZE + if NDIRECT * BSIZE < size then 1 else 0

/-- A file has the blocks that its size needs and no others. -/
structure Tight (d : Image) (x : Dinode) (size : Nat) : Prop where
  blocks : ∀ bn, bn < MAXFILE → (x.slot d (slotOf bn) ≠ 0 ↔ bn * BSIZE < size)
  ind : x.ind ≠ 0 ↔ NDIRECT * BSIZE < size

/-- One round of the loop takes what the size grows by. -/
theorem cost_add {d : Image} {off n : Nat} (ht : Tight d x off) (hmax : off / BSIZE < MAXFILE)
    (h0 : 0 < n) (hn : n ≤ (off / BSIZE + 1) * BSIZE - off) :
    cost (off + n) = cost off + needs d x (off / BSIZE) := by
  have hb := ht.blocks _ hmax
  have hi := ht.ind
  have hslot : x.slot d (slotOf (off / BSIZE)) = 0 ↔ ¬ off / BSIZE * BSIZE < off := by
    rw [← hb, not_not]
  have hind : off / BSIZE < NDIRECT ∨ x.ind ≠ 0 ↔
      off / BSIZE < NDIRECT ∨ NDIRECT * BSIZE < off := by rw [hi]
  rw [needs, cost, cost]
  simp only [hslot, hind]
  unfold NDIRECT BSIZE at *
  split_ifs <;> omega

/-- What the loop of iappend does to an inode in memory and to the disk. -/
structure Appended (ino : Nat → Dinode) (i : Nat) (m m' : State) (x x' : Dinode) (off : Nat)
    (p : List UInt8) : Prop where
  sound : Sound sb m'.image (update ino i x')
  ready : Ready m'
  freeinode : m'.freeinode = m.freeinode
  freeblock : m'.freeblock + cost off = m.freeblock + cost (off + p.length)
  same : x' = { x with addrs := x'.addrs }
  low : ∀ c, c < sb.nmeta → m'.disk c = m.disk c
  inode : ∀ j, j < sb.inums → m'.image.inode sb j = m.image.inode sb j
  tight : Tight m'.image x' (off + p.length)
  bytes : x'.bytesAt m'.image 0 (off + p.length) = x.bytesAt m.image 0 off ++ p
  slots : ∀ j, j ≠ i → j < sb.inums → (ino j).type ≠ 0 →
    ∀ s, (ino j).slot m'.image s = (ino j).slot m.image s
  data : ∀ j, j ≠ i → j < sb.inums → (ino j).type ≠ 0 → ∀ s, s ≠ .indirect →
    (ino j).slot m.image s ≠ 0 →
    m'.image ((ino j).slot m.image s).toNat = m.image ((ino j).slot m.image s).toNat

theorem Appended.trans {i off : Nat} {m'' : State} {x'' : Dinode}
    {p p' : List UInt8} (h : Appended ino i m m' x x' off p)
    (h' : Appended ino i m' m'' x' x'' (off + p.length) p') :
    Appended ino i m m'' x x'' off (p ++ p') := by
  have hlen : off + (p ++ p').length = off + p.length + p'.length := by
    rw [List.length_append, Nat.add_assoc]
  refine ⟨h'.sound, h'.ready, h'.freeinode.trans h.freeinode, ?_, ?_,
    fun c hc => (h'.low c hc).trans (h.low c hc),
    fun j hj => (h'.inode j hj).trans (h.inode j hj), hlen ▸ h'.tight, ?_,
    fun j hj hlt hty s => (h'.slots j hj hlt hty s).trans (h.slots j hj hlt hty s),
    fun j hj hlt hty s hs hne => ?_⟩
  · have h1 := h.freeblock
    have h2 := h'.freeblock
    rw [hlen]
    omega
  · have h1 := h.same
    have h2 := h'.same
    rw [h1] at h2
    exact h2
  · rw [hlen, h'.bytes, h.bytes, List.append_assoc]
  · have := h'.data j hj hlt hty s hs
    rw [h.slots j hj hlt hty s] at this
    exact (this hne).trans (h.data j hj hlt hty s hs hne)

/-- Every slot of a file has a block that was taken. -/
theorem slot_lt {i : Nat} (h : Live sb m.image ino i x) (hr : Ready m)
    (s : Slot) : (x.slot m.image s).toNat < m.freeblock := by
  by_cases h0 : x.slot m.image s = 0
  · rw [h0]
    have := hr.lo
    have := sb_wf.nmeta_pos
    show 0 < _
    omega
  · obtain ⟨-, hlt, hbit⟩ := h.bit_slot h0
    rw [image_bit hlt] at hbit
    exact of_decide_eq_true hbit

/-- mkfs and the kernel choose the same block. -/
theorem blockOf_agrees {i fbn : Nat} (h : Live sb m.image ino i x) (hr : Ready m)
    (hmax : fbn < MAXFILE) (hroom : m.freeblock + needs m.image x fbn ≤ FSSIZE) :
    ∃ b m' x', Agrees m m' x x' fbn b := by
  have hslot := slot_lt h hr
  by_cases hd : fbn < NDIRECT
  · exact blockOf_direct hr hd hroom hslot
  · exact blockOf_entry hr hd hmax hroom (fun h0 => ⟨h.ind_le h0, hslot .indirect⟩) hslot

theorem append_step {i off n : Nat} (src : Bytes)
    (h : Live sb m.image ino i x) (hr : Ready m) (ht : Tight m.image x off)
    (hmax : off / BSIZE < MAXFILE) (h0 : 0 < n) (hn : n ≤ (off / BSIZE + 1) * BSIZE - off)
    (hroom : m.freeblock + needs m.image x (off / BSIZE) ≤ FSSIZE) :
    ∃ b m1 x1, blockOf m x (off / BSIZE) = .ok (b, m1, x1) ∧
      rsect m1 b.toNat = .ok (m1.disk b.toNat) ∧
      Appended ino i m (wsect m1 b.toNat ((m1.disk b.toNat).copy (off % BSIZE) n src)) x x1 off
        ((List.range n).map src) := by
  obtain ⟨b, m1, x1, ha⟩ := blockOf_agrees h hr hmax hroom
  obtain ⟨b', d', x', hmap, h1, hm⟩ := bmap_spec h hmax
  obtain ⟨rfl, rfl, rfl⟩ : b = b' ∧ m1.image = d' ∧ x1 = x' := by
    have := Except.ok.inj (ha.kernel.symm.trans hmap)
    simpa using this
  have hslot := hm.found ha.found
  have hne : x1.slot m1.image (slotOf (off / BSIZE)) ≠ 0 := by
    rw [hslot]
    exact ha.found
  obtain ⟨hlo, -, -⟩ := h1.bit_slot hne
  rw [hslot] at hlo
  obtain ⟨h2, hg⟩ := h1.write (slotOf_ne_indirect hmax) hne
    ((m1.disk b.toNat).copy (off % BSIZE) n src)
  have hfill := h1.fill hmax hslot ha.found ((m1.disk b.toNat).copy (off % BSIZE) n src)
  rw [hslot] at h2 hg
  rw [← image_wsect hlo] at h2 hg hfill
  -- A round of the loop of writei does the same to the bytes of the files.
  have hsp : Spliced sb ino i m.image
      (wsect m1 b.toNat ((m1.disk b.toNat).copy (off % BSIZE) n src)).image x x1 src off 0 off 0 n := by
    refine .round h hm ?_ ha.found (by unfold BSIZE at *; omega)
    simpa only [image_data hlo, Nat.zero_add] using hfill
  have hnew : ∀ bn, bn < MAXFILE → bn ≠ off / BSIZE →
      x1.slot m1.image (slotOf bn) = x.slot m.image (slotOf bn) := fun bn hbn hne' =>
    hm.only _ (fun he => hne' (slotOf_inj hbn hmax he)) (slotOf_ne_indirect hbn)
  refine ⟨b, m1, x1, ha.mkfs, ?_, h2.sound, ha.ready.wsect ha.below, ha.freeinode, ?_, ?_, ?_, ?_, ?_,
    ?_, ?_, hsp.others⟩
  · rw [rsect, if_pos]
    have := ha.ready.hi
    have := ha.below
    omega
  · have hc := cost_add ht hmax h0 hn
    rw [List.length_map, List.length_range]
    show m1.freeblock + _ = _
    rw [ha.freeblock]
    omega
  · exact (hm.grown.trans hg).same
  · intro c hc
    rw [← ha.low c hc]
    exact update_of_ne (by omega) _ _
  · exact (hm.grown.trans hg).inode
  · rw [List.length_map, List.length_range]
    refine ⟨fun bn hbn => ?_, ?_⟩
    · rw [hfill.slot]
      by_cases he : bn = off / BSIZE
      · subst he
        refine iff_of_true hne ?_
        have := Nat.div_mul_le_self off BSIZE
        omega
      · rw [hnew bn hbn he, ht.blocks bn hbn]
        unfold BSIZE at *
        omega
    · by_cases hd : off / BSIZE < NDIRECT
      · rw [ha.direct hd, ht.ind]
        unfold NDIRECT BSIZE at *
        omega
      · refine iff_of_true (ha.indirect hd) ?_
        unfold NDIRECT BSIZE at *
        omega
  · rw [List.length_map, List.length_range, bytesAt_add]
    congr 1
    · refine List.map_congr_left fun o ho => ?_
      have ho : o < off := List.mem_range.mp ho
      rw [Nat.zero_add]
      have hbn : o / BSIZE < MAXFILE := lt_of_le_of_lt (Nat.div_le_div_right (by omega)) hmax
      refine hsp.outside o hbn ?_ (.inl ho)
      rw [ht.blocks _ hbn]
      have := Nat.div_mul_le_self o BSIZE
      omega
    · refine List.map_congr_left fun j hj => ?_
      have hj : j < n := List.mem_range.mp hj
      rw [hsp.inside _ (by omega) (by omega)]
      congr 1
      omega
  · exact (hm.grown.trans hg).other

theorem cost_mono {n k : Nat} (h : n ≤ k) : cost n ≤ cost k := by
  unfold cost NDIRECT BSIZE
  split_ifs <;> omega

theorem map_ofList_range {p : List UInt8} {n : Nat} (h : n ≤ p.length) :
    (List.range n).map (Bytes.ofList p) = p.take n := by
  refine List.ext_getElem (by simp [h]) fun j hj hj' => ?_
  have : j < p.length := by
    rw [List.length_map, List.length_range] at hj
    omega
  simp [Bytes.ofList, this]

theorem Appended.refl {i off : Nat}
    (h : Live sb m.image ino i x) (hr : Ready m) (ht : Tight m.image x off) :
    Appended ino i m m x x off [] :=
  ⟨h.sound, hr, rfl, rfl, rfl, fun _ _ => rfl, fun _ _ => rfl, ht, (List.append_nil _).symm,
    fun _ _ _ _ _ => rfl,
    fun _ _ _ _ _ _ _ => rfl⟩

theorem appendLoop_spec {i off fuel : Nat} {p : List UInt8}
    (h : Live sb m.image ino i x) (hr : Ready m) (ht : Tight m.image x off) (hfuel : p.length ≤ fuel)
    (hmax : off + p.length ≤ MAXFILE * BSIZE)
    (hroom : m.freeblock + cost (off + p.length) ≤ FSSIZE + cost off) :
    ∃ m' x', appendLoop fuel m x off p = .ok (m', x', off + p.length) ∧
      Appended ino i m m' x x' off p := by
  induction fuel generalizing m x off p with
  | zero =>
    obtain rfl : p = [] := List.length_eq_zero_iff.mp (Nat.le_zero.mp hfuel)
    exact ⟨m, x, rfl, .refl h hr ht⟩
  | succ fuel ih =>
    by_cases hp : p = []
    · subst hp
      exact ⟨m, x, if_pos rfl, .refl h hr ht⟩
    have hpos : 0 < p.length := List.length_pos_iff.mpr hp
    have hlt : off / BSIZE < MAXFILE := by
      unfold BSIZE at *
      omega
    generalize hn : min p.length ((off / BSIZE + 1) * BSIZE - off) = n
    have hb : 0 < n ∧ n ≤ p.length ∧ n ≤ (off / BSIZE + 1) * BSIZE - off := by
      unfold BSIZE at *
      omega
    have hcost := cost_add ht hlt hb.1 hb.2.2
    have hmono : cost (off + n) ≤ cost (off + p.length) := cost_mono (by omega)
    obtain ⟨b, m1, x1, hblock, hsect, ha⟩ := append_step (Bytes.ofList p) h hr ht hlt
      hb.1 hb.2.2 (by omega)
    rw [map_ofList_range hb.2.1] at ha
    have hlen : (p.take n).length = n := List.length_take_of_le hb.2.1
    have hdrop : off + n + (p.drop n).length = off + p.length := by
      rw [List.length_drop]
      omega
    have hfree := ha.freeblock
    rw [hlen] at hfree
    have htight := ha.tight
    rw [hlen] at htight
    obtain ⟨m', x', hloop, ha'⟩ := ih (p := p.drop n)
      ⟨sb_wf, ha.sound, h.lt, by rw [ha.same]; exact h.type⟩
      ha.ready htight (by omega) (by rw [hdrop]; exact hmax)
      (by rw [hdrop]; omega)
    refine ⟨m', x', ?_, ?_⟩
    · have hmod : off - off / BSIZE * BSIZE = off % BSIZE := by
        have := Nat.mod_add_div' off BSIZE
        omega
      rw [appendLoop, if_neg hp]
      show (if MAXFILE ≤ off / BSIZE then _ else _) = _
      rw [if_neg (by omega), hblock]
      show (rsect m1 b.toNat >>= _) = _
      rw [hsect, hn, hmod, ← hdrop, ← hloop]
      rfl
    · have hstart : off + (p.take n).length = off + n := by rw [hlen]
      have := ha.trans (hstart ▸ ha')
      rwa [List.take_append_drop] at this

end Xv6.Disk.Mkfs
