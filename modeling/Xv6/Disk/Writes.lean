import Xv6.Disk.Updates

namespace Xv6.Disk

open Xv6.Framework

variable {sb : Superblock} {d d' d'' : Image} {ino : Nat → Dinode} {i b : Nat} {x x' x'' : Dinode}

/-- An inode in memory gets more blocks; the inodes on the disk and what the others have stay as they
are. -/
structure Grown (sb : Superblock) (ino : Nat → Dinode) (i : Nat) (d d' : Image) (x x' : Dinode) :
    Prop where
  same : x' = { x with addrs := x'.addrs }
  inode : ∀ i, i < sb.inums → d'.inode sb i = d.inode sb i
  other : ∀ j, j ≠ i → j < sb.inums → (ino j).type ≠ 0 →
    ∀ s, (ino j).slot d' s = (ino j).slot d s
  keeps : ∀ s, x.slot d s ≠ 0 → x'.slot d' s = x.slot d s

theorem Mapped.grown {s : Slot} {addr : UInt32} (h : Mapped sb ino i d d' x x' s addr) :
    Grown sb ino i d d' x x' :=
  ⟨h.same, h.inode, h.other, h.keeps⟩

namespace Grown

theorem refl : Grown sb ino i d d x x :=
  ⟨rfl, fun _ _ => rfl, fun _ _ _ _ _ => rfl, fun _ _ => rfl⟩

theorem trans (h : Grown sb ino i d d' x x') (h' : Grown sb ino i d' d'' x' x'') :
    Grown sb ino i d d'' x x'' := by
  refine ⟨?_, fun i hi => (h'.inode i hi).trans (h.inode i hi), fun j hj hlt hty s => ?_,
    fun s hs => ?_⟩
  · have h1 := h.same
    have h2 := h'.same
    rw [h1] at h2
    exact h2
  · exact (h'.other j hj hlt hty s).trans (h.other j hj hlt hty s)
  · rw [h'.keeps s (by rw [h.keeps s hs]; exact hs), h.keeps s hs]

theorem type (h : Grown sb ino i d d' x x') : x'.type = x.type := by rw [h.same]

theorem slot_ne_zero (h : Grown sb ino i d d' x x') {s : Slot} (hs : x.slot d s ≠ 0) :
    x'.slot d' s ≠ 0 := by
  rw [h.keeps s hs]
  exact hs

end Grown

theorem slotOf_ne_indirect {bn : Nat} (h : bn < MAXFILE) : slotOf bn ≠ .indirect := by
  unfold slotOf
  split
  · simp
  · unfold MAXFILE at h
    rw [dif_pos (by omega)]
    simp

theorem Live.write (h : Live sb d ino i x) {s : Slot} (hs : s ≠ .indirect) (hne : x.slot d s ≠ 0)
    (a : Bytes) : Live sb (update d (x.slot d s).toNat a) ino i x ∧
      Grown sb ino i d (update d (x.slot d s).toNat a) x x := by
  obtain ⟨hle, -, -⟩ := h.bit_slot hne
  -- The block is no one's indirect block.
  have hself : x.ind.toNat ≠ (x.slot d s).toNat := (h.slot_ne hs hne).symm
  have hother : ∀ j, j ≠ i → j < sb.inums → (ino j).type ≠ 0 →
      (ino j).ind.toNat ≠ (x.slot d s).toNat := fun j hj hlt hty =>
    h.other_ne hj hlt hty hne .indirect
  refine ⟨⟨h.wf, h.sound.overwrite h.wf hle fun j hlt hty _ => ?_, h.lt, h.type⟩, rfl,
    fun j hj => inode_overwrite h.wf hle hj, fun j hj hlt hty s' => ?_, fun s' _ => ?_⟩
  · by_cases hj : j = i
    · rw [hj, update_self]
      exact hself
    · rw [update_of_ne hj] at hty ⊢
      exact hother j hj hlt hty
  · exact Dinode.slot_congr (fun _ => update_of_ne (hother j hj hlt hty) _ _) s'
  · exact Dinode.slot_congr (fun _ => update_of_ne hself _ _) s'

/-- The loop of writei maps every block up to the offset that it reaches. -/
theorem writeLoop_spec (h : Live sb d ino i x) (src : Bytes) (limit n fuel off tot : Nat)
    (hend : off + (n - tot) ≤ MAXFILE * BSIZE) :
    ∃ off' tot' d' x', writeLoop sb src limit n fuel d x off tot = .ok (off', tot', d', x') ∧
      Live sb d' ino i x' ∧ Grown sb ino i d d' x x' ∧
      off ≤ off' ∧ off' ≤ off + (n - tot) ∧
      ∀ bn, off / BSIZE ≤ bn → bn * BSIZE < off' → off < off' → x'.slot d' (slotOf bn) ≠ 0 := by
  induction fuel generalizing d x off tot with
  | zero => exact ⟨off, tot, d, x, rfl, h, .refl, by omega, by omega, fun _ _ _ h => by omega⟩
  | succ fuel ih =>
    rw [writeLoop]
    by_cases hn : tot < n
    · have hbn : off / BSIZE < MAXFILE := by
        unfold BSIZE at hend ⊢
        omega
      obtain ⟨addr, d1, x1, hmap, h1, hm⟩ := bmap_spec h hbn
      rw [if_pos hn, hmap]
      show ∃ off' tot' d' x', (if addr = 0 then Except.ok (off, tot, d1, x1) else _) = _ ∧ _
      by_cases h0 : addr = 0
      · rw [if_pos h0]
        exact ⟨off, tot, d1, x1, rfl, h1, hm.grown, by omega, by omega, fun _ _ _ h => by omega⟩
      · have hslot := hm.found h0
        have hne : x1.slot d1 (slotOf (off / BSIZE)) ≠ 0 := by rwa [hslot]
        have hwrite := h1.write (slotOf_ne_indirect hbn) hne
        rw [hslot] at hwrite
        rw [if_neg h0]
        show ∃ off' tot' d' x', (if limit < tot + min (n - tot) (BSIZE - off % BSIZE) then _
          else _) = _ ∧ _
        generalize hmin : min (n - tot) (BSIZE - off % BSIZE) = m
        by_cases hl : limit < tot + m
        · rw [if_pos hl]
          obtain ⟨h2, hg⟩ := hwrite ((d1 addr.toNat).copy (off % BSIZE) (limit - tot)
            fun i => src (tot + i))
          exact ⟨off, tot, _, x1, rfl, h2, hm.grown.trans hg, by omega, by omega,
            fun _ _ _ h => by omega⟩
        · rw [if_neg hl]
          obtain ⟨h2, hg⟩ := hwrite ((d1 addr.toNat).copy (off % BSIZE) m fun i => src (tot + i))
          obtain ⟨off', tot', d', x', hok, h3, hg3, hlo, hhi, hmapped⟩ :=
            ih h2 (off + m) (tot + m) (by omega)
          refine ⟨off', tot', d', x', hok, h3, (hm.grown.trans hg).trans hg3, by omega, by omega,
            fun bn hbn1 hbn2 _ => ?_⟩
          by_cases he : bn = off / BSIZE
          · rw [he]
            exact hg3.slot_ne_zero (hg.slot_ne_zero hne)
          · -- The next blocks are those of the rest of the loop.
            refine hmapped bn ?_ hbn2 ?_
            · unfold BSIZE at *
              omega
            · unfold BSIZE at *
              omega
    · rw [if_neg hn]
      exact ⟨off, tot, d, x, rfl, h, .refl, by omega, by omega, fun _ _ _ h => by omega⟩

/-- Every block below the end of a file has an address. -/
def Whole (d : Image) (x : Dinode) : Prop :=
  x.size.toNat ≤ MAXFILE * BSIZE ∧ ∀ bn, bn * BSIZE < x.size.toNat → x.slot d (slotOf bn) ≠ 0

/-- A write within the limits does not wrap. -/
theorem toNat_add_of_le {off n : UInt32} (h : ¬ off + n < off) :
    (off + n).toNat = off.toNat + n.toNat := by
  have hn := n.toNat_lt
  rw [UInt32.lt_iff_toNat_lt, UInt32.toNat_add] at h
  rw [UInt32.toNat_add]
  omega

/-- What writei does to the inode and to the disk. -/
structure Written (sb : Superblock) (i : Nat) (d d' : Image) (x x' : Dinode) : Prop where
  sound : Sound sb d' (update (d.inode sb) i x')
  inode : d'.inode sb i = x'
  others : ∀ j, j < sb.inums → j ≠ i → d'.inode sb j = d.inode sb j
  other : ∀ j, j ≠ i → j < sb.inums → (d.inode sb j).type ≠ 0 →
    ∀ s, (d.inode sb j).slot d' s = (d.inode sb j).slot d s
  type : x'.type = x.type
  whole : Whole d x → Whole d' x'

theorem setInode_data (hsb : sb.Wf) (hi : i < sb.inums) {b : Nat} (hb : sb.nmeta ≤ b) :
    d.setInode sb i x b = d b := by
  refine update_of_ne ?_ _ _
  have := hsb.IBLOCK_lt hi
  have := hsb.bmapstart_le_nmeta
  omega

theorem slot_setInode (hsb : sb.Wf) (hi : i < sb.inums) {y : Dinode}
    (hy : y.ind ≠ 0 → sb.nmeta ≤ y.ind.toNat) (s : Slot) :
    y.slot (d.setInode sb i x) s = y.slot d s := by
  exact Dinode.slot_congr (fun h0 => setInode_data hsb hi (hy h0)) s

theorem Live.slot_setInode (h : Live sb d ino i x) (haddrs : x'.addrs = x.addrs) (s : Slot) :
    x'.slot (d.setInode sb i x') s = x.slot d s := by
  rw [Dinode.slot_addrs haddrs, Disk.slot_setInode h.wf h.lt h.ind_le]

/-- writei keeps the free map sound whatever happens, and puts the inode on the disk. -/
theorem writei_spec (h : Live sb d (d.inode sb) i x) (hdisk : d.inode sb i = x) (src : Bytes)
    (off n : UInt32) (limit : Nat) :
    ∃ r d' x', writei sb d i x src off n limit = .ok (r, d', x') ∧ Written sb i d d' x x' := by
  unfold writei
  by_cases h1 : x.size < off ∨ off + n < off
  · rw [if_pos h1]
    exact ⟨-1, d, x, rfl, h.sound, hdisk, fun _ _ _ => rfl, fun _ _ _ _ _ => rfl, rfl, id⟩
  rw [if_neg h1]
  by_cases h2 : MAXFILE * BSIZE < (off + n).toNat
  · rw [if_pos h2]
    exact ⟨-1, d, x, rfl, h.sound, hdisk, fun _ _ _ => rfl, fun _ _ _ _ _ => rfl, rfl, id⟩
  rw [if_neg h2]
  obtain ⟨hoff, hwrap⟩ := not_or.mp h1
  rw [toNat_add_of_le hwrap] at h2
  rw [UInt32.lt_iff_toNat_lt] at hoff
  obtain ⟨off', tot', d1, x1, hok, hs, hg, hlo, hhi, hmapped⟩ :=
    writeLoop_spec h src limit n.toNat n.toNat off.toNat 0 (by omega)
  have hsize : x1.size = x.size := by rw [hg.same]
  have hmax : off' < 2 ^ 32 := by
    unfold MAXFILE NDIRECT NINDIRECT BSIZE at h2
    omega
  rw [hok]
  generalize hx2 : (if x1.size.toNat < off' then { x1 with size := UInt32.ofNat off' } else x1) = x2
  have haddrs : x2.type = x1.type ∧ x2.addrs = x1.addrs := by
    rw [← hx2]
    split <;> exact ⟨rfl, rfl⟩
  have hsize2 : x2.size.toNat = max x.size.toNat off' := by
    rw [← hx2, ← hsize]
    split
    · show (UInt32.ofNat off').toNat = _
      rw [UInt32.toNat_ofNat']
      omega
    · omega
  have hs2 : Live sb d1 (d.inode sb) i x2 := hs.congr_addrs haddrs.1 haddrs.2
  refine ⟨tot', d1.setInode sb i x2, x2, ?_, hs2.sound.setInode h.wf h.lt, Image.inode_setInode sb d1 i x2,
    fun j hj hne => ?_, fun j hj hlt hty s => ?_, haddrs.1.trans hg.type, fun hw => ⟨?_, fun bn hbn => ?_⟩⟩
  · rw [← hx2]
    rfl
  · rw [Image.inode_setInode_of_ne hne, hg.inode j hj]
  · rw [slot_setInode h.wf h.lt (h.other_le hj hlt hty (s := .indirect)) s, hg.other j hj hlt hty]
  · have := hw.1
    omega
  · rw [hs.slot_setInode haddrs.2]
    by_cases hb : bn * BSIZE < x.size.toNat
    · exact hg.slot_ne_zero (hw.2 bn hb)
    · refine hmapped bn ?_ (by omega) (by omega)
      exact Nat.div_le_of_le_mul (by rw [Nat.mul_comm]; omega)

end Xv6.Disk
