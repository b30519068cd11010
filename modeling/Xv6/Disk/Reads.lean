import Xv6.Disk.Writes

namespace Xv6.Disk

open Xv6.Framework

variable {sb : Superblock} {d : Image} {x : Dinode}

def Dinode.byteAt (x : Dinode) (d : Image) (o : Nat) : UInt8 :=
  d (x.slot d (slotOf (o / BSIZE))).toNat (o % BSIZE)

def Dinode.bytesAt (x : Dinode) (d : Image) (off n : Nat) : List UInt8 :=
  (List.range n).map fun j => x.byteAt d (off + j)

theorem slotOf_direct {bn : Nat} (h : bn < NDIRECT) : slotOf bn = .direct ⟨bn, h⟩ := dif_pos h

theorem slotOf_entry {bn : Nat} (h : ¬ bn < NDIRECT) (h' : bn - NDIRECT < NINDIRECT) :
    slotOf bn = .entry ⟨bn - NDIRECT, h'⟩ := by
  rw [slotOf, dif_neg h, dif_pos h']

theorem slotOf_inj {bn bn' : Nat} (h : bn < MAXFILE) (h' : bn' < MAXFILE)
    (he : slotOf bn = slotOf bn') : bn = bn' := by
  unfold MAXFILE at h h'
  by_cases hd : bn < NDIRECT <;> by_cases hd' : bn' < NDIRECT
  · rw [slotOf_direct hd, slotOf_direct hd'] at he
    simpa using he
  · rw [slotOf_direct hd, slotOf_entry hd' (by omega)] at he
    cases he
  · rw [slotOf_entry hd (by omega), slotOf_direct hd'] at he
    cases he
  · rw [slotOf_entry hd (by omega), slotOf_entry hd' (by omega)] at he
    have : bn - NDIRECT = bn' - NDIRECT := by simpa using he
    omega

theorem bmap_hit {bn : Nat} (hbn : bn < MAXFILE) (h : x.slot d (slotOf bn) ≠ 0) :
    bmap sb d x bn = .ok (x.slot d (slotOf bn), d, x) := by
  unfold bmap
  by_cases hd : bn < NDIRECT
  · rw [slotOf_direct hd, Dinode.slot_direct] at h ⊢
    have hk : Fin.ofNat (NDIRECT + 1) bn = (⟨bn, hd⟩ : Fin NDIRECT).castSucc :=
      Fin.ext (Nat.mod_eq_of_lt (by omega))
    rw [if_pos hd, hk, if_neg h]
  · have he : bn - NDIRECT < NINDIRECT := by
      unfold MAXFILE at hbn
      omega
    rw [slotOf_entry hd he, Dinode.slot_entry] at h ⊢
    have hind : x.ind ≠ 0 := fun h0 => h (if_pos h0)
    rw [if_neg hind] at h ⊢
    rw [if_neg hd, if_pos he, loadIndirect]
    simp only [if_neg hind, if_neg h]

theorem bytesAt_add (off m n : Nat) :
    x.bytesAt d off (m + n) = x.bytesAt d off m ++ x.bytesAt d (off + m) n := by
  unfold Dinode.bytesAt
  rw [List.range_add, List.map_append, List.map_map]
  congr 1
  refine List.map_congr_left fun j _ => ?_
  rw [Function.comp_apply, Nat.add_assoc]

theorem bytesAt_part {off n len : Nat} (h : off + n ≤ len) :
    x.bytesAt d off n = ((x.bytesAt d 0 len).drop off).take n := by
  obtain ⟨r, rfl⟩ := Nat.exists_eq_add_of_le h
  have hlen : ∀ o k, (x.bytesAt d o k).length = k := fun o k => by simp [Dinode.bytesAt]
  rw [Nat.add_assoc, bytesAt_add, bytesAt_add, List.drop_left' (hlen 0 off),
    List.take_left' (hlen _ n), Nat.zero_add]

theorem slice_eq_bytesAt {off m : Nat} (hm : m ≤ BSIZE - off % BSIZE) :
    (d (x.slot d (slotOf (off / BSIZE))).toNat).slice (off % BSIZE) m = x.bytesAt d off m := by
  refine List.map_congr_left fun j hj => ?_
  have hj : j < m := List.mem_range.mp hj
  have hdiv : (off + j) / BSIZE = off / BSIZE := by
    unfold BSIZE at hm ⊢
    omega
  have hmod : (off + j) % BSIZE = off % BSIZE + j := by
    unfold BSIZE at hm ⊢
    omega
  rw [Dinode.byteAt, hdiv, hmod]

/-- The loop of readi, when every block is there: nothing is allocated, and unless the copy fails the
result is what the file has. -/
theorem readLoop_spec (sb : Superblock) (limit n fuel off : Nat) (out : List UInt8)
    (hend : off + (n - out.length) ≤ MAXFILE * BSIZE) (hfuel : n - out.length ≤ fuel)
    (hmapped : ∀ bn, off / BSIZE ≤ bn → bn * BSIZE < off + (n - out.length) →
      x.slot d (slotOf bn) ≠ 0) :
    ∃ fine out', readLoop sb limit n fuel d x off out = .ok (fine, out', d, x) ∧
      (n ≤ limit → fine = true ∧ out' = out ++ x.bytesAt d off (n - out.length)) := by
  induction fuel generalizing off out with
  | zero =>
    refine ⟨true, out, rfl, fun _ => ⟨rfl, ?_⟩⟩
    rw [Nat.le_zero.mp hfuel]
    simp [Dinode.bytesAt]
  | succ fuel ih =>
    rw [readLoop]
    by_cases hn : out.length < n
    · have hbn : off / BSIZE < MAXFILE := by
        unfold BSIZE at hend ⊢
        omega
      have hne : x.slot d (slotOf (off / BSIZE)) ≠ 0 := by
        refine hmapped _ (Nat.le_refl _) ?_
        have := Nat.div_mul_le_self off BSIZE
        omega
      rw [if_pos hn, bmap_hit hbn hne]
      show ∃ fine out', (if x.slot d (slotOf (off / BSIZE)) = 0 then _ else _) = _ ∧ _
      rw [if_neg hne]
      show ∃ fine out', (if limit < out.length + min (n - out.length) (BSIZE - off % BSIZE) then _
        else _) = _ ∧ _
      generalize hmin : min (n - out.length) (BSIZE - off % BSIZE) = m
      have hm : 1 ≤ m ∧ m ≤ n - out.length ∧ m ≤ BSIZE - off % BSIZE := by
        unfold BSIZE at hmin ⊢
        omega
      by_cases hl : limit < out.length + m
      · rw [if_pos hl]
        exact ⟨false, out, rfl, fun h => by omega⟩
      · rw [if_neg hl, slice_eq_bytesAt hm.2.2]
        have hlen : (out ++ x.bytesAt d off m).length = out.length + m := by
          simp [Dinode.bytesAt]
        obtain ⟨fine, out', hok, hres⟩ := ih (off + m) (out ++ x.bytesAt d off m)
          (by omega) (by omega) fun bn h1 h2 => hmapped bn
            ((Nat.div_le_div_right (by omega)).trans h1) (by omega)
        refine ⟨fine, out', hok, fun hle => ?_⟩
        obtain ⟨hf, ho⟩ := hres hle
        have hsplit : n - out.length = m + (n - (out.length + m)) := by omega
        refine ⟨hf, ho.trans ?_⟩
        rw [hlen, hsplit, bytesAt_add, List.append_assoc]
    · rw [if_neg hn]
      refine ⟨true, out, rfl, fun _ => ⟨rfl, ?_⟩⟩
      rw [show n - out.length = 0 by omega]
      simp [Dinode.bytesAt]

theorem readi_spec (sb : Superblock) (off n : UInt32) (limit : Nat) (hoff : ¬ x.size < off)
    (hwrap : ¬ off + n < off)
    (hend : off.toNat + min n.toNat (x.size.toNat - off.toNat) ≤ MAXFILE * BSIZE)
    (hmapped : ∀ bn, off.toNat / BSIZE ≤ bn →
      bn * BSIZE < off.toNat + min n.toNat (x.size.toNat - off.toNat) → x.slot d (slotOf bn) ≠ 0) :
    ∃ r out, readi sb d x off n limit = .ok (r, out, d, x) ∧
      (min n.toNat (x.size.toNat - off.toNat) ≤ limit →
        r = min n.toNat (x.size.toNat - off.toNat) ∧
        out = x.bytesAt d off.toNat (min n.toNat (x.size.toNat - off.toNat))) := by
  have hoff' := hoff
  rw [UInt32.lt_iff_toNat_lt] at hoff'
  have hlen : (if x.size < off + n then x.size - off else n).toNat =
      min n.toNat (x.size.toNat - off.toNat) := by
    have hadd := toNat_add_of_le hwrap
    by_cases h : x.size < off + n
    · rw [if_pos h]
      rw [UInt32.lt_iff_toNat_lt] at h
      rw [UInt32.toNat_sub_of_le _ _ (UInt32.le_iff_toNat_le.mpr (by omega))]
      omega
    · rw [if_neg h]
      rw [UInt32.lt_iff_toNat_lt] at h
      omega
  generalize min n.toNat (x.size.toNat - off.toNat) = m at hend hmapped hlen ⊢
  obtain ⟨fine, out, hok, hres⟩ := readLoop_spec sb limit m m off.toNat []
    hend (Nat.le_refl _) hmapped
  refine ⟨if fine then out.length else -1, out, ?_, fun hle => ?_⟩
  · rw [readi, if_neg (not_or.mpr ⟨hoff, hwrap⟩)]
    show (readLoop sb limit (if x.size < off + n then x.size - off else n).toNat
      (if x.size < off + n then x.size - off else n).toNat d x off.toNat [] >>= _) = _
    rw [hlen, hok]
    rfl
  · obtain ⟨hf, ho⟩ := hres hle
    rw [ho, hf]
    simp [Dinode.bytesAt]

end Xv6.Disk
