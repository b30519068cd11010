import Xv6.Disk.Kernel
import Xv6.Framework.Ownership

namespace Xv6.Disk

open Xv6.Framework

/-- The places where an inode has block numbers. -/
inductive Slot
  | direct (k : Fin NDIRECT)
  | indirect
  | entry (j : Fin NINDIRECT)
  deriving DecidableEq

namespace Dinode

def slot (x : Dinode) (d : Image) : Slot → UInt32
  | .direct k => x.addrs k.castSucc
  | .indirect => x.ind
  | .entry j => if x.ind = 0 then 0 else (d x.ind.toNat).u32 (4 * j)

theorem slot_direct (x : Dinode) (d : Image) (k : Fin NDIRECT) :
    x.slot d (.direct k) = x.addrs k.castSucc := rfl

theorem slot_indirect (x : Dinode) (d : Image) : x.slot d .indirect = x.ind := rfl

theorem slot_entry (x : Dinode) (d : Image) (j : Fin NINDIRECT) :
    x.slot d (.entry j) = if x.ind = 0 then 0 else (d x.ind.toNat).u32 (4 * j) := rfl

/-- What an inode has depends on its indirect block alone. -/
theorem slot_congr {x : Dinode} {d d' : Image} (h : x.ind ≠ 0 → d' x.ind.toNat = d x.ind.toNat)
    (s : Slot) : x.slot d' s = x.slot d s := by
  cases s with
  | direct k => rfl
  | indirect => rfl
  | entry j =>
    rw [slot_entry, slot_entry]
    by_cases h0 : x.ind = 0
    · rw [if_pos h0, if_pos h0]
    · rw [if_neg h0, if_neg h0, h h0]

end Dinode

def held (sb : Superblock) (d : Image) (ino : Nat → Dinode) (y : Nat × Slot) : Nat :=
  if y.1 < sb.inums ∧ (ino y.1).type ≠ 0 then ((ino y.1).slot d y.2).toNat else 0

/-- The free map and the inodes agree. The inodes are given apart from the disk: one of them may
have been changed in memory only. -/
def Sound (sb : Superblock) (d : Image) (ino : Nat → Dinode) : Prop :=
  Owned sb.nmeta sb.size (fun b => d.bit sb b = true) (held sb d ino)

/-- The inodes and the data are the same; the free map may not be. -/
structure SameData (sb : Superblock) (d d' : Image) : Prop where
  inode : ∀ i, i < sb.inums → d'.inode sb i = d.inode sb i
  data : ∀ c, sb.nmeta ≤ c → d' c = d c

structure Fresh (sb : Superblock) (d d' : Image) (b : Nat) : Prop where
  lt : b < sb.size
  free : d.bit sb b = false
  bit : ∀ c, c < sb.size → d'.bit sb c = (d.bit sb c || decide (c = b))
  inode : ∀ i, i < sb.inums → d'.inode sb i = d.inode sb i
  data : ∀ c, sb.nmeta ≤ c → c ≠ b → d' c = d c
  zero : d' b = fun _ => 0

/-- An inode that is in memory: its blocks, and those of the others, are in the free map. -/
structure Live (sb : Superblock) (d : Image) (ino : Nat → Dinode) (i : Nat) (x : Dinode) : Prop where
  wf : sb.Wf
  sound : Sound sb d (update ino i x)
  lt : i < sb.inums
  type : x.type ≠ 0

/-- The data of all files is the same; indirect blocks and free blocks may not be. -/
def Kept (sb : Superblock) (ino : Nat → Dinode) (d d' : Image) : Prop :=
  ∀ j s, j < sb.inums → (ino j).type ≠ 0 → s ≠ .indirect → (ino j).slot d s ≠ 0 →
    d' ((ino j).slot d s).toNat = d ((ino j).slot d s).toNat

section

variable {sb : Superblock} {d d' : Image} {ino ino' : Nat → Dinode} {i b : Nat} {x x' : Dinode}
  {v : UInt32}

theorem held_of (hi : i < sb.inums) (hx : (ino i).type ≠ 0) (s : Slot) :
    held sb d ino (i, s) = ((ino i).slot d s).toNat := by
  rw [held, if_pos ⟨hi, hx⟩]

/-- The inodes of other numbers do not matter. -/
theorem held_congr (h : ∀ i, i < sb.inums → ino' i = ino i) (y : Nat × Slot) :
    held sb d ino' y = held sb d ino y := by
  unfold held
  by_cases hy : y.1 < sb.inums
  · rw [h y.1 hy]
  · rw [if_neg (fun h => hy h.1), if_neg (fun h => hy h.1)]

/-- Two inodes with the same type and the same slots. -/
theorem held_eq {y : Nat × Slot} (ht : (ino' y.1).type = (ino y.1).type)
    (hs : y.1 < sb.inums → (ino y.1).type ≠ 0 → (ino' y.1).slot d' y.2 = (ino y.1).slot d y.2) :
    held sb d' ino' y = held sb d ino y := by
  unfold held
  by_cases hy : y.1 < sb.inums ∧ (ino y.1).type ≠ 0
  · rw [if_pos hy, ht, if_pos hy, hs hy.1 hy.2]
  · rw [if_neg hy, ht, if_neg hy]

theorem UInt32.toNat_ne_zero : v.toNat ≠ 0 ↔ v ≠ 0 := by
  rw [not_iff_not]
  exact UInt32.toNat_inj (b := 0)

namespace Sound

theorem congr_ino (h : Sound sb d ino) (hino : ∀ i, i < sb.inums → ino' i = ino i) :
    Sound sb d ino' :=
  Owned.congr h (fun _ _ => Iff.rfl) (held_congr hino)

/-- The indirect block of an inode is in the data area and belongs to no one else. -/
theorem ind_range (h : Sound sb d ino) (hi : i < sb.inums) (hx : (ino i).type ≠ 0)
    (h0 : (ino i).ind ≠ 0) : sb.nmeta ≤ (ino i).ind.toNat ∧ (ino i).ind.toNat < sb.size := by
  have hh := held_of (d := d) hi hx .indirect
  have := h.range (i, .indirect) (by rw [hh]; exact UInt32.toNat_ne_zero.mpr h0)
  rw [hh] at this
  exact this

/-- A block that is no inode's indirect block can be overwritten. -/
theorem overwrite (hsb : sb.Wf) (h : Sound sb d ino) {a : Bytes} (hb : sb.nmeta ≤ b)
    (hno : ∀ i, i < sb.inums → (ino i).type ≠ 0 → (ino i).ind ≠ 0 → (ino i).ind.toNat ≠ b) :
    Sound sb (update d b a) ino := by
  refine Owned.congr h (fun c hc => ?_) fun y => held_eq rfl fun hi hx => ?_
  · have hne : b ≠ sb.BBLOCK c := by
      have := hsb.BBLOCK_lt hc
      omega
    rw [Image.bit_of_ne hne]
  · exact Dinode.slot_congr (fun h0 => update_of_ne (hno _ hi hx h0) _ _) y.2

end Sound

theorem inode_overwrite (hsb : sb.Wf) {a : Bytes} (hb : sb.nmeta ≤ b) (hi : i < sb.inums) :
    Image.inode sb (update d b a) i = d.inode sb i := by
  refine Image.inode_of_ne ?_
  have := hsb.IBLOCK_lt hi
  have := hsb.bmapstart_le_nmeta
  omega

theorem toNat_ofNat_of_lt (hsb : sb.Wf) (hb : b < sb.size) : (UInt32.ofNat b).toNat = b := by
  have := hsb.size
  rw [UInt32.toNat_ofNat']
  omega

/-- balloc finds a free block or does nothing. -/
theorem balloc_spec (hsb : sb.Wf) (h : Sound sb d ino) :
    balloc sb d = (0, d) ∨
      ∃ b d', balloc sb d = (UInt32.ofNat b, d') ∧ sb.nmeta ≤ b ∧ Fresh sb d d' b := by
  unfold balloc
  split
  · rename_i b hfind
    have hlt : b < sb.size := List.mem_range.mp (List.mem_of_find?_eq_some hfind)
    have hfree : d.bit sb b = false := by simpa using List.find?_some hfind
    have hle : sb.nmeta ≤ b := h.le_of_not_used (by simp [hfree]) hlt
    refine .inr ⟨b, _, rfl, hle, hlt, hfree, fun c hc => ?_, fun i hi => ?_, fun c hc hne => ?_, ?_⟩
    · have hne : b ≠ sb.BBLOCK c := by
        have := hsb.BBLOCK_lt hc
        omega
      rw [Image.bit_of_ne hne, Image.bit_mark]
    · rw [inode_overwrite hsb hle hi]
      refine Image.inode_of_ne ?_
      have := hsb.IBLOCK_lt hi
      have := Superblock.Wf.bmapstart_le sb b
      omega
    · rw [update_of_ne hne, Image.mark, update_of_ne]
      have := hsb.BBLOCK_lt hlt
      omega
    · rw [update_self]
  · exact .inl rfl

theorem bfree_spec (hsb : sb.Wf) (hv : v.toNat < sb.size)
    (hbit : d.bit sb v.toNat = true) :
    ∃ d', bfree sb d v = .ok d' ∧ SameData sb d d' ∧
      ∀ c, d'.bit sb c = (d.bit sb c && decide (c ≠ v.toNat)) := by
  refine ⟨d.clear sb v.toNat, ?_, ⟨fun i hi => ?_, fun c hc => ?_⟩, fun c => ?_⟩
  · rw [bfree, if_neg (by simp [hbit])]
  · refine Image.inode_of_ne ?_
    have := hsb.IBLOCK_lt hi
    have := Superblock.Wf.bmapstart_le sb v.toNat
    omega
  · rw [Image.clear, update_of_ne]
    have := hsb.BBLOCK_lt hv
    omega
  · exact Image.bit_clear sb d v.toNat c

namespace Sound

/-- A new block is no inode's indirect block. -/
theorem ind_ne_fresh (hsb : sb.Wf) (h : Sound sb d ino) (hf : Fresh sb d d' b) (hi : i < sb.inums)
    (hx : (ino i).type ≠ 0) : (ino i).ind.toNat ≠ b := by
  have hb0 : b ≠ 0 := by
    have := h.le_of_not_used (by simp [hf.free]) hf.lt
    have := hsb.nmeta_pos
    omega
  have := h.not_held (by simp [hf.free]) hf.lt hb0 (i, .indirect)
  rwa [held_of hi hx] at this

/-- Allocation leaves what the inodes have alone. -/
theorem slot_fresh (hsb : sb.Wf) (h : Sound sb d ino) (hf : Fresh sb d d' b) (hi : i < sb.inums)
    (hx : (ino i).type ≠ 0) (s : Slot) : (ino i).slot d' s = (ino i).slot d s :=
  Dinode.slot_congr (fun h0 => hf.data _ (h.ind_range hi hx h0).1 (h.ind_ne_fresh hsb hf hi hx)) s

theorem kept_fresh (hsb : sb.Wf) (h : Sound sb d ino) (hf : Fresh sb d d' b) : Kept sb ino d d' := by
  intro j s hj hty _ hs
  have hheld := held_of (d := d) hj hty s
  have hne : held sb d ino (j, s) ≠ 0 := by
    rw [hheld]
    exact UInt32.toNat_ne_zero.mpr hs
  have hb0 : b ≠ 0 := by
    have := h.le_of_not_used (by simp [hf.free]) hf.lt
    have := hsb.nmeta_pos
    omega
  have hnb := h.not_held (by simp [hf.free]) hf.lt hb0 (j, s)
  have hr := h.range (j, s) hne
  rw [hheld] at hnb hr
  exact hf.data _ hr.1 hnb

theorem used_fresh (hf : Fresh sb d d' b) (c : Nat) (hc : c < sb.size) :
    d'.bit sb c = true ↔ d.bit sb c = true ∨ c = b := by
  rw [hf.bit c hc, Bool.or_eq_true, decide_eq_true_iff]

end Sound

namespace Live

theorem held_self (h : Live sb d ino i x) (s : Slot) :
    held sb d (update ino i x) (i, s) = (x.slot d s).toNat := by
  rw [held_of h.lt (by rw [update_self]; exact h.type), update_self]

variable {s : Slot}

theorem held_ne_zero (h : Live sb d ino i x) (hs : x.slot d s ≠ 0) :
    held sb d (update ino i x) (i, s) ≠ 0 := by
  rw [h.held_self]
  exact UInt32.toNat_ne_zero.mpr hs

/-- The block of a slot is in use. -/
theorem bit_slot (h : Live sb d ino i x) (hs : x.slot d s ≠ 0) :
    sb.nmeta ≤ (x.slot d s).toNat ∧ (x.slot d s).toNat < sb.size ∧
      d.bit sb (x.slot d s).toNat = true := by
  have hr := h.sound.range (i, s) (h.held_ne_zero hs)
  have hu := h.sound.used_of_held (h.held_ne_zero hs)
  rw [h.held_self] at hr hu
  exact ⟨hr.1, hr.2, hu⟩

theorem ind_le (h : Live sb d ino i x) (h0 : x.ind ≠ 0) : sb.nmeta ≤ x.ind.toNat :=
  (h.bit_slot (s := .indirect) h0).1

theorem slot_ne (h : Live sb d ino i x) {s s' : Slot} (hne : s ≠ s') (hs : x.slot d s ≠ 0) :
    (x.slot d s).toNat ≠ (x.slot d s').toNat := by
  intro he
  have := h.sound.distinct (i, s) (i, s') (h.held_ne_zero hs) (by rw [h.held_self, h.held_self, he])
  exact hne (Prod.mk.inj this).2

section Other

variable {j : Nat} (hj : j ≠ i) (hlt : j < sb.inums) (hty : (ino j).type ≠ 0)
include hj hlt hty

theorem held_other (s : Slot) : held sb d (update ino i x) (j, s) = ((ino j).slot d s).toNat := by
  rw [held_of hlt (by rwa [update_of_ne hj]), update_of_ne hj]

theorem other_ne (h : Live sb d ino i x) (hs : x.slot d s ≠ 0) (s' : Slot) :
    ((ino j).slot d s').toNat ≠ (x.slot d s).toNat := by
  intro he
  have := h.sound.distinct (i, s) (j, s') (h.held_ne_zero hs)
    (by rw [h.held_self, held_other hj hlt hty, he])
  exact hj (Prod.mk.inj this).1.symm

theorem other_le (h : Live sb d ino i x) (hs : (ino j).slot d s ≠ 0) :
    sb.nmeta ≤ ((ino j).slot d s).toNat := by
  have hr := h.sound.range (j, s)
  rw [held_other hj hlt hty] at hr
  exact (hr (UInt32.toNat_ne_zero.mpr hs)).1

theorem slot_fresh_other (h : Live sb d ino i x) (hf : Fresh sb d d' b) (s : Slot) :
    (ino j).slot d' s = (ino j).slot d s := by
  have := h.sound.slot_fresh h.wf hf hlt (by rwa [update_of_ne hj]) s
  rwa [update_of_ne hj] at this

end Other

theorem slot_fresh_self (h : Live sb d ino i x) (hf : Fresh sb d d' b) (s : Slot) :
    x.slot d' s = x.slot d s := by
  have := h.sound.slot_fresh h.wf hf h.lt (by rw [update_self]; exact h.type) s
  rwa [update_self] at this

/-- One slot of the inode changes. -/
theorem held_slot (h : Live sb d ino i x) (ht : x'.type = x.type)
    (hother : ∀ s', s' ≠ s → x'.slot d' s' = x.slot d s')
    (hframe : ∀ j, j ≠ i → j < sb.inums → (ino j).type ≠ 0 →
      ∀ s', (ino j).slot d' s' = (ino j).slot d s') (y : Nat × Slot) :
    held sb d' (update ino i x') y =
      update (held sb d (update ino i x)) (i, s) (x'.slot d' s).toNat y := by
  obtain ⟨j, s'⟩ := y
  by_cases hj : j = i
  · subst hj
    rw [held_of h.lt (by rw [update_self, ht]; exact h.type), update_self]
    by_cases hs : s' = s
    · rw [hs, update_self]
    · rw [update_of_ne (fun h => hs (Prod.mk.inj h).2), h.held_self, hother s' hs]
  · rw [update_of_ne (fun h => hj (Prod.mk.inj h).1)]
    refine held_eq (by rw [update_of_ne hj, update_of_ne hj]) fun hlt hty => ?_
    rw [update_of_ne hj] at hty
    rw [update_of_ne hj, update_of_ne hj]
    exact hframe j hj hlt hty s'

/-- A new block is given to a slot of an inode. -/
theorem assign (h : Live sb d ino i x) (hf : Fresh sb d d' b)
    {d'' : Image} (hs : x.slot d s = 0)
    (hbit : ∀ c, c < sb.size → d''.bit sb c = d'.bit sb c) (ht : x'.type = x.type)
    (hslot : (x'.slot d'' s).toNat = b)
    (hother : ∀ s', s' ≠ s → x'.slot d'' s' = x.slot d s')
    (hframe : ∀ j, j ≠ i → j < sb.inums → (ino j).type ≠ 0 →
      ∀ s', (ino j).slot d'' s' = (ino j).slot d s') :
    Live sb d'' ino i x' := by
  have hz : held sb d (update ino i x) (i, s) = 0 := by
    rw [h.held_self, hs]
    rfl
  have ho : Owned sb.nmeta sb.size (fun c => d''.bit sb c = true)
      (update (held sb d (update ino i x)) (i, s) b) :=
    Owned.assign h.sound hz (by simp [hf.free]) hf.lt h.wf.nmeta_pos fun c hc => by
      rw [hbit c hc, Sound.used_fresh hf c hc]
  refine ⟨h.wf, Owned.congr ho (fun _ _ => Iff.rfl) fun y => ?_, h.lt, ht.symm ▸ h.type⟩
  rw [h.held_slot ht hother hframe, hslot]

end Live

def slotOf (bn : Nat) : Slot :=
  if h : bn < NDIRECT then .direct ⟨bn, h⟩
  else if h : bn - NDIRECT < NINDIRECT then .entry ⟨bn - NDIRECT, h⟩
  else .indirect

/-- What bmap does: it gives the address in a slot, and fills slots that were empty. -/
structure Mapped (sb : Superblock) (ino : Nat → Dinode) (i : Nat) (d d' : Image) (x x' : Dinode)
    (s : Slot) (addr : UInt32) : Prop where
  same : x' = { x with addrs := x'.addrs }
  inode : ∀ i, i < sb.inums → d'.inode sb i = d.inode sb i
  other : ∀ j, j ≠ i → j < sb.inums → (ino j).type ≠ 0 →
    ∀ s', (ino j).slot d' s' = (ino j).slot d s'
  found : addr ≠ 0 → x'.slot d' s = addr
  keeps : ∀ s', x.slot d s' ≠ 0 → x'.slot d' s' = x.slot d s'
  only : ∀ s', s' ≠ s → s' ≠ .indirect → x'.slot d' s' = x.slot d s'
  kept : Kept sb (update ino i x) d d'
  hit : x.slot d s ≠ 0 → addr = x.slot d s ∧ d' = d ∧ x' = x

theorem Mapped.refl {s : Slot} : Mapped sb ino i d d x x s (x.slot d s) :=
  ⟨rfl, fun _ _ => rfl, fun _ _ _ _ _ => rfl, fun _ => rfl, fun _ _ => rfl, fun _ _ _ => rfl,
    fun _ _ _ _ _ _ => rfl, fun _ => ⟨rfl, rfl, rfl⟩⟩

theorem Mapped.none {s : Slot} (h : x.slot d s = 0) : Mapped sb ino i d d x x s 0 :=
  ⟨rfl, fun _ _ => rfl, fun _ _ _ _ _ => rfl, fun h => absurd rfl h, fun _ _ => rfl,
    fun _ _ _ => rfl, fun _ _ _ _ _ _ => rfl, fun h' => absurd h h'⟩

theorem Mapped.only_indirect {addr : UInt32} (h : Mapped sb ino i d d' x x' .indirect addr) (s' : Slot)
    (hs : s' ≠ .indirect) : x'.slot d' s' = x.slot d s' :=
  h.only s' hs hs

/-- The data of the files, when more happens to the disk. -/
theorem Mapped.trans_kept {s : Slot} {addr : UInt32} {d'' : Image}
    (h : Mapped sb ino i d d' x x' s addr) (hk : Kept sb (update ino i x') d' d'') :
    Kept sb (update ino i x) d d'' := by
  intro j s' hj hty hs hne
  have hkeep := h.kept j s' hj hty hs hne
  by_cases he : j = i
  · subst he
    have := hk j s' hj
    rw [update_self] at hty hne hkeep this ⊢
    have hslot := h.keeps s' hne
    rw [hslot, hkeep] at this
    exact this (by rw [h.same]; exact hty) hs hne
  · have := hk j s' hj
    rw [update_of_ne he] at hty hne hkeep this ⊢
    rw [h.other j he hj hty s', hkeep] at this
    exact this hty hs hne

theorem setAddr_slot_of_ne {k : Fin NDIRECT} {s : Slot} (hs : s ≠ .direct k) :
    (x.setAddr k.castSucc v).slot d s = x.slot d s := by
  have hind : (x.setAddr k.castSucc v).ind = x.ind :=
    update_of_ne (Fin.castSucc_lt_last k).ne' _ _
  cases s with
  | direct k' =>
    have hne : k' ≠ k := fun he => hs (by rw [he])
    exact update_of_ne (fun h => hne (Fin.castSucc_injective _ h)) _ _
  | indirect => exact hind
  | entry j =>
    rw [Dinode.slot_entry, Dinode.slot_entry, hind]

/-- The number of a new block. -/
theorem ofNat_ne_zero (hsb : sb.Wf) (hle : sb.nmeta ≤ b) (hlt : b < sb.size) :
    UInt32.ofNat b ≠ 0 := by
  rw [← UInt32.toNat_ne_zero, toNat_ofNat_of_lt hsb hlt]
  have := hsb.nmeta_pos
  omega

theorem bmap_direct (h : Live sb d ino i x) {bn : Nat} (hbn : bn < NDIRECT) :
    ∃ addr d' x', bmap sb d x bn = .ok (addr, d', x') ∧ Live sb d' ino i x' ∧
      Mapped sb ino i d d' x x' (slotOf bn) addr := by
  have hk : Fin.ofNat (NDIRECT + 1) bn = (⟨bn, hbn⟩ : Fin NDIRECT).castSucc :=
    Fin.ext (Nat.mod_eq_of_lt (by omega))
  have hs : slotOf bn = .direct ⟨bn, hbn⟩ := dif_pos hbn
  rw [bmap, if_pos hbn, hk, hs]
  generalize (⟨bn, hbn⟩ : Fin NDIRECT) = k
  by_cases h0 : x.addrs k.castSucc = 0
  · rw [if_pos h0]
    rcases balloc_spec h.wf h.sound with hb | ⟨b, d', hb, hle, hf⟩
    · rw [hb]
      exact ⟨0, d, x, rfl, h, .none h0⟩
    · have hnew : (x.setAddr k.castSucc (UInt32.ofNat b)).slot d' (.direct k) = UInt32.ofNat b :=
        update_self _ _ _
      have hother : ∀ s', s' ≠ .direct k →
          (x.setAddr k.castSucc (UInt32.ofNat b)).slot d' s' = x.slot d s' := fun s' hs' => by
        rw [setAddr_slot_of_ne hs', h.slot_fresh_self hf]
      have hframe := fun j hj hlt hty s => h.slot_fresh_other (j := j) hj hlt hty hf s
      rw [hb]
      simp only [if_neg (ofNat_ne_zero h.wf hle hf.lt)]
      refine ⟨_, _, _, rfl, h.assign hf (s := .direct k) h0 (fun _ _ => rfl) rfl ?_ hother hframe,
        rfl, hf.inode, hframe, fun _ => hnew, fun s' hs' => ?_, fun s' hs' _ => hother s' hs',
        h.sound.kept_fresh h.wf hf, fun hne => absurd h0 hne⟩
      · rw [hnew, toNat_ofNat_of_lt h.wf hf.lt]
      · exact hother s' fun he => hs' (he ▸ h0)
  · rw [if_neg h0]
    exact ⟨_, _, _, rfl, h, .refl⟩

theorem ind_setAddr : (x.setAddr (Fin.last NDIRECT) v).ind = v := by
  simp only [Dinode.ind, Dinode.setAddr, update_self]

theorem loadIndirect_spec (h : Live sb d ino i x) :
    ∃ d' x', loadIndirect sb d x = (x'.ind, d', x') ∧ Live sb d' ino i x' ∧
      Mapped sb ino i d d' x x' .indirect x'.ind := by
  rw [loadIndirect]
  by_cases h0 : x.ind = 0
  · rw [if_pos h0]
    rcases balloc_spec h.wf h.sound with hb | ⟨b, d', hb, hle, hf⟩
    · rw [hb]
      refine ⟨d, x, ?_, h, ?_⟩
      · rw [h0]
        rfl
      · rw [h0]
        exact .none h0
    · have hind := ind_setAddr (x := x) (v := UInt32.ofNat b)
      have hother : ∀ s', s' ≠ .indirect →
          (x.setAddr (Fin.last NDIRECT) (UInt32.ofNat b)).slot d' s' = x.slot d s' := by
        intro s' hs'
        cases s' with
        | direct k => exact update_of_ne (Fin.castSucc_lt_last k).ne _ _
        | indirect => exact absurd rfl hs'
        | entry j =>
          rw [Dinode.slot_entry, Dinode.slot_entry, if_pos h0, hind,
            if_neg (ofNat_ne_zero h.wf hle hf.lt), toNat_ofNat_of_lt h.wf hf.lt, hf.zero]
          exact Bytes.u32_zero fun _ _ => rfl
      have hframe := fun j hj hlt hty s => h.slot_fresh_other (j := j) hj hlt hty hf s
      rw [hb]
      simp only [if_neg (ofNat_ne_zero h.wf hle hf.lt)]
      refine ⟨d', x.setAddr (Fin.last NDIRECT) (UInt32.ofNat b), by rw [hind],
        h.assign hf (s := .indirect) h0 (fun _ _ => rfl) rfl ?_ hother hframe, rfl, hf.inode, hframe,
        fun _ => rfl, fun s' hs' => ?_, fun s' _ hs' => hother s' hs', h.sound.kept_fresh h.wf hf,
        fun hne => absurd h0 hne⟩
      · rw [Dinode.slot_indirect, hind, toNat_ofNat_of_lt h.wf hf.lt]
      · exact hother s' fun he => hs' (he ▸ h0)
  · rw [if_neg h0]
    exact ⟨d, x, rfl, h, .refl⟩

/-- An entry of the indirect block is filled. -/
theorem Live.assign_entry (h : Live sb d ino i x) (hf : Fresh sb d d' b) (h0 : x.ind ≠ 0)
    {j : Fin NINDIRECT} (hj : x.slot d (.entry j) = 0) :
    let d'' : Image := update d' x.ind.toNat ((d' x.ind.toNat).setU32 (4 * j) (UInt32.ofNat b))
    Live sb d'' ino i x ∧ x.slot d'' (.entry j) = UInt32.ofNat b ∧
      (∀ s', s' ≠ .entry j → x.slot d'' s' = x.slot d s') ∧
      (∀ k, k ≠ i → k < sb.inums → (ino k).type ≠ 0 →
        ∀ s', (ino k).slot d'' s' = (ino k).slot d s') ∧
      Kept sb (update ino i x) d d'' ∧
      ∀ k, k < sb.inums → d''.inode sb k = d.inode sb k := by
  intro d''
  have hle := h.ind_le h0
  have hnew : x.slot d'' (.entry j) = UInt32.ofNat b := by
    rw [Dinode.slot_entry, if_neg h0, show d'' x.ind.toNat = _ from update_self _ _ _,
      Bytes.u32_setU32]
  have hother : ∀ s', s' ≠ .entry j → x.slot d'' s' = x.slot d s' := by
    intro s' hs'
    rw [← h.slot_fresh_self hf s']
    cases s' with
    | direct k => rfl
    | indirect => rfl
    | entry j' =>
      have hne : j'.val ≠ j.val := fun he => hs' (by rw [Fin.ext he])
      rw [Dinode.slot_entry, Dinode.slot_entry, if_neg h0, if_neg h0,
        show d'' x.ind.toNat = _ from update_self _ _ _,
        Bytes.u32_setU32_of_disjoint (by omega)]
  have hframe : ∀ k, k ≠ i → k < sb.inums → (ino k).type ≠ 0 →
      ∀ s', (ino k).slot d'' s' = (ino k).slot d s' := by
    intro k hk hlt hty s'
    rw [← h.slot_fresh_other hk hlt hty hf s']
    exact Dinode.slot_congr
      (fun _ => update_of_ne (h.other_ne hk hlt hty (s := .indirect) h0 .indirect) _ _) s'
  refine ⟨h.assign hf hj (fun c hc => Image.bit_of_ne ?_) rfl ?_ hother hframe, hnew,
    hother, hframe, fun k s hk hty hs hne => ?_, fun k hk => ?_⟩
  · have := h.wf.BBLOCK_lt hc
    omega
  · rw [hnew, toNat_ofNat_of_lt h.wf hf.lt]
  · -- The indirect block is no one's data.
    rw [← h.sound.kept_fresh h.wf hf k s hk hty hs hne]
    refine update_of_ne (fun he => hs ?_) _ _
    have := h.sound.distinct (i, .indirect) (k, s) (h.held_ne_zero h0)
      (by rw [h.held_self, held_of hk hty, he]; rfl)
    exact (Prod.mk.inj this).2.symm
  · rw [inode_overwrite h.wf hle hk, hf.inode k hk]

theorem bmap_entry (h : Live sb d ino i x) {bn : Nat} (hbn : ¬ bn < NDIRECT)
    (hbn' : bn - NDIRECT < NINDIRECT) :
    ∃ addr d' x', bmap sb d x bn = .ok (addr, d', x') ∧ Live sb d' ino i x' ∧
      Mapped sb ino i d d' x x' (slotOf bn) addr := by
  have hs : slotOf bn = .entry ⟨bn - NDIRECT, hbn'⟩ := by
    rw [slotOf, dif_neg hbn, dif_pos hbn']
  obtain ⟨d1, x1, hl, h1, hm⟩ := loadIndirect_spec h
  -- An entry that is filled was there before loadIndirect.
  have hhit : ∀ j, x.slot d (.entry j) ≠ 0 → d1 = d ∧ x1 = x := by
    intro j hj
    refine (hm.hit fun h0 => hj ?_).2
    rw [Dinode.slot_entry, if_pos (show x.ind = 0 from h0)]
  rw [bmap, if_neg hbn, if_pos hbn', hl, hs]
  simp only
  by_cases h0 : x1.ind = 0
  · rw [if_pos h0]
    refine ⟨0, d1, x1, rfl, h1, hm.same, hm.inode, hm.other, fun h => absurd rfl h, hm.keeps,
      fun s' _ => hm.only_indirect s', hm.kept, fun hne => ?_⟩
    obtain ⟨rfl, rfl⟩ := hhit _ hne
    rw [Dinode.slot_entry, if_pos h0] at hne
    exact absurd rfl hne
  · rw [if_neg h0]
    have hslot : x1.slot d1 (.entry ⟨bn - NDIRECT, hbn'⟩) =
        (d1 x1.ind.toNat).u32 (4 * (bn - NDIRECT)) := by
      rw [Dinode.slot_entry, if_neg h0]
    rw [← hslot]
    by_cases ha : x1.slot d1 (.entry ⟨bn - NDIRECT, hbn'⟩) = 0
    · rw [if_pos ha]
      have hmiss : ¬ x.slot d (.entry ⟨bn - NDIRECT, hbn'⟩) ≠ 0 := fun hne => by
        obtain ⟨rfl, rfl⟩ := hhit _ hne
        exact hne ha
      rcases balloc_spec h.wf h1.sound with hb | ⟨b, d2, hb, hle, hf⟩
      · rw [hb]
        exact ⟨0, d1, x1, rfl, h1, hm.same, hm.inode, hm.other, fun h => absurd rfl h, hm.keeps,
          fun s' _ => hm.only_indirect s', hm.kept, fun hne => absurd hne hmiss⟩
      · obtain ⟨h3, hnew, hother, hframe, hkept, hino⟩ := h1.assign_entry hf h0 ha
        rw [hb]
        simp only [if_neg (ofNat_ne_zero h.wf hle hf.lt)]
        refine ⟨_, _, x1, rfl, h3, hm.same, fun k hk => ?_, fun k hk hlt hty s' => ?_,
          fun _ => hnew, fun s' hs' => ?_, fun s' hs' hs'' => ?_, hm.trans_kept hkept,
          fun hne => absurd hne hmiss⟩
        · exact (hino k hk).trans (hm.inode k hk)
        · exact (hframe k hk hlt hty s').trans (hm.other k hk hlt hty s')
        · refine (hother s' fun he => ?_).trans (hm.keeps s' hs')
          exact hmiss (he ▸ hs')
        · exact (hother s' hs').trans (hm.only_indirect s' hs'')
    · rw [if_neg ha]
      refine ⟨_, d1, x1, rfl, h1, hm.same, hm.inode, hm.other, fun _ => rfl, hm.keeps,
        fun s' _ => hm.only_indirect s', hm.kept, fun hne => ?_⟩
      obtain ⟨rfl, rfl⟩ := hhit _ hne
      exact ⟨rfl, rfl, rfl⟩

theorem bmap_spec (h : Live sb d ino i x) {bn : Nat} (hbn : bn < MAXFILE) :
    ∃ addr d' x', bmap sb d x bn = .ok (addr, d', x') ∧ Live sb d' ino i x' ∧
      Mapped sb ino i d d' x x' (slotOf bn) addr := by
  by_cases hd : bn < NDIRECT
  · exact bmap_direct h hd
  · refine bmap_entry h hd ?_
    unfold MAXFILE at hbn
    omega

end

end Xv6.Disk
