import Xv6.Disk.Transaction

namespace Xv6.Disk.Logged

open Xv6.Framework

variable {sb : Superblock} {mem : UserMem} {w w' : Buffers} {x x' : Dinode} {n : Nat}

def pair (sb : Superblock) (b : Nat) : Finset Nat := {sb.BBLOCK b, b}

def indirectPair (sb : Superblock) (x : Dinode) : Finset Nat :=
  if x.ind = 0 then ∅ else pair sb x.ind.toNat

theorem card_pair (sb : Superblock) (b : Nat) : (pair sb b).card ≤ 2 := Finset.card_le_two

theorem card_indirectPair (sb : Superblock) (x : Dinode) : (indirectPair sb x).card ≤ 2 := by
  unfold indirectPair
  split
  · rw [Finset.card_empty]
    omega
  · exact card_pair _ _

theorem mem_pair (sb : Superblock) (b : Nat) : b ∈ pair sb b := by
  simp [pair]

/-- balloc logs a bitmap block and the new block. -/
theorem balloc_lh (hsb : sb.Wf) {addr : UInt32} (h : balloc sb w = (addr, w')) :
    w'.lh ⊆ w.lh ∪ pair sb addr.toNat := by
  rw [balloc] at h
  rcases hfind : (List.range sb.size).find? (fun b => !w.data.bit sb b) with _ | b
  · rw [hfind] at h
    cases h
    exact Finset.subset_union_left
  · rw [hfind] at h
    cases h
    have hlt : b < sb.size := List.mem_range.mp (List.mem_of_find?_eq_some hfind)
    intro c hc
    simp only [Buffers.put, Finset.mem_insert] at hc
    simp only [toNat_ofNat_of_lt hsb hlt, Finset.mem_union, pair, Finset.mem_insert,
      Finset.mem_singleton]
    rcases hc with hc | hc | hc
    · exact .inr (.inr hc)
    · exact .inr (.inl hc)
    · exact .inl hc

/-- What a function logs: at most the blocks in `D` and the indirect block, which stays the same once
there is one. -/
structure Logs (sb : Superblock) (w w' : Buffers) (x x' : Dinode) (D : Finset Nat) : Prop where
  lh : w'.lh ⊆ w.lh ∪ (D ∪ indirectPair sb x')
  ind : x.ind ≠ 0 → x'.ind = x.ind

theorem Logs.refl {D : Finset Nat} : Logs sb w w x x D := ⟨Finset.subset_union_left, fun _ => rfl⟩

theorem indirectPair_mono (h : x.ind ≠ 0 → x'.ind = x.ind) :
    indirectPair sb x ⊆ indirectPair sb x' := by
  by_cases h0 : x.ind = 0
  · rw [indirectPair, if_pos h0]
    exact Finset.empty_subset _
  · rw [indirectPair, indirectPair, h h0]

theorem Logs.trans {w'' : Buffers} {x'' : Dinode} {D D' : Finset Nat} (h : Logs sb w w' x x' D)
    (h' : Logs sb w' w'' x' x'' D') : Logs sb w w'' x x'' (D ∪ D') := by
  refine ⟨fun c hc => ?_, fun h0 => ?_⟩
  · rcases Finset.mem_union.mp (h'.lh hc) with hc | hc
    · rcases Finset.mem_union.mp (h.lh hc) with hc | hc
      · exact Finset.mem_union_left _ hc
      · rcases Finset.mem_union.mp hc with hc | hc
        · simp [hc]
        · have := indirectPair_mono h'.ind hc
          simp [this]
    · rcases Finset.mem_union.mp hc with hc | hc <;> simp [hc]
  · have h1 := h.ind h0
    rw [h'.ind (by rw [h1]; exact h0), h1]

/-- A block of `D` is logged once more. -/
theorem Logs.put {D : Finset Nat} (h : Logs sb w w' x x' D) {b : Nat} {a : Bytes}
    (hb : b ∈ D ∪ indirectPair sb x') : Logs sb w (w'.put b a) x x' D := by
  refine ⟨fun c hc => ?_, h.ind⟩
  rcases Finset.mem_insert.mp hc with rfl | hc
  · exact Finset.mem_union_right _ hb
  · exact h.lh hc

/-- A block is allocated, and the inode keeps its indirect block. -/
theorem Logs.of_balloc (hsb : sb.Wf) {addr : UInt32} (h : balloc sb w = (addr, w'))
    (hx : x.ind ≠ 0 → x'.ind = x.ind) : Logs sb w w' x x' (pair sb addr.toNat) :=
  ⟨fun _ hc => Finset.union_subset_union_right Finset.subset_union_left (balloc_lh hsb h hc), hx⟩

/-- loadIndirect logs the indirect block if it is new; with a full disk it returns 0. -/
theorem loadIndirect_logs (hsb : sb.Wf) (w : Buffers) (x : Dinode) :
    ∃ w' x', loadIndirect sb w x = (x'.ind, w', x') ∧
      Logs sb w w' x x' (if x'.ind = 0 then pair sb 0 else ∅) := by
  rw [loadIndirect]
  by_cases h0 : x.ind = 0
  · rw [if_pos h0]
    rcases hb : balloc sb w with ⟨addr, w'⟩
    simp only
    by_cases ha : addr = 0
    · subst ha
      refine ⟨w', x, by rw [if_pos rfl, h0], ?_⟩
      rw [if_pos h0]
      exact .of_balloc hsb hb fun h => absurd h0 h
    · have hind : (x.setAddr (Fin.last NDIRECT) addr).ind = addr := ind_setAddr
      refine ⟨w', x.setAddr (Fin.last NDIRECT) addr, by rw [if_neg ha, hind], ?_⟩
      rw [hind, if_neg ha]
      refine ⟨fun c hc => ?_, fun h => absurd h0 h⟩
      rw [indirectPair, hind, if_neg ha]
      exact balloc_lh hsb hb hc
  · rw [if_neg h0]
    exact ⟨w, x, rfl, .refl⟩

/-- Besides the indirect block bmap logs at most the block and its bitmap block. -/
theorem bmap_logs (hsb : sb.Wf) (w : Buffers) (x : Dinode) {bn : Nat} (hbn : bn < MAXFILE) :
    ∃ addr w' x' D, bmap sb w x bn = .ok (addr, w', x') ∧ Logs sb w w' x x' D ∧
      (addr ≠ 0 → addr.toNat ∈ D) ∧ D ⊆ pair sb addr.toNat ∧
      (x.slot w.data (slotOf bn) ≠ 0 → D.card ≤ 1) := by
  rw [bmap]
  by_cases hd : bn < NDIRECT
  · have hk : Fin.ofNat (NDIRECT + 1) bn = (⟨bn, hd⟩ : Fin NDIRECT).castSucc :=
      Fin.ext (Nat.mod_eq_of_lt (by omega))
    rw [if_pos hd, hk, slotOf_direct hd]
    by_cases ha : x.addrs (⟨bn, hd⟩ : Fin NDIRECT).castSucc = 0
    · rw [if_pos ha]
      rcases hb : balloc sb w with ⟨addr, w'⟩
      by_cases h0 : addr = 0
      · exact ⟨0, w', x, _, if_pos h0, .of_balloc hsb hb fun _ => rfl, fun h => absurd rfl h,
          by rw [h0], fun h => absurd ha h⟩
      · exact ⟨addr, w', _, _, if_neg h0,
          .of_balloc hsb hb fun _ => Function.update_of_ne (Fin.castSucc_lt_last _).ne' _ _,
          fun _ => mem_pair _ _, Finset.Subset.refl _, fun h => absurd ha h⟩
    · rw [if_neg ha]
      exact ⟨_, w, x, {(x.addrs (⟨bn, hd⟩ : Fin NDIRECT).castSucc).toNat}, rfl, .refl,
        fun _ => Finset.mem_singleton_self _, Finset.singleton_subset_iff.mpr (mem_pair _ _),
        fun _ => by simp⟩
  · have he : bn - NDIRECT < NINDIRECT := by
      unfold MAXFILE at hbn
      omega
    rw [if_neg hd, if_pos he, slotOf_entry hd he]
    obtain ⟨w₁, x₁, hload, h₁⟩ := loadIndirect_logs hsb w x
    rw [hload]
    simp only
    by_cases hi : x₁.ind = 0
    · rw [if_pos hi] at h₁ ⊢
      refine ⟨0, w₁, x₁, _, rfl, h₁, fun h => absurd rfl h, Finset.Subset.refl _, fun h => ?_⟩
      have h0 : x.ind ≠ 0 := fun h0 => h (if_pos h0)
      exact absurd ((h₁.ind h0).symm.trans hi) h0
    rw [if_neg hi] at h₁ ⊢
    by_cases ha : (w₁.data x₁.ind.toNat).u32 (4 * (bn - NDIRECT)) = 0
    · rw [if_pos ha]
      have hslot : ¬ (if x.ind = 0 then 0 else (w.data x.ind.toNat).u32 (4 * (bn - NDIRECT))) ≠ 0 := by
        intro h
        have h0 : x.ind ≠ 0 := fun h0 => h (if_pos h0)
        rw [loadIndirect, if_neg h0] at hload
        simp only [Prod.mk.injEq] at hload
        obtain ⟨-, rfl, rfl⟩ := hload
        rw [if_neg h0] at h
        exact h ha
      rcases hb : balloc sb w₁ with ⟨addr, w₂⟩
      have h₂ : Logs sb w w₂ x x₁ (∅ ∪ pair sb addr.toNat) := h₁.trans (.of_balloc hsb hb fun _ => rfl)
      rw [Finset.empty_union] at h₂
      by_cases h0 : addr = 0
      · exact ⟨0, w₂, x₁, _, if_pos h0, h₂, fun h => absurd rfl h, by rw [h0],
          fun h => absurd h hslot⟩
      · refine ⟨addr, _, x₁, _, if_neg h0, h₂.put (Finset.mem_union_right _ ?_),
          fun _ => mem_pair _ _, Finset.Subset.refl _, fun h => absurd h hslot⟩
        rw [indirectPair, if_neg hi]
        exact mem_pair _ _
    · rw [if_neg ha]
      generalize (w₁.data x₁.ind.toNat).u32 (4 * (bn - NDIRECT)) = a
      refine ⟨a, w₁, x₁, {a.toNat}, rfl, ⟨fun c hc => ?_, h₁.ind⟩,
        fun _ => Finset.mem_singleton_self _, Finset.singleton_subset_iff.mpr (mem_pair _ _),
        fun _ => by simp⟩
      have := h₁.lh hc
      rw [Finset.empty_union] at this
      exact Finset.union_subset_union_right Finset.subset_union_right this

def spans (off r : Nat) : Nat := if r = 0 then 0 else (off + r - 1) / BSIZE - off / BSIZE + 1

theorem spans_step {off r : Nat} (hr : 0 < r) :
    spans off r = 1 + spans (off + min r (BSIZE - off % BSIZE)) (r - min r (BSIZE - off % BSIZE)) := by
  unfold spans BSIZE
  rw [if_neg (by omega)]
  split <;> omega

/-- The loop of writei logs at most two blocks for each block of the range, and only one for the first
if that is there. -/
theorem writeLoop_logs (hsb : sb.Wf) (src : Nat) (fuel : Nat) (w : Buffers) (x : Dinode)
    (off tot : Nat) (hmax : off + (n - tot) ≤ MAXFILE * BSIZE) :
    ∃ off' tot' w' x' D, writeLoop sb mem src n fuel w x off tot = .ok (off', tot', w', x') ∧
      Logs sb w w' x x' D ∧ D.card ≤ 2 * spans off (n - tot) ∧
      (tot < n → x.slot w.data (slotOf (off / BSIZE)) ≠ 0 → D.card + 1 ≤ 2 * spans off (n - tot)) := by
  induction fuel generalizing w x off tot with
  | zero =>
    refine ⟨off, tot, w, x, ∅, rfl, .refl, by simp, fun h _ => ?_⟩
    rw [Finset.card_empty, spans_step (by omega)]
    omega
  | succ fuel ih =>
    rw [writeLoop]
    by_cases ht : tot < n
    · rw [if_pos ht]
      have hbn : off / BSIZE < MAXFILE := by
        unfold BSIZE at *
        omega
      obtain ⟨addr, w₁, x₁, D₁, hok, h₁, hmem, hsub, hhit⟩ := bmap_logs hsb w x hbn
      have hcard := (Finset.card_le_card hsub).trans (card_pair _ _)
      have hspan := @spans_step off (n - tot) (by omega)
      rw [hok]
      dsimp only [bind, Except.bind]
      by_cases ha : addr = 0
      · rw [if_pos ha]
        refine ⟨off, tot, w₁, x₁, D₁, rfl, h₁, by omega, fun _ h => ?_⟩
        have := hhit h
        omega
      rw [if_neg ha]
      rcases hcp : copyin mem (min (n - tot) (BSIZE - off % BSIZE)) (w₁.data addr.toNat) (off % BSIZE)
        (src + tot) (min (n - tot) (BSIZE - off % BSIZE)) with ⟨fine, data⟩
      cases fine with
      | true =>
        obtain ⟨off', tot', w', x', D, hl, h₂, hc, -⟩ := ih (w₁.put addr.toNat data) x₁
          (off + min (n - tot) (BSIZE - off % BSIZE)) (tot + min (n - tot) (BSIZE - off % BSIZE))
          (by omega)
        rw [Nat.sub_add_eq] at hc
        have hu := Finset.card_union_le D₁ D
        refine ⟨off', tot', w', x', D₁ ∪ D, hl,
          (h₁.put (Finset.mem_union_left _ (hmem ha))).trans h₂, by omega, fun _ h => ?_⟩
        have := hhit h
        omega
      | false =>
        refine ⟨off, tot, _, x₁, D₁, rfl, ⟨h₁.lh, h₁.ind⟩, by omega, fun _ h => ?_⟩
        have := hhit h
        omega
    · rw [if_neg ht]
      exact ⟨off, tot, w, x, ∅, rfl, .refl, by simp, fun h => absurd h ht⟩

/-- The most that filewrite gives to one writei. -/
def filewriteMax : Nat := (MAXOPBLOCKS - 1 - 1 - 2) / 2 * BSIZE

/-- The writei of one transaction of filewrite logs no more blocks than begin_op reserved. -/
theorem filewrite_reservation (hsb : sb.Wf) (d : Image) (inum : Nat) (x : Dinode)
    (hw : ∀ bn, bn < MAXFILE → bn * BSIZE < x.size.toNat → x.slot d (slotOf bn) ≠ 0) (mem : UserMem)
    (src : Nat) (off n1 : UInt32) (hn : n1.toNat ≤ filewriteMax) :
    ∃ (r : Int) (w' : Buffers) (x' : Dinode),
      writei sb ⟨d, ∅⟩ inum x mem src off n1 = .ok (r, w', x') ∧ w'.lh.card ≤ MAXOPBLOCKS := by
  rw [writei]
  by_cases h1 : x.size < off ∨ off + n1 < off
  · rw [if_pos h1]
    exact ⟨-1, _, x, rfl, by simp⟩
  rw [if_neg h1]
  by_cases h2 : MAXFILE * BSIZE < (off + n1).toNat
  · rw [if_pos h2]
    exact ⟨-1, _, x, rfl, by simp⟩
  rw [if_neg h2]
  obtain ⟨hoff, hwrap⟩ := not_or.mp h1
  rw [UInt32.lt_iff_toNat_lt] at hoff
  rw [toNat_add_of_le hwrap] at h2
  have hroom : off.toNat + (n1.toNat - 0) ≤ MAXFILE * BSIZE := by omega
  obtain ⟨off', tot', w', x', D, hl, hlogs, hcard, hfirst⟩ :=
    writeLoop_logs hsb src n1.toNat ⟨d, ∅⟩ x off.toNat 0 hroom
  rw [hl]
  refine ⟨_, _, _, rfl, ?_⟩
  -- A range that starts inside a block starts in one that is there.
  have hD : D.card ≤ 7 := by
    unfold filewriteMax MAXOPBLOCKS BSIZE at hn
    by_cases hal : off.toNat % BSIZE = 0 ∨ n1.toNat = 0
    · unfold spans BSIZE at *
      split at hcard <;> omega
    · have hslot := hw (off.toNat / BSIZE) (by unfold BSIZE at *; omega) (by unfold BSIZE at *; omega)
      have := hfirst (by omega) hslot
      unfold spans BSIZE at *
      split at this <;> omega
  calc (insert (sb.IBLOCK inum) w'.lh).card
      ≤ w'.lh.card + 1 := Finset.card_insert_le _ _
    _ ≤ (D ∪ indirectPair sb x').card + 1 := by
        have hsub := hlogs.lh
        rw [Finset.empty_union] at hsub
        exact Nat.add_le_add_right (Finset.card_le_card hsub) 1
    _ ≤ D.card + (indirectPair sb x').card + 1 := Nat.add_le_add_right (Finset.card_union_le _ _) 1
    _ ≤ MAXOPBLOCKS := by
        have := card_indirectPair sb x'
        unfold MAXOPBLOCKS
        omega

/-- A file of five bytes. -/
def tinyStarted : Dinode :=
  { Dinode.zero with type := T_FILE, nlink := 1, size := 5, addrs := Function.update (fun _ => 0) 0 9 }

/-- What is appended to it goes to its block and to three new ones. -/
theorem filewrite_reservation_append : ∃ (r : Int) (w' : Buffers) (x' : Dinode),
    writei tinySuperblock ⟨tinyFile, ∅⟩ 1 tinyStarted (fun _ => some fun _ => 7) 0 5 3072 =
      .ok (r, w', x') ∧ r = 3072 ∧ w'.lh = {2, 3, 4, 5, 6, 9} ∧ w'.lh.card ≤ MAXOPBLOCKS := by
  have hval : (writei tinySuperblock ⟨tinyFile, ∅⟩ 1 tinyStarted (fun _ => some fun _ => 7) 0 5
      3072).toOption.map (fun x => (x.1, x.2.1.lh)) = some (3072, {2, 3, 4, 5, 6, 9}) := by
    decide +kernel
  have hw : ∀ bn, bn < MAXFILE → bn * BSIZE < tinyStarted.size.toNat →
      tinyStarted.slot tinyFile (slotOf bn) ≠ 0 := by
    intro bn _ h
    obtain rfl : bn = 0 := by
      change bn * 1024 < 5 at h
      omega
    decide
  obtain ⟨r, w', x', hok, hcard⟩ := filewrite_reservation tiny_wf tinyFile 1 tinyStarted hw
    (fun _ => some fun _ => 7) 0 5 3072 (by decide)
  rw [hok] at hval
  obtain ⟨hr, hlh⟩ := Prod.mk.inj (Option.some_inj.mp hval)
  exact ⟨r, w', x', hok, hr, hlh, hcard⟩

end Xv6.Disk.Logged
