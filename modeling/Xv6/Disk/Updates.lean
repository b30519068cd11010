import Xv6.Disk.Blocks

namespace Xv6.Disk

open Xv6.Framework

variable {sb : Superblock} {d d' : Image} {ino : Nat → Dinode} {i b : Nat} {x x' : Dinode}

theorem Dinode.slot_addrs (h : x'.addrs = x.addrs) (s : Slot) : x'.slot d s = x.slot d s := by
  have hind : x'.ind = x.ind := congrFun h _
  cases s with
  | direct k => exact congrFun h _
  | indirect => exact hind
  | entry j => rw [Dinode.slot_entry, Dinode.slot_entry, hind]

namespace Sound

/-- Only the type and the addresses of an inode matter. -/
theorem congr_addrs (h : Sound sb d (update ino i x)) (ht : x'.type = x.type)
    (ha : x'.addrs = x.addrs) : Sound sb d (update ino i x') := by
  refine Owned.congr h (fun _ _ => Iff.rfl) fun y => held_eq ?_ fun _ _ => ?_
  · by_cases hy : y.1 = i
    · rw [hy, update_self, update_self, ht]
    · rw [update_of_ne hy, update_of_ne hy]
  · by_cases hy : y.1 = i
    · rw [hy, update_self, update_self, Dinode.slot_addrs ha]
    · rw [update_of_ne hy, update_of_ne hy]

theorem setInode (hsb : sb.Wf) (h : Sound sb d ino) (hi : i < sb.inums) :
    Sound sb (d.setInode sb i x) ino := by
  have hlt := hsb.IBLOCK_lt hi
  have hle := hsb.bmapstart_le_nmeta
  refine Owned.congr h (fun c _ => ?_) fun y => held_eq rfl fun hy hx => ?_
  · rw [Image.setInode, Image.bit_of_ne]
    have := Superblock.Wf.bmapstart_le sb c
    omega
  · refine Dinode.slot_congr (fun h0 => update_of_ne ?_ _ _) y.2
    have := (h.ind_range hy hx h0).1
    omega

end Sound

theorem Live.congr_addrs (h : Live sb d ino i x) (ht : x'.type = x.type) (ha : x'.addrs = x.addrs) :
    Live sb d ino i x' :=
  ⟨h.wf, h.sound.congr_addrs ht ha, h.lt, ht.symm ▸ h.type⟩

theorem Live.release (h : Live sb d ino i x) {s : Slot} (hs : x.slot d s ≠ 0) (hd : SameData sb d d')
    (hbit : ∀ c, d'.bit sb c = (d.bit sb c && decide (c ≠ (x.slot d s).toNat)))
    (ht : x'.type = x.type) (hslot : x'.slot d' s = 0)
    (hother : ∀ s', s' ≠ s → x'.slot d' s' = x.slot d s') : Live sb d' ino i x' := by
  have ho : Owned sb.nmeta sb.size (fun c => d'.bit sb c = true)
      (update (held sb d (update ino i x)) (i, s) 0) := by
    refine Owned.release h.sound (h.held_ne_zero hs) fun c _ => ?_
    rw [hbit, h.held_self, Bool.and_eq_true, decide_eq_true_iff]
  refine ⟨h.wf, Owned.congr ho (fun _ _ => Iff.rfl) fun y => ?_, h.lt, ht.symm ▸ h.type⟩
  rw [h.held_slot ht hother fun j hj hlt hty s' => Dinode.slot_congr
    (fun h0 => hd.data _ (h.other_le hj hlt hty (s := .indirect) h0)) s', hslot]
  rfl

theorem SameData.trans {d'' : Image} (h : SameData sb d d') (h' : SameData sb d' d'') :
    SameData sb d d'' :=
  ⟨fun i hi => (h'.inode i hi).trans (h.inode i hi), fun c hc => (h'.data c hc).trans (h.data c hc)⟩

theorem SameData.refl : SameData sb d d := ⟨fun _ _ => rfl, fun _ _ => rfl⟩

/-- A block of a slot that is not the indirect one can be freed. -/
theorem bfree_slot (h : Live sb d ino i x) {k : Fin NDIRECT} (hk : x.addrs k.castSucc ≠ 0) :
    ∃ d', bfree sb d (x.addrs k.castSucc) = .ok d' ∧ SameData sb d d' ∧
      Live sb d' ino i (x.setAddr k.castSucc 0) := by
  obtain ⟨-, hlt, hbit⟩ := h.bit_slot (s := .direct k) hk
  obtain ⟨d', hok, hd, hclear⟩ := bfree_spec h.wf hlt hbit
  refine ⟨d', hok, hd, h.release (s := .direct k) hk hd hclear rfl ?_ fun s' hs' => ?_⟩
  · exact update_self _ _ _
  · rw [setAddr_slot_of_ne hs']
    exact Dinode.slot_congr (fun h0 => hd.data _ (h.ind_le h0)) s'

theorem freeDirect_spec (h : Live sb d ino i x) (ks : List (Fin NDIRECT)) :
    ∃ d' x', freeDirect sb (ks.map Fin.castSucc) d x = .ok (d', x') ∧
      Live sb d' ino i x' ∧ SameData sb d d' ∧
      x' = { x with addrs := x'.addrs } ∧ x'.ind = x.ind ∧
      ∀ k, (k ∈ ks ∨ x.addrs k.castSucc = 0) → x'.addrs k.castSucc = 0 := by
  induction ks generalizing d x with
  | nil =>
    refine ⟨d, x, rfl, h, .refl, rfl, rfl, fun k hk => ?_⟩
    rcases hk with hk | hk
    · cases hk
    · exact hk
  | cons k ks ih =>
    rw [List.map_cons, freeDirect]
    by_cases h0 : x.addrs k.castSucc = 0
    · rw [if_pos h0]
      obtain ⟨d', x', hok, hs, hd, hsame, hind, hz⟩ := ih h
      refine ⟨d', x', hok, hs, hd, hsame, hind, fun k' hk' => hz k' ?_⟩
      rcases hk' with hk' | hk'
      · rcases List.mem_cons.mp hk' with rfl | hk'
        · exact .inr h0
        · exact .inl hk'
      · exact .inr hk'
    · rw [if_neg h0]
      obtain ⟨d1, hfree, hd1, hs1⟩ := bfree_slot h h0
      obtain ⟨d', x', hok, hs, hd, hsame, hind, hz⟩ := ih hs1
      refine ⟨d', x', ?_, hs, hd1.trans hd, hsame, hind.trans ?_, fun k' hk' => hz k' ?_⟩
      · rw [hfree]
        exact hok
      · exact update_of_ne (Fin.castSucc_lt_last k).ne' _ _
      · by_cases he : k' = k
        · exact .inr (by rw [he]; exact update_self _ _ _)
        · rcases hk' with hk' | hk'
          · exact .inl ((List.mem_cons.mp hk').resolve_left he)
          · refine .inr ((update_of_ne (fun h => he ?_) _ _).trans hk')
            exact Fin.castSucc_injective _ h

/-- The loop of itrunc over the entries of the indirect block. The entries stay in the block: what
the inode still has is told by `H`. -/
theorem freeEntries_spec (hsb : sb.Wf) {a : Bytes} (js : List (Fin NINDIRECT)) (hjs : js.Nodup)
    {H : Nat × Slot → Nat}
    (h : Owned sb.nmeta sb.size (fun b => d.bit sb b = true) H)
    (hH : ∀ j ∈ js, H (i, .entry j) = (a.u32 (4 * j)).toNat) :
    ∃ d' H', freeEntries sb a js d = .ok d' ∧ SameData sb d d' ∧
      Owned sb.nmeta sb.size (fun b => d'.bit sb b = true) H' ∧
      (∀ j ∈ js, H' (i, .entry j) = 0) ∧ ∀ y, (∀ j ∈ js, y ≠ (i, .entry j)) → H' y = H y := by
  induction js generalizing d H with
  | nil => exact ⟨d, H, rfl, .refl, h, by simp, fun _ _ => rfl⟩
  | cons j js ih =>
    obtain ⟨hj, hjs⟩ := List.nodup_cons.mp hjs
    have hHj := hH j (.head _)
    rw [freeEntries]
    by_cases h0 : a.u32 (4 * j) = 0
    · rw [if_pos h0]
      obtain ⟨d', H', hok, hd, ho, hz, hsame⟩ := ih hjs h fun j' hm => hH j' (.tail _ hm)
      refine ⟨d', H', hok, hd, ho, fun j' hm => ?_, fun y hy => hsame y fun j' hm => hy j' (.tail _ hm)⟩
      rcases List.mem_cons.mp hm with rfl | hm
      · rw [hsame _ fun j'' hm'' he => hj (by cases he; exact hm''), hHj, h0]
        rfl
      · exact hz j' hm
    · rw [if_neg h0]
      have hne : H (i, .entry j) ≠ 0 := by
        rw [hHj]
        exact UInt32.toNat_ne_zero.mpr h0
      have hr := h.range _ hne
      have hu := h.used_of_held hne
      rw [hHj] at hr hu
      obtain ⟨d1, hfree, hd1, hclear⟩ := bfree_spec hsb hr.2 hu
      have ho1 : Owned sb.nmeta sb.size (fun b => d1.bit sb b = true)
          (update H (i, .entry j) 0) := by
        refine Owned.release h hne fun c _ => ?_
        rw [hclear, hHj, Bool.and_eq_true, decide_eq_true_iff]
      obtain ⟨d', H', hok, hd, ho, hz, hsame⟩ := ih hjs ho1 fun j' hm => by
        rw [update_of_ne (fun he => hj (by cases he; exact hm))]
        exact hH j' (.tail _ hm)
      refine ⟨d', H', ?_, hd1.trans hd, ho, fun j' hm => ?_, fun y hy => ?_⟩
      · rw [hfree]
        exact hok
      · rcases List.mem_cons.mp hm with rfl | hm
        · rw [hsame _ fun j'' hm'' he => hj (by cases he; exact hm''), update_self]
        · exact hz j' hm
      · rw [hsame y fun j' hm => hy j' (.tail _ hm), update_of_ne (hy j (.head _))]

/-- What itrunc does to the addresses of the indirect block and of its entries. -/
theorem freeIndirect_ne (h : Live sb d ino i x) (h0 : x.ind ≠ 0) :
    ∃ d', freeIndirect sb d x = .ok (d', x.setAddr (Fin.last NDIRECT) 0) ∧ SameData sb d d' ∧
      Live sb d' ino i (x.setAddr (Fin.last NDIRECT) 0) := by
  obtain ⟨d', H', hok, hd, ho, hz, hsame⟩ := freeEntries_spec h.wf (List.finRange NINDIRECT)
    (List.nodup_finRange _) h.sound fun j _ => by rw [h.held_self, Dinode.slot_entry, if_neg h0]
  have hind : H' (i, .indirect) = x.ind.toNat := by
    rw [hsame _ (by simp), h.held_self]
    rfl
  have hne : H' (i, .indirect) ≠ 0 := by
    rw [hind]
    exact UInt32.toNat_ne_zero.mpr h0
  have hr := ho.range _ hne
  have hu := ho.used_of_held hne
  rw [hind] at hr hu
  obtain ⟨d'', hfree, hd'', hclear⟩ := bfree_spec h.wf hr.2 hu
  have ho'' : Owned sb.nmeta sb.size (fun b => d''.bit sb b = true)
      (update H' (i, .indirect) 0) := by
    refine Owned.release ho hne fun c _ => ?_
    rw [hclear, hind, Bool.and_eq_true, decide_eq_true_iff]
  refine ⟨d'', ?_, hd.trans hd'', h.wf, Owned.congr ho'' (fun _ _ => Iff.rfl) fun y => ?_, h.lt, h.type⟩
  · rw [freeIndirect, if_neg h0, hok]
    show (bfree sb d' x.ind >>= fun d => Except.ok (d, x.setAddr (Fin.last NDIRECT) 0)) = _
    rw [hfree]
    rfl
  obtain ⟨j, s⟩ := y
  by_cases hj : j = i
  · subst hj
    rw [held_of h.lt (by rw [update_self]; exact h.type), update_self]
    cases s with
    | direct k =>
      rw [update_of_ne (by simp), hsame _ (by simp), h.held_self]
      exact congrArg _ (update_of_ne (Fin.castSucc_lt_last k).ne _ _)
    | indirect =>
      rw [update_self, Dinode.slot_indirect]
      rfl
    | entry k =>
      rw [update_of_ne (by simp), hz k (List.mem_finRange k), Dinode.slot_entry, ind_setAddr]
      rfl
  · rw [update_of_ne (fun he => hj (Prod.mk.inj he).1),
      hsame _ fun k _ he => hj (Prod.mk.inj he).1]
    refine held_eq ?_ fun hlt hty => ?_
    · rw [update_of_ne hj, update_of_ne hj]
    · rw [update_of_ne hj] at hty
      rw [update_of_ne hj, update_of_ne hj]
      exact Dinode.slot_congr (fun hj0 => (hd.trans hd'').data _
        (h.other_le hj hlt hty (s := .indirect) hj0)) s

theorem freeIndirect_spec (h : Live sb d ino i x) :
    ∃ d' x', freeIndirect sb d x = .ok (d', x') ∧ Live sb d' ino i x' ∧
      SameData sb d d' ∧ x' = { x with addrs := x'.addrs } ∧ x'.ind = 0 ∧
      ∀ k : Fin NDIRECT, x'.addrs k.castSucc = x.addrs k.castSucc := by
  by_cases h0 : x.ind = 0
  · exact ⟨d, x, if_pos h0, h, .refl, rfl, h0, fun _ => rfl⟩
  · obtain ⟨d', hok, hd, hs⟩ := freeIndirect_ne h h0
    exact ⟨d', _, hok, hs, hd, rfl, ind_setAddr,
      fun k => update_of_ne (Fin.castSucc_lt_last k).ne _ _⟩

/-- itrunc frees the blocks of an inode and no others. -/
theorem itrunc_spec (h : Live sb d ino i x) :
    ∃ d' x', itrunc sb d i x = .ok (d', x') ∧ Sound sb d' (update ino i x') ∧
      x' = { x with size := 0, addrs := fun _ => 0 } ∧ d'.inode sb i = x' ∧
      (∀ j, j < sb.inums → j ≠ i → d'.inode sb j = d.inode sb j) ∧
      ∀ c, sb.nmeta ≤ c → d' c = d c := by
  obtain ⟨d1, x1, hok1, h1, hd1, hsame1, hind1, hz1⟩ := freeDirect_spec h (List.finRange NDIRECT)
  obtain ⟨d2, x2, hok2, h2, hd2, hsame2, hind2, hdir2⟩ := freeIndirect_spec h1
  have haddrs : x2.addrs = fun _ => 0 := by
    funext k
    refine Fin.lastCases hind2 (fun k => ?_) k
    rw [hdir2, hz1 k (.inl (List.mem_finRange k))]
  have hx2 : ({ x2 with size := 0 } : Dinode) = { x with size := 0, addrs := fun _ => 0 } := by
    rw [hsame2, hsame1, haddrs]
  refine ⟨d2.setInode sb i { x2 with size := 0 }, { x2 with size := 0 }, ?_, ?_, hx2, ?_, ?_,
    fun c hc => ?_⟩
  · rw [itrunc, hok1]
    show (freeIndirect sb d1 x1 >>= fun y => Except.ok
      (y.1.setInode sb i { y.2 with size := 0 }, ({ y.2 with size := 0 } : Dinode))) = _
    rw [hok2]
    rfl
  · have h3 : Live sb d2 ino i { x2 with size := 0 } := h2.congr_addrs rfl rfl
    exact h3.sound.setInode h.wf h.lt
  · exact Image.inode_setInode sb d2 i _
  · intro j hj hne
    rw [Image.inode_setInode_of_ne hne, hd2.inode j hj, hd1.inode j hj]
  · rw [Image.setInode, update_of_ne, hd2.data c hc, hd1.data c hc]
    have := h.wf.IBLOCK_lt h.lt
    have := h.wf.bmapstart_le_nmeta
    omega

end Xv6.Disk
