import Xv6.Malloc.Free

namespace Xv6.Malloc

open Xv6.Framework

namespace Heap

variable {h : Heap} {base : Nat} {fs l₁ l₂ : List Block} {b : Block} {n : UInt32}
  {region : Option (Option Nat)}

/-- What an allocation leaves: the list without the block that was taken, and the other headers. -/
structure Carved (h : Heap) (base : Nat) (fs : List Block) (c : Block) (h' : Heap) (fs' : List Block) :
    Prop where
  holds : h'.Holds base fs'
  taken : Block.Taken base fs c fs'
  freep : h'.freep ∈ base :: fs'.map Block.addr
  size : h'.size c.addr = c.units
  frame : ∀ x ∉ c.addr :: base :: fs.map Block.addr, h'.mem x = h.mem x

theorem toNat_sub {x y : UInt32} (h : y.toNat ≤ x.toNat) : (x - y).toNat = x.toNat - y.toNat := by
  rw [UInt32.toNat_sub_of_le]
  exact UInt32.le_iff_toNat_le.mpr h

theorem carved_all (hh : h.Holds base (l₁ ++ b :: l₂)) (ho : Block.Ordered base (l₁ ++ b :: l₂)) :
    Carved h base (l₁ ++ b :: l₂) b
      { h.setPtr (before base l₁) (h.mem b.addr).ptr with freep := before base l₁ } (l₁ ++ l₂) := by
  have hnd := ho.nodup
  have hl := hh.linked
  rw [List.map_append] at hnd hl
  refine ⟨Holds.of_mem (h := h.setPtr (before base l₁) (h.mem b.addr).ptr) ⟨?_, fun c hc => ?_, ?_⟩ rfl,
    Block.taken_all ho, ?_, ?_, fun x hx => ?_⟩
  · rw [ptr_setPtr, List.map_append]
    exact hl.bypass hnd
  · rw [size_setPtr]
    refine hh.sizes c ?_
    rcases List.mem_append.mp hc with hc | hc
    · exact List.mem_append_left _ hc
    · exact List.mem_append_right _ (List.mem_cons_of_mem b hc)
  · by_cases hp : base = before base l₁
    · rw [← hp, setPtr_self]
      exact hh.base
    · rw [setPtr_of_ne hp, hh.base]
  · exact before_mem_append
  · show (h.setPtr (before base l₁) (h.mem b.addr).ptr).size b.addr = b.units
    rw [size_setPtr]
    exact hh.sizes b (by simp)
  · have hxp : x ≠ before base l₁ := fun he => hx (List.mem_cons_of_mem _ (he ▸ before_mem_append))
    exact setPtr_of_ne hxp

theorem carved_tail (hh : h.Holds base (l₁ ++ b :: l₂)) (ho : Block.Ordered base (l₁ ++ b :: l₂))
    (hn : 0 < n.toNat) (hlt : n.toNat < b.units) {prevp : Nat}
    (hprev : prevp ∈ base :: (l₁ ++ b :: l₂).map Block.addr) :
    Carved h base (l₁ ++ b :: l₂) ⟨b.addr + HEADER * (b.units - n.toNat), n.toNat⟩
      { (h.setSize b.addr ((h.mem b.addr).size - n)).setSize
          (b.addr + HEADER * (b.units - n.toNat)) n with freep := prevp }
      (l₁ ++ ⟨b.addr, b.units - n.toNat⟩ :: l₂) := by
  have hsize : (h.mem b.addr).size.toNat = b.units := hh.sizes b (by simp)
  have htaken := Block.taken_tail ho hn hlt
  have haddr : (l₁ ++ ⟨b.addr, b.units - n.toNat⟩ :: l₂).map Block.addr =
      (l₁ ++ b :: l₂).map Block.addr := by simp
  -- the new header lies inside the block, so it is none of the list
  have hnew : ∀ x ∈ base :: (l₁ ++ b :: l₂).map Block.addr,
      x ≠ b.addr + HEADER * (b.units - n.toNat) := by
    intro x hx he
    rw [← haddr] at hx
    rcases List.mem_cons.mp hx with hb | hm
    · have := htaken.above
      unfold HEADER at this he
      dsimp only at this
      omega
    · obtain ⟨c, hc, rfl⟩ := List.mem_map.mp hm
      refine htaken.apart c.addr ⟨c, hc, Block.has_addr (htaken.ordered.pos c hc)⟩ ?_
      rw [he]
      exact Block.has_addr hn
  have hbne : ∀ c ∈ l₁ ++ l₂, c.addr ≠ b.addr := by
    intro c hc he
    have hnd := (List.nodup_cons.mp ho.nodup).2
    rw [List.map_append, List.map_cons, List.nodup_middle] at hnd
    refine (List.nodup_cons.mp hnd).1 ?_
    rw [← List.map_append, ← he]
    exact List.mem_map_of_mem hc
  refine ⟨Holds.of_mem (h := (h.setSize b.addr ((h.mem b.addr).size - n)).setSize
    (b.addr + HEADER * (b.units - n.toNat)) n) ⟨?_, fun c hc => ?_, ?_⟩ rfl, htaken, ?_, ?_,
    fun x hx => ?_⟩
  · rw [ptr_setSize, ptr_setSize, haddr]
    exact hh.linked
  · have hcm : c.addr ∈ base :: (l₁ ++ b :: l₂).map Block.addr := by
      rw [← haddr]
      exact List.mem_cons_of_mem _ (List.mem_map_of_mem hc)
    rw [size_setSize, Function.update_of_ne (hnew _ hcm), size_setSize]
    rcases List.mem_append.mp hc with hc | hc
    · rw [Function.update_of_ne (hbne c (List.mem_append_left _ hc))]
      exact hh.sizes c (List.mem_append_left _ hc)
    · rcases List.mem_cons.mp hc with rfl | hc
      · rw [Function.update_self, toNat_sub (by omega), hsize]
      · rw [Function.update_of_ne (hbne c (List.mem_append_right _ hc))]
        exact hh.sizes c (List.mem_append_right _ (List.mem_cons_of_mem b hc))
  · have hb : base ≠ b.addr := fun he => ho.base_not_mem (by simp [he])
    rw [setSize_of_ne (hnew base List.mem_cons_self), setSize_of_ne hb, hh.base]
  · rw [haddr]
    exact hprev
  · show (Heap.size _ _) = n.toNat
    rw [size, setSize_self]
  · obtain ⟨hxc, hx⟩ := not_or.mp (List.mem_cons.not.mp hx)
    have hxb : x ≠ b.addr := fun he => hx (List.mem_cons_of_mem _ (by simp [he]))
    exact (setSize_of_ne hxc).trans (setSize_of_ne hxb)

/-- The allocation from a block that is large enough. -/
theorem Holds.carve (hh : h.Holds base (l₁ ++ b :: l₂)) (ho : Block.Ordered base (l₁ ++ b :: l₂))
    (hn : 0 < n.toNat) (hle : n.toNat ≤ b.units) :
    ∃ c h' fs', c.units = n.toNat ∧ h.carve n (before base l₁) b.addr = (h', c.addr + HEADER) ∧
      Carved h base (l₁ ++ b :: l₂) c h' fs' := by
  have hsize : (h.mem b.addr).size.toNat = b.units := hh.sizes b (by simp)
  by_cases he : (h.mem b.addr).size = n
  · refine ⟨b, _, _, ?_, if_pos he, carved_all hh ho⟩
    rw [← hsize, he]
  · have hlt : n.toNat < b.units := by
      refine Nat.lt_of_le_of_ne hle fun heq => he (UInt32.toNat_inj.mp ?_)
      rw [hsize, heq]
    have hstop : (h.setSize b.addr ((h.mem b.addr).size - n)).stop b.addr =
        b.addr + HEADER * (b.units - n.toNat) := by
      rw [stop, setSize_self]
      show b.addr + HEADER * ((h.mem b.addr).size - n).toNat = _
      rw [toNat_sub (by rw [hsize]; exact hle), hsize]
    refine ⟨⟨_, n.toNat⟩, _, _, rfl, ?_, carved_tail hh ho hn hlt before_mem_append⟩
    rw [Heap.carve, if_neg he]
    dsimp only
    rw [hstop]

theorem le_size {p : Nat} : n ≤ (h.mem p).size ↔ n.toNat ≤ h.size p := UInt32.le_iff_toNat_le

theorem mallocLoop_take {prevp p fuel ap : Nat} {h' : Heap}
    (hle : n.toNat ≤ h.size p) (hc : h.carve n prevp p = (h', ap)) :
    mallocLoop n (fuel + 1) h prevp p region = some (h', ap, region) := by
  rw [mallocLoop.eq_def]
  dsimp only
  rw [if_pos (le_size.mpr hle), hc]

theorem mallocLoop_next {prevp p fuel : Nat} (hlt : h.size p < n.toNat)
    (hne : p ≠ h.freep) :
    mallocLoop n (fuel + 1) h prevp p region = mallocLoop n fuel h p (h.mem p).ptr region := by
  rw [mallocLoop.eq_def]
  dsimp only
  rw [if_neg fun hle => absurd (le_size.mp hle) (Nat.not_le.mpr hlt), if_neg hne]

/-- The loop of malloc passes blocks that are too small. -/
theorem mallocLoop_skip {prevp p fuel : Nat} {ys : List Nat}
    (hl : Linked h.ptr prevp ys p) (hs : ∀ y ∈ ys, h.size y < n.toNat ∧ y ≠ h.freep) :
    mallocLoop n (fuel + ys.length) h prevp (h.mem prevp).ptr region =
      mallocLoop n fuel h (ys.getLastD prevp) p region := by
  induction ys generalizing prevp with
  | nil =>
    show mallocLoop n fuel h prevp (h.ptr prevp) region = _
    rw [hl]
    rfl
  | cons y ys ih =>
    obtain ⟨hy, hne⟩ := hs y List.mem_cons_self
    rw [List.length_cons, ← Nat.add_assoc, show (h.mem prevp).ptr = y from hl.1, mallocLoop_next hy hne,
      List.getLastD_cons]
    exact ih hl.2 fun x hx => hs x (List.mem_cons_of_mem y hx)

/-- A block that is large enough is found, and malloc takes from it. -/
theorem Holds.found (hh : h.Holds base fs) (ho : Block.Ordered base fs)
    (hfp : h.freep ∈ base :: fs.map Block.addr) (hn : 0 < n.toNat)
    (hbig : ∃ b ∈ fs, n.toNat ≤ b.units) {fuel : Nat} (hfuel : fs.length < fuel)
    (region : Option (Option Nat)) :
    ∃ c h' fs', c.units = n.toNat ∧
      mallocLoop n fuel h h.freep (h.mem h.freep).ptr region = some (h', c.addr + HEADER, region) ∧
      Carved h base fs c h' fs' := by
  obtain ⟨l, hl, hperm⟩ := hh.cycle hfp
  have hnd : (h.freep :: l).Nodup := hperm.symm.nodup ho.nodup
  -- the first block in the order of the walk, which ends at freep itself
  have hsome : ¬∀ x ∈ l ++ [h.freep], h.size x < n.toNat := by
    intro hall
    obtain ⟨b, hb, hle⟩ := hbig
    have hm : b.addr ∈ l ++ [h.freep] := List.perm_append_singleton _ _ |>.symm.subset
      (hperm.symm.subset (List.mem_cons_of_mem _ (List.mem_map_of_mem hb)))
    have := hall _ hm
    rw [hh.sizes b hb] at this
    omega
  obtain ⟨m₁, y, m₂, hm, hsmall, hy⟩ := exists_first_failure hsome
  obtain ⟨hpath, hsub⟩ : Linked h.ptr h.freep m₁ y ∧ ∃ k, l = m₁ ++ k := by
    rcases List.eq_nil_or_concat m₂ with rfl | ⟨m₂, z, rfl⟩
    · obtain ⟨rfl, hy'⟩ := List.append_inj' hm rfl
      exact ⟨(List.cons.inj hy').1 ▸ hl, [], (List.append_nil _).symm⟩
    · rw [List.concat_eq_append, ← List.cons_append, ← List.append_assoc] at hm
      obtain ⟨rfl, -⟩ := List.append_inj' hm rfl
      exact ⟨(Linked.append.mp hl).1, _, rfl⟩
  obtain ⟨k, rfl⟩ := hsub
  have hskip : ∀ x ∈ m₁, h.size x < n.toNat ∧ x ≠ h.freep := fun x hx =>
    ⟨hsmall x hx, fun he => (List.nodup_cons.mp hnd).1 (List.mem_append_left _ (he ▸ hx))⟩
  have hlen : m₁.length < fuel := by
    have := hperm.length_eq
    simp only [List.length_cons, List.length_append, List.length_map] at this
    omega
  obtain ⟨extra, rfl⟩ : ∃ e, fuel = e + 1 + m₁.length := ⟨fuel - 1 - m₁.length, by omega⟩
  -- it is a block of the list, and the walk came from the one in front of it
  have hyle : n.toNat ≤ h.size y := Nat.not_lt.mp hy
  have hymem : y ∈ base :: fs.map Block.addr := by
    refine hperm.subset (List.perm_append_singleton _ _ |>.subset ?_)
    rw [hm]
    exact List.mem_append_right _ List.mem_cons_self
  obtain ⟨b, hb, rfl⟩ : ∃ b ∈ fs, b.addr = y := by
    rcases List.mem_cons.mp hymem with rfl | hm
    · have hz : h.size y = 0 := by
        rw [size, hh.base]
        rfl
      omega
    · exact List.mem_map.mp hm
  obtain ⟨l₁, l₂, rfl⟩ := List.append_of_mem hb
  have hprev : m₁.getLastD h.freep = before base l₁ := by
    refine hh.linked.unique ho.nodup ho.base_not_mem (hperm.subset ?_) before_mem_append ?_
    · exact List.mem_append_left _ List.getLastD_mem_cons
    · rw [hpath.last, hh.ptr_before.1]
      rfl
  rw [hh.sizes b hb] at hyle
  obtain ⟨c, h', fs', hc, hcarve, hcarved⟩ := hh.carve ho hn hyle
  refine ⟨c, h', fs', hc, ?_, hcarved⟩
  rw [mallocLoop_skip hpath hskip, hprev]
  exact mallocLoop_take (by rw [hh.sizes b hb]; exact hyle) hcarve

/-- If every block is too small, malloc asks for more memory. -/
theorem Holds.exhausted (hh : h.Holds base fs) (ho : Block.Ordered base fs)
    (hfp : h.freep ∈ base :: fs.map Block.addr) (hn : 0 < n.toNat) (hsmall : ∀ b ∈ fs, b.units < n.toNat)
    (fuel : Nat) (r : Option Nat) :
    mallocLoop n (fuel + 1 + fs.length) h h.freep (h.mem h.freep).ptr (some r) =
      match h.morecore fuel n r with
      | none => none
      | some (h, p) =>
        if p = 0 then some (h, 0, none) else mallocLoop n fuel h p (h.mem p).ptr none := by
  obtain ⟨l, hl, hperm⟩ := hh.cycle hfp
  have hnd : (h.freep :: l).Nodup := hperm.symm.nodup ho.nodup
  have hlt : ∀ x ∈ base :: fs.map Block.addr, h.size x < n.toNat := fun x hx => by
    rcases List.mem_cons.mp hx with rfl | hx
    · rw [size, hh.base]
      exact hn
    · obtain ⟨b, hb, rfl⟩ := List.mem_map.mp hx
      rw [hh.sizes b hb]
      exact hsmall b hb
  have hlen : l.length = fs.length := by
    have := hperm.length_eq
    simp only [List.length_cons, List.length_map] at this
    omega
  rw [← hlen, mallocLoop_skip hl fun y hy => ⟨hlt y (hperm.subset (List.mem_cons_of_mem _ hy)), fun he =>
    (List.nodup_cons.mp hnd).1 (he ▸ hy)⟩, mallocLoop,
    if_neg fun hle => absurd (le_size.mp hle) (Nat.not_le.mpr (hlt _ hfp))]
  exact if_pos rfl

end Heap

end Xv6.Malloc
