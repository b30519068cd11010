import Xv6.Disk.Reads
import Xv6.Disk.Allocation

namespace Xv6.Disk

open Xv6.Framework

variable {sb : Superblock} {d d' d'' : Image} {ino : Nat → Dinode} {i : Nat} {x x' x'' : Dinode}
  {addr off n : UInt32} {src : Bytes}

def Full (sb : Superblock) (d : Image) : Prop := ∀ b, b < sb.size → d.bit sb b = true

/-- balloc fails on a full disk only. -/
theorem balloc_full (hsb : sb.Wf) (h : Sound sb d ino) (h0 : (balloc sb d).1 = 0) :
    Full sb (balloc sb d).2 := by
  rcases hfind : (List.range sb.size).find? (fun b => !d.bit sb b) with _ | b
  · rw [balloc, hfind]
    intro c hc
    have := List.find?_eq_none.mp hfind c (List.mem_range.mpr hc)
    simpa using this
  · have hlt : b < sb.size := List.mem_range.mp (List.mem_of_find?_eq_some hfind)
    have hfree : d.bit sb b = false := by simpa using List.find?_some hfind
    rw [balloc, hfind] at h0
    exact absurd h0 (ofNat_ne_zero hsb (h.le_of_not_used (by simp [hfree]) hlt) hlt)

theorem loadIndirect_full (h : Live sb d ino i x)
    (hok : loadIndirect sb d x = (0, d', x')) : Full sb d' := by
  unfold loadIndirect at hok
  by_cases ha : x.ind = 0
  · rw [if_pos ha] at hok
    by_cases h0 : (balloc sb d).1 = 0
    · simp only [if_pos h0, Prod.mk.injEq] at hok
      rw [← hok.2.1]
      exact balloc_full h.wf h.sound h0
    · simp only [if_neg h0, Prod.mk.injEq] at hok
      exact absurd hok.1 h0
  · rw [if_neg ha, Prod.mk.injEq] at hok
    exact absurd hok.1 ha

/-- bmap fails on a full disk only. -/
theorem bmap_full (h : Live sb d ino i x) {bn : Nat} (hok : bmap sb d x bn = .ok (0, d', x')) :
    Full sb d' := by
  unfold bmap at hok
  by_cases hd : bn < NDIRECT
  · rw [if_pos hd] at hok
    by_cases ha : x.addrs (Fin.ofNat _ bn) = 0
    · rw [if_pos ha] at hok
      by_cases h0 : (balloc sb d).1 = 0
      · simp only [if_pos h0, Except.ok.injEq, Prod.mk.injEq] at hok
        rw [← hok.2.1]
        exact balloc_full h.wf h.sound h0
      · simp only [if_neg h0, Except.ok.injEq, Prod.mk.injEq] at hok
        exact absurd hok.1 h0
    · rw [if_neg ha] at hok
      simp only [Except.ok.injEq, Prod.mk.injEq] at hok
      exact absurd hok.1 ha
  · rw [if_neg hd] at hok
    split at hok
    · obtain ⟨d1, x1, hl, h1, hm⟩ := loadIndirect_spec h
      rw [hl] at hok
      simp only at hok
      by_cases h0 : x1.ind = 0
      · simp only [if_pos h0, Except.ok.injEq, Prod.mk.injEq] at hok
        rw [h0] at hl
        rw [← hok.2.1]
        exact loadIndirect_full h hl
      rw [if_neg h0] at hok
      by_cases ha : (d1 x1.ind.toNat).u32 (4 * (bn - NDIRECT)) = 0
      · rw [if_pos ha] at hok
        by_cases hb : (balloc sb d1).1 = 0
        · simp only [if_pos hb, Except.ok.injEq, Prod.mk.injEq] at hok
          rw [← hok.2.1]
          exact balloc_full h.wf h1.sound hb
        · simp only [if_neg hb, Except.ok.injEq, Prod.mk.injEq] at hok
          exact absurd hok.1 hb
      · rw [if_neg ha] at hok
        simp only [Except.ok.injEq, Prod.mk.injEq] at hok
        exact absurd hok.1 ha
    · cases hok

theorem Mapped.byteAt {s : Slot} (h : Mapped sb ino i d d' x x' s addr)
    (hl : Live sb d ino i x) {o : Nat} (ho : o / BSIZE < MAXFILE)
    (hne : x.slot d (slotOf (o / BSIZE)) ≠ 0) : x'.byteAt d' o = x.byteAt d o := by
  have hk := h.kept i (slotOf (o / BSIZE)) hl.lt
  rw [update_self] at hk
  rw [Dinode.byteAt, Dinode.byteAt, h.keeps _ hne, hk hl.type (slotOf_ne_indirect ho) hne]

theorem Mapped.others {s : Slot} (h : Mapped sb ino i d d' x x' s addr) {j : Nat}
    (hj : j ≠ i) (hlt : j < sb.inums) (hty : (ino j).type ≠ 0) {s' : Slot} (hs : s' ≠ .indirect)
    (hne : (ino j).slot d s' ≠ 0) :
    d' ((ino j).slot d s').toNat = d ((ino j).slot d s').toNat := by
  have hk := h.kept j s' hlt
  rw [update_of_ne hj] at hk
  exact hk hty hs hne

/-- A block of a file is overwritten: the other blocks of this and of other files stay. -/
structure Filled (sb : Superblock) (ino : Nat → Dinode) (i : Nat) (d d' : Image) (x : Dinode)
    (bn : Nat) (a : Bytes) : Prop where
  slot : ∀ s, x.slot d' s = x.slot d s
  inside : ∀ o, o / BSIZE = bn → x.byteAt d' o = a (o % BSIZE)
  outside : ∀ o, o / BSIZE < MAXFILE → o / BSIZE ≠ bn → x.slot d (slotOf (o / BSIZE)) ≠ 0 →
    x.byteAt d' o = x.byteAt d o
  others : ∀ j, j ≠ i → j < sb.inums → (ino j).type ≠ 0 → ∀ s, s ≠ .indirect →
    (ino j).slot d s ≠ 0 → d' ((ino j).slot d s).toNat = d ((ino j).slot d s).toNat

theorem Live.fill (h : Live sb d ino i x) {bn : Nat} (hbn : bn < MAXFILE)
    (hslot : x.slot d (slotOf bn) = addr) (h0 : addr ≠ 0) (a : Bytes) :
    Filled sb ino i d (update d addr.toNat a) x bn a := by
  subst hslot
  have hsame : ∀ s, x.slot (update d (x.slot d (slotOf bn)).toNat a) s = x.slot d s :=
    Dinode.slot_congr fun hind => update_of_ne
      (h.slot_ne (s := .indirect) (slotOf_ne_indirect hbn).symm hind) _ _
  refine ⟨hsame, fun o ho => ?_, fun o hlt ho hs0 => ?_, fun j hj hlt hty s hs hs0 => ?_⟩
  · rw [Dinode.byteAt, hsame, ho, update_self]
  · rw [Dinode.byteAt, Dinode.byteAt, hsame, update_of_ne]
    exact h.slot_ne (fun hs => ho (slotOf_inj hlt hbn hs)) hs0
  · exact update_of_ne (h.other_ne hj hlt hty h0 s) _ _

/-- What the loop of writei does to the bytes of the files: those from `off` on become those of the
source, up to `off'` and, if a copy failed, `part` bytes more. -/
structure Spliced (sb : Superblock) (ino : Nat → Dinode) (i : Nat) (d d' : Image) (x x' : Dinode)
    (src : Bytes) (off tot off' tot' part : Nat) : Prop where
  adv : off' + tot = off + tot'
  le : tot ≤ tot'
  mapped : ∀ o, off ≤ o → o < off' + part → x'.slot d' (slotOf (o / BSIZE)) ≠ 0
  inside : ∀ o, off ≤ o → o < off' + part → x'.byteAt d' o = src (tot + (o - off))
  outside : ∀ o, o / BSIZE < MAXFILE → x.slot d (slotOf (o / BSIZE)) ≠ 0 →
    o < off ∨ off' + part ≤ o → x'.byteAt d' o = x.byteAt d o
  others : ∀ j, j ≠ i → j < sb.inums → (ino j).type ≠ 0 → ∀ s, s ≠ .indirect →
    (ino j).slot d s ≠ 0 → d' ((ino j).slot d s).toNat = d ((ino j).slot d s).toNat

/-- Why the loop of writei ended. -/
inductive Ended (sb : Superblock) (d : Image) (limit n off tot part : Nat) : Prop
  | done (htot : tot = n) (hpart : part = 0)
  | full (htot : tot < n) (hpart : part = 0) (hfull : Full sb d)
  | fault (htot : tot < n) (hpart : limit = tot + part)
    (hlt : part < min (n - tot) (BSIZE - off % BSIZE))

theorem Spliced.refl {off tot : Nat} : Spliced sb ino i d d x x src off tot off tot 0 :=
  ⟨rfl, Nat.le_refl _, fun o h h' => by omega, fun o h h' => by omega, fun _ _ _ _ => rfl,
    fun _ _ _ _ _ _ _ => rfl⟩

/-- One round of the loop of writei, with `m` bytes copied. -/
theorem Spliced.round {off tot m : Nat} {d1 d2 : Image} {x1 : Dinode}
    (h : Live sb d ino i x) (hm : Mapped sb ino i d d1 x x1 (slotOf (off / BSIZE)) addr)
    (hf : Filled sb ino i d1 d2 x1 (off / BSIZE) ((d1 addr.toNat).copy (off % BSIZE) m
      fun k => src (tot + k)))
    (h0 : addr ≠ 0) (hle : m ≤ BSIZE - off % BSIZE) :
    Spliced sb ino i d d2 x x1 src off tot off tot m := by
  have hdiv : ∀ o, off ≤ o → o < off + m → o / BSIZE = off / BSIZE := by
    intro o hlo hhi
    unfold BSIZE at *
    omega
  refine ⟨rfl, Nat.le_refl _, fun o hlo hhi => ?_, fun o hlo hhi => ?_, fun o hlt hne ho => ?_,
    fun j hj hlt hty s hs hne => ?_⟩
  · rw [hdiv o hlo hhi, hf.slot, hm.found h0]
    exact h0
  · have hmod : o % BSIZE = off % BSIZE + (o - off) := by
      unfold BSIZE at *
      omega
    rw [hf.inside o (hdiv o hlo hhi), hmod, Bytes.copy_inside (by omega)]
  · by_cases hdiv : o / BSIZE = off / BSIZE
    · rw [hf.inside o hdiv, Bytes.copy_outside]
      · rw [← hm.byteAt h hlt hne, Dinode.byteAt, hdiv, hm.found h0]
      · unfold BSIZE at *
        omega
    · rw [hf.outside o hlt hdiv (by rw [hm.keeps _ hne]; exact hne), hm.byteAt h hlt hne]
  · have hslot := hm.other j hj hlt hty s
    have := hf.others j hj hlt hty s hs (by rw [hslot]; exact hne)
    rw [hslot] at this
    rw [this, hm.others hj hlt hty hs hne]

theorem Spliced.trans {off tot m off' tot' part : Nat}
    (h : Spliced sb ino i d d' x x' src off tot off tot m) (hg : Grown sb ino i d d' x x')
    (hg' : Grown sb ino i d' d'' x' x'') (hmax : ∀ o, o < off + m → o / BSIZE < MAXFILE)
    (h' : Spliced sb ino i d' d'' x' x'' src (off + m) (tot + m) off' tot' part) :
    Spliced sb ino i d d'' x x'' src off tot off' tot' part := by
  have hadv := h'.adv
  have hle := h'.le
  refine ⟨by omega, by omega, fun o hlo hhi => ?_, fun o hlo hhi => ?_, fun o hlt hne ho => ?_,
    fun j hj hlt hty s hs hne => ?_⟩
  · by_cases hm : o < off + m
    · exact hg'.slot_ne_zero (h.mapped o hlo hm)
    · exact h'.mapped o (by omega) hhi
  · by_cases hm : o < off + m
    · rw [h'.outside o (hmax o hm) (h.mapped o hlo hm) (.inl hm), h.inside o hlo hm]
    · rw [h'.inside o (by omega) hhi]
      congr 1
      omega
  · rw [h'.outside o hlt (hg.slot_ne_zero hne) (by omega), h.outside o hlt hne (by omega)]
  · have hslot := hg.other j hj hlt hty s
    have := h'.others j hj hlt hty s hs (by rw [hslot]; exact hne)
    rw [hslot] at this
    rw [this, h.others j hj hlt hty s hs hne]

theorem writeLoop_spliced (h : Live sb d ino i x) (src : Bytes) (limit n fuel off tot : Nat)
    (hend : off + (n - tot) ≤ MAXFILE * BSIZE) (hfuel : n - tot ≤ fuel) (htot : tot ≤ n)
    (hlimit : tot ≤ limit) {off' tot' : Nat}
    (hok : writeLoop sb src limit n fuel d x off tot = .ok (off', tot', d', x')) :
    ∃ part, Spliced sb ino i d d' x x' src off tot off' tot' part ∧
      Ended sb d' limit n off' tot' part := by
  induction fuel generalizing d x off tot with
  | zero =>
    obtain ⟨rfl, rfl, rfl, rfl⟩ := hok
    exact ⟨0, .refl, .done (by omega) rfl⟩
  | succ fuel ih =>
    rw [writeLoop] at hok
    by_cases hn : tot < n
    · have hbn : off / BSIZE < MAXFILE := by
        unfold BSIZE at hend ⊢
        omega
      obtain ⟨addr, d1, x1, hmap, h1, hm⟩ := bmap_spec h hbn
      rw [if_pos hn, hmap] at hok
      change (if addr = 0 then Except.ok (off, tot, d1, x1) else _) = _ at hok
      by_cases h0 : addr = 0
      · rw [if_pos h0] at hok
        obtain ⟨rfl, rfl, rfl, rfl⟩ := hok
        refine ⟨0, ⟨rfl, Nat.le_refl _, fun o h h' => by omega, fun o h h' => by omega,
          fun o hlt hne _ => ?_,
          fun j hj hlt hty s hs hne => hm.others hj hlt hty hs hne⟩, .full hn rfl ?_⟩
        · exact hm.byteAt h hlt hne
        · rw [h0] at hmap
          exact bmap_full h hmap
      have hslot := hm.found h0
      have hne : x1.slot d1 (slotOf (off / BSIZE)) ≠ 0 := by rwa [hslot]
      have hfill := h1.fill hbn hslot h0
      have hwrite := h1.write (slotOf_ne_indirect hbn) hne
      rw [hslot] at hwrite
      rw [if_neg h0] at hok
      generalize hmin : min (n - tot) (BSIZE - off % BSIZE) = m at hok
      by_cases hl : limit < tot + m
      · rw [if_pos hl] at hok
        simp only [Except.ok.injEq, Prod.mk.injEq] at hok
        obtain ⟨rfl, rfl, rfl, rfl⟩ := hok
        exact ⟨limit - tot, Spliced.round h hm (hfill _) h0 (by omega),
          .fault hn (by omega) (by omega)⟩
      · rw [if_neg hl] at hok
        have hm1 : 1 ≤ m ∧ m ≤ n - tot ∧ m ≤ BSIZE - off % BSIZE := by
          unfold BSIZE at hmin ⊢
          omega
        obtain ⟨h2, hg⟩ := hwrite ((d1 addr.toNat).copy (off % BSIZE) m fun i => src (tot + i))
        obtain ⟨part, hrest, hend'⟩ := ih h2 (off + m) (tot + m) (by omega) (by omega)
          (by omega) (by omega) hok
        obtain ⟨off2, tot2, d2, x2, hok2, -, hgr, -⟩ :=
          writeLoop_spec h2 src limit n fuel (off + m) (tot + m) (by omega)
        obtain ⟨-, -, rfl, rfl⟩ : off' = off2 ∧ tot' = tot2 ∧ d' = d2 ∧ x' = x2 := by
          simpa using hok.symm.trans hok2
        refine ⟨part, Spliced.trans (Spliced.round h hm (hfill _) h0 hm1.2.2) (hm.grown.trans hg)
          hgr (fun o ho => ?_) hrest, hend'⟩
        unfold BSIZE at *
        omega
    · rw [if_neg hn] at hok
      obtain ⟨rfl, rfl, rfl, rfl⟩ := hok
      exact ⟨0, .refl, .done (by omega) rfl⟩

/-- iupdate leaves the free map alone. -/
theorem Full.setInode (hsb : sb.Wf) (hi : i < sb.inums) (h : Full sb d) :
    Full sb (d.setInode sb i x) := by
  intro b hb
  have hlt := hsb.IBLOCK_lt hi
  have hle := Superblock.Wf.bmapstart_le sb b
  rw [Image.setInode, Image.bit_of_ne (by omega)]
  exact h b hb

theorem Live.byteAt_setInode (h : Live sb d ino i x) (haddrs : x'.addrs = x.addrs) {o : Nat}
    (hne : x.slot d (slotOf (o / BSIZE)) ≠ 0) : x'.byteAt (d.setInode sb i x') o = x.byteAt d o := by
  rw [Dinode.byteAt, Dinode.byteAt, h.slot_setInode haddrs, setInode_data h.wf h.lt (h.bit_slot hne).1]

theorem Spliced.setInode {off tot off' tot' part : Nat}
    (h : Spliced sb ino i d d' x x' src off tot off' tot' part) (hg : Grown sb ino i d d' x x')
    (h0 : Live sb d ino i x) (hl : Live sb d' ino i x') (haddrs : x''.addrs = x'.addrs) :
    Spliced sb ino i d (d'.setInode sb i x'') x x'' src off tot off' tot' part := by
  refine ⟨h.adv, h.le, fun o hlo hhi => ?_, fun o hlo hhi => ?_, fun o hlt hne ho => ?_,
    fun j hj hlt hty s hs' hne => ?_⟩
  · rw [hl.slot_setInode haddrs]
    exact h.mapped o hlo hhi
  · rw [hl.byteAt_setInode haddrs (h.mapped o hlo hhi), h.inside o hlo hhi]
  · rw [hl.byteAt_setInode haddrs (hg.slot_ne_zero hne), h.outside o hlt hne ho]
  · rw [setInode_data h0.wf h0.lt (h0.other_le hj hlt hty hne), h.others j hj hlt hty s hs' hne]

/-- What writei does to the bytes of the files, when it does not refuse. -/
theorem writei_spliced (h : Live sb d (d.inode sb) i x) (hdisk : d.inode sb i = x) (src : Bytes)
    (limit : Nat) (hoff : ¬ x.size < off) (hwrap : ¬ off + n < off)
    (hmax : ¬ MAXFILE * BSIZE < (off + n).toNat) :
    ∃ (tot part : Nat) (d' : Image) (x' : Dinode),
      writei sb d i x src off n limit = .ok (tot, d', x') ∧ Written sb i d d' x x' ∧
      x'.size.toNat = max x.size.toNat (off.toNat + tot) ∧
      Spliced sb (d.inode sb) i d d' x x' src off.toNat 0 (off.toNat + tot) tot part ∧
      Ended sb d' limit n.toNat (off.toNat + tot) tot part := by
  obtain ⟨r, d2, x2, hw, hwritten⟩ := writei_spec h hdisk src off n limit
  have hend := hmax
  rw [toNat_add_of_le hwrap] at hend
  obtain ⟨off', tot, d1, x1, hok, hs, hg, -⟩ :=
    writeLoop_spec h src limit n.toNat n.toNat off.toNat 0 (by omega)
  obtain ⟨part, hsp, hended⟩ := writeLoop_spliced h src limit n.toNat n.toNat off.toNat 0
    (by omega) (by omega) (by omega) (by omega) hok
  obtain rfl : off' = off.toNat + tot := by
    have := hsp.adv
    omega
  have hle : tot ≤ n.toNat := by
    cases hended with
    | done htot _ => omega
    | full htot _ _ => omega
    | fault htot _ _ => omega
  have hlt : off.toNat + tot < 2 ^ 32 := by
    unfold MAXFILE NDIRECT NINDIRECT BSIZE at hend
    omega
  have hsize : x1.size = x.size := by rw [hg.same]
  have hwr : writei sb d i x src off n limit = .ok ((tot : Int), d1.setInode sb i
      (if x1.size.toNat < off.toNat + tot then { x1 with size := UInt32.ofNat (off.toNat + tot) }
        else x1), if x1.size.toNat < off.toNat + tot then
          { x1 with size := UInt32.ofNat (off.toNat + tot) } else x1) := by
    rw [writei, if_neg (not_or.mpr ⟨hoff, hwrap⟩), if_neg hmax, hok]
    rfl
  generalize hx3 : (if x1.size.toNat < off.toNat + tot then
    { x1 with size := UInt32.ofNat (off.toNat + tot) } else x1) = x3 at hwr
  have haddrs : x3.addrs = x1.addrs := by
    rw [← hx3]
    split <;> rfl
  have hsize3 : x3.size.toNat = max x.size.toNat (off.toNat + tot) := by
    rw [← hx3, ← hsize]
    split
    · show (UInt32.ofNat (off.toNat + tot)).toNat = _
      rw [UInt32.toNat_ofNat_of_lt' hlt]
      omega
    · omega
  obtain ⟨-, rfl, rfl⟩ : r = tot ∧ d2 = d1.setInode sb i x3 ∧ x2 = x3 := by
    simpa using hw.symm.trans hwr
  refine ⟨tot, part, _, _, hwr, hwritten, hsize3,
    hsp.setInode hg h hs haddrs, ?_⟩
  cases hended with
  | done htot hpart => exact .done htot hpart
  | full htot hpart hfull => exact .full htot hpart (hfull.setInode h.wf h.lt)
  | fault htot hpart hlt => exact .fault htot hpart hlt

def Dinode.contents (x : Dinode) (d : Image) : List UInt8 := x.bytesAt d 0 x.size.toNat

theorem Dinode.length_contents (x : Dinode) (d : Image) : (x.contents d).length = x.size.toNat := by
  simp [contents, bytesAt]

theorem Dinode.getElem_contents {o : Nat} (h : o < (x.contents d).length) :
    (x.contents d)[o] = x.byteAt d o := by
  simp [contents, bytesAt]

theorem Spliced.contents {off tot : Nat}
    (h : Spliced sb ino i d d' x x' src off 0 (off + tot) tot 0) (hw : Whole d x)
    (hoff : off ≤ x.size.toNat) (hsize : x'.size.toNat = max x.size.toNat (off + tot)) :
    x'.contents d' = (x.contents d).take off ++ (List.range tot).map src ++
      (x.contents d).drop (off + tot) := by
  have hlen := x.length_contents d
  refine List.ext_getElem ?_ fun o ho ho' => ?_
  · simp only [Dinode.length_contents, List.length_append, List.length_take, List.length_map,
      List.length_range, List.length_drop]
    omega
  rw [Dinode.length_contents] at ho
  rw [Dinode.getElem_contents]
  have hmapped : o < x.size.toNat → o / BSIZE < MAXFILE ∧ x.slot d (slotOf (o / BSIZE)) ≠ 0 := by
    intro hlt
    have hmax := hw.1
    refine ⟨by unfold BSIZE at *; omega, hw.2 _ ?_⟩
    have := Nat.div_mul_le_self o BSIZE
    omega
  by_cases h1 : o < off
  · obtain ⟨hlt, hne⟩ := hmapped (by omega)
    rw [h.outside o hlt hne (.inl h1), List.getElem_append_left (by simp; omega),
      List.getElem_append_left (by simp; omega), List.getElem_take, Dinode.getElem_contents]
  · by_cases h2 : o < off + tot
    · rw [h.inside o (by omega) h2, List.getElem_append_left (by simp; omega),
        List.getElem_append_right (by simp; omega)]
      simp only [List.length_take, List.getElem_map, List.getElem_range]
      congr 1
      omega
    · obtain ⟨hlt, hne⟩ := hmapped (by omega)
      rw [h.outside o hlt hne (.inr (by omega)), List.getElem_append_right (by simp; omega),
        List.getElem_drop, Dinode.getElem_contents]
      congr 1
      simp only [List.length_append, List.length_take, List.length_map, List.length_range]
      omega

/-- readi of a file without holes is a part of its contents. -/
theorem readi_contents (hw : Whole d x) {limit : Nat} (hwrap : ¬ off + n < off)
    (hlimit : min n.toNat (x.size.toNat - off.toNat) ≤ limit) :
    readi sb d x off n limit = .ok ((((x.contents d).drop off.toNat).take n.toNat).length,
      ((x.contents d).drop off.toNat).take n.toNat, d, x) := by
  have hlen := x.length_contents d
  by_cases hoff : x.size < off
  · rw [readi, if_pos (.inl hoff)]
    rw [UInt32.lt_iff_toNat_lt] at hoff
    rw [List.drop_eq_nil_of_le (by omega), List.take_nil]
    rfl
  have hle := hoff
  rw [UInt32.lt_iff_toNat_lt] at hle
  have hmax := hw.1
  obtain ⟨r, out, hok, hres⟩ := readi_spec sb off n limit hoff hwrap (by omega)
    fun bn _ hbn => hw.2 bn (by omega)
  obtain ⟨hr, ho⟩ := hres hlimit
  have hout : out = ((x.contents d).drop off.toNat).take n.toNat := by
    rw [ho, bytesAt_part (show _ ≤ x.size.toNat by omega)]
    show ((x.contents d).drop off.toNat).take _ = _
    rw [List.take_eq_take_iff, List.length_drop]
    omega
  rw [hok, hout, hr]
  simp [hlen]

theorem Spliced.byteAt_other {off tot off' tot' part : Nat}
    (h : Spliced sb ino i d d' x x' src off tot off' tot' part) {j o : Nat} (hj : j ≠ i)
    (hlt : j < sb.inums) (hty : (ino j).type ≠ 0)
    (hslot : ∀ s, (ino j).slot d' s = (ino j).slot d s) (ho : o / BSIZE < MAXFILE)
    (hne : (ino j).slot d (slotOf (o / BSIZE)) ≠ 0) : (ino j).byteAt d' o = (ino j).byteAt d o := by
  rw [Dinode.byteAt, Dinode.byteAt, hslot, h.others j hj hlt hty _ (slotOf_ne_indirect ho) hne]

/-- What others can see of writei. -/
theorem Written.consistent (h : Written sb i d d' x x') : Consistent sb d' := by
  refine consistent_iff.mpr (h.sound.congr_ino fun j hj => ?_)
  by_cases he : j = i
  · rw [he, update_self, h.inode]
  · rw [update_of_ne he, h.others j hj he]

/-- writei refuses, and does nothing, exactly when the range starts behind the end of the file or does
not fit. -/
theorem writei_refuses {limit : Nat}
    (h : x.size.toNat < off.toNat ∨ MAXFILE * BSIZE < off.toNat + n.toNat) :
    writei sb d i x src off n limit = .ok (-1, d, x) := by
  by_cases h1 : x.size < off ∨ off + n < off
  · rw [writei, if_pos h1]
  · rw [writei, if_neg h1, if_pos]
    obtain ⟨hoff, hwrap⟩ := not_or.mp h1
    rw [UInt32.lt_iff_toNat_lt] at hoff
    rw [toNat_add_of_le hwrap]
    omega

theorem not_wrap (h : off.toNat + n.toNat < 2 ^ 32) : ¬ off + n < off := by
  rw [UInt32.lt_iff_toNat_lt, UInt32.toNat_add]
  omega

/-- iload gives an inode of a consistent disk. -/
theorem Consistent.live (hd : Consistent sb d) (hsb : sb.Wf) (hi : i < sb.inums)
    (hx : (d.inode sb i).type ≠ 0) : Live sb d (d.inode sb) i (d.inode sb i) := by
  refine ⟨hsb, ?_, hi, hx⟩
  rw [update_eq_self]
  exact consistent_iff.mp hd

/-- A file without holes is an array of bytes for writei and readi. -/
theorem file_byte_array (hsb : sb.Wf) (hd : Consistent sb d) (hi : i < sb.inums)
    (hx : (d.inode sb i).type ≠ 0) (hw : Whole d (d.inode sb i)) (src : Bytes) (off n : UInt32)
    (limit : Nat) (hlimit : n.toNat ≤ limit) :
    ∃ (r : Int) (d' : Image) (x' : Dinode),
      writei sb d i (d.inode sb i) src off n limit = .ok (r, d', x') ∧
      ((d.inode sb i).size.toNat < off.toNat ∨ MAXFILE * BSIZE < off.toNat + n.toNat →
        r = -1 ∧ d' = d ∧ x' = d.inode sb i) ∧
      (¬ ((d.inode sb i).size.toNat < off.toNat ∨ MAXFILE * BSIZE < off.toNat + n.toNat) →
        ∃ tot : Nat, r = tot ∧ tot ≤ n.toNat ∧ (tot < n.toNat → Full sb d') ∧
          x'.size.toNat = max (d.inode sb i).size.toNat (off.toNat + tot) ∧
          x'.contents d' = ((d.inode sb i).contents d).take off.toNat ++ (List.range tot).map src ++
            ((d.inode sb i).contents d).drop (off.toNat + tot)) ∧
      Consistent sb d' ∧ d'.inode sb i = x' ∧ Whole d' x' ∧
      (∀ j, j ≠ i → j < sb.inums → d'.inode sb j = d.inode sb j ∧ ((d.inode sb j).type ≠ 0 →
        (∀ s, (d.inode sb j).slot d' s = (d.inode sb j).slot d s) ∧
        ∀ o, o / BSIZE < MAXFILE → (d.inode sb j).slot d (slotOf (o / BSIZE)) ≠ 0 →
          (d.inode sb j).byteAt d' o = (d.inode sb j).byteAt d o)) ∧
      ∀ (off' n' : UInt32) (limit' : Nat), off'.toNat + n'.toNat < 2 ^ 32 → n'.toNat ≤ limit' →
        readi sb d' x' off' n' limit' =
          .ok ((((x'.contents d').drop off'.toNat).take n'.toNat).length,
            ((x'.contents d').drop off'.toNat).take n'.toNat, d', x') := by
  by_cases hbad : (d.inode sb i).size.toNat < off.toNat ∨ MAXFILE * BSIZE < off.toNat + n.toNat
  · refine ⟨-1, d, _, writei_refuses hbad, fun _ => ⟨rfl, rfl, rfl⟩, fun h => absurd hbad h, hd,
      rfl, hw, fun j _ _ => ⟨rfl, fun _ => ⟨fun _ => rfl, fun _ _ _ => rfl⟩⟩,
      fun off' n' limit' hwrap hl => ?_⟩
    exact readi_contents hw (not_wrap hwrap) (by omega)
  obtain ⟨hoff, hmax⟩ := not_or.mp hbad
  have hfit : off.toNat + n.toNat < 2 ^ 32 := by
    unfold MAXFILE NDIRECT NINDIRECT BSIZE at hmax
    omega
  have hwrap := not_wrap hfit
  obtain ⟨tot, part, d', x', hok, hwr, hsize, hsp, hended⟩ := writei_spliced
    (hd.live hsb hi hx) rfl src limit (by rwa [UInt32.lt_iff_toNat_lt]) hwrap
    (by rwa [toNat_add_of_le hwrap])
  have hpart : part = 0 ∧ tot ≤ n.toNat ∧ (tot < n.toNat → Full sb d') := by
    cases hended with
    | done htot hpart => exact ⟨hpart, by omega, fun h => by omega⟩
    | full htot hpart hfull => exact ⟨hpart, by omega, fun _ => hfull⟩
    | fault htot hpart hlt => omega
  obtain ⟨rfl, htot, hfull⟩ := hpart
  have hw' : Whole d' x' := hwr.whole hw
  refine ⟨tot, d', x', hok, fun h => absurd h hbad, fun _ => ⟨tot, rfl, htot, hfull, hsize,
    hsp.contents hw (by omega) hsize⟩, hwr.consistent, hwr.inode, hw', fun j hj hlt => ?_,
    fun off' n' limit' hnw hl => ?_⟩
  · refine ⟨hwr.others j hlt hj, fun hty => ⟨hwr.other j hj hlt hty, fun o ho hne => ?_⟩⟩
    exact hsp.byteAt_other hj hlt hty (hwr.other j hj hlt hty) ho hne
  · exact readi_contents hw' (not_wrap hnw) (by omega)

/-- The small disk with one empty file. -/
def tinyFile : Image :=
  tinyImage.setInode tinySuperblock 1 { Dinode.zero with type := T_FILE, nlink := 1 }

theorem tinyFile_inode : tinyFile.inode tinySuperblock 1 =
    { Dinode.zero with type := T_FILE, nlink := 1 } :=
  Image.inode_setInode ..

/-- The small disk with one inode that has no blocks. -/
theorem tiny_consistent_inode {x : Dinode} (hx : x.addrs = fun _ => 0) :
    Consistent tinySuperblock (tinyImage.setInode tinySuperblock 1 x) := by
  refine consistent_iff.mpr ?_
  have hfree : ¬ (tinyImage.inode tinySuperblock 1).type ≠ 0 := by decide
  have h := (consistent_iff.mp tiny_consistent).retype
    (fun s => if_neg fun hh => hfree hh.2) hx
  rw [inode_setInode_eq]
  exact h.setInode tiny_wf (by decide)

theorem tinyFile_consistent : Consistent tinySuperblock tinyFile :=
  tiny_consistent_inode rfl

/-- Five bytes are written to an empty file, which then has no others. -/
theorem file_byte_array_five : ∃ (d' : Image) (x' : Dinode),
    writei tinySuperblock tinyFile 1 (tinyFile.inode tinySuperblock 1) (fun _ => 7) 0 5 5 =
      .ok (5, d', x') ∧ x'.contents d' = [7, 7, 7, 7, 7] := by
  have hx := tinyFile_inode
  obtain ⟨r, d', x', hok, -, hgood, -⟩ := file_byte_array tiny_wf tinyFile_consistent (i := 1)
    (by decide) (by rw [hx]; decide) (Good.whole_empty (by rw [hx]; rfl)) (fun _ => 7) 0 5 5 (by decide)
  obtain ⟨tot, rfl, -, -, -, hc⟩ := hgood (by rw [hx]; decide)
  have hempty : (tinyFile.inode tinySuperblock 1).contents tinyFile = [] := by
    rw [hx]
    rfl
  rw [hempty] at hc
  have hval : (writei tinySuperblock tinyFile 1 (tinyFile.inode tinySuperblock 1) (fun _ => 7) 0 5
      5).toOption.map (·.1) = some 5 := by
    decide +kernel
  rw [hok] at hval
  obtain rfl : tot = 5 := Int.ofNat.inj (Option.some_inj.mp hval)
  exact ⟨d', x', hok, hc⟩

end Xv6.Disk
