import Xv6.Disk.Writes
import Xv6.Framework.Transition
import Xv6.Framework.Returns

namespace Xv6.Disk

open Xv6.Framework

variable {sb : Superblock} {d d' : Image} {ino : Nat → Dinode} {i : Nat} {x x' : Dinode} {c : Prop}
  {k k' : Kernel} {ip : Fin NINODE}

/-- An entry of the inode table that is in use is for an inode of the disk, and if it is valid it is
as on the disk and allocated. -/
structure Entry (sb : Superblock) (d : Image) (v : Inode) : Prop where
  inum : 0 < v.ref → v.inum < sb.inums
  valid : 0 < v.ref → v.valid = true → v.din = d.inode sb v.inum ∧ v.din.type ≠ 0

/-- The kernel between two operations. If `c` holds, no file has a hole. -/
structure Good (c : Prop) (sb : Superblock) (k : Kernel) : Prop where
  sound : Sound sb k.disk (k.disk.inode sb)
  entry : ∀ e, Entry sb k.disk (k.inode e)
  unique : ∀ e e', 0 < (k.inode e).ref → 0 < (k.inode e').ref →
    (k.inode e).inum = (k.inode e').inum → e = e'
  whole : c → ∀ i, i < sb.inums → (k.disk.inode sb i).type ≠ 0 → Whole k.disk (k.disk.inode sb i)

theorem Dinode.slot_empty (h : x.addrs = fun _ => 0) (s : Slot) : x.slot d s = 0 := by
  have hind : x.ind = 0 := congrFun h _
  cases s with
  | direct k => exact congrFun h _
  | indirect => exact hind
  | entry k => rw [Dinode.slot_entry, if_pos hind]

def Fair (e : Panic) : Prop := e ≠ .freeingFreeBlock

theorem Sound.retype (h : Sound sb d ino) (h0 : ∀ s, held sb d ino (i, s) = 0)
    (hx : x.addrs = fun _ => 0) : Sound sb d (update ino i x) := by
  refine Owned.congr h (fun _ _ => Iff.rfl) fun y => ?_
  obtain ⟨j, s⟩ := y
  by_cases hj : j = i
  · subst hj
    rw [h0, held, update_self, Dinode.slot_empty hx]
    exact ite_self 0
  · refine held_eq ?_ fun _ _ => ?_ <;> rw [update_of_ne hj]

theorem inode_setInode_eq (sb : Superblock) (d : Image) (i : Nat) (x : Dinode) :
    (d.setInode sb i x).inode sb = update (d.inode sb) i x := by
  funext j
  by_cases hj : j = i
  · rw [hj, Image.inode_setInode, update_self]
  · rw [Image.inode_setInode_of_ne hj, update_of_ne hj]

namespace Good

theorem setEntry (h : Good c sb k) {v : Inode} (hv : Entry sb k.disk v)
    (hu : ∀ e, e ≠ ip → 0 < (k.inode e).ref → 0 < v.ref → (k.inode e).inum ≠ v.inum) :
    Good c sb (k.setInode ip v) := by
  refine ⟨h.sound, ?_, fun e e' he he' heq => ?_, h.whole⟩
  · exact (Function.forall_update_iff k.inode fun _ v => Entry sb k.disk v).mpr
      ⟨hv, fun e _ => h.entry e⟩
  · change 0 < (update k.inode ip v e).ref at he
    change 0 < (update k.inode ip v e').ref at he'
    change (update k.inode ip v e).inum = (update k.inode ip v e').inum at heq
    by_cases h1 : e = ip <;> by_cases h2 : e' = ip
    · rw [h1, h2]
    · rw [h1, update_self] at he heq
      rw [update_of_ne h2] at he' heq
      exact absurd heq.symm (hu e' h2 he' he)
    · rw [h2, update_self] at he' heq
      rw [update_of_ne h1] at he heq
      exact absurd heq (hu e h1 he he')
    · rw [update_of_ne h1] at he heq
      rw [update_of_ne h2] at he' heq
      exact h.unique e e' he he' heq

theorem setSame (h : Good c sb k) {v : Inode} (hv : Entry sb k.disk v)
    (hip : 0 < v.ref → 0 < (k.inode ip).ref ∧ v.inum = (k.inode ip).inum) :
    Good c sb (k.setInode ip v) := by
  refine h.setEntry hv fun e hne he hr heq => hne ?_
  obtain ⟨hr', hi⟩ := hip hr
  exact h.unique e ip he hr' (heq.trans hi)

theorem setRef (h : Good c sb k) {n : Nat} (hip : 0 < n → 0 < (k.inode ip).ref) :
    Good c sb (k.setInode ip { k.inode ip with ref := n }) :=
  h.setSame ⟨fun hn => (h.entry ip).inum (hip hn), fun hn => (h.entry ip).valid (hip hn)⟩
    fun hn => ⟨hip hn, rfl⟩

theorem iget (h : Good c sb k) {inum : Nat} (hi : inum < sb.inums) :
    Meets Fair (k.iget inum) fun y => Good c sb y.2 := by
  unfold Kernel.iget
  split
  · rename_i e he
    have hm : 0 < (k.inode e).ref ∧ (k.inode e).inum = inum := by simpa using List.find?_some he
    exact h.setRef fun _ => hm.1
  · rename_i hnone
    split
    · refine h.setEntry ⟨fun _ => hi, fun _ hv => by cases hv⟩ fun e _ hr _ heq => ?_
      have := List.find?_eq_none.mp hnone e (List.mem_finRange e)
      exact this (by simpa using ⟨hr, heq⟩)
    · exact nofun

theorem ilock (h : Good c sb k) : Meets Fair (k.ilock sb ip) fun k' =>
    Good c sb k' ∧ 0 < (k'.inode ip).ref ∧ (k'.inode ip).valid = true := by
  unfold Kernel.ilock
  split
  · exact nofun
  rename_i href
  have hpos : 0 < (k.inode ip).ref := by omega
  split
  · rename_i hv
    exact ⟨h, hpos, hv⟩
  · show Meets Fair (if _ then _ else _) _
    split
    · exact nofun
    · rename_i hty
      refine ⟨h.setSame ⟨fun _ => (h.entry ip).inum hpos, fun _ _ => ⟨rfl, hty⟩⟩
        fun _ => ⟨hpos, rfl⟩, ?_, ?_⟩
      · simpa [Kernel.setInode] using hpos
      · simp [Kernel.setInode]

/-- An inode that is in the table and valid, with the blocks of the disk. -/
theorem locked (h : Good c sb k) (hr : 0 < (k.inode ip).ref) (hv : (k.inode ip).valid = true) :
    (k.inode ip).inum < sb.inums ∧ (k.inode ip).din.type ≠ 0 ∧
      k.disk.inode sb (k.inode ip).inum = (k.inode ip).din := by
  obtain ⟨hd, hty⟩ := (h.entry ip).valid hr hv
  exact ⟨(h.entry ip).inum hr, hty, hd.symm⟩

theorem live (hsb : sb.Wf) (h : Good c sb k) (hr : 0 < (k.inode ip).ref)
    (hv : (k.inode ip).valid = true) :
    Live sb k.disk (k.disk.inode sb) (k.inode ip).inum (k.inode ip).din := by
  obtain ⟨hi, ht, hd⟩ := h.locked hr hv
  refine ⟨hsb, ?_, hi, ht⟩
  rw [← hd, update_eq_self]
  exact h.sound

/-- An inode changes in memory and on the disk, and stays allocated. -/
theorem store (h : Good c sb k) (hr : 0 < (k.inode ip).ref)
    (hs : Sound sb d (update (k.disk.inode sb) (k.inode ip).inum x))
    (hin : d.inode sb (k.inode ip).inum = x)
    (hothers : ∀ j, j < sb.inums → j ≠ (k.inode ip).inum → d.inode sb j = k.disk.inode sb j)
    (hslots : ∀ j, j ≠ (k.inode ip).inum → j < sb.inums → (k.disk.inode sb j).type ≠ 0 →
      ∀ s, (k.disk.inode sb j).slot d s = (k.disk.inode sb j).slot k.disk s)
    (hty : x.type ≠ 0) (hw : c → Whole d x) : Good c sb (k.store ip d x) := by
  have hi := (h.entry ip).inum hr
  have hino : ∀ j, j < sb.inums →
      d.inode sb j = update (k.disk.inode sb) (k.inode ip).inum x j := by
    intro j hj
    by_cases he : j = (k.inode ip).inum
    · rw [he, update_self, hin]
    · rw [update_of_ne he, hothers j hj he]
  refine ⟨hs.congr_ino hino, fun e => ?_, fun e e' he he' heq => ?_, fun hc j hj hjt => ?_⟩
  · show Entry sb d (update k.inode ip { k.inode ip with din := x } e)
    by_cases he : e = ip
    · rw [he, update_self]
      exact ⟨fun _ => hi, fun _ _ => ⟨hin.symm, hty⟩⟩
    · rw [update_of_ne he]
      refine ⟨(h.entry e).inum, fun hre hv => ?_⟩
      have hne : (k.inode e).inum ≠ (k.inode ip).inum := fun heq => he (h.unique e ip hre hr heq)
      rw [hothers _ ((h.entry e).inum hre) hne]
      exact (h.entry e).valid hre hv
  · have hsame : ∀ e, (update k.inode ip { k.inode ip with din := x } e).ref =
        (k.inode e).ref ∧ (update k.inode ip { k.inode ip with din := x } e).inum =
        (k.inode e).inum := by
      intro e
      by_cases he : e = ip
      · rw [he, update_self]
        exact ⟨rfl, rfl⟩
      · rw [update_of_ne he]
        exact ⟨rfl, rfl⟩
    refine h.unique e e' ?_ ?_ ?_
    · rw [← (hsame e).1]
      exact he
    · rw [← (hsame e').1]
      exact he'
    · rw [← (hsame e).2, ← (hsame e').2]
      exact heq
  · change (d.inode sb j).type ≠ 0 at hjt
    show Whole d (d.inode sb j)
    by_cases he : j = (k.inode ip).inum
    · rw [he, hin]
      exact hw hc
    · rw [hothers j hj he] at hjt ⊢
      obtain ⟨h1, h2⟩ := h.whole hc j hj hjt
      refine ⟨h1, fun bn hbn => ?_⟩
      rw [hslots j he hj hjt]
      exact h2 bn hbn

/-- What other inodes have, when the data area stays as it is. -/
theorem slot_data (h : Good c sb k) (hd : ∀ b, sb.nmeta ≤ b → d b = k.disk b) (j : Nat)
    (hj : j < sb.inums) (hty : (k.disk.inode sb j).type ≠ 0) (s : Slot) :
    (k.disk.inode sb j).slot d s = (k.disk.inode sb j).slot k.disk s :=
  Dinode.slot_congr (fun h0 => hd _ (h.sound.ind_range hj hty h0).1) s

/-- The fields of an inode other than its size and its addresses change. -/
theorem fields (hsb : sb.Wf) (h : Good c sb k) (hr : 0 < (k.inode ip).ref)
    (hv : (k.inode ip).valid = true) (hty : x.type = (k.inode ip).din.type)
    (hsize : x.size = (k.inode ip).din.size) (haddrs : x.addrs = (k.inode ip).din.addrs) :
    Good c sb ((k.setInode ip { k.inode ip with din := x }).iupdate sb ip) := by
  obtain ⟨hi, ht, hd⟩ := h.locked hr hv
  have hl := h.live hsb hr hv
  have heq : (k.setInode ip { k.inode ip with din := x }).iupdate sb ip =
      k.store ip (k.disk.setInode sb (k.inode ip).inum x) x := by
    simp only [Kernel.iupdate, Kernel.setInode, Kernel.store, update_self]
  rw [heq]
  refine h.store hr ((hl.sound.congr_addrs hty haddrs).setInode hsb hi) (Image.inode_setInode _ _ _ _)
    (fun j _ hne => Image.inode_setInode_of_ne hne) (fun j _ hj hjt => ?_) (hty ▸ ht) fun hc => ?_
  · exact h.slot_data (fun b hb => setInode_data hsb hi hb) j hj hjt
  · obtain ⟨h1, h2⟩ := h.whole hc _ hi (hd ▸ ht)
    rw [hd] at h1 h2
    refine ⟨hsize ▸ h1, fun bn hbn => ?_⟩
    rw [hl.slot_setInode haddrs]
    exact h2 bn (hsize ▸ hbn)

theorem whole_empty (h : x.size = 0) : Whole d x := by
  have h0 : x.size.toNat = 0 := by
    rw [h]
    rfl
  exact ⟨by omega, fun bn hbn => by omega⟩

theorem trunc (hsb : sb.Wf) (h : Good c sb k) (hr : 0 < (k.inode ip).ref)
    (hv : (k.inode ip).valid = true) :
    ∃ d x, itrunc sb k.disk (k.inode ip).inum (k.inode ip).din = .ok (d, x) ∧
      Good c sb (k.store ip d x) ∧ x.size = 0 ∧ (x.addrs = fun _ => 0) ∧
      d.inode sb (k.inode ip).inum = x := by
  have hl := h.live hsb hr hv
  obtain ⟨d, x, hok, hs', hx, hin, hothers, hdata⟩ := itrunc_spec hl
  refine ⟨d, x, hok, h.store hr hs' hin hothers (fun j _ hj hjt => h.slot_data hdata j hj hjt) ?_
    fun _ => ?_, ?_, ?_, hin⟩
  · rw [hx]
    exact hl.type
  · rw [hx]
    exact whole_empty rfl
  · rw [hx]
  · rw [hx]

theorem write (hsb : sb.Wf) (h : Good c sb k) (hr : 0 < (k.inode ip).ref)
    (hv : (k.inode ip).valid = true) (src : Bytes) (off n : UInt32) (limit : Nat) :
    ∃ r d x, writei sb k.disk (k.inode ip).inum (k.inode ip).din src off n limit = .ok (r, d, x) ∧
      Good c sb (k.store ip d x) := by
  obtain ⟨hi, ht, hd⟩ := h.locked hr hv
  obtain ⟨r, d, x, hok, hw⟩ := writei_spec (h.live hsb hr hv) hd src off n limit
  refine ⟨r, d, x, hok, h.store hr hw.sound hw.inode hw.others hw.other ?_ fun hc => ?_⟩
  · rw [hw.type]
    exact ht
  · have := h.whole hc _ hi (hd ▸ ht)
    rw [hd] at this
    exact hw.whole this

/-- The type of an inode that has no blocks changes on the disk. No valid entry is for it. -/
theorem retype (hsb : sb.Wf) (h : Good c sb k) (hi : i < sb.inums)
    (h0 : ∀ s, held sb k.disk (k.disk.inode sb) (i, s) = 0) (hx : x.addrs = fun _ => 0)
    (hsize : x.size = 0)
    (hno : ∀ e, 0 < (k.inode e).ref → (k.inode e).valid = true → (k.inode e).inum ≠ i) :
    Good c sb { k with disk := k.disk.setInode sb i x } := by
  refine ⟨?_, fun e => ⟨(h.entry e).inum, fun he hv => ?_⟩, h.unique, fun hc j hj hjt => ?_⟩
  · show Sound sb (k.disk.setInode sb i x) ((k.disk.setInode sb i x).inode sb)
    rw [inode_setInode_eq]
    exact (h.sound.retype h0 hx).setInode hsb hi
  · rw [Image.inode_setInode_of_ne (hno e he hv)]
    exact (h.entry e).valid he hv
  · show Whole (k.disk.setInode sb i x) ((k.disk.setInode sb i x).inode sb j)
    by_cases he : j = i
    · rw [he, Image.inode_setInode]
      exact whole_empty hsize
    · rw [Image.inode_setInode_of_ne he] at hjt ⊢
      obtain ⟨h1, h2⟩ := h.whole hc j hj hjt
      refine ⟨h1, fun bn hbn => ?_⟩
      rw [h.slot_data (fun b hb => setInode_data hsb hi hb) j hj hjt]
      exact h2 bn hbn

theorem iput (hsb : sb.Wf) (h : Good c sb k) (hr : 0 < (k.inode ip).ref) :
    ∃ k', k.iput sb ip = .ok k' ∧ Good c sb k' := by
  unfold Kernel.iput
  by_cases hfree : (k.inode ip).ref = 1 ∧ (k.inode ip).valid ∧ (k.inode ip).din.nlink = 0
  · rw [if_pos hfree]
    obtain ⟨d, x, hok, h1, hsize, haddrs, hin⟩ := h.trunc hsb hr hfree.2.1
    have hi := (h.entry ip).inum hr
    -- The entry goes out of use before its inode is freed.
    have h2 : Good c sb ((k.store ip d x).setInode ip
        ⟨(k.inode ip).inum, 0, false, { x with type := 0 }⟩) :=
      h1.setEntry ⟨fun h => absurd h (Nat.lt_irrefl 0), fun h => absurd h (Nat.lt_irrefl 0)⟩
        fun _ _ _ h => absurd h (Nat.lt_irrefl 0)
    have h0 : ∀ s, held sb d (d.inode sb) ((k.inode ip).inum, s) = 0 := by
      intro s
      rw [held, hin, Dinode.slot_empty haddrs]
      exact ite_self 0
    have h3 := h2.retype hsb hi h0 (x := { x with type := 0 }) haddrs hsize fun e he _ heq => ?_
    · refine ⟨_, ?_, h3⟩
      rw [hok]
      show Except.ok _ = Except.ok _
      simp only [Kernel.setInode, Kernel.store, update_idem, update_self, hfree.1]
    · change 0 < (update (update k.inode ip _) ip _ e).ref at he
      change (update (update k.inode ip _) ip _ e).inum = _ at heq
      rw [update_idem] at he heq
      have hne : e ≠ ip := by
        rintro rfl
        rw [update_self] at he
        exact Nat.lt_irrefl 0 he
      rw [update_of_ne hne] at he heq
      exact hne (h.unique e ip he hr heq)
  · rw [if_neg hfree]
    refine ⟨_, rfl, h.setRef fun _ => hr⟩

/-- ialloc gives a new inode, with one entry. -/
theorem ialloc (hsb : sb.Wf) (h : Good c sb k) {type : UInt16} :
    Meets Fair (k.ialloc sb type) fun y => Good c sb y.2 := by
  unfold Kernel.ialloc
  split
  · rename_i i hfind
    have hmem := List.mem_range'_1.mp (List.mem_of_find?_eq_some hfind)
    have hi : i < sb.inums := by
      have := hsb.room
      omega
    have hfree : (k.disk.inode sb i).type = 0 := by simpa using List.find?_some hfind
    have h1 : Good c sb { k with disk := k.disk.setInode sb i { Dinode.zero with type := type } } := by
      refine h.retype hsb hi (fun s => ?_) rfl rfl fun e he hv heq => ?_
      · rw [held, if_neg fun h => h.2 hfree]
      · obtain ⟨hd, hne⟩ := (h.entry e).valid he hv
        rw [hd, heq] at hne
        exact hne hfree
    exact Meets.bind (h1.iget hi) fun y hy => hy
  · exact h

/-- Every operation leaves a good kernel, and none frees a free block. -/
theorem exec (hsb : sb.Wf) (h : Good c sb k) {o : Op} (ho : o.Enabled sb k) :
    Meets Fair (o.exec sb k) (Good c sb) := by
  cases o with
  | create type major minor nlink =>
    refine Meets.bind (h.ialloc hsb) fun y h1 => ?_
    obtain ⟨r, k1⟩ := y
    cases r with
    | none => exact h1
    | some ip =>
      refine Meets.bind h1.ilock fun k2 h2 => ?_
      obtain ⟨h2, hr, hv⟩ := h2
      exact h2.fields hsb hr hv rfl rfl rfl
  | get inum => exact Meets.bind (h.iget ho) fun y hy => hy
  | dup ip => exact h.setRef fun _ => ho
  | put ip =>
    obtain ⟨k', hok, hg⟩ := h.iput hsb ho
    exact Meets.of_ok hok hg
  | trunc ip =>
    refine Meets.bind h.ilock fun k1 h1 => ?_
    obtain ⟨h1, hr, hv⟩ := h1
    obtain ⟨d, x, hok, hg, -⟩ := h1.trunc hsb hr hv
    exact Meets.bind_ok hok hg
  | write ip src off n limit =>
    refine Meets.bind h.ilock fun k1 h1 => ?_
    obtain ⟨h1, hr, hv⟩ := h1
    obtain ⟨r, d, x, hok, hg⟩ := h1.write hsb hr hv src off n limit
    exact Meets.bind_ok hok hg
  | links ip nlink =>
    refine Meets.bind h.ilock fun k1 h1 => ?_
    obtain ⟨h1, hr, hv⟩ := h1
    exact h1.fields hsb hr hv rfl rfl rfl

end Good

/-- The image on which the kernel is started: the blocks of the allocated inodes are different data
blocks, and the free map marks these and the metadata. -/
def Consistent (sb : Superblock) (d : Image) : Prop :=
  (∀ i s, i < sb.inums → (d.inode sb i).type ≠ 0 → (d.inode sb i).slot d s ≠ 0 →
    sb.nmeta ≤ ((d.inode sb i).slot d s).toNat ∧ ((d.inode sb i).slot d s).toNat < sb.size) ∧
  (∀ i s i' s', i < sb.inums → i' < sb.inums → (d.inode sb i).type ≠ 0 →
    (d.inode sb i').type ≠ 0 → (d.inode sb i).slot d s ≠ 0 →
    (d.inode sb i).slot d s = (d.inode sb i').slot d s' → i = i' ∧ s = s') ∧
  ∀ b, b < sb.size → (d.bit sb b = true ↔ b < sb.nmeta ∨
    ∃ i s, i < sb.inums ∧ (d.inode sb i).type ≠ 0 ∧ (d.inode sb i).slot d s ≠ 0 ∧
      ((d.inode sb i).slot d s).toNat = b)

theorem held_ne_zero {y : Nat × Slot} (h : held sb d ino y ≠ 0) :
    y.1 < sb.inums ∧ (ino y.1).type ≠ 0 ∧ (ino y.1).slot d y.2 ≠ 0 ∧
      held sb d ino y = ((ino y.1).slot d y.2).toNat := by
  unfold held at h ⊢
  by_cases hy : y.1 < sb.inums ∧ (ino y.1).type ≠ 0
  · rw [if_pos hy] at h ⊢
    exact ⟨hy.1, hy.2, UInt32.toNat_ne_zero.mp h, rfl⟩
  · rw [if_neg hy] at h
    exact absurd rfl h

theorem consistent_iff : Consistent sb d ↔ Sound sb d (d.inode sb) := by
  constructor
  · rintro ⟨hrange, hdistinct, hused⟩
    refine ⟨fun y hy => ?_, fun y z hy heq => ?_, fun b hb => (hused b hb).trans ?_⟩
    · obtain ⟨hi, ht, hs, hh⟩ := held_ne_zero hy
      rw [hh]
      exact hrange y.1 y.2 hi ht hs
    · obtain ⟨hi, ht, hs, hh⟩ := held_ne_zero hy
      obtain ⟨hi', ht', hs', hh'⟩ := held_ne_zero (heq ▸ hy)
      rw [hh, hh'] at heq
      have := hdistinct y.1 y.2 z.1 z.2 hi hi' ht ht' hs (UInt32.toNat.inj heq)
      exact Prod.ext this.1 this.2
    · constructor
      · rintro (hlt | ⟨i, s, hi, ht, hs, rfl⟩)
        · exact .inl hlt
        · exact .inr ⟨UInt32.toNat_ne_zero.mpr hs, (i, s), held_of hi ht s⟩
      · rintro (hlt | ⟨h0, y, rfl⟩)
        · exact .inl hlt
        · obtain ⟨hi, ht, hs, hh⟩ := held_ne_zero h0
          exact .inr ⟨y.1, y.2, hi, ht, hs, hh.symm⟩
  · intro h
    refine ⟨fun i s hi ht hs => ?_, fun i s i' s' hi hi' ht ht' hs heq => ?_, fun b hb => ?_⟩
    · have := h.range (i, s) (by rw [held_of hi ht]; exact UInt32.toNat_ne_zero.mpr hs)
      rwa [held_of hi ht] at this
    · have := h.distinct (i, s) (i', s') (by rw [held_of hi ht]; exact UInt32.toNat_ne_zero.mpr hs)
        (by rw [held_of hi ht, held_of hi' ht', heq])
      exact Prod.mk.inj this
    · refine (h.used b hb).trans ⟨?_, ?_⟩
      · rintro (hlt | ⟨h0, y, rfl⟩)
        · exact .inl hlt
        · obtain ⟨hi, ht, hs, hh⟩ := held_ne_zero h0
          exact .inr ⟨y.1, y.2, hi, ht, hs, hh.symm⟩
      · rintro (hlt | ⟨i, s, hi, ht, hs, rfl⟩)
        · exact .inl hlt
        · exact .inr ⟨UInt32.toNat_ne_zero.mpr hs, (i, s), held_of hi ht s⟩

theorem Good.boot (hi : Consistent sb d) (hc : c → ∀ i, i < sb.inums → (d.inode sb i).type ≠ 0 →
    Whole d (d.inode sb i)) : Good c sb (boot d).kernel :=
  ⟨consistent_iff.mp hi, fun _ => ⟨fun h => absurd h (Nat.lt_irrefl 0),
    fun h => absurd h (Nat.lt_irrefl 0)⟩, fun _ _ h => absurd h (Nat.lt_irrefl 0), hc⟩

theorem Good.next (hsb : sb.Wf) {s t : State} {o : Op}
    (h : Good c sb s.kernel ∧ s.stopped ≠ some .freeingFreeBlock) (hs : s.next sb o = some t) :
    Good c sb t.kernel ∧ t.stopped ≠ some .freeingFreeBlock := by
  unfold State.next at hs
  split at hs
  · rename_i ho
    have he := h.1.exec hsb ho.2
    split at hs
    · rename_i k' hk
      cases hs
      rw [hk] at he
      exact ⟨he, h.2⟩
    · rename_i e hk
      cases hs
      rw [hk] at he
      exact ⟨h.1, fun heq => he (Option.some.inj heq)⟩
  · cases hs

/-- From a consistent image on, in every run of the operations the image stays consistent, and no
free block is freed. -/
theorem block_allocation (hsb : sb.Wf) {img : Image} (himg : Consistent sb img)
    {tr : List (Event State Op)} {s : State} (hp : Path (State.next sb) (boot img) tr s) :
    Consistent sb s.kernel.disk ∧ s.stopped ≠ some .freeingFreeBlock := by
  have h := hp.invariant
    (fun _ _ _ h hs _ => Good.next hsb h hs) ⟨Good.boot himg False.elim, nofun⟩ fun _ _ => trivial
  exact ⟨consistent_iff.mpr h.1.sound, h.2⟩

/-- A disk of ten blocks, with the inodes in block 2, the free map in block 3 and no file. -/
def tinySuperblock : Superblock := ⟨10, 6, 16, 2, 3⟩

def tinyImage : Image := fun b => if b = 3 then fun o => if o = 0 then 15 else 0 else fun _ => 0

theorem tiny_wf : tinySuperblock.Wf :=
  ⟨by decide, by decide, by decide, by decide⟩

theorem tiny_consistent : Consistent tinySuperblock tinyImage := by
  have hfree : ∀ i, i < tinySuperblock.inums → (tinyImage.inode tinySuperblock i).type = 0 := by
    decide
  refine ⟨fun i _ hi ht => absurd (hfree i hi) ht, fun i _ _ _ hi _ ht => absurd (hfree i hi) ht, ?_⟩
  intro b hb
  have hbit : ∀ b, b < tinySuperblock.size →
      (tinyImage.bit tinySuperblock b = true ↔ b < tinySuperblock.nmeta) := by decide
  refine (hbit b hb).trans ⟨.inl, fun h => ?_⟩
  rcases h with h | ⟨i, -, hi, ht, -⟩
  · exact h
  · exact absurd (hfree i hi) ht

/-- A file is created and one byte written: it gets the first data block. -/
theorem block_allocation_write :
    let s := final (State.next tinySuperblock) (boot tinyImage)
      [.create T_FILE 0 0 1, .write 0 (fun _ => 7) 0 1 1]
    (s.kernel.disk.inode tinySuperblock 1).addrs 0 = 4 ∧
      Consistent tinySuperblock s.kernel.disk := by
  intro s
  have hp : Path (State.next tinySuperblock) (boot tinyImage) _ s := path_final (by decide +kernel)
  exact ⟨by decide +kernel, (block_allocation tiny_wf tiny_consistent hp).1⟩

end Xv6.Disk
