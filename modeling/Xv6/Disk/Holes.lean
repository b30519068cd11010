import Xv6.Disk.Files

namespace Xv6.Disk

open Xv6.Framework

/-- The operations, and reading, which needs no transaction. -/
inductive Call
  | op (o : Op)
  | read (ip : Fin NINODE) (off n : UInt32) (limit : Nat)

namespace Call

def readAt (sb : Superblock) (k : Kernel) (ip : Fin NINODE) (off n : UInt32) (limit : Nat) :
    Except Panic Kernel := do
  let k ← k.ilock sb ip
  let (_, _, d, x) ← readi sb k.disk (k.inode ip).din off n limit
  return k.store ip d x

def next (sb : Superblock) (s : State) : Call → Option State
  | .op o => s.next sb o
  | .read ip off n limit =>
    if s.stopped = none ∧ 0 < (s.kernel.inode ip).ref then
      match readAt sb s.kernel ip off n limit with
      | .ok k => some { s with kernel := k }
      | .error e => some { s with stopped := some e }
    else none

end Call

section

variable {sb : Superblock} {d : Image} {k : Kernel} {ip : Fin NINODE} {x : Dinode}

/-- Every block below the end of every file has an address. -/
def NoHoles (sb : Superblock) (d : Image) : Prop :=
  ∀ i, i < sb.inums → (d.inode sb i).type ≠ 0 →
    ∀ bn, bn * BSIZE < (d.inode sb i).size.toNat → (d.inode sb i).slot d (slotOf bn) ≠ 0

/-- Reading an inode that is locked changes neither the disk nor the inode. -/
def ReadsOnly (sb : Superblock) (k : Kernel) : Prop :=
  ∀ ip k', k.ilock sb ip = .ok k' → ∀ off n limit,
    ∃ r out, readi sb k'.disk (k'.inode ip).din off n limit = .ok (r, out, k'.disk, (k'.inode ip).din)

theorem readi_whole (h : Whole d x) (off n : UInt32) (limit : Nat) :
    ∃ r out, readi sb d x off n limit = .ok (r, out, d, x) := by
  by_cases hb : x.size < off ∨ off + n < off
  · exact ⟨0, [], if_pos hb⟩
  · obtain ⟨hoff, hwrap⟩ := not_or.mp hb
    have hle := hoff
    rw [UInt32.lt_iff_toNat_lt] at hle
    obtain ⟨r, out, hok, -⟩ := readi_spec sb off n limit hoff hwrap
      (by have := h.1; omega) fun bn _ hbn => h.2 bn (by omega)
    exact ⟨r, out, hok⟩

namespace Good

/-- An inode that is locked has no holes. -/
theorem whole_locked (h : Good True sb k) (hr : 0 < (k.inode ip).ref)
    (hv : (k.inode ip).valid = true) : Whole k.disk (k.inode ip).din := by
  obtain ⟨hi, ht, hd⟩ := h.locked hr hv
  have := h.whole trivial _ hi (by rwa [hd])
  rwa [hd] at this

theorem noHoles (h : Good True sb k) : NoHoles sb k.disk :=
  fun i hi hty => (h.whole trivial i hi hty).2

theorem readsOnly (h : Good True sb k) : ReadsOnly sb k := by
  intro ip k' hlock off n limit
  have hm : Meets Fair (k.ilock sb ip) fun k' =>
    Good True sb k' ∧ 0 < (k'.inode ip).ref ∧ (k'.inode ip).valid = true := h.ilock
  rw [hlock] at hm
  obtain ⟨h', hr, hv⟩ := hm
  exact readi_whole (h'.whole_locked hr hv) off n limit

theorem readAt (h : Good True sb k) (off n : UInt32) (limit : Nat) :
    Meets Fair (Call.readAt sb k ip off n limit) (Good True sb) := by
  refine Meets.bind h.ilock fun k1 h1 => ?_
  obtain ⟨h1, hr, hv⟩ := h1
  obtain ⟨r, out, hok⟩ := readi_whole (h1.whole_locked hr hv) off n limit
  refine Meets.bind_ok hok ?_
  show Good True sb (k1.store ip k1.disk (k1.inode ip).din)
  rw [Kernel.store, Kernel.setInode, Function.update_eq_self]
  exact h1

theorem call (hsb : sb.Wf) {s t : State} {a : Call}
    (h : Good True sb s.kernel ∧ s.stopped ≠ some .freeingFreeBlock) (hs : a.next sb s = some t) :
    Good True sb t.kernel ∧ t.stopped ≠ some .freeingFreeBlock := by
  cases a with
  | op o => exact Good.next hsb h hs
  | read ip off n limit =>
    unfold Call.next at hs
    simp only at hs
    split at hs
    · have hm : Meets Fair (Call.readAt sb s.kernel ip off n limit) (Good True sb) :=
        h.1.readAt off n limit
      split at hs
      · rename_i k' hk
        cases hs
        rw [hk] at hm
        exact ⟨hm, h.2⟩
      · rename_i e hk
        cases hs
        rw [hk] at hm
        exact ⟨h.1, fun heq => hm (Option.some.inj heq)⟩
    · cases hs

end Good

end

namespace Mkfs

variable {files : List File} {d : Image} {x : Dinode}

/-- The block of the root directory after those that mkfs has written. -/
theorem Formatted.hole (h : Formatted files d) (hcount : files.length ≤ 199)
    (hfull : (files.length + 2) % 64 = 0) :
    (files.length + 2) * DIRENT < (d.inode sb ROOTINO).size.toNat ∧
      (d.inode sb ROOTINO).slot d (slotOf ((files.length + 2) * DIRENT / BSIZE)) = 0 := by
  have hb := h.root.tight.blocks ((files.length + 2) * DIRENT / BSIZE)
    (by unfold DIRENT BSIZE MAXFILE NDIRECT NINDIRECT; omega)
  rw [length_rootBytes] at hb
  rw [h.rootSize]
  refine ⟨by unfold DIRENT BSIZE; omega, ?_⟩
  by_contra hne
  have := hb.mp hne
  unfold DIRENT BSIZE at this
  omega

theorem Formatted.whole (h : Formatted files d) (hcount : files.length ≤ 199)
    (hpart : (files.length + 2) % 64 ≠ 0) (i : Nat) (hi : i < sb.inums)
    (hty : (d.inode sb i).type ≠ 0) : Whole d (d.inode sb i) := by
  by_cases hr : i = ROOTINO
  · subst hr
    have hsz := h.rootSize
    refine ⟨?_, fun bn hbn => ?_⟩
    · rw [hsz]
      unfold DIRENT BSIZE MAXFILE NDIRECT NINDIRECT
      omega
    · rw [hsz] at hbn
      rw [h.root.tight.blocks bn, length_rootBytes]
      · unfold DIRENT BSIZE at *
        omega
      · unfold DIRENT BSIZE at hbn
        unfold MAXFILE NDIRECT NINDIRECT
        omega
  · obtain ⟨j, rfl⟩ : ∃ j, i = j + 2 := by
      refine ⟨i - 2, ?_⟩
      have : i ≠ 0 := fun h0 => hty (h.free i hi (.inl h0))
      unfold ROOTINO at hr
      omega
    have hj : j < files.length := by
      by_contra hj
      exact hty (h.free _ hi (.inr (by omega)))
    obtain ⟨-, hsz, hh⟩ := h.file j hj
    have hmax := hh.max
    refine ⟨by omega, fun bn hbn => ?_⟩
    rw [hh.tight.blocks bn (by unfold BSIZE at *; omega)]
    omega

/-- No file has a hole, and reading allocates nothing, in any run on an image that mkfs has made, if
and only if the entries of the root directory do not fill its last block. -/
theorem no_holes_iff (files : List File) (hfits : Fits files) (d : Image) (hd : main files = .ok d) :
    (∀ (tr : List (Event Disk.State Call)) (t : Disk.State), Path (Call.next sb) (boot d) tr t →
      NoHoles sb t.kernel.disk ∧ ReadsOnly sb t.kernel) ↔ (files.length + 2) % 64 ≠ 0 := by
  have hf : Formatted files d := by
    rcases main_spec hfits with ⟨hbad, -⟩ | ⟨d', hok, hf⟩
    · rw [hd] at hbad
      cases hbad
    · rw [hd] at hok
      exact Except.ok.inj hok ▸ hf
  constructor
  · intro h hfull
    obtain ⟨hlt, hzero⟩ := hf.hole hfits.count hfull
    refine (h [] _ .nil).1 ROOTINO (by decide) ?_ _ ?_ hzero
    · show (d.inode sb ROOTINO).type ≠ 0
      rw [hf.rootType]
      decide
    · show _ < (d.inode sb ROOTINO).size.toNat
      have := Nat.div_mul_le_self ((files.length + 2) * DIRENT) BSIZE
      omega
  · intro hpart tr t hp
    have h := hp.invariant
      (fun _ _ _ h hs _ => Good.call sb_wf h hs)
      ⟨Good.boot (consistent_iff.mpr hf.sound) fun _ => hf.whole hfits.count hpart, nofun⟩
      fun _ _ => trivial
    exact ⟨h.1.noHoles, h.1.readsOnly⟩

/-- With two input files there is no hole. -/
theorem no_holes_iff_two : ∃ d, main twoFiles = .ok d ∧
    ∀ (tr : List (Event Disk.State Call)) (t : Disk.State), Path (Call.next sb) (boot d) tr t →
      NoHoles sb t.kernel.disk ∧ ReadsOnly sb t.kernel := by
  rcases main_spec twoFiles_fits with ⟨-, f, hf, hbad⟩ | ⟨d, hok, -⟩
  · exact absurd (twoFiles_named f hf) hbad
  · exact ⟨d, hok, (no_holes_iff twoFiles twoFiles_fits d hok).mpr (by decide)⟩

def sixtyTwoFiles : List File :=
  (List.range 62).map fun i => ⟨[UInt8.ofNat (97 + i / 26), UInt8.ofNat (97 + i % 26)], []⟩

theorem sixtyTwoFiles_fits : Fits sixtyTwoFiles := ⟨by decide, by decide, by decide⟩

theorem Formatted.balloc (h : Formatted files d) (hfree : blocks files < FSSIZE) :
    ∃ d', Disk.balloc sb d = (UInt32.ofNat (blocks files), d') ∧ d'.bit sb (blocks files) = true := by
  have hfind : (List.range sb.size).find? (fun b => !d.bit sb b) = some (blocks files) := by
    refine List.find?_range_eq_some.mpr ⟨?_, List.mem_range.mpr hfree, fun j hj => ?_⟩
    · rw [h.used _ hfree]
      simp
    · rw [h.used _ (by omega)]
      simp [hj]
  refine ⟨Function.update (d.mark sb (blocks files)) (blocks files) fun _ => 0, ?_, ?_⟩
  · rw [Disk.balloc, hfind]
  · have hne : blocks files ≠ sb.BBLOCK (blocks files) := by
      rw [BBLOCK_eq hfree]
      have : sb.bmapstart < nmeta := by decide
      have : nmeta ≤ blocks files := by
        unfold blocks
        omega
      omega
    rw [Image.bit_of_ne hne, Image.bit_mark]
    simp

/-- readi of the second block of a file of two blocks that has only one. -/
theorem readi_second {d' : Image} {b : UInt32} (hs : x.size = 2048) (h1 : x.addrs 1 = 0)
    (hb : Disk.balloc sb d = (b, d')) (h0 : b ≠ 0) :
    readi sb d x 1024 16 16 = .ok (16, (d' b.toNat).slice 0 16, d', x.setAddr 1 b) := by
  have hmap : bmap sb d x (1024 / BSIZE) = .ok (b, d', x.setAddr 1 b) := by
    rw [bmap, show Fin.ofNat (NDIRECT + 1) (1024 / BSIZE) = 1 from rfl, if_pos h1,
      hb]
    exact if_neg h0
  have hloop : readLoop sb 16 16 16 d x 1024 [] =
      .ok (true, (d' b.toNat).slice 0 16, d', x.setAddr 1 b) := by
    rw [readLoop, hmap]
    show (if b = 0 then _ else _) = _
    rw [if_neg h0]
    exact if_neg (by decide)
  rw [readi, hs]
  show (readLoop sb 16 16 16 d x 1024 [] >>= _) = _
  rw [hloop]
  rfl

/-- An image with 62 files: the root directory has a size of two blocks and one block, and the first
lookup of a name that it does not have allocates the other, without a transaction. -/
theorem sixtyTwoFiles_hole : ∃ d, main sixtyTwoFiles = .ok d ∧
    (d.inode sb ROOTINO).size = 2048 ∧ (d.inode sb ROOTINO).slot d (slotOf 1) = 0 ∧
    ¬ NoHoles sb d ∧
    ∃ r out d' x', readi sb d (d.inode sb ROOTINO) 1024 16 16 = .ok (r, out, d', x') ∧
      d.bit sb 47 = false ∧ d'.bit sb 47 = true := by
  rcases main_spec sixtyTwoFiles_fits with ⟨-, f, hf, hbad⟩ | ⟨d, hok, h⟩
  · have hn : ∀ f ∈ sixtyTwoFiles, slash ∉ base f.path ∧ (shortname f.path).length ≤ DIRSIZ := by decide
    exact absurd ⟨(hn f hf).1, (hn f hf).2⟩ hbad
  have hblocks : blocks sixtyTwoFiles = 47 := by decide
  have hsize : (d.inode sb ROOTINO).size = 2048 := UInt32.toNat_inj.mp h.rootSize
  obtain ⟨hlt, hzero⟩ := h.hole (by decide) (by decide)
  have hzero : (d.inode sb ROOTINO).slot d (slotOf 1) = 0 := hzero
  obtain ⟨d', hb, hbit⟩ := h.balloc (by decide)
  have hused := h.used 47 (by decide)
  rw [hblocks] at hb hbit hused
  refine ⟨d, hok, hsize, hzero, fun hno => ?_, _, _, d', _,
    readi_second hsize hzero hb (by decide), hused, hbit⟩
  refine hno ROOTINO (by decide) ?_ 1 ?_ hzero
  · rw [h.rootType]
    decide
  · rw [hsize]
    decide

end Mkfs

end Xv6.Disk
