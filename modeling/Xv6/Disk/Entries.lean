import Xv6.Disk.Lookup
import Xv6.Framework.Table

namespace Xv6.Disk

open Xv6.Framework

def str (s : Bytes) : Nat → List UInt8
  | 0 => []
  | n + 1 => if s 0 = 0 then [] else s 0 :: str (fun i => s (i + 1)) n

/-- strncmp compares strings of at most `n` bytes. -/
theorem strncmp_eq_zero_iff (s t : Bytes) (n : Nat) : strncmp s t n = 0 ↔ str s n = str t n := by
  induction n generalizing s t with
  | zero => simp [strncmp, str]
  | succ n ih =>
    rw [strncmp, str, str]
    by_cases hs : s 0 = 0
    · by_cases ht : t 0 = 0
      · simp [hs, ht]
      · have : (t 0).toNat ≠ 0 := fun h => ht (UInt8.toNat_inj.mp h)
        simp [hs, ht, this]
    · rw [if_neg hs]
      by_cases he : s 0 = t 0
      · rw [if_pos ⟨hs, he⟩, ih, if_neg (he ▸ hs), he]
        simp
      · have hne : (s 0).toNat ≠ (t 0).toNat := fun h => he (UInt8.toNat_inj.mp h)
        by_cases ht : t 0 = 0
        · have : (s 0).toNat ≠ 0 := fun h => hs (UInt8.toNat_inj.mp h)
          simp [ht, this]
        · simp [ht, he]
          omega

theorem length_str_le (s : Bytes) (n : Nat) : (str s n).length ≤ n := by
  induction n generalizing s with
  | zero => rfl
  | succ n ih =>
    rw [str]
    split
    · exact Nat.zero_le _
    · exact Nat.succ_le_succ (ih _)

theorem length_strncpy (n : Nat) (t : Bytes) : (strncpy n t).length = n := by
  induction n generalizing t with
  | zero => rfl
  | succ n ih =>
    rw [strncpy]
    split
    · simp
    · simp [ih]

/-- strncpy keeps the string. -/
theorem str_strncpy (n : Nat) (t : Bytes) : str (Bytes.ofList (strncpy n t)) n = str t n := by
  induction n generalizing t with
  | zero => rfl
  | succ n ih =>
    rw [str, str, strncpy]
    by_cases h : t 0 = 0
    · simp [h, Bytes.ofList]
    · rw [if_neg h, if_neg h]
      rw [show Bytes.ofList (t 0 :: strncpy n fun i => t (i + 1)) 0 = t 0 from rfl, if_neg h,
        ← ih fun i => t (i + 1)]
      rfl

/-- The name and the number in an entry, if it is in use. -/
def decode (de : Bytes) : Option (List UInt8 × Nat) :=
  if de.u16 0 = 0 then none else some (str (fun i => de (2 + i)) DIRSIZ, (de.u16 0).toNat)

def entryTable (c : List UInt8) : Table (List UInt8) Nat := fun j =>
  if j < c.length / DIRENT then decode (Bytes.ofList ((c.drop (j * DIRENT)).take DIRENT)) else none

/-- An entry in the model of the file system calls, in use or not. -/
def direntOf (de : Bytes) : Fs.Dirent := ⟨(de.u16 0).toNat, str (fun i => de (2 + i)) DIRSIZ⟩

/-- The entries of a directory there. -/
def direntsOf (c : List UInt8) : List Fs.Dirent :=
  (List.range (c.length / DIRENT)).map fun j =>
    direntOf (Bytes.ofList ((c.drop (j * DIRENT)).take DIRENT))

theorem decode_eq (de : Bytes) : decode de =
    if (direntOf de).inum = 0 then none else some ((direntOf de).name, (direntOf de).inum) :=
  if_congr UInt16.toNat_inj.symm rfl rfl

theorem length_direntsOf (c : List UInt8) : (direntsOf c).length = c.length / DIRENT := by
  simp [direntsOf]

theorem getElem?_direntsOf (c : List UInt8) (j : Nat) : (direntsOf c)[j]? =
    if j < c.length / DIRENT then
      some (direntOf (Bytes.ofList ((c.drop (j * DIRENT)).take DIRENT)))
    else none := by
  rw [direntsOf, List.getElem?_map]
  split
  case isTrue hj =>
    rw [List.getElem?_range hj]
    rfl
  case isFalse hj =>
    rw [List.getElem?_eq_none (by simpa using hj)]
    rfl

theorem entryTable_eq (c : List UInt8) (j : Nat) : entryTable c j =
    (direntsOf c)[j]?.bind fun de => if de.inum = 0 then none else some (de.name, de.inum) := by
  rw [entryTable, getElem?_direntsOf]
  split
  · exact decode_eq _
  · rfl

theorem direntOf_dirent (inum : UInt16) (name : Bytes) :
    direntOf (Bytes.ofList (Kernel.dirent inum name)) = ⟨inum.toNat, str name DIRSIZ⟩ := by
  have hu : (Bytes.ofList (Kernel.dirent inum name)).u16 0 = inum :=
    Bytes.u16_of_bytes fun k hk => by
      obtain rfl | rfl : k = 0 ∨ k = 1 := by omega
      · rfl
      · rfl
  have hname : (fun i => Bytes.ofList (Kernel.dirent inum name) (2 + i)) =
      Bytes.ofList (strncpy DIRSIZ name) := by
    funext i
    rw [Nat.add_comm]
    rfl
  rw [direntOf, hu, hname, str_strncpy]

theorem decode_dirent {inum : UInt16} (h : inum ≠ 0) (name : Bytes) :
    decode (Bytes.ofList (Kernel.dirent inum name)) = some (str name DIRSIZ, inum.toNat) := by
  rw [decode_eq, direntOf_dirent]
  exact if_neg fun h0 => h (UInt16.toNat_inj.mp h0)

theorem length_dirent (inum : UInt16) (name : Bytes) : (Kernel.dirent inum name).length = DIRENT := by
  rw [Kernel.dirent, List.length_append, length_strncpy]
  rfl

variable {old e : List UInt8} {j i b bn : Nat} {sb : Superblock} {d d' : Image} {ino : Nat → Dinode}
  {x x' : Dinode}

/-- The contents after a write of one entry. -/
def splice (old e : List UInt8) (j : Nat) : List UInt8 :=
  old.take (j * DIRENT) ++ e ++ old.drop (j * DIRENT + DIRENT)

theorem splice_part (he : e.length = DIRENT) (hj : j * DIRENT ≤ old.length) :
    (splice old e j).length = max old.length (j * DIRENT + DIRENT) ∧
      ∀ i, ((splice old e j).drop (i * DIRENT)).take DIRENT =
        if i = j then e else (old.drop (i * DIRENT)).take DIRENT := by
  generalize hs : splice old e j = s
  have hlen : s.length = max old.length (j * DIRENT + DIRENT) := by
    rw [← hs, splice]
    simp only [List.length_append, List.length_take, List.length_drop]
    omega
  have hget : ∀ p, s[p]? = if j * DIRENT ≤ p ∧ p < j * DIRENT + DIRENT then e[p - j * DIRENT]?
      else old[p]? := by
    intro p
    rw [← hs, splice]
    have htake : (old.take (j * DIRENT)).length = j * DIRENT := by
      rw [List.length_take]
      omega
    by_cases h1 : p < j * DIRENT
    · rw [if_neg (by omega), List.append_assoc, List.getElem?_append_left (by omega),
        List.getElem?_take_of_lt h1]
    · by_cases h2 : p < j * DIRENT + DIRENT
      · rw [if_pos ⟨by omega, h2⟩, List.append_assoc, List.getElem?_append_right (by omega), htake,
          List.getElem?_append_left (by omega)]
      · rw [if_neg (by omega), List.getElem?_append_right (by rw [List.length_append]; omega),
          List.getElem?_drop, List.length_append, he]
        congr 1
        omega
  refine ⟨hlen, fun i => List.ext_getElem? fun p => ?_⟩
  rw [List.getElem?_take, List.getElem?_drop, hget]
  by_cases hij : i = j
  · rw [if_pos hij, hij]
    by_cases hp : p < DIRENT
    · rw [if_pos hp, if_pos (by omega)]
      congr 1
      omega
    · rw [if_neg hp, List.getElem?_eq_none (by omega)]
  · rw [if_neg hij, List.getElem?_take, List.getElem?_drop]
    by_cases hp : p < DIRENT
    · rw [if_pos hp, if_pos hp, if_neg]
      unfold DIRENT at *
      omega
    · rw [if_neg hp, if_neg hp]

theorem le_length_direntsOf (hj : j * DIRENT ≤ old.length) : j ≤ (direntsOf old).length := by
  rw [length_direntsOf]
  unfold DIRENT at *
  omega

theorem getElem?_putEntry {es : List Fs.Dirent} {de : Fs.Dirent} (hj : j ≤ es.length) (i : Nat) :
    (Fs.putEntry es j de)[i]? = if i = j then some de else es[i]? := by
  rw [Fs.putEntry]
  split
  case isTrue hlt => grind
  case isFalse hge => grind

theorem direntsOf_splice (hc : old.length % DIRENT = 0) (he : e.length = DIRENT)
    (hj : j * DIRENT ≤ old.length) : direntsOf (splice old e j) =
      Fs.putEntry (direntsOf old) j (direntOf (Bytes.ofList e)) := by
  obtain ⟨hlen, hpart⟩ := splice_part he hj
  refine List.ext_getElem? fun i => ?_
  rw [getElem?_putEntry (le_length_direntsOf hj), getElem?_direntsOf, getElem?_direntsOf, hpart, hlen]
  by_cases hij : i = j
  · rw [if_pos hij, hij, if_pos rfl, if_pos]
    unfold DIRENT
    omega
  · rw [if_neg hij, if_neg hij]
    have : i < max old.length (j * DIRENT + DIRENT) / DIRENT ↔ i < old.length / DIRENT := by
      unfold DIRENT at *
      omega
    simp only [this]

theorem entryTable_splice (hc : old.length % DIRENT = 0) (he : e.length = DIRENT)
    (hj : j * DIRENT ≤ old.length) : entryTable (splice old e j) =
      Function.update (entryTable old) j (decode (Bytes.ofList e)) := by
  funext i
  rw [entryTable_eq, direntsOf_splice hc he hj, getElem?_putEntry (le_length_direntsOf hj),
    Function.update_apply]
  split
  case isTrue => exact (decode_eq _).symm
  case isFalse => exact (entryTable_eq old i).symm

def freeBlocks (sb : Superblock) (d : Image) : Finset Nat :=
  (Finset.range sb.size).filter fun b => d.bit sb b = false

/-- The blocks that bmap has to allocate. -/
def blocksNeeded (d : Image) (x : Dinode) (bn : Nat) : Nat :=
  if x.slot d (slotOf bn) ≠ 0 then 0 else if bn < NDIRECT ∨ x.ind ≠ 0 then 1 else 2

theorem mem_freeBlocks {b : Nat} : b ∈ freeBlocks sb d ↔ b < sb.size ∧ d.bit sb b = false := by
  rw [freeBlocks, Finset.mem_filter, Finset.mem_range]

/-- balloc takes a free block; without one it fails. -/
theorem balloc_free (hsb : sb.Wf) (h : Sound sb d ino) :
    ((balloc sb d).1 = 0 ↔ (freeBlocks sb d).card = 0) ∧
      (freeBlocks sb (balloc sb d).2).card = (freeBlocks sb d).card - 1 := by
  rcases balloc_spec hsb h with hb | ⟨b, d', hb, hle, hf⟩
  · have hcard : (freeBlocks sb d).card = 0 := by
      refine Finset.card_eq_zero.mpr (Finset.eq_empty_of_forall_notMem fun c hc => ?_)
      have hfull := balloc_full hsb h (by rw [hb])
      rw [hb] at hfull
      obtain ⟨hlt, hfree⟩ := mem_freeBlocks.mp hc
      rw [hfull c hlt] at hfree
      cases hfree
    rw [hb, hcard]
    exact ⟨iff_of_true rfl rfl, rfl⟩
  · have hmem : b ∈ freeBlocks sb d := mem_freeBlocks.mpr ⟨hf.lt, hf.free⟩
    have hset : freeBlocks sb d' = (freeBlocks sb d).erase b := by
      ext c
      rw [Finset.mem_erase, mem_freeBlocks, mem_freeBlocks]
      constructor
      · rintro ⟨hlt, hc⟩
        rw [hf.bit c hlt] at hc
        simp only [Bool.or_eq_false_iff, decide_eq_false_iff_not] at hc
        exact ⟨hc.2, hlt, hc.1⟩
      · rintro ⟨hne, hlt, hc⟩
        exact ⟨hlt, by rw [hf.bit c hlt, hc]; simp [hne]⟩
    rw [hb, hset]
    exact ⟨iff_of_false (ofNat_ne_zero hsb hle hf.lt) (Finset.card_ne_zero_of_mem hmem),
      Finset.card_erase_of_mem hmem⟩

/-- What loadIndirect leaves of the free blocks. -/
theorem loadIndirect_free (h : Live sb d ino i x) (hl : loadIndirect sb d x = (x'.ind, d', x')) :
    (x'.ind = 0 ↔ x.ind = 0 ∧ (freeBlocks sb d).card = 0) ∧
      (freeBlocks sb d').card = (freeBlocks sb d).card - if x.ind = 0 then 1 else 0 := by
  rw [loadIndirect] at hl
  by_cases hind : x.ind = 0
  · obtain ⟨hzero, hcard⟩ := balloc_free h.wf h.sound
    rcases hb : balloc sb d with ⟨addr, d1⟩
    rw [hb] at hzero hcard
    rw [if_pos hind, hb] at hl
    have hat : addr = x'.ind ∧ d1 = d' := by
      by_cases h0 : addr = 0
      · simp only [if_pos h0, Prod.mk.injEq] at hl
        exact ⟨h0.trans hl.1, hl.2.1⟩
      · simp only [if_neg h0, Prod.mk.injEq] at hl
        exact ⟨hl.1, hl.2.1⟩
    rw [if_pos hind, ← hat.1, ← hat.2, hzero]
    exact ⟨(and_iff_right hind).symm, hcard⟩
  · simp only [if_neg hind, Prod.mk.injEq] at hl
    rw [if_neg hind, ← hl.1, ← hl.2.1]
    exact ⟨⟨fun h0 => absurd h0 hind, fun h0 => h0.1⟩, rfl⟩

/-- bmap returns the block that it was granted. -/
theorem granted {addr : UInt32} {y : Image × Dinode}
    (hok : (if (balloc sb d).1 = 0 then .ok (0, (balloc sb d).2, x) else .ok ((balloc sb d).1, y)) =
      (.ok (addr, d', x') : Except Panic _)) : addr = (balloc sb d).1 := by
  by_cases h0 : (balloc sb d).1 = 0
  · simp only [if_pos h0, Except.ok.injEq, Prod.mk.injEq] at hok
    rw [h0, hok.1]
  · simp only [if_neg h0, Except.ok.injEq, Prod.mk.injEq] at hok
    exact hok.1.symm

/-- bmap fails exactly if there are too few free blocks. -/
theorem bmap_eq_zero_iff (h : Live sb d ino i x) (hbn : bn < MAXFILE) {addr : UInt32}
    (hok : bmap sb d x bn = .ok (addr, d', x')) :
    addr = 0 ↔ (freeBlocks sb d).card < blocksNeeded d x bn := by
  rw [blocksNeeded]
  by_cases hs : x.slot d (slotOf bn) ≠ 0
  · rw [bmap_hit hbn hs] at hok
    simp only [Except.ok.injEq, Prod.mk.injEq] at hok
    rw [if_pos hs, ← hok.1]
    exact iff_of_false hs (Nat.not_lt_zero _)
  rw [if_neg hs]
  rw [not_not] at hs
  by_cases hd : bn < NDIRECT
  · rw [slotOf_direct hd, Dinode.slot_direct] at hs
    have hk : Fin.ofNat (NDIRECT + 1) bn = (⟨bn, hd⟩ : Fin NDIRECT).castSucc :=
      Fin.ext (Nat.mod_eq_of_lt (by omega))
    rw [bmap, if_pos hd, hk, if_pos hs] at hok
    rw [if_pos (.inl hd), granted hok, (balloc_free h.wf h.sound).1, Nat.lt_one_iff]
  · have he : bn - NDIRECT < NINDIRECT := by
      unfold MAXFILE at hbn
      omega
    rw [slotOf_entry hd he] at hs
    rw [bmap, if_neg hd, if_pos he] at hok
    obtain ⟨d1, x1, hl, h1, hm⟩ := loadIndirect_spec h
    have hs1 := hm.only_indirect (.entry ⟨bn - NDIRECT, he⟩) (by simp)
    rw [hs, Dinode.slot_entry] at hs1
    obtain ⟨hzero, hcard⟩ := loadIndirect_free h hl
    rw [hl] at hok
    dsimp only at hok
    by_cases hz : x1.ind = 0
    · obtain ⟨hind, hnone⟩ := hzero.mp hz
      rw [if_pos hz] at hok
      cases hok
      exact iff_of_true rfl (by rw [hnone]; split <;> omega)
    · rw [if_neg hz] at hok hs1
      rw [if_pos hs1] at hok
      rw [granted hok, (balloc_free h.wf h1.sound).1, hcard]
      by_cases hind : x.ind = 0
      · have hsome : (freeBlocks sb d).card ≠ 0 := fun h0 => hz (hzero.mpr ⟨hind, h0⟩)
        rw [if_pos hind, if_neg (by simp [hd, hind])]
        omega
      · rw [if_neg hind, if_pos (.inr hind), Nat.lt_one_iff, Nat.sub_zero]

/-- The loop of writei for one entry: it does all or nothing. -/
theorem writeLoop_entry {src : Bytes} {off : Nat} (hoff : off % DIRENT = 0) {addr : UInt32}
    {d1 : Image} {x1 : Dinode} (hb : bmap sb d x (off / BSIZE) = .ok (addr, d1, x1)) :
    (writeLoop sb src DIRENT DIRENT DIRENT d x off 0).map (fun r => r.2.1) =
      .ok (if addr = 0 then 0 else DIRENT) := by
  have hmin : min (DIRENT - 0) (BSIZE - off % BSIZE) = DIRENT := by
    unfold DIRENT BSIZE at *
    omega
  rw [show DIRENT = 15 + 1 from rfl, writeLoop, if_pos (by omega), hb]
  simp only [bind, Except.bind]
  by_cases h0 : addr = 0
  · rw [if_pos h0, if_pos h0]
    rfl
  · rw [if_neg h0, if_neg h0, show 15 + 1 = DIRENT from rfl, hmin, if_neg (by omega)]
    rfl

theorem writei_entry (h : Live sb d (d.inode sb) i x) (hdisk : d.inode sb i = x) (hw : Whole d x)
    (src : Bytes) {j : Nat} (hj : j * DIRENT ≤ x.size.toNat)
    (hmax : j * DIRENT + DIRENT ≤ MAXFILE * BSIZE) :
    ∃ r d' x', writei sb d i x src (UInt32.ofNat (j * DIRENT)) (UInt32.ofNat DIRENT) DIRENT =
        .ok (r, d', x') ∧ Written sb i d d' x x' ∧
      ((r = 0 ∧ x'.contents d' = x.contents d ∧
          (freeBlocks sb d).card < blocksNeeded d x (j * DIRENT / BSIZE)) ∨
        (r = DIRENT ∧ x'.contents d' = (x.contents d).take (j * DIRENT) ++ (List.range DIRENT).map src ++
            (x.contents d).drop (j * DIRENT + DIRENT) ∧
          ¬ (freeBlocks sb d).card < blocksNeeded d x (j * DIRENT / BSIZE))) := by
  have hlt := x.size.toNat_lt
  have hoff : (UInt32.ofNat (j * DIRENT)).toNat = j * DIRENT :=
    UInt32.toNat_ofNat_of_lt' (by show _ < 2 ^ 32; omega)
  have hn : (UInt32.ofNat DIRENT).toNat = DIRENT := by decide
  have hfit : (UInt32.ofNat (j * DIRENT)).toNat + (UInt32.ofNat DIRENT).toNat < 2 ^ 32 := by
    unfold MAXFILE NDIRECT NINDIRECT BSIZE at hmax
    omega
  have hwrap := not_wrap hfit
  have h1 : ¬ x.size < UInt32.ofNat (j * DIRENT) := by
    rw [UInt32.lt_iff_toNat_lt]
    omega
  have h2 : ¬ MAXFILE * BSIZE < (UInt32.ofNat (j * DIRENT) + UInt32.ofNat DIRENT).toNat := by
    rw [toNat_add_of_le hwrap, hn]
    omega
  obtain ⟨tot, part, d', x', hok, hwr, hsize, hsp, hended⟩ :=
    writei_spliced h hdisk src DIRENT h1 hwrap h2
  rw [hoff] at hsize hsp
  have hpart : part = 0 := by
    cases hended with
    | done _ hpart => exact hpart
    | full _ hpart _ => exact hpart
    | fault htot hpart hlt' =>
      omega
  subst hpart
  have hbn : j * DIRENT / BSIZE < MAXFILE := by
    unfold BSIZE DIRENT at *
    omega
  obtain ⟨addr, d1, x1, hb, -⟩ := bmap_spec h hbn
  have hiff := bmap_eq_zero_iff h hbn hb
  have htot : tot = if addr = 0 then 0 else DIRENT := by
    have hl : (writeLoop sb src DIRENT DIRENT DIRENT d x (j * DIRENT) 0).map _ = _ :=
      writeLoop_entry (Nat.mul_mod_left j DIRENT) hb
    rw [writei, if_neg (not_or.mpr ⟨h1, hwrap⟩), if_neg h2, hoff, hn] at hok
    rcases hr : writeLoop sb src DIRENT DIRENT DIRENT d x (j * DIRENT) 0 with e | r
    · rw [hr] at hl
      cases hl
    · rw [hr] at hl hok
      simp only [bind, Except.bind, pure, Except.pure, Except.ok.injEq, Prod.mk.injEq] at hok
      simp only [Except.map, Except.ok.injEq] at hl
      rw [← hl]
      exact_mod_cast hok.1.symm
  have hc := hsp.contents hw hj hsize
  refine ⟨tot, d', x', hok, hwr, ?_⟩
  by_cases h0 : addr = 0
  · rw [if_pos h0] at htot
    subst htot
    refine .inl ⟨rfl, ?_, hiff.mp h0⟩
    rw [hc]
    simp
  · rw [if_neg h0] at htot
    subst htot
    exact .inr ⟨rfl, hc, fun hlt => h0 (hiff.mpr hlt)⟩

end Xv6.Disk
