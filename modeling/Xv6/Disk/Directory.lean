import Xv6.Disk.Entries

namespace Xv6.Disk

open Xv6.Framework

variable {sb : Superblock}

namespace Kernel

variable {k k' : Kernel} {dp ip : Fin NINODE} {inum : Nat}

theorem inode_setInode (k : Kernel) (ip e : Fin NINODE) (v : Inode) :
    (k.setInode ip v).inode e = if e = ip then v else k.inode e :=
  update_apply ..

theorem inode_store (k : Kernel) (ip e : Fin NINODE) (d : Image) (x : Dinode) :
    (k.store ip d x).inode e = if e = ip then { k.inode ip with din := x } else k.inode e :=
  update_apply ..

/-- iget with room in the inode table: other entries keep what they hold, and the reference can be
given back without freeing the inode. -/
theorem iget_spec (hroom : ∃ e, (k.inode e).ref = 0) (inum : Nat) :
    ∃ ip v, k.iget inum = .ok (ip, k.setInode ip v) ∧ v.inum = inum ∧ v.ref = (k.inode ip).ref + 1 ∧
      (0 < (k.inode ip).ref → v = { k.inode ip with ref := (k.inode ip).ref + 1 }) ∧
      ((k.inode ip).ref = 0 → v.valid = false) := by
  rw [iget]
  rcases hfind : (List.finRange NINODE).find? fun e => decide (0 < (k.inode e).ref ∧
    (k.inode e).inum = inum) with _ | e
  · rcases hfree : (List.finRange NINODE).find? fun e => decide ((k.inode e).ref = 0) with _ | e
    · obtain ⟨e, he⟩ := hroom
      have := List.find?_eq_none.mp hfree e (List.mem_finRange e)
      exact absurd he (by simpa using this)
    · have hz : (k.inode e).ref = 0 := by simpa using List.find?_some hfree
      exact ⟨e, _, rfl, rfl, by rw [hz], fun h => by omega, fun _ => rfl⟩
  · have hin : 0 < (k.inode e).ref ∧ (k.inode e).inum = inum := by simpa using List.find?_some hfind
    exact ⟨e, _, rfl, hin.2, rfl, fun _ => rfl, fun h => by omega⟩

/-- iput of a reference that is not the last one of an inode without links. -/
theorem iput_plain (h : ¬ ((k.inode ip).ref = 1 ∧ (k.inode ip).valid ∧ (k.inode ip).din.nlink = 0)) :
    k.iput sb ip = .ok (k.setInode ip { k.inode ip with ref := (k.inode ip).ref - 1 }) := by
  rw [iput, if_neg h]
  rfl

end Kernel

/-- A directory, locked by its user, and a free entry in the inode table. -/
structure Dir (sb : Superblock) (k : Kernel) (dp : Fin NINODE) : Prop where
  ref : 0 < (k.inode dp).ref
  inum : (k.inode dp).inum < sb.inums
  type : (k.inode dp).din.type = T_DIR
  disk : k.disk.inode sb (k.inode dp).inum = (k.inode dp).din
  consistent : Consistent sb k.disk
  whole : Whole k.disk (k.inode dp).din
  size : (k.inode dp).din.size.toNat % DIRENT = 0
  room : ∃ e, (k.inode e).ref = 0

def Kernel.contents (k : Kernel) (dp : Fin NINODE) : List UInt8 := (k.inode dp).din.contents k.disk

def Kernel.table (k : Kernel) (dp : Fin NINODE) : Table (List UInt8) Nat :=
  entryTable (k.contents dp)

/-- The entries as the model of the file system calls has them. -/
def Kernel.dirents (k : Kernel) (dp : Fin NINODE) : List Fs.Dirent := direntsOf (k.contents dp)

namespace Dir

variable {k k' : Kernel} {dp ip : Fin NINODE} {name : Bytes} {inum : UInt16} {j t v : Nat}
  {de : Fs.Dirent} {n : List UInt8}

theorem toNat_off (hj : j * DIRENT ≤ (k.inode dp).din.size.toNat) :
    (UInt32.ofNat (j * DIRENT)).toNat = j * DIRENT := by
  have hlt := (k.inode dp).din.size.toNat_lt
  exact UInt32.toNat_ofNat_of_lt' (by show _ < 2 ^ 32; omega)

theorem readi_entry (h : Dir sb k dp) (hj : j * DIRENT < (k.inode dp).din.size.toNat) :
    readi sb k.disk (k.inode dp).din (UInt32.ofNat (j * DIRENT)) (UInt32.ofNat DIRENT) DIRENT =
      .ok (DIRENT, (((k.inode dp).din.contents k.disk).drop (j * DIRENT)).take DIRENT, k.disk,
        (k.inode dp).din) := by
  have hlen := (k.inode dp).din.length_contents k.disk
  have hsize := h.size
  have hlt := (k.inode dp).din.size.toNat_lt
  have hoff := toNat_off hj.le
  have hn : (UInt32.ofNat DIRENT).toNat = DIRENT := by decide
  have hle : j * DIRENT + DIRENT ≤ (k.inode dp).din.size.toNat := by
    unfold DIRENT at *
    omega
  have hfit : (UInt32.ofNat (j * DIRENT)).toNat + (UInt32.ofNat DIRENT).toNat < 2 ^ 32 := by
    omega
  rw [readi_contents h.whole (not_wrap hfit) (by omega), hoff, hn, List.length_take,
    List.length_drop, Nat.min_eq_left (by omega)]

theorem length_dirents : (k.dirents dp).length = (k.inode dp).din.size.toNat / DIRENT := by
  rw [Kernel.dirents, length_direntsOf, Kernel.contents, Dinode.length_contents]

theorem table_eq_some : k.table dp t = some (n, v) ↔
    ∃ de, (k.dirents dp)[t]? = some de ∧ de.inum ≠ 0 ∧ de.name = n ∧ de.inum = v := by
  rw [Kernel.table, entryTable_eq, Option.bind_eq_some_iff]
  simp [Kernel.dirents]

theorem table_eq_none : k.table dp t = none ↔ ∀ de, (k.dirents dp)[t]? = some de → de.inum = 0 := by
  rw [Kernel.table, entryTable_eq, Option.bind_eq_none_iff]
  simp [Kernel.dirents]

theorem lt_size (h : Dir sb k dp) :
    j * DIRENT < (k.inode dp).din.size.toNat ↔ j < (k.dirents dp).length := by
  have hsize := h.size
  rw [length_dirents]
  unfold DIRENT at *
  omega

theorem le_size (hj : j ≤ (k.dirents dp).length) : j * DIRENT ≤ (k.inode dp).din.size.toNat := by
  rw [length_dirents] at hj
  unfold DIRENT at *
  omega

theorem lt_of_dirent (hde : (k.dirents dp)[j]? = some de) : j < (k.dirents dp).length :=
  (List.getElem?_eq_some_iff.mp hde).1

theorem off_lt_size (h : Dir sb k dp) (hj : j ≤ (k.dirents dp).length) :
    UInt32.ofNat (j * DIRENT) < (k.inode dp).din.size ↔ j < (k.dirents dp).length := by
  rw [UInt32.lt_iff_toNat_lt, toNat_off (le_size hj), h.lt_size]

theorem next_off : UInt32.ofNat (j * DIRENT) + UInt32.ofNat DIRENT = UInt32.ofNat ((j + 1) * DIRENT) := by
  rw [← UInt32.ofNat_add, Nat.succ_mul]

theorem next_le (h : Dir sb k dp) (hj : j * DIRENT < (k.inode dp).din.size.toNat) :
    (j + 1) * DIRENT ≤ (k.inode dp).din.size.toNat :=
  le_size (h.lt_size.mp hj)

theorem readi_dirent (h : Dir sb k dp) (hde : (k.dirents dp)[j]? = some de) :
    ∃ b, readi sb k.disk (k.inode dp).din (UInt32.ofNat (j * DIRENT)) (UInt32.ofNat DIRENT) DIRENT =
        .ok (DIRENT, b, k.disk, (k.inode dp).din) ∧ direntOf (Bytes.ofList b) = de := by
  refine ⟨_, h.readi_entry (h.lt_size.mpr (lt_of_dirent hde)), ?_⟩
  rw [Kernel.dirents, getElem?_direntsOf] at hde
  split at hde
  · exact Option.some.inj hde
  · cases hde

theorem namecmp_iff (hde : (k.dirents dp)[j]? = some de) :
    Fs.namecmp (str name DIRSIZ) de.name = true ↔ str name DIRSIZ = de.name := by
  rw [Kernel.dirents, direntsOf, List.getElem?_map, Option.map_eq_some_iff] at hde
  obtain ⟨i, -, rfl⟩ := hde
  have hlen (b : Bytes) : (direntOf b).name.length ≤ DIRSIZ := length_str_le _ _
  rw [Fs.namecmp, decide_eq_true_iff, List.take_of_length_le (length_str_le _ _),
    List.take_of_length_le (hlen _)]

theorem lookLoop_round (h : Dir sb k dp) (fuel : Nat) (hde : (k.dirents dp)[j]? = some de) :
    Kernel.lookLoop sb dp name (fuel + 1) k (UInt32.ofNat (j * DIRENT)) =
      if de.inum ≠ 0 ∧ Fs.namecmp (str name DIRSIZ) de.name then
        (k.iget de.inum).map fun r => (some (r.1, UInt32.ofNat (j * DIRENT)), r.2)
      else Kernel.lookLoop sb dp name fuel k (UInt32.ofNat ((j + 1) * DIRENT)) := by
  have hj := lt_of_dirent hde
  have hin := (h.off_lt_size hj.le).mpr hj
  obtain ⟨b, hread, rfl⟩ := h.readi_dirent hde
  by_cases h0 : (direntOf (Bytes.ofList b)).inum = 0
  · have h0' : ((Bytes.ofList b).u16 0).toNat = 0 := h0
    rw [if_neg fun h => h.1 h0, Kernel.lookLoop, if_pos hin, hread]
    simp only [bind, Except.bind, ne_eq, not_true_eq_false, if_false, Kernel.store_self, h0', if_true,
      next_off]
  · rw [Kernel.lookLoop_entry hin hread rfl h0, next_off]
    refine if_congr ?_ rfl rfl
    rw [namecmp_iff hde, and_iff_right h0]
    exact strncmp_eq_zero_iff _ _ _

/-- The loop of dirlookup stops at the first entry with the name. -/
theorem lookLoop_eq (h : Dir sb k dp) (name : Bytes) (fuel : Nat) (hj : j ≤ (k.dirents dp).length)
    (hfuel : (k.dirents dp).length < j + fuel) :
    Kernel.lookLoop sb dp name fuel k (UInt32.ofNat (j * DIRENT)) =
      match Fs.lookup ((k.dirents dp).drop j) (str name DIRSIZ) with
      | none => .ok (none, k)
      | some t => (k.iget (((k.dirents dp)[j + t]?.map Fs.Dirent.inum).getD 0)).map fun r =>
        (some (r.1, UInt32.ofNat ((j + t) * DIRENT)), r.2) := by
  induction fuel generalizing j with
  | zero => omega
  | succ fuel ih =>
    by_cases hlt : j < (k.dirents dp).length
    · have hde := List.getElem?_eq_getElem hlt
      rw [h.lookLoop_round fuel hde, List.drop_eq_getElem_cons hlt, Fs.lookup, List.findIdx?_cons]
      by_cases hc : (k.dirents dp)[j].inum ≠ 0 ∧
          Fs.namecmp (str name DIRSIZ) (k.dirents dp)[j].name = true
      · rw [if_pos hc, if_pos (decide_eq_true hc)]
        simp only [Nat.add_zero, hde, Option.map_some, Option.getD_some]
      · rw [if_neg hc, if_neg (by simpa using hc), ih hlt (by omega), Fs.lookup]
        cases ((k.dirents dp).drop (j + 1)).findIdx? _ with
        | none => rfl
        | some t => simp only [Option.map_some, Nat.succ_add_eq_add_succ]
    · rw [Kernel.lookLoop, if_neg (mt (h.off_lt_size hj).mp hlt), List.drop_of_length_le (by omega)]
      rfl

/-- dirlookup finds what that of the model of the file system calls finds. -/
theorem dirlookup_eq (h : Dir sb k dp) (name : Bytes) : k.dirlookup sb dp name =
    match Fs.lookup (k.dirents dp) (str name DIRSIZ) with
    | none => .ok (none, k)
    | some t => (k.iget (((k.dirents dp)[t]?.map Fs.Dirent.inum).getD 0)).map fun r =>
      (some (r.1, UInt32.ofNat (t * DIRENT)), r.2) := by
  rw [Kernel.dirlookup, if_neg (not_not.mpr h.type)]
  have hloop := h.lookLoop_eq name (j := 0) ((k.dirents dp).length + 1) (Nat.zero_le _)
    (by omega)
  rw [length_dirents] at hloop
  simpa using hloop

theorem lookup_some (hl : Fs.lookup (k.dirents dp) (str name DIRSIZ) = some t) :
    ∃ v, k.table dp t = some (str name DIRSIZ, v) ∧
      ((k.dirents dp)[t]?.map Fs.Dirent.inum).getD 0 = v := by
  obtain ⟨hlt, hp, -⟩ := List.findIdx?_eq_some_iff_getElem.mp hl
  have hde := List.getElem?_eq_getElem hlt
  obtain ⟨h0, hname⟩ := of_decide_eq_true hp
  refine ⟨_, table_eq_some.mpr ⟨_, hde, h0, ((namecmp_iff hde).mp hname).symm, rfl⟩, ?_⟩
  rw [hde]
  rfl

theorem lookup_none (hl : Fs.lookup (k.dirents dp) (str name DIRSIZ) = none) (t v : Nat) :
    k.table dp t ≠ some (str name DIRSIZ, v) := by
  intro ht
  obtain ⟨de, hde, h0, hname, -⟩ := table_eq_some.mp ht
  have hno := List.findIdx?_eq_none_iff.mp hl de (List.mem_of_getElem? hde)
  exact of_decide_eq_false hno ⟨h0, (namecmp_iff hde).mpr hname.symm⟩

/-- The loop of dirlink stops at the first empty entry. -/
theorem linkLoop_eq (h : Dir sb k dp) (fuel : Nat) (hj : j ≤ (k.dirents dp).length)
    (hfuel : (k.dirents dp).length < j + fuel) :
    Kernel.linkLoop sb dp fuel k (UInt32.ofNat (j * DIRENT)) = .ok (UInt32.ofNat
      ((j + ((k.dirents dp).drop j).findIdx fun de => de.inum = 0) * DIRENT), k) := by
  induction fuel generalizing j with
  | zero => omega
  | succ fuel ih =>
    by_cases hlt : j < (k.dirents dp).length
    · have hde := List.getElem?_eq_getElem hlt
      obtain ⟨b, hread, hb⟩ := h.readi_dirent hde
      rw [Kernel.linkLoop, if_pos ((h.off_lt_size hj).mpr hlt), hread, List.drop_eq_getElem_cons hlt,
        List.findIdx_cons, ← hb]
      simp only [bind, Except.bind, Kernel.store_self]
      by_cases h0 : (Bytes.ofList b).u16 0 = 0
      · have h0' : (direntOf (Bytes.ofList b)).inum = 0 := congrArg UInt16.toNat h0
        simp [h0, h0']
      · have h0' : (direntOf (Bytes.ofList b)).inum ≠ 0 := fun h => h0 (UInt16.toNat_inj.mp h)
        rw [if_neg h0, next_off, ih hlt (by omega), Nat.succ_add_eq_add_succ, decide_eq_false h0']
        rfl
    · rw [Kernel.linkLoop, if_neg (mt (h.off_lt_size hj).mp hlt), List.drop_of_length_le (by omega)]
      rfl

theorem store (h : Dir sb k dp) {d' : Image} {x' : Dinode}
    (hw : Written sb (k.inode dp).inum k.disk d' (k.inode dp).din x')
    (hsize : x'.size.toNat % DIRENT = 0) : Dir sb (k.store dp d' x') dp := by
  have hdp : (k.store dp d' x').inode dp = { k.inode dp with din := x' } := update_self _ _ _
  obtain ⟨e, he⟩ := h.room
  have hroom : ((k.store dp d' x').inode e).ref = 0 := by
    have hne : e ≠ dp := by
      rintro rfl
      have := h.ref
      omega
    rw [Kernel.inode_store, if_neg hne, he]
  constructor
  all_goals try rw [hdp]
  · exact h.ref
  · exact h.inum
  · exact hw.type.trans h.type
  · exact hw.inode
  · exact hw.consistent
  · exact hw.whole h.whole
  · exact hsize
  · exact ⟨e, hroom⟩

theorem contents_store {d' : Image} {x' : Dinode} :
    (k.store dp d' x').contents dp = x'.contents d' := by
  rw [Kernel.contents, show (k.store dp d' x').inode dp = _ from update_self _ _ _]
  rfl

theorem congr (h : Dir sb k dp) (hdisk : k'.disk = k.disk) (hdp : k'.inode dp = k.inode dp)
    (hroom : ∃ e, (k'.inode e).ref = 0) : Dir sb k' dp := by
  obtain ⟨href, hinum, htype, hsame, hcons, hwhole, hsize, -⟩ := h
  rw [← hdp] at href hinum htype hsame hwhole hsize
  rw [← hdisk] at hsame hcons hwhole
  exact ⟨href, hinum, htype, hsame, hcons, hwhole, hsize, hroom⟩

/-- A reference that iget took is given back, after a write to the directory. -/
theorem release (h : Dir sb k dp) {v : Inode} (hinum : v.ref = (k.inode ip).ref + 1)
    (hold : 0 < (k.inode ip).ref → v = { k.inode ip with ref := (k.inode ip).ref + 1 })
    (hnew : (k.inode ip).ref = 0 → v.valid = false) (d' : Image) (x' : Dinode) :
    ∃ k', ((k.setInode ip v).store dp d' x').iput sb ip = .ok k' ∧ k'.disk = d' ∧
      k'.inode dp = (k.store dp d' x').inode dp ∧ ∃ e, (k'.inode e).ref = 0 := by
  obtain ⟨e, he⟩ := h.room
  have hdp := h.ref
  by_cases hip : ip = dp
  · -- The entry names the directory itself.
    subst hip
    obtain rfl := hold hdp
    have hne : e ≠ ip := by
      rintro rfl
      omega
    refine ⟨_, Kernel.iput_plain ?_, rfl, ?_, e, ?_⟩
    · simp only [Kernel.inode_store, Kernel.inode_setInode, if_true]
      omega
    · simp [Kernel.inode_store, Kernel.inode_setInode]
    · simp [Kernel.inode_store, Kernel.inode_setInode, hne, he]
  · refine ⟨_, Kernel.iput_plain ?_, rfl, ?_, ?_⟩
    · simp only [Kernel.inode_store, Kernel.inode_setInode, if_neg hip, if_true]
      rintro ⟨h1, h2, -⟩
      rw [hnew (by omega)] at h2
      cases h2
    · simp [Kernel.inode_store, Kernel.inode_setInode, Ne.symm hip]
    · by_cases hz : (k.inode ip).ref = 0
      · exact ⟨ip, by simp [Kernel.inode_store, Kernel.inode_setInode, hip, hinum, hz]⟩
      · have hne : e ≠ ip := by
          rintro rfl
          omega
        have hne' : e ≠ dp := by
          rintro rfl
          omega
        exact ⟨e, by simp [Kernel.inode_store, Kernel.inode_setInode, hne, hne', he]⟩

def Room (sb : Superblock) (k : Kernel) (dp : Fin NINODE) : Prop :=
  (∃ j, j * DIRENT < (k.inode dp).din.size.toNat ∧ k.table dp j = none) ∨
    ((k.inode dp).din.size.toNat + DIRENT ≤ MAXFILE * BSIZE ∧
      blocksNeeded k.disk (k.inode dp).din ((k.inode dp).din.size.toNat / BSIZE) ≤
        (freeBlocks sb k.disk).card)

theorem live (hsb : sb.Wf) (h : Dir sb k dp) :
    Live sb k.disk (k.disk.inode sb) (k.inode dp).inum (k.inode dp).din := by
  rw [← h.disk]
  refine h.consistent.live hsb h.inum ?_
  rw [h.disk, h.type]
  decide

theorem write_entry (hsb : sb.Wf) (h : Dir sb k dp) (src : Bytes) {e : List UInt8}
    (he : (List.range DIRENT).map src = e) (hj : j * DIRENT ≤ (k.inode dp).din.size.toNat)
    (hmax : j * DIRENT + DIRENT ≤ MAXFILE * BSIZE) :
    ∃ r d' x', writei sb k.disk (k.inode dp).inum (k.inode dp).din src (UInt32.ofNat (j * DIRENT))
        (UInt32.ofNat DIRENT) DIRENT = .ok (r, d', x') ∧ Dir sb (k.store dp d' x') dp ∧
      ((r = 0 ∧ (k.store dp d' x').contents dp = k.contents dp ∧ (freeBlocks sb k.disk).card <
          blocksNeeded k.disk (k.inode dp).din (j * DIRENT / BSIZE)) ∨
        (r = DIRENT ∧ (k.store dp d' x').contents dp = splice (k.contents dp) e j ∧
          ¬ (freeBlocks sb k.disk).card <
            blocksNeeded k.disk (k.inode dp).din (j * DIRENT / BSIZE))) := by
  obtain ⟨r, d', x', hok, hw, hres⟩ :=
    writei_entry (h.live hsb) h.disk h.whole src hj hmax
  have hsize := h.size
  have hlen := (k.inode dp).din.length_contents k.disk
  have helen : e.length = DIRENT := by
    rw [← he]
    simp
  have hsize' : x'.size.toNat % DIRENT = 0 := by
    rw [← x'.length_contents d']
    rcases hres with ⟨-, hc, -⟩ | ⟨-, hc, -⟩
    · rw [hc, hlen, hsize]
    · rw [hc, he]
      simp only [List.length_append, List.length_take, List.length_drop]
      unfold DIRENT at *
      omega
  refine ⟨r, d', x', hok, h.store hw hsize', ?_⟩
  rw [contents_store]
  rcases hres with ⟨hr, hc, hcard⟩ | ⟨hr, hc, hcard⟩
  · exact .inl ⟨hr, hc, hcard⟩
  · exact .inr ⟨hr, by rw [hc, he]; rfl, hcard⟩

theorem table_splice (h : Dir sb k dp) {e : List UInt8}
    (hc : k'.contents dp = splice (k.contents dp) e j) (he : e.length = DIRENT)
    (hj : j * DIRENT ≤ (k.inode dp).din.size.toNat) :
    k'.table dp = update (k.table dp) j (decode (Bytes.ofList e)) := by
  have hlen : (k.contents dp).length = _ := (k.inode dp).din.length_contents k.disk
  rw [Kernel.table, hc]
  exact entryTable_splice (by rw [hlen, h.size]) he (by rw [hlen]; exact hj)

theorem dirents_splice (h : Dir sb k dp) {e : List UInt8}
    (hc : k'.contents dp = splice (k.contents dp) e j) (he : e.length = DIRENT)
    (hj : j * DIRENT ≤ (k.inode dp).din.size.toNat) :
    k'.dirents dp = Fs.putEntry (k.dirents dp) j (direntOf (Bytes.ofList e)) := by
  have hlen : (k.contents dp).length = _ := (k.inode dp).din.length_contents k.disk
  rw [Kernel.dirents, hc]
  exact direntsOf_splice (by rw [hlen, h.size]) he (by rw [hlen]; exact hj)

/-- A block below the end of the directory is there. -/
theorem needs_nothing (h : Dir sb k dp) (hj : j * DIRENT < (k.inode dp).din.size.toNat) :
    blocksNeeded k.disk (k.inode dp).din (j * DIRENT / BSIZE) = 0 := by
  rw [blocksNeeded, if_pos]
  refine h.whole.2 _ ?_
  have := Nat.div_mul_le_self (j * DIRENT) BSIZE
  omega

theorem map_dirent (inum : UInt16) (name : Bytes) :
    (List.range DIRENT).map (Bytes.ofList (Kernel.dirent inum name)) = Kernel.dirent inum name := by
  have hlen := length_dirent inum name
  refine List.ext_getElem (by simp [hlen]) fun i _ h => ?_
  simp [Bytes.ofList, List.getElem?_eq_getElem h]

inductive Linked (sb : Superblock) (k k' : Kernel) (dp : Fin NINODE) (n : List UInt8) (v : Nat) :
    Int → Prop
  | present {t u : Nat} (ht : k.table dp t = some (n, u)) (hsame : k'.contents dp = k.contents dp) :
    Linked sb k k' dp n v (-1)
  | full (ha : ∀ t u, k.table dp t ≠ some (n, u)) (hroom : ¬ Room sb k dp)
    (hsame : k'.contents dp = k.contents dp) : Linked sb k k' dp n v (-1)
  | added {j : Nat} (ha : ∀ t u, k.table dp t ≠ some (n, u)) (hroom : Room sb k dp)
    (hj : k.table dp j = none) (hadd : k'.table dp = update (k.table dp) j (some (n, v)))
    (hput : k'.dirents dp = Fs.putEntry (k.dirents dp)
      ((k.dirents dp).findIdx fun de => de.inum = 0) ⟨v, n⟩) : Linked sb k k' dp n v 0

theorem contents_congr (hdisk : k'.disk = k.disk) (hdp : k'.inode dp = k.inode dp) :
    k'.contents dp = k.contents dp := by
  rw [Kernel.contents, Kernel.contents, hdisk, hdp]

/-- The name is there: dirlink and dirunlink get a reference to its inode. -/
theorem lookup_present (h : Dir sb k dp)
    (hl : Fs.lookup (k.dirents dp) (str name DIRSIZ) = some t) :
    ∃ v ip i, k.table dp t = some (str name DIRSIZ, v) ∧ k.dirlookup sb dp name =
        .ok (some (ip, UInt32.ofNat (t * DIRENT)), k.setInode ip i) ∧
      i.inum = v ∧ ((k.setInode ip i).inode dp).din = (k.inode dp).din ∧
      ((k.setInode ip i).inode dp).inum = (k.inode dp).inum ∧
      ∀ d' x', ∃ k', ((k.setInode ip i).store dp d' x').iput sb ip = .ok k' ∧ k'.disk = d' ∧
        k'.inode dp = (k.store dp d' x').inode dp ∧ ∃ e, (k'.inode e).ref = 0 := by
  obtain ⟨v, ht, hinum⟩ := lookup_some hl
  obtain ⟨ip, i, hget, hv, href, hold, hnew⟩ := Kernel.iget_spec h.room v
  have hlook : k.dirlookup sb dp name =
      .ok (some (ip, UInt32.ofNat (t * DIRENT)), k.setInode ip i) := by
    rw [h.dirlookup_eq, hl]
    simp only [hinum, hget]
    rfl
  refine ⟨v, ip, i, ht, hlook, hv, ?_, ?_, h.release href hold hnew⟩
  all_goals
    by_cases hip : ip = dp
    · subst hip
      rw [Kernel.inode_setInode, if_pos rfl, hold h.ref]
    · rw [Kernel.inode_setInode, if_neg (Ne.symm hip)]

/-- The first empty entry, or the end. -/
theorem first_empty (k : Kernel) (dp : Fin NINODE) :
    ∃ t, ((k.dirents dp).findIdx fun de => de.inum = 0) = t ∧
    t * DIRENT ≤ (k.inode dp).din.size.toNat ∧ k.table dp t = none ∧
    ∀ i, i < t → k.table dp i ≠ none := by
  refine ⟨_, rfl, le_size List.findIdx_le_length, table_eq_none.mpr fun de hde => ?_,
    fun i hi hnone => ?_⟩
  · obtain ⟨hlt, rfl⟩ := List.getElem?_eq_some_iff.mp hde
    exact of_decide_eq_true (List.findIdx_getElem (p := fun de : Fs.Dirent => decide (de.inum = 0)))
  · have hlt := hi.trans_le List.findIdx_le_length
    exact of_decide_eq_false (List.not_of_lt_findIdx hi)
      (table_eq_none.mp hnone _ (List.getElem?_eq_getElem hlt))

/-- The first empty entry is behind the others, if it is not one that was removed. -/
theorem room_iff {t : Nat} (hle : t * DIRENT ≤ (k.inode dp).din.size.toNat)
    (hnone : k.table dp t = none) (hfirst : ∀ i, i < t → k.table dp i ≠ none) :
    Room sb k dp ↔ t * DIRENT < (k.inode dp).din.size.toNat ∨
      (t * DIRENT + DIRENT ≤ MAXFILE * BSIZE ∧
        blocksNeeded k.disk (k.inode dp).din (t * DIRENT / BSIZE) ≤ (freeBlocks sb k.disk).card) := by
  by_cases hlt : t * DIRENT < (k.inode dp).din.size.toNat
  · exact ⟨fun _ => .inl hlt, fun _ => .inl ⟨t, hlt, hnone⟩⟩
  have he : (k.inode dp).din.size.toNat = t * DIRENT := by omega
  rw [Room, he]
  constructor
  · rintro (⟨j, hj, hnone'⟩ | hright)
    · exact absurd hnone' (hfirst j (Nat.lt_of_mul_lt_mul_right hj))
    · exact .inr hright
  · rintro (hj | hright)
    · omega
    · exact .inr hright

theorem dirlink_spec (hsb : sb.Wf) (h : Dir sb k dp) (name : Bytes) (hinum : inum ≠ 0) :
    ∃ r k', k.dirlink sb dp name inum = .ok (r, k') ∧ Dir sb k' dp ∧
      Linked sb k k' dp (str name DIRSIZ) inum.toNat r := by
  rw [Kernel.dirlink]
  rcases hl : Fs.lookup (k.dirents dp) (str name DIRSIZ) with _ | t
  · have ha := lookup_none hl
    have hlook := h.dirlookup_eq name
    rw [hl] at hlook
    have hloop := h.linkLoop_eq (j := 0) ((k.dirents dp).length + 1) (Nat.zero_le _) (by omega)
    obtain ⟨t, ht, hle, hnone, hfirst⟩ := first_empty k dp
    rw [length_dirents, List.drop_zero, Nat.zero_add, ht] at hloop
    rw [hlook]
    simp only [bind, Except.bind]
    rw [show (0 : UInt32) = UInt32.ofNat (0 * DIRENT) from rfl, hloop]
    simp only
    have hmax := h.whole.1
    have hiff : Room sb k dp ↔ _ := room_iff hle hnone hfirst
    by_cases hbig : MAXFILE * BSIZE < t * DIRENT + DIRENT
    · have hn : (UInt32.ofNat DIRENT).toNat = DIRENT := by decide
      rw [writei_refuses (by rw [toNat_off hle]; exact .inr hbig)]
      simp only [Kernel.store_self]
      refine ⟨-1, k, rfl, h, .full ha (fun hroom => ?_) rfl⟩
      rcases hiff.mp hroom with hlt | ⟨hfit, -⟩
      · have := h.next_le hlt
        rw [Nat.succ_mul] at this
        omega
      · omega
    obtain ⟨r, d', x', hok, hdir, hres⟩ := h.write_entry hsb (Bytes.ofList (Kernel.dirent inum name))
      (map_dirent inum name) hle (by omega)
    rw [hok]
    rcases hres with ⟨rfl, hsame, hcard⟩ | ⟨rfl, hadd, hcard⟩
    · refine ⟨-1, _, rfl, hdir, .full ha (fun hroom => ?_) hsame⟩
      rcases hiff.mp hroom with hlt | ⟨-, hneed⟩
      · rw [h.needs_nothing hlt] at hcard
        omega
      · omega
    · refine ⟨0, _, rfl, hdir, .added ha (hiff.mpr (.inr ⟨by omega, by omega⟩)) hnone ?_ ?_⟩
      · rw [h.table_splice hadd (length_dirent _ _) hle, decode_dirent hinum]
      · rw [h.dirents_splice hadd (length_dirent _ _) hle, direntOf_dirent, ht]
  · obtain ⟨v, ip, i, ht, hlook, -, hdin, -, hput⟩ := h.lookup_present hl
    obtain ⟨k', hput, hdisk, hdp, hroom⟩ := hput k.disk (k.inode dp).din
    rw [← hdin, show k.disk = (k.setInode ip i).disk from rfl, Kernel.store_self] at hput
    rw [Kernel.store_self] at hdp
    rw [hlook]
    simp only [bind, Except.bind, hput]
    exact ⟨-1, k', rfl, h.congr hdisk hdp hroom, .present ht (contents_congr hdisk hdp)⟩

inductive Unlinked (k k' : Kernel) (dp : Fin NINODE) (n : List UInt8) : Int → Prop
  | absent (ha : ∀ t u, k.table dp t ≠ some (n, u)) (hsame : k'.contents dp = k.contents dp) :
    Unlinked k k' dp n (-1)
  | removed {t v : Nat} (ht : k.table dp t = some (n, v))
    (hrem : k'.table dp = update (k.table dp) t none)
    (hput : k'.dirents dp = Fs.putEntry (k.dirents dp) t ⟨0, []⟩)
    (hl : Fs.lookup (k.dirents dp) n = some t) : Unlinked k k' dp n 0

theorem dirunlink_spec (hsb : sb.Wf) (h : Dir sb k dp) (name : Bytes) :
    ∃ r k', k.dirunlink sb dp name = .ok (r, k') ∧ Dir sb k' dp ∧
      Unlinked k k' dp (str name DIRSIZ) r := by
  rw [Kernel.dirunlink]
  rcases hl : Fs.lookup (k.dirents dp) (str name DIRSIZ) with _ | t
  · have hlook := h.dirlookup_eq name
    rw [hl] at hlook
    rw [hlook]
    exact ⟨-1, k, rfl, h, .absent (lookup_none hl) rfl⟩
  · obtain ⟨v, ip, i, ht, hlook, -, hdin, hnum, hput⟩ := h.lookup_present hl
    obtain ⟨de, hde, -⟩ := table_eq_some.mp ht
    have hlt := h.lt_size.mpr (lt_of_dirent hde)
    have hmax := h.whole.1
    have hnext := h.next_le hlt
    rw [Nat.succ_mul] at hnext
    obtain ⟨r, d', x', hok, hdir, hres⟩ := h.write_entry hsb (fun _ => 0) (e := List.replicate DIRENT 0)
      rfl hlt.le (by omega)
    obtain ⟨k', hput, hdisk, hdp, hroom⟩ := hput d' x'
    rw [hlook]
    simp only [bind, Except.bind]
    rw [hdin, hnum, show (k.setInode ip i).disk = k.disk from rfl, hok]
    simp only [hput]
    rcases hres with ⟨-, -, hcard⟩ | ⟨rfl, hrem, -⟩
    · rw [h.needs_nothing hlt] at hcard
      omega
    · rw [← contents_congr hdisk hdp] at hrem
      refine ⟨0, k', rfl, hdir.congr hdisk hdp hroom, .removed ht ?_ ?_ hl⟩
      · rw [h.table_splice hrem rfl hlt.le]
        rfl
      · rw [h.dirents_splice hrem rfl hlt.le]
        rfl

/-- dirlink does to the entries what that of the model of the file system calls does. -/
theorem dirlink_dirents (hsb : sb.Wf) (h : Dir sb k dp) (name : Bytes) (hinum : inum ≠ 0) :
    ∃ r k', k.dirlink sb dp name inum = .ok (r, k') ∧
      (Fs.lookup (k.dirents dp) (str name DIRSIZ) = none ∧ Room sb k dp ∧ r = 0 ∧
          k'.dirents dp = Fs.putEntry (k.dirents dp)
            ((k.dirents dp).findIdx fun de => de.inum = 0) ⟨inum.toNat, str name DIRSIZ⟩ ∨
        (Fs.lookup (k.dirents dp) (str name DIRSIZ) ≠ none ∨ ¬ Room sb k dp) ∧ r = -1 ∧
          k'.dirents dp = k.dirents dp) := by
  obtain ⟨r, k', hok, -, hl⟩ := h.dirlink_spec hsb name hinum
  refine ⟨r, k', hok, ?_⟩
  cases hl with
  | present ht hsame =>
    exact .inr ⟨.inl fun hn => lookup_none hn _ _ ht, rfl, congrArg direntsOf hsame⟩
  | full _ hroom hsame => exact .inr ⟨.inr hroom, rfl, congrArg direntsOf hsame⟩
  | added ha hroom _ _ hput =>
    refine .inl ⟨?_, hroom, rfl, hput⟩
    rcases hl : Fs.lookup (k.dirents dp) (str name DIRSIZ) with _ | t
    · rfl
    · obtain ⟨v, ht, -⟩ := lookup_some hl
      exact absurd ht (ha t v)

/-- So does the removal, which writes an empty entry. -/
theorem dirunlink_dirents (hsb : sb.Wf) (h : Dir sb k dp) (name : Bytes) :
    ∃ r k', k.dirunlink sb dp name = .ok (r, k') ∧
      match Fs.lookup (k.dirents dp) (str name DIRSIZ) with
      | none => r = -1 ∧ k'.dirents dp = k.dirents dp
      | some t => r = 0 ∧ k'.dirents dp = Fs.putEntry (k.dirents dp) t ⟨0, []⟩ := by
  obtain ⟨r, k', hok, -, hu⟩ := h.dirunlink_spec hsb name
  refine ⟨r, k', hok, ?_⟩
  cases hu with
  | absent ha hsame =>
    rcases hl : Fs.lookup (k.dirents dp) (str name DIRSIZ) with _ | t
    · exact ⟨rfl, congrArg direntsOf hsame⟩
    · obtain ⟨v, ht, -⟩ := lookup_some hl
      exact absurd ht (ha t v)
  | removed _ _ hput hl =>
    rw [hl]
    exact ⟨rfl, hput⟩

end Dir

/-- The users of a directory, which hold its lock: dirlink, and what sys_unlink does. -/
inductive DirOp
  | link (name : Bytes) (inum : { v : UInt16 // v ≠ 0 })
  | unlink (name : Bytes)

namespace DirOp

def exec (sb : Superblock) (dp : Fin NINODE) (k : Kernel) : DirOp → Except Panic (Int × Kernel)
  | .link name inum => k.dirlink sb dp name inum
  | .unlink name => k.dirunlink sb dp name

/-- What an operation that returns 0 means for a map. -/
def record (m : List UInt8 → Option Nat) : DirOp → List UInt8 → Option Nat
  | .link name inum => update m (str name DIRSIZ) (some inum.val.toNat)
  | .unlink name => update m (str name DIRSIZ) none

end DirOp

/-- A directory, and the map of the names that were linked and not removed. -/
structure DirState where
  kernel : Kernel
  map : List UInt8 → Option Nat

def DirState.next (sb : Superblock) (dp : Fin NINODE) (s : DirState) (o : DirOp) : Option DirState :=
  match o.exec sb dp s.kernel with
  | .ok (r, k) => some ⟨k, if r = 0 then o.record s.map else s.map⟩
  | .error _ => none

structure DirState.Good (sb : Superblock) (dp : Fin NINODE) (s : DirState) : Prop where
  dir : Dir sb s.kernel dp
  distinct : (s.kernel.table dp).Distinct
  maps : (s.kernel.table dp).Maps s.map

namespace DirState

variable {dp : Fin NINODE} {s t : DirState} {n : List UInt8}

theorem Good.same (h : Good sb dp s) {k : Kernel} (hk : Dir sb k dp)
    (ht : k.table dp = s.kernel.table dp) : Good sb dp ⟨k, s.map⟩ := by
  refine ⟨hk, ?_, ?_⟩
  · rw [ht]
    exact h.distinct
  · rw [ht]
    exact h.maps

theorem Good.absent_iff (h : Good sb dp s) :
    s.map n = none ↔ ∀ j v, s.kernel.table dp j ≠ some (n, v) := by
  constructor
  · exact fun hn => h.maps.absent hn
  · intro ha
    rcases hv : s.map n with _ | v
    · rfl
    · obtain ⟨j, hj⟩ := (h.maps n v).mp hv
      exact absurd hj (ha j v)

theorem Good.next (hsb : sb.Wf) (h : Good sb dp s) {o : DirOp} (hs : s.next sb dp o = some t) :
    Good sb dp t := by
  unfold DirState.next at hs
  cases o with
  | link name inum =>
    obtain ⟨r, k', hok, hdir, hl⟩ := h.dir.dirlink_spec hsb name inum.property
    rw [DirOp.exec, hok] at hs
    cases hl with
    | present ht hsame =>
      cases hs
      exact h.same hdir (congrArg entryTable hsame)
    | full ha hroom hsame =>
      cases hs
      exact h.same hdir (congrArg entryTable hsame)
    | added ha hroom hj hadd =>
      cases hs
      refine ⟨hdir, ?_, ?_⟩
      · rw [hadd]
        exact h.distinct.insert ha
      · rw [hadd]
        exact h.maps.insert hj (h.absent_iff.mpr ha)
  | unlink name =>
    obtain ⟨r, k', hok, hdir, hl⟩ := h.dir.dirunlink_spec hsb name
    rw [DirOp.exec, hok] at hs
    cases hl with
    | absent ha hsame =>
      cases hs
      exact h.same hdir (congrArg entryTable hsame)
    | removed ht hrem =>
      cases hs
      refine ⟨hdir, ?_, ?_⟩
      · rw [hrem]
        exact h.distinct.remove
      · rw [hrem]
        exact h.maps.remove h.distinct ht

theorem Good.lookup (h : Good sb dp s) (name : Bytes) :
    (s.map (str name DIRSIZ) = none → s.kernel.dirlookup sb dp name = .ok (none, s.kernel)) ∧
      ∀ v, s.map (str name DIRSIZ) = some v → ∃ ip off k',
        s.kernel.dirlookup sb dp name = .ok (some (ip, off), k') ∧ (k'.inode ip).inum = v := by
  rcases hl : Fs.lookup (s.kernel.dirents dp) (str name DIRSIZ) with _ | t
  · have hlook := h.dir.dirlookup_eq name
    rw [hl] at hlook
    rw [h.absent_iff.mpr (Dir.lookup_none hl)]
    exact ⟨fun _ => hlook, nofun⟩
  · obtain ⟨u, ip, i, ht, hlook, hi, -⟩ := h.dir.lookup_present hl
    rw [(h.maps _ u).mpr ⟨t, ht⟩]
    refine ⟨nofun, fun v hv => ⟨ip, _, _, hlook, ?_⟩⟩
    rw [show (s.kernel.setInode ip i).inode ip = i from update_self _ _ _, hi, Option.some.inj hv]

/-- dirlink fails exactly if the name is there or there is no room; other entries stay. -/
theorem Good.link (hsb : sb.Wf) (h : Good sb dp s) (name : Bytes) {inum : UInt16} (hinum : inum ≠ 0) :
    ∃ r k', s.kernel.dirlink sb dp name inum = .ok (r, k') ∧ (r = 0 ∨ r = -1) ∧
      (r = -1 ↔ s.map (str name DIRSIZ) ≠ none ∨ ¬ Dir.Room sb s.kernel dp) ∧
      (r = -1 → k'.table dp = s.kernel.table dp) ∧
      ∀ j n v, n ≠ str name DIRSIZ →
        (k'.table dp j = some (n, v) ↔ s.kernel.table dp j = some (n, v)) := by
  obtain ⟨r, k', hok, -, hl⟩ := h.dir.dirlink_spec hsb name hinum
  refine ⟨r, k', hok, ?_⟩
  cases hl with
  | present ht hsame =>
    refine ⟨.inr rfl, ⟨fun _ => .inl fun hn => h.absent_iff.mp hn _ _ ht, fun _ => rfl⟩,
      fun _ => congrArg entryTable hsame, fun j n v _ => by rw [Kernel.table, hsame]; rfl⟩
  | full ha hroom hsame =>
    exact ⟨.inr rfl, ⟨fun _ => .inr hroom, fun _ => rfl⟩, fun _ => congrArg entryTable hsame,
      fun j n v _ => by rw [Kernel.table, hsame]; rfl⟩
  | @added j ha hroom hj hadd =>
    refine ⟨.inl rfl, ⟨fun h => absurd h (by decide), fun hor => ?_⟩, fun h => absurd h (by decide),
      fun i n v hn => ?_⟩
    · rcases hor with hne | hno
      · exact absurd (h.absent_iff.mpr ha) hne
      · exact absurd hroom hno
    · rw [hadd]
      by_cases hij : i = j
      · rw [hij, hj]
        simp [Ne.symm hn]
      · rw [update_of_ne hij]

/-- A removal succeeds exactly if the name is there; other entries stay. -/
theorem Good.unlink (hsb : sb.Wf) (h : Good sb dp s) (name : Bytes) :
    ∃ r k', s.kernel.dirunlink sb dp name = .ok (r, k') ∧
      (r = 0 ↔ s.map (str name DIRSIZ) ≠ none) ∧
      ∀ j n v, n ≠ str name DIRSIZ →
        (k'.table dp j = some (n, v) ↔ s.kernel.table dp j = some (n, v)) := by
  obtain ⟨r, k', hok, -, hl⟩ := h.dir.dirunlink_spec hsb name
  refine ⟨r, k', hok, ?_⟩
  cases hl with
  | absent ha hsame =>
    exact ⟨⟨fun h => absurd h (by decide), fun hne => absurd (h.absent_iff.mpr ha) hne⟩,
      fun j n v _ => by rw [Kernel.table, hsame]; rfl⟩
  | @removed t u ht hrem =>
    refine ⟨⟨fun _ hn => h.absent_iff.mp hn _ _ ht, fun _ => rfl⟩, fun i n v hn => ?_⟩
    rw [hrem]
    by_cases hit : i = t
    · rw [hit, ht]
      simp [Ne.symm hn]
    · rw [update_of_ne hit]

end DirState

/-- A directory is a finite map from names, cut to DIRSIZ bytes, to inode numbers. -/
theorem directory_finite_map (hsb : sb.Wf) {k : Kernel} {dp : Fin NINODE}
    {m : List UInt8 → Option Nat} (h : Dir sb k dp) (hd : (k.table dp).Distinct)
    (hm : (k.table dp).Maps m) {tr : List (Event DirState DirOp)} {s : DirState}
    (hp : Path (DirState.next sb dp) ⟨k, m⟩ tr s) :
    (∀ name,
      (s.map (str name DIRSIZ) = none → s.kernel.dirlookup sb dp name = .ok (none, s.kernel)) ∧
      ∀ v, s.map (str name DIRSIZ) = some v → ∃ ip off k',
        s.kernel.dirlookup sb dp name = .ok (some (ip, off), k') ∧ (k'.inode ip).inum = v) ∧
    (s.kernel.table dp).Distinct ∧
    (∀ name (inum : UInt16), inum ≠ 0 →
      ∃ r k', s.kernel.dirlink sb dp name inum = .ok (r, k') ∧ (r = 0 ∨ r = -1) ∧
        (r = -1 ↔ s.map (str name DIRSIZ) ≠ none ∨ ¬ Dir.Room sb s.kernel dp) ∧
        (r = -1 → k'.table dp = s.kernel.table dp) ∧
        ∀ j n v, n ≠ str name DIRSIZ →
          (k'.table dp j = some (n, v) ↔ s.kernel.table dp j = some (n, v))) ∧
    ∀ name, ∃ r k', s.kernel.dirunlink sb dp name = .ok (r, k') ∧
      (r = 0 ↔ s.map (str name DIRSIZ) ≠ none) ∧
      ∀ j n v, n ≠ str name DIRSIZ →
        (k'.table dp j = some (n, v) ↔ s.kernel.table dp j = some (n, v)) := by
  have hgood : DirState.Good sb dp s := hp.invariant
    (fun _ _ _ h hs _ => h.next hsb hs) ⟨h, hd, hm⟩ fun _ _ => trivial
  exact ⟨hgood.lookup, hgood.distinct, fun name _ => hgood.link hsb name, hgood.unlink hsb⟩

/-- The small disk with an empty directory, which is locked. -/
def tinyDirectory : Kernel :=
  let x := { Dinode.zero with type := T_DIR, nlink := 1 }
  ⟨tinyImage.setInode tinySuperblock 1 x, fun e =>
    if e = 0 then ⟨1, 1, true, x⟩ else ⟨0, 0, false, Dinode.zero⟩⟩

theorem tinyDirectory_dir : Dir tinySuperblock tinyDirectory 0 where
  ref := by decide
  inum := by decide
  type := rfl
  disk := Image.inode_setInode ..
  consistent := tiny_consistent_inode rfl
  whole := Good.whole_empty rfl
  size := by decide
  room := ⟨1, by decide⟩

/-- A name of twenty bytes is linked, and found under its first fourteen. -/
theorem directory_finite_map_long :
    let s := final (DirState.next tinySuperblock 0) ⟨tinyDirectory, fun _ => none⟩
      [.link (fun i => if i < 20 then 97 else 0) ⟨1, by decide⟩]
    ∃ ip off k', s.kernel.dirlookup tinySuperblock 0 (fun i => if i < 14 then 97 else 0) =
      .ok (some (ip, off), k') ∧ (k'.inode ip).inum = 1 := by
  intro s
  have hp : Path (DirState.next tinySuperblock 0) ⟨tinyDirectory, fun _ => none⟩ _ s :=
    path_final (by decide +kernel)
  have hempty : ∀ j, tinyDirectory.table 0 j = none := fun j =>
    Dir.table_eq_none.mpr fun de hde => by cases hde
  refine ((directory_finite_map tiny_wf tinyDirectory_dir (fun i j n v w hi => ?_) (fun n v => ?_)
    hp).1 _).2 1 (by decide +kernel)
  · rw [hempty] at hi
    cases hi
  · simp [hempty]

end Xv6.Disk
