import Xv6.Disk.Files

namespace Xv6.Disk

open Xv6.Framework

theorem strncmp_congr {p p' q q' : Bytes} {n : Nat} (hp : ∀ i < n, p i = p' i)
    (hq : ∀ i < n, q i = q' i) : strncmp p q n = strncmp p' q' n := by
  induction n generalizing p p' q q' with
  | zero => rfl
  | succ n ih =>
    rw [strncmp, strncmp, hp 0 (by omega), hq 0 (by omega),
      ih (fun i hi => hp (i + 1) (by omega)) (fun i hi => hq (i + 1) (by omega))]

/-- strncmp compares strings that are not longer than its limit. -/
theorem strncmp_eq_zero {n : Nat} {l l' : List UInt8} (h : 0 ∉ l) (h' : 0 ∉ l') (hl : l.length ≤ n)
    (hl' : l'.length ≤ n) : strncmp (Bytes.ofList l) (Bytes.ofList l') n = 0 ↔ l = l' := by
  induction n generalizing l l' with
  | zero =>
    rw [List.length_eq_zero_iff.mp (Nat.le_zero.mp hl), List.length_eq_zero_iff.mp (Nat.le_zero.mp hl')]
    simp [strncmp]
  | succ n ih =>
    rw [strncmp]
    cases l with
    | nil =>
      rw [if_neg (fun hh => hh.1 rfl)]
      cases l' with
      | nil => simp
      | cons b t' =>
        have hb : b ≠ 0 := fun hb => h' (hb ▸ List.mem_cons_self)
        have hb : b.toNat ≠ 0 := fun hb' => hb (UInt8.toNat_inj.mp hb')
        simp [Bytes.ofList, hb]
    | cons a t =>
      have ha : a ≠ 0 := fun ha => h (ha ▸ List.mem_cons_self)
      cases l' with
      | nil =>
        have ha' : a.toNat ≠ 0 := fun ha' => ha (UInt8.toNat_inj.mp ha')
        simp [Bytes.ofList, ha']
      | cons b t' =>
        by_cases hab : a = b
        · subst hab
          rw [if_pos ⟨ha, rfl⟩]
          have htail : strncmp (Bytes.ofList t) (Bytes.ofList t') n = 0 ↔ t = t' :=
            ih (fun ht => h (List.mem_cons_of_mem _ ht)) (fun ht => h' (List.mem_cons_of_mem _ ht))
              (by simpa using hl) (by simpa using hl')
          rw [List.cons.injEq, eq_self, true_and, ← htail]
          rfl
        · have : a.toNat ≠ b.toNat := fun he => hab (UInt8.toNat_inj.mp he)
          simp [Bytes.ofList, hab]
          omega

theorem Kernel.store_self (k : Kernel) (ip : Fin NINODE) :
    k.store ip k.disk (k.inode ip).din = k := by
  rw [Kernel.store, Kernel.setInode, Function.update_eq_self]

variable {dp : Fin NINODE} {k : Kernel} {inum : Nat}

/-- A round of the loop of dirlookup that reads an entry in use. -/
theorem Kernel.lookLoop_entry {sb : Superblock} {name : Bytes} {fuel : Nat}
    {off : UInt32} {de : List UInt8} (hoff : off < (k.inode dp).din.size)
    (hread : readi sb k.disk (k.inode dp).din off (UInt32.ofNat DIRENT) DIRENT =
      .ok (DIRENT, de, k.disk, (k.inode dp).din))
    (hinum : ((Bytes.ofList de).u16 0).toNat = inum) (h0 : inum ≠ 0) :
    lookLoop sb dp name (fuel + 1) k off =
      if namecmp name (fun i => Bytes.ofList de (2 + i)) = 0 then
        (k.iget inum).map fun r => (some (r.1, off), r.2)
      else lookLoop sb dp name fuel k (off + UInt32.ofNat DIRENT) := by
  rw [lookLoop, if_pos hoff, hread]
  simp only [bind, Except.bind, store_self,
    hinum, h0]
  cases k.iget inum with
  | error e => rfl
  | ok r => rfl

namespace Mkfs

variable {d : Image} {files : List File} {es : List (Nat × List UInt8)} {x : Dinode} {j i : Nat}

/-- The entries of a directory one after the other. -/
theorem part_flatMap_dirent (hj : j < es.length) :
    ((es.flatMap fun e => dirent e.1 e.2).drop (j * DIRENT)).take DIRENT =
      dirent es[j].1 es[j].2 := by
  induction es generalizing j with
  | nil => exact absurd hj (Nat.not_lt_zero _)
  | cons e es ih =>
    have hlen := length_dirent e.1 e.2
    rw [List.flatMap_cons]
    cases j with
    | zero => rw [Nat.zero_mul, List.drop_zero, List.take_left' hlen, List.getElem_cons_zero]
    | succ j =>
      rw [Nat.succ_mul, Nat.add_comm, ← List.drop_drop, List.getElem_cons_succ]
      exact ih (by simpa using hj)

/-- The entries of a directory that the kernel can use. -/
structure Entries (es : List (Nat × List UInt8)) : Prop where
  inum : ∀ e ∈ es, 0 < e.1 ∧ e.1 < 2 ^ 16
  text : ∀ e ∈ es, 0 ∉ e.2
  length : ∀ e ∈ es, e.2.length ≤ DIRSIZ

theorem u16_dirent {name : List UInt8} (h : inum < 2 ^ 16) :
    ((Bytes.ofList (dirent inum name)).u16 0).toNat = inum := by
  have hv : (UInt16.ofNat inum).toNat = inum := UInt16.toNat_ofNat_of_lt' h
  rw [Bytes.u16_of_bytes, hv]
  intro k hk
  rw [hv]
  obtain rfl | rfl : k = 0 ∨ k = 1 := by omega
  · rfl
  · rfl

theorem namecmp_dirent {name l : List UInt8} (hn : 0 ∉ name) (hl : 0 ∉ l)
    (hn' : name.length ≤ DIRSIZ) (hl' : l.length ≤ DIRSIZ) :
    namecmp (Bytes.ofList name) (fun i => Bytes.ofList (dirent inum l) (2 + i)) = 0 ↔ name = l := by
  rw [namecmp, ← strncmp_eq_zero hn hl hn' hl']
  have hq : ∀ i < DIRSIZ, Bytes.ofList (dirent inum l) (2 + i) = Bytes.ofList l i := by
    intro i hi
    rw [Nat.add_comm]
    simp [Bytes.ofList, dirent, hi]
  rw [strncmp_congr (fun _ _ => rfl) hq]

theorem readi_dirent (hx : Holds d x (es.flatMap fun e => dirent e.1 e.2))
    (hsize : es.length * DIRENT ≤ x.size.toNat) (hj : j < es.length) :
    readi sb d x (UInt32.ofNat (j * DIRENT)) (UInt32.ofNat DIRENT) DIRENT =
      .ok (DIRENT, dirent es[j].1 es[j].2, d, x) := by
  have hlen := length_flatMap_dirent es
  have hmax := hx.max
  have hlt := x.size.toNat_lt
  have hle : j * DIRENT + DIRENT ≤ es.length * DIRENT := by
    rw [← Nat.succ_mul]
    exact Nat.mul_le_mul_right _ hj
  have hoff : (UInt32.ofNat (j * DIRENT)).toNat = j * DIRENT :=
    UInt32.toNat_ofNat_of_lt' (by show _ < 2 ^ 32; omega)
  have hn : (UInt32.ofNat DIRENT).toNat = DIRENT := by decide
  have hmin : min (UInt32.ofNat DIRENT).toNat (x.size.toNat - (UInt32.ofNat (j * DIRENT)).toNat) =
      DIRENT := by
    omega
  obtain ⟨r, out, hok, hres⟩ := readi_spec (x := x) sb (UInt32.ofNat (j * DIRENT))
    (UInt32.ofNat DIRENT) DIRENT
    (by rw [UInt32.lt_iff_toNat_lt]; omega)
    (by
      rw [UInt32.lt_iff_toNat_lt, UInt32.toNat_add, hn]
      omega)
    (by omega)
    (fun bn _ hbn => by
      rw [hx.tight.blocks bn (by unfold BSIZE at *; omega)]
      omega)
  obtain ⟨hr, ho⟩ := hres (by rw [hmin])
  have hle' : j * DIRENT + DIRENT ≤ (es.flatMap fun e => dirent e.1 e.2).length := by rwa [hlen]
  rw [hok, hr, ho, hmin, hoff, bytesAt_part hle', hx.bytes, part_flatMap_dirent hj]

/-- The loop of dirlookup stops at the first entry with the name. -/
theorem lookLoop_spec {t : Nat} (name : List UInt8) (fuel : Nat)
    (hes : Entries es) (hx : Holds k.disk (k.inode dp).din (es.flatMap fun e => dirent e.1 e.2))
    (hsize : es.length * DIRENT ≤ (k.inode dp).din.size.toNat) (ht : t < es.length)
    (hname : es[t].2 = name) (hfirst : ∀ j (h : j < t), es[j].2 ≠ name) (hj : j ≤ t)
    (hfuel : t < j + fuel) :
    Kernel.lookLoop sb dp (Bytes.ofList name) fuel k (UInt32.ofNat (j * DIRENT)) =
      (k.iget es[t].1).map fun r => (some (r.1, UInt32.ofNat (t * DIRENT)), r.2) := by
  induction fuel generalizing j with
  | zero => omega
  | succ fuel ih =>
    have hjl : j < es.length := by omega
    have hlt := (k.inode dp).din.size.toNat_lt
    have hle : j * DIRENT + DIRENT ≤ es.length * DIRENT := by
      rw [← Nat.succ_mul]
      exact Nat.mul_le_mul_right _ hjl
    have hoff : (UInt32.ofNat (j * DIRENT)).toNat = j * DIRENT :=
      UInt32.toNat_ofNat_of_lt' (by show _ < 2 ^ 32; omega)
    have hmem : es[j] ∈ es := List.getElem_mem hjl
    have hin := hes.inum _ hmem
    have hnext : UInt32.ofNat (j * DIRENT) + UInt32.ofNat DIRENT = UInt32.ofNat ((j + 1) * DIRENT) := by
      rw [← UInt32.ofNat_add, Nat.succ_mul]
    have htmem : es[t] ∈ es := List.getElem_mem ht
    have hcmp : namecmp (Bytes.ofList name)
        (fun i => Bytes.ofList (dirent es[j].1 es[j].2) (2 + i)) = 0 ↔ name = es[j].2 :=
      namecmp_dirent (hname ▸ hes.text _ htmem) (hes.text _ hmem) (hname ▸ hes.length _ htmem)
        (hes.length _ hmem)
    rw [Kernel.lookLoop_entry (by rw [UInt32.lt_iff_toNat_lt]; unfold DIRENT at *; omega)
      (readi_dirent hx hsize hjl) (u16_dirent hin.2) (by omega)]
    by_cases he : j = t
    · subst he
      rw [if_pos (hcmp.mpr hname.symm)]
    · rw [if_neg (fun h => hfirst j (by omega) (hcmp.mp h).symm), hnext]
      exact ih (by omega) (by omega)

/-- The names of the files in the root directory: C strings that are neither . nor .. and that
differ. -/
structure Names (files : List File) : Prop where
  named : ∀ f ∈ files, Named f
  text : ∀ f ∈ files, 0 ∉ shortname f.path
  dots : ∀ f ∈ files, shortname f.path ≠ [46] ∧ shortname f.path ≠ [46, 46]
  distinct : (files.map fun f => shortname f.path).Nodup

theorem length_entries (files : List File) : (entries files).length = files.length + 2 := by
  simp [entries]

theorem entries_file (h : i < files.length) :
    (entries files)[i + 2]? = some (i + 2, shortname files[i].path) := by
  simp [entries, h]

theorem mem_entries {e : Nat × List UInt8} (he : e ∈ entries files) :
    e = (ROOTINO, [46]) ∨ e = (ROOTINO, [46, 46]) ∨
      ∃ i, ∃ h : i < files.length, e = (i + 2, shortname files[i].path) := by
  obtain ⟨j, hj⟩ := List.mem_iff_getElem?.mp he
  match j with
  | 0 => exact .inl (Option.some.inj hj).symm
  | 1 => exact .inr (.inl (Option.some.inj hj).symm)
  | i + 2 =>
    have hlt := (List.getElem?_eq_some_iff.mp hj).1
    rw [length_entries] at hlt
    rw [entries_file (by omega)] at hj
    exact .inr (.inr ⟨i, by omega, (Option.some.inj hj).symm⟩)

theorem Names.entries (hn : Names files) (hcount : files.length ≤ 199) :
    Entries (entries files) := by
  refine ⟨fun e he => ?_, fun e he => ?_, fun e he => ?_⟩ <;>
    obtain rfl | rfl | ⟨i, hi, rfl⟩ := mem_entries he
  · decide
  · decide
  · show 0 < i + 2 ∧ i + 2 < 2 ^ 16
    omega
  · decide
  · decide
  · exact hn.text _ (List.getElem_mem hi)
  · decide
  · decide
  · exact (hn.named _ (List.getElem_mem hi)).length

/-- No entry before the one of a file has its name. -/
theorem Names.first (hn : Names files) (hi : i < files.length) (j : Nat) (hj : j < i + 2)
    {e : Nat × List UInt8} (he : (Mkfs.entries files)[j]? = some e) :
    e.2 ≠ shortname files[i].path := by
  have hdots := hn.dots _ (List.getElem_mem hi)
  match j with
  | 0 =>
    cases he
    exact hdots.1.symm
  | 1 =>
    cases he
    exact hdots.2.symm
  | j + 2 =>
    rw [entries_file (by omega)] at he
    cases he
    have := List.pairwise_iff_getElem.mp hn.distinct j i (by rw [List.length_map]; omega)
      (by rw [List.length_map]; omega) (by omega)
    simpa using this

theorem Formatted.dirlookup (h : Formatted files d) (hn : Names files) (hcount : files.length ≤ 199)
    (hdisk : k.disk = d) (hdp : (k.inode dp).din = d.inode sb ROOTINO)
    (hi : i < files.length) :
    k.dirlookup sb dp (Bytes.ofList (shortname files[i].path)) =
      (k.iget (i + 2)).map fun r => (some (r.1, UInt32.ofNat ((i + 2) * DIRENT)), r.2) := by
  have hlen := length_entries files
  have ht : i + 2 < (entries files).length := by omega
  have he : (entries files)[i + 2] = (i + 2, shortname files[i].path) :=
    (List.getElem?_eq_some_iff.mp (entries_file hi)).2
  have hsize : (entries files).length * DIRENT ≤ (k.inode dp).din.size.toNat := by
    rw [hdp, h.rootSize]
    unfold DIRENT BSIZE
    omega
  have hx : Holds k.disk (k.inode dp).din ((entries files).flatMap fun e => dirent e.1 e.2) := by
    rw [hdp, hdisk]
    exact h.root
  have hloop := lookLoop_spec (j := 0) (shortname files[i].path)
    ((k.inode dp).din.size.toNat / DIRENT + 1) (hn.entries hcount) hx hsize ht (by rw [he])
    (fun j hj => hn.first hi j hj (List.getElem?_eq_getElem (by omega))) (by omega)
    (by unfold DIRENT at *; omega)
  rw [he] at hloop
  rw [Kernel.dirlookup, if_neg (by rw [hdp, h.rootType]; exact not_not.mpr rfl)]
  exact hloop

theorem Stored.readi {type : UInt16} {l : List UInt8} (h : Stored d i type l)
    {off n : UInt32} {limit : Nat} (hwrap : ¬ off + n < off)
    (hlimit : min n.toNat (l.length - off.toNat) ≤ limit) :
    readi sb d (d.inode sb i) off n limit = .ok (((l.drop off.toNat).take n.toNat).length,
      (l.drop off.toNat).take n.toNat, d, d.inode sb i) := by
  have hsz := h.size
  have hmax := h.holds.max
  have hw : Whole d (d.inode sb i) := by
    refine ⟨by omega, fun bn hbn => ?_⟩
    rw [h.holds.tight.blocks bn (by unfold BSIZE at *; omega)]
    omega
  have hc : (d.inode sb i).contents d = l := by
    rw [Dinode.contents, hsz, h.holds.bytes]
  rw [readi_contents hw hwrap (by rwa [hsz]), hc]

/-- mkfs and the kernel agree on the format of the disk. -/
theorem mkfs_kernel_agree (files : List File) (hfits : Fits files) (hn : Names files) :
    ∃ d, main files = .ok d ∧ fsinit d = some sb ∧
      (∀ i (hi : i < files.length),
        (∀ (k : Kernel) (dp : Fin NINODE), k.disk = d → (k.inode dp).din = d.inode sb ROOTINO →
          k.dirlookup sb dp (Bytes.ofList (shortname files[i].path)) =
            (k.iget (i + 2)).map fun r => (some (r.1, UInt32.ofNat ((i + 2) * DIRENT)), r.2)) ∧
        (d.inode sb (i + 2)).type = T_FILE ∧
        (d.inode sb (i + 2)).size.toNat = files[i].content.length ∧
        ∀ (off n : UInt32) (limit : Nat), off.toNat ≤ files[i].content.length → ¬ off + n < off →
          min n.toNat (files[i].content.length - off.toNat) ≤ limit →
          readi sb d (d.inode sb (i + 2)) off n limit =
            .ok (((files[i].content.drop off.toNat).take n.toNat).length,
              (files[i].content.drop off.toNat).take n.toNat, d, d.inode sb (i + 2))) ∧
      ∀ b, b < sb.size → (d.bit sb b = true ↔ b < sb.nmeta ∨
        ∃ i s, i < sb.inums ∧ (d.inode sb i).type ≠ 0 ∧ (d.inode sb i).slot d s ≠ 0 ∧
          ((d.inode sb i).slot d s).toNat = b) := by
  rcases main_spec hfits with ⟨-, f, hf, hbad⟩ | ⟨d, hok, h⟩
  · exact absurd (hn.named f hf) hbad
  refine ⟨d, hok, h.super, fun i hi => ⟨fun k dp hdisk hdp => ?_, ?_, ?_, fun off n limit => ?_⟩, ?_⟩
  · exact h.dirlookup hn hfits.count hdisk hdp hi
  · exact (h.file i hi).type
  · exact (h.file i hi).size
  · exact fun _ => (h.file i hi).readi
  · exact (consistent_iff.mpr h.sound).2.2

theorem twoFiles_names : Names twoFiles := ⟨twoFiles_named, by decide, by decide, by decide⟩

/-- The text cat is looked up, and the file read. -/
theorem mkfs_kernel_agree_cat : ∃ d, main twoFiles = .ok d ∧
    (∀ (k : Kernel) (dp : Fin NINODE), k.disk = d → (k.inode dp).din = d.inode sb ROOTINO →
      k.dirlookup sb dp (Bytes.ofList [99, 97, 116]) =
        (k.iget 2).map fun r => (some (r.1, 32), r.2)) ∧
    readi sb d (d.inode sb 2) 0 100 100 = .ok (5, [127, 69, 76, 70, 1], d, d.inode sb 2) := by
  obtain ⟨d, hok, -, hf, -⟩ := mkfs_kernel_agree twoFiles twoFiles_fits twoFiles_names
  obtain ⟨hlook, -, -, hread⟩ := hf 0 (by decide)
  exact ⟨d, hok, hlook, hread 0 100 100 (by decide) (by decide) (by decide)⟩

end Mkfs

end Xv6.Disk
