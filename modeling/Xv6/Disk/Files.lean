import Xv6.Disk.Format

namespace Xv6.Disk.Mkfs

open Xv6.Framework

def File.content (f : File) : List UInt8 := f.chunks.flatten

def entries (files : List File) : List (Nat × List UInt8) :=
  (ROOTINO, [46]) :: (ROOTINO, [46, 46]) ::
    files.zipIdx.map fun f => (f.2 + 2, shortname f.1.path)

def rootBytes (files : List File) : List UInt8 :=
  (entries files).flatMap fun e => dirent e.1 e.2

def contents (files : List File) (i : Nat) : List UInt8 :=
  if i = ROOTINO then rootBytes files else (files[i - 2]?.map File.content).getD []

/-- The blocks in use when the files are on the disk. -/
def blocks (files : List File) : Nat :=
  nmeta + cost ((files.length + 2) * DIRENT) + (files.map fun f => cost f.content.length).sum

/-- The files fit the image. -/
structure Fits (files : List File) : Prop where
  count : files.length ≤ 199
  size : ∀ f ∈ files, f.content.length ≤ MAXFILE * BSIZE
  blocks : blocks files ≤ FSSIZE

structure Named (f : File) : Prop where
  base : slash ∉ base f.path
  length : (shortname f.path).length ≤ DIRSIZ

variable {m m' : State} {files pre : List File} {f : File} {c : Nat → List UInt8} {i n : Nat}

theorem length_dirent (inum : Nat) (name : List UInt8) : (dirent inum name).length = DIRENT := by
  simp [dirent, DIRENT, DIRSIZ]

theorem length_flatMap_dirent (es : List (Nat × List UInt8)) :
    (es.flatMap fun e => dirent e.1 e.2).length = es.length * DIRENT := by
  induction es with
  | nil => simp
  | cons e es ih =>
    rw [List.flatMap_cons, List.length_append, ih, length_dirent, List.length_cons, Nat.succ_mul,
      Nat.add_comm]

theorem length_rootBytes (files : List File) :
    (rootBytes files).length = (files.length + 2) * DIRENT := by
  rw [rootBytes, length_flatMap_dirent]
  simp [entries]

theorem rootBytes_append (files : List File) (f : File) :
    rootBytes (files ++ [f]) = rootBytes files ++ dirent (files.length + 2) (shortname f.path) := by
  simp [rootBytes, entries, List.zipIdx_append]

theorem contents_root (files : List File) : contents files ROOTINO = rootBytes files := if_pos rfl

theorem contents_file (files : List File) (i : Nat) :
    contents files (i + 2) = (files[i]?.map File.content).getD [] := by
  rw [contents, if_neg (by unfold ROOTINO; omega), Nat.add_sub_cancel]

theorem blocks_append (files : List File) (f : File) :
    blocks (files ++ [f]) + cost ((files.length + 2) * DIRENT) =
      blocks files + cost ((files.length + 3) * DIRENT) + cost f.content.length := by
  simp only [blocks, List.length_append, List.length_singleton, List.map_append, List.map_cons,
    List.map_nil, List.sum_append, List.sum_cons, List.sum_nil, Nat.add_assoc, Nat.reduceAdd]
  omega

theorem blocks_prefix (pre rest : List File) : blocks pre ≤ blocks (pre ++ rest) := by
  have h := cost_mono (n := (pre.length + 2) * DIRENT) (k := ((pre ++ rest).length + 2) * DIRENT)
    (by rw [List.length_append]; unfold DIRENT; omega)
  simp only [blocks, List.map_append, List.sum_append]
  omega

theorem Laid.appendAll (chunks : List (List UInt8)) (h : Laid m n c) (h1 : 1 ≤ i) (hin : i ≤ n)
    (hn : n < sb.inums) (hmax : (c i ++ chunks.flatten).length ≤ MAXFILE * BSIZE)
    (hroom : m.freeblock + cost (c i ++ chunks.flatten).length ≤ FSSIZE + cost (c i).length) :
    ∃ m', chunks.foldlM (fun m p => Mkfs.iappend m i p) m = .ok m' ∧
      m'.freeblock + cost (c i).length = m.freeblock + cost (c i ++ chunks.flatten).length ∧
      Laid m' n (update c i (c i ++ chunks.flatten)) := by
  induction chunks generalizing m c with
  | nil =>
    refine ⟨m, rfl, by simp, ?_⟩
    rw [List.flatten_nil, List.append_nil, update_eq_self]
    exact h
  | cons p chunks ih =>
    rw [List.flatten_cons, ← List.append_assoc] at hmax hroom ⊢
    have hle : (c i ++ p).length ≤ (c i ++ p ++ chunks.flatten).length := by
      simp only [List.length_append]
      omega
    have hmono := cost_mono hle
    obtain ⟨m1, hok, hfb, h'⟩ := h.iappend (p := p) h1 hin hn (by omega) (by omega)
    have hself : update c i (c i ++ p) i = c i ++ p := update_self _ _ _
    obtain ⟨m2, hok', hfb', h''⟩ := ih h' (by rw [hself]; exact hmax) (by rw [hself]; omega)
    rw [hself] at hfb' h''
    rw [update_idem] at h''
    refine ⟨m2, ?_, by omega, h''⟩
    rw [List.foldlM_cons, hok]
    exact hok'

theorem addFile_spec (h : Laid m (pre.length + 1) (contents pre)) (hfb : m.freeblock = blocks pre)
    (hcount : (pre ++ [f]).length ≤ 199) (hsize : f.content.length ≤ MAXFILE * BSIZE)
    (hroom : blocks (pre ++ [f]) ≤ FSSIZE) :
    (addFile m f = .error .assertion ∧ ¬ Named f) ∨
      ∃ m', addFile m f = .ok m' ∧ m'.freeblock = blocks (pre ++ [f]) ∧
        Laid m' ((pre ++ [f]).length + 1) (contents (pre ++ [f])) := by
  rw [addFile]
  by_cases hs : slash ∈ base f.path
  · exact .inl ⟨if_pos hs, fun hn => hn.base hs⟩
  rw [if_neg hs]
  by_cases hl : DIRSIZ < (shortname f.path).length
  · exact .inl ⟨if_pos hl, fun hn => absurd hn.length (by omega)⟩
  rw [if_neg hl]
  refine .inr ?_
  have hlen : (pre ++ [f]).length = pre.length + 1 := by simp
  rw [hlen] at hcount ⊢
  have hinums : sb.inums = 208 := by decide
  have hempty : contents pre (pre.length + 2) = [] := by simp [contents_file]
  obtain ⟨m1, hok1, hfb1, h1⟩ := h.ialloc (by omega) hempty
  have hroot : (contents pre ROOTINO).length = (pre.length + 2) * DIRENT := by
    rw [contents_root, length_rootBytes]
  have hroot' : (contents pre ROOTINO ++ dirent (pre.length + 2) (shortname f.path)).length =
      (pre.length + 3) * DIRENT := by
    rw [List.length_append, hroot, length_dirent, ← Nat.succ_mul]
  have hsum := blocks_append pre f
  obtain ⟨m2, hok2, hfb2, h2⟩ := h1.iappend
    (i := ROOTINO) (by decide) (by unfold ROOTINO; omega) (by omega)
    (by rw [hroot']; unfold DIRENT MAXFILE NDIRECT NINDIRECT BSIZE; omega)
    (by rw [hroot', hroot]; omega)
  rw [hroot, hroot'] at hfb2
  have hne : pre.length + 2 ≠ ROOTINO := by
    unfold ROOTINO
    omega
  have hempty' : update (contents pre) ROOTINO
      (contents pre ROOTINO ++ dirent (pre.length + 2) (shortname f.path)) (pre.length + 2) = [] := by
    rw [update_of_ne hne, hempty]
  obtain ⟨m3, hok3, hfb3, h3⟩ := h2.appendAll f.chunks (by omega)
    (Nat.le_refl _) (by omega) (by rw [hempty']; exact hsize)
    (by
      rw [hempty']
      show _ + cost f.content.length ≤ _
      omega)
  rw [hempty', List.nil_append] at hfb3 h3
  refine ⟨m3, ?_, ?_, h3.congr fun i hi1 hi => ?_⟩
  · have htype : typeOf (pre.length + 1 + 1) = T_FILE := if_neg hne
    rw [htype] at hok1
    rw [hok1]
    show (Mkfs.iappend m1 ROOTINO (dirent (pre.length + 2) (shortname f.path)) >>= _) = _
    rw [hok2]
    exact hok3
  · have : cost ([] : List UInt8).length = 0 := by decide
    have : cost f.chunks.flatten.length = cost f.content.length := rfl
    omega
  · by_cases hr : i = ROOTINO
    · subst hr
      rw [update_of_ne hne.symm, update_self, contents_root, contents_root,
        rootBytes_append]
    · obtain ⟨j, rfl⟩ : ∃ j, i = j + 2 := ⟨i - 2, by unfold ROOTINO at hr; omega⟩
      by_cases hj : j = pre.length
      · subst hj
        rw [contents_file]
        simp [File.content]
      · rw [update_of_ne (by omega), update_of_ne hr, contents_file, contents_file,
          List.getElem?_append_left (by omega)]

/-- The loop over the input files: it stops at a name that is not accepted. -/
theorem addFiles_spec (pre rest : List File) (h : Laid m (pre.length + 1) (contents pre))
    (hfb : m.freeblock = blocks pre) (hfits : Fits (pre ++ rest)) :
    (rest.foldlM addFile m = .error .assertion ∧ ∃ f ∈ rest, ¬ Named f) ∨
      ∃ m', rest.foldlM addFile m = .ok m' ∧ m'.freeblock = blocks (pre ++ rest) ∧
        Laid m' ((pre ++ rest).length + 1) (contents (pre ++ rest)) := by
  induction rest generalizing pre m with
  | nil =>
    rw [List.append_nil]
    exact .inr ⟨m, rfl, hfb, h⟩
  | cons f rest ih =>
    have hassoc : pre ++ f :: rest = (pre ++ [f]) ++ rest := by simp
    rw [hassoc] at hfits ⊢
    have hcount := hfits.count
    have hblocks := hfits.blocks
    have hpre := blocks_prefix (pre ++ [f]) rest
    rw [List.foldlM_cons]
    rcases addFile_spec h hfb (by rw [List.length_append] at hcount; omega)
      (hfits.size f (by simp)) (by omega) with ⟨hbad, hname⟩ | ⟨m1, hok, hfb1, h1⟩
    · exact .inl ⟨by rw [hbad]; rfl, f, by simp, hname⟩
    · rw [hok]
      rcases ih (pre ++ [f]) h1 hfb1 hfits with ⟨hbad, g, hg, hname⟩ | hgood
      · exact .inl ⟨hbad, g, by simp [hg], hname⟩
      · exact .inr hgood

theorem zeroed_disk {b : Nat} (h : b ≠ 1) : zeroed.disk b = fun _ => 0 := by
  rw [zeroed]
  simp only [update_of_ne h]

theorem laid_zeroed : Laid zeroed 0 fun _ => [] := by
  have hfree : ∀ i, i < sb.inums → (zeroed.image.inode sb i).type = 0 := by
    intro i hi
    have hne : sb.IBLOCK i ≠ 1 := by
      have : 1 < sb.inodestart := by decide
      unfold Superblock.IBLOCK IPB
      omega
    rw [Image.inode, image_IBLOCK hi]
    show Bytes.u16 (fun _ => 0) (i % IPB * DINODE) = 0
    exact Bytes.u16_of_bytes fun j _ => by simp [Bytes.byteOf]
  have hheld : ∀ y, held sb zeroed.image (zeroed.image.inode sb) y = 0 := fun y =>
    if_neg fun hy => hy.2 (hfree y.1 hy.1)
  refine ⟨⟨by decide, by decide, fun b hb => ?_⟩, rfl, rfl, ⟨fun y hy => absurd (hheld y) hy,
    fun y _ hy => absurd (hheld y) hy, fun b hb => ?_⟩, fun i h1 h0 => by omega, fun i hi _ => hfree i hi⟩
  · have hb : nmeta ≤ b := hb
    have : 1 < nmeta := by decide
    exact zeroed_disk (by omega)
  · have hn : zeroed.freeblock = sb.nmeta := by decide
    rw [image_bit hb, decide_eq_true_iff]
    refine ⟨.inl, fun h => h.resolve_right ?_⟩
    rintro ⟨h0, y, hy⟩
    apply h0
    rw [← hy, hheld]

theorem makeRoot_spec :
    ∃ m, makeRoot = .ok m ∧ m.freeblock = blocks [] ∧ Laid m 1 (contents []) := by
  have hin : 1 < sb.inums := by decide
  have h0 : cost 0 = 0 := by decide
  have h16 : cost 16 = 1 := by decide
  have h32 : cost 32 = 1 := by decide
  have hdot : (dirent ROOTINO [46]).length = 16 := length_dirent ..
  have hdots : (dirent ROOTINO [46, 46]).length = 16 := length_dirent ..
  obtain ⟨m1, hok1, hfb1, h1⟩ := laid_zeroed.ialloc hin rfl
  have hfb : m1.freeblock = 46 := hfb1
  obtain ⟨m2, hok2, hfb2, h2⟩ := h1.iappend (i := ROOTINO) (by decide)
    (by decide) hin (by rw [List.nil_append, hdot]; decide) (by rw [List.nil_append, hfb]; decide)
  rw [List.nil_append, hdot, List.length_nil] at hfb2
  have hself : update (fun _ => []) ROOTINO (dirent ROOTINO [46]) ROOTINO =
    dirent ROOTINO [46] := update_self _ _ _
  obtain ⟨m3, hok3, hfb3, h3⟩ := h2.iappend (i := ROOTINO) (p := dirent ROOTINO [46, 46]) (by decide)
    (by decide) hin (by decide)
    (by
      rw [List.nil_append, hself, List.length_append, hdot, hdots, h32]
      unfold FSSIZE
      omega)
  rw [List.nil_append, hself, List.length_append, hdot, hdots, h32] at hfb3
  refine ⟨m3, ?_, ?_, h3.congr fun i hi1 hi => ?_⟩
  · show (Mkfs.ialloc zeroed (typeOf 1) >>= _) = _
    rw [hok1]
    show (Mkfs.iappend m1 ROOTINO (dirent ROOTINO [46]) >>= _) = _
    rw [hok2]
    exact hok3
  · have : blocks [] = 47 := by decide
    omega
  · obtain rfl : i = ROOTINO := by
      unfold ROOTINO
      omega
    rw [List.nil_append, contents_root]
    simp [rootBytes, entries]

theorem fixRoot_spec (h : Laid m n c) (hn : 1 ≤ n) :
    ∃ m', fixRoot m = .ok m' ∧ m'.image = m.image.setInode sb ROOTINO
        { m.image.inode sb ROOTINO with
          size := UInt32.ofNat (((c ROOTINO).length / BSIZE + 1) * BSIZE) } ∧
      m'.freeblock = m.freeblock ∧ m'.disk 1 = m.disk 1 := by
  have hi : ROOTINO < sb.inums := by decide
  have hsz := (h.stored ROOTINO (by decide) hn).size
  obtain ⟨m', hok, himg, hfb, -, hsup, -⟩ := winode_spec hi
  refine ⟨m', ?_, himg, hfb, hsup⟩
  show winode m ROOTINO { m.image.inode sb ROOTINO with
    size := UInt32.ofNat (((m.image.inode sb ROOTINO).size.toNat / BSIZE + 1) * BSIZE) } = _
  rw [hsz, hok]

structure Formatted (files : List File) (d : Image) : Prop where
  super : fsinit d = some sb
  sound : Sound sb d (d.inode sb)
  used : ∀ b, b < FSSIZE → d.bit sb b = decide (b < blocks files)
  rootType : (d.inode sb ROOTINO).type = T_DIR
  rootSize : (d.inode sb ROOTINO).size.toNat =
    ((files.length + 2) * DIRENT / BSIZE + 1) * BSIZE
  root : Holds d (d.inode sb ROOTINO) (rootBytes files)
  file : ∀ i (h : i < files.length), Stored d (i + 2) T_FILE files[i].content
  free : ∀ i, i < sb.inums → i = 0 ∨ files.length + 1 < i → (d.inode sb i).type = 0

theorem finish_spec (h : Laid m (files.length + 1) (contents files))
    (hused : m.freeblock = blocks files) (hfits : Fits files) :
    ∃ m1 m2, fixRoot m = .ok m1 ∧ balloc m1 m1.freeblock = .ok m2 ∧ Formatted files m2.disk := by
  have hinums : sb.inums = 208 := by decide
  have hcount := hfits.count
  obtain ⟨m1, hok, himg, hfb, hsup⟩ := fixRoot_spec h (by omega)
  have hroot : (contents files ROOTINO).length = (files.length + 2) * DIRENT := by
    rw [contents_root, length_rootBytes]
  rw [hroot] at himg
  refine ⟨m1, wsect m1 sb.bmapstart (bits m1.freeblock), hok, ?_, ?_⟩
  · rw [balloc, if_pos]
    · rfl
    · have := h.ready.hi
      unfold FSSIZE at this
      unfold BPB BSIZE
      omega
  show Formatted files m1.image
  have hino : m1.image.inode sb ROOTINO = { m.image.inode sb ROOTINO with
      size := UInt32.ofNat (((files.length + 2) * DIRENT / BSIZE + 1) * BSIZE) } := by
    rw [himg]
    exact Image.inode_setInode ..
  have hi : ROOTINO < sb.inums := by decide
  have hl := h.live (i := ROOTINO) (by decide) (by unfold ROOTINO; omega) hi
  obtain ⟨hty, -, hh⟩ := h.stored ROOTINO (by decide) (by unfold ROOTINO; omega)
  refine ⟨?_, ?_, fun b hb => ?_, ?_, ?_, ?_, fun i hlt => ?_, fun i hlt hfree => ?_⟩
  · have hd : m1.image 1 = zeroed.disk 1 := by
      rw [← h.super, ← hsup]
      exact update_of_ne (by decide) _ _
    rw [fsinit, hd]
    decide +kernel
  · have hs : Live sb m.image (m.image.inode sb) ROOTINO { m.image.inode sb ROOTINO with
      size := UInt32.ofNat (((files.length + 2) * DIRENT / BSIZE + 1) * BSIZE) } :=
      hl.congr_addrs rfl rfl
    rw [himg, inode_setInode_eq]
    exact hs.sound.setInode sb_wf hi
  · rw [image_bit hb, hfb, hused]
  · rw [hino, hty]
    rfl
  · rw [hino]
    refine UInt32.toNat_ofNat_of_lt' ?_
    show _ < 2 ^ 32
    unfold DIRENT BSIZE
    omega
  · rw [himg]
    exact hh.setInode hl hi (by rw [← himg, hino])
  · have hne : i + 2 ≠ ROOTINO := by
      unfold ROOTINO
      omega
    have hst := h.stored_setInode (x := { m.image.inode sb ROOTINO with
      size := UInt32.ofNat (((files.length + 2) * DIRENT / BSIZE + 1) * BSIZE) }) (by omega) (by omega)
      (by omega) hi hne
    rw [← himg, typeOf, if_neg hne, contents_file] at hst
    simpa [hlt] using hst
  · have hne : i ≠ ROOTINO := by
      unfold ROOTINO
      omega
    rw [himg, Image.inode_setInode_of_ne hne]
    exact h.free i hlt (by omega)

/-- mkfs stops at a name that it does not accept, and otherwise makes an image. -/
theorem main_spec (hfits : Fits files) :
    (main files = .error .assertion ∧ ∃ f ∈ files, ¬ Named f) ∨
      ∃ d, main files = .ok d ∧ Formatted files d := by
  obtain ⟨m0, hroot, hfb, h0⟩ := makeRoot_spec
  rw [main, hroot]
  rcases addFiles_spec [] files h0 hfb hfits with ⟨hbad, hname⟩ | ⟨m, hok, hfb, h⟩
  · refine .inl ⟨?_, hname⟩
    show (files.foldlM addFile m0 >>= _) = _
    rw [hbad]
    rfl
  · obtain ⟨m1, m2, hfix, hball, hd⟩ := finish_spec h hfb hfits
    refine .inr ⟨m2.disk, ?_, hd⟩
    show (files.foldlM addFile m0 >>= fun m => fixRoot m >>= fun m => balloc m m.freeblock >>=
      fun m => pure m.disk) = _
    rw [hok]
    show (fixRoot m >>= fun m => balloc m m.freeblock >>= fun m => pure m.disk) = _
    rw [hfix]
    show (balloc m1 m1.freeblock >>= fun m => pure m.disk) = _
    rw [hball]
    rfl

/-- user/_cat and README, each with what the reads return. -/
def twoFiles : List File :=
  [⟨[117, 115, 101, 114, 47, 95, 99, 97, 116], [[127, 69], [76, 70, 1]]⟩,
    ⟨[82, 69, 65, 68, 77, 69], [[120, 118, 54]]⟩]

theorem twoFiles_fits : Fits twoFiles := ⟨by decide, by decide, by decide⟩

theorem twoFiles_named : ∀ f ∈ twoFiles, Named f := by
  have h : ∀ f ∈ twoFiles, slash ∉ base f.path ∧ (shortname f.path).length ≤ DIRSIZ := by decide
  exact fun f hf => ⟨(h f hf).1, (h f hf).2⟩

end Xv6.Disk.Mkfs
