import Xv6.Fs.Alone

/-! # Paths and directories, for a call that runs alone

What namex finds is what a walk over the disk finds; a lookup frees nothing, since an inode without
links is kept by a file or a working directory.
-/

namespace Xv6.Fs

open Xv6.Framework

variable {p : ProcId} {hs r : Multiset Hold} {w w' : World} {ip dp e : Ip} {inum pinum : Nat}
  {E : Stop → Prop} {c : Prop} {d : Dinode}

def Dinode.inumAt (d : Dinode) (k : Nat) : Nat := (d.entries[k]?.map Dirent.inum).getD 0

/-- Where a path leads from inode `i`: with `parent` to the directory of its last element, which is
given as well. -/
def walk (disk : Nat → Dinode) (parent : Bool) : Nat → List Text → Option (Nat × Text)
  | i, [] => if parent then none else some (i, [])
  | i, name :: rest =>
    if (disk i).type ≠ .dir then none
    else if parent ∧ rest = [] then some (i, name)
    else match lookup (disk i).entries name with
      | none => none
      | some k => walk disk parent ((disk i).inumAt k) rest

def World.start (w : World) (p : ProcId) (path : Text) : Option Nat :=
  if path.head? = some slash then some ROOTINO else w.cwdInum p

def World.resolve (w : World) (p : ProcId) (parent : Bool) (path : Text) : Option (Nat × Text) :=
  (w.start p path).bind fun i => walk w.disk parent i (elements path)

/-- Some file or working directory refers to the inode. -/
def World.Anchored (w : World) (i : Nat) : Prop := ∃ e, 0 < w.anchors e ∧ (w.inode e).inum = i

/-- Inodes without links are referred to. -/
def World.Safe (w : World) : Prop :=
  ∀ i, (w.disk i).type ≠ .free → (w.disk i).nlink = 0 → w.Anchored i

/-- No entry of a directory leads to a free inode, and what is referred to is not free. -/
structure World.Solid (w : World) : Prop where
  entries : ∀ i, ∀ de ∈ (w.disk i).entries, de.inum ≠ 0 → (w.disk de.inum).type ≠ .free
  root : (w.disk ROOTINO).type ≠ .free
  anchored : ∀ i, w.Anchored i → (w.disk i).type ≠ .free

theorem Same.anchored (h : Same r w w') (i : Nat) : w'.Anchored i ↔ w.Anchored i := by
  constructor
  · rintro ⟨e, he, hi⟩
    rw [h.anchors] at he
    exact ⟨e, he, (h.kept e (.inl he)).1.symm.trans hi⟩
  · rintro ⟨e, he, hi⟩
    refine ⟨e, ?_, (h.kept e (.inl he)).1.trans hi⟩
    rw [h.anchors]
    exact he

theorem Same.safe (h : Same r w w') (hd : w'.disk = w.disk) (hs : w.Safe) : w'.Safe := by
  intro i ht hn
  rw [hd] at ht hn
  exact (h.anchored i).mpr (hs i ht hn)

theorem Same.solid (h : Same r w w') (hd : w'.disk = w.disk) (hs : w.Solid) : w'.Solid := by
  refine ⟨?_, ?_, fun i hi => ?_⟩
  · rw [hd]
    exact hs.entries
  · rw [hd]
    exact hs.root
  · rw [hd]
    exact hs.anchored i ((h.anchored i).mp hi)

/-- An inode in hand without links is referred to elsewhere as well. -/
theorem World.Safe.stay (hs : w.Safe) (hat : At p r w) {x : Hold} (hx : x ∈ r)
    (hon : x.on = some ip) (hi : (w.inode ip).inum = inum)
    (ht : (w.disk inum).type ≠ .free) (hn : (w.disk inum).nlink = 0) : 0 < w.anchors ip := by
  obtain ⟨e, he, hei⟩ := hs inum ht hn
  have heq := hat.unique (hat.ref_pos_of_anchors he) (hat.ref_pos hx hon) (hei.trans hi.symm)
  exact heq ▸ he

/-- What a lookup does to the disk: an inode without links may be freed, unless files and working
directories keep them all. -/
structure Looked (r : Multiset Hold) (w w' : World) : Prop where
  same : Same r w w'
  pruned : ∀ i, w'.disk i = w.disk i ∨ (w'.disk i).type = .free
  quiet : w.Safe → w'.disk = w.disk

namespace Looked

theorem of_disk (h : Same r w w') (hd : w'.disk = w.disk) : Looked r w w' :=
  ⟨h, fun i => .inl (congrFun hd i), fun _ => hd⟩

theorem mono {r' : Multiset Hold} (h : Looked r w w') (hr : r' ≤ r) : Looked r' w w' :=
  ⟨h.same.mono hr, h.pruned, h.quiet⟩

theorem safe (h : Looked r w w') (hs : w.Safe) : w'.Safe := h.same.safe (h.quiet hs) hs

theorem sound (h : Looked r w w') (hs : c → w.Safe ∧ w.Solid) (hsure : c) :
    w'.Safe ∧ w'.Solid :=
  ⟨h.safe (hs hsure).1, h.same.solid (h.quiet (hs hsure).1) (hs hsure).2⟩

/-- What was allocated at the end was there from the start. -/
theorem chain {disk : Nat → Dinode} (h : Looked r w w')
    (hd : ∀ i, w.disk i = disk i ∨ (w.disk i).type = .free) (i : Nat) :
    w'.disk i = disk i ∨ (w'.disk i).type = .free := by
  rcases h.pruned i with he | hf
  · rw [he]
    exact hd i
  · exact .inr hf

theorem trans {w'' : World} (h : Looked r w w') (h' : Looked r w' w'') : Looked r w w'' := by
  refine ⟨h.same.trans h'.same, h'.chain h.pruned, fun hs => ?_⟩
  exact (h'.quiet (h.safe hs)).trans (h.quiet hs)

end Looked

namespace Solo

theorem iput_looked {loaded : Bool} {Q : Unit → Multiset Hold × World → Prop}
    (hat : At p (.ref ip inum loaded ::ₘ r) w) (hr : ∀ x ∈ r, x.puts = false)
    (hlive : (w.proc p).live = false → E (.panic .zombieExit)) (heasy : ¬ w.Safe → Easy E)
    (hq : ∀ w', At p r w' → Looked r w w' → Q () (r, w')) :
    (Fs.iput ip).Follows (solo p E) (.ref ip inum loaded ::ₘ r, w) Q := by
  have hself : Hold.ref ip inum loaded ∈ Hold.ref ip inum loaded ::ₘ r := Multiset.mem_cons_self _ _
  have hbad : w.Last r ip inum → ¬ w.Safe := by
    intro hlast hsafe
    have hpos := hsafe.stay hat hself rfl (hat.fits hself rfl) (last_type hat hlast)
      hlast.nlink
    rw [hlast.anchors] at hpos
    exact absurd hpos (Nat.lt_irrefl 0)
  refine iput hat hr hlive (fun hlast => heasy (hbad hlast)) (fun _ w' hat' hsame hdisk => ?_)
    fun hlast w' hat' hsame hdisk => ?_
  · exact hq w' hat' (.of_disk hsame hdisk)
  · refine hq w' hat' ⟨hsame, fun i => ?_, fun hsafe => absurd hsafe (hbad hlast)⟩
    rw [hdisk]
    by_cases hi : i = inum
    · subst hi
      rw [Function.update_self]
      exact .inr rfl
    · rw [Function.update_of_ne hi]
      exact .inl rfl

theorem iunlockput_looked {Q : Unit → Multiset Hold × World → Prop}
    (hat : At p (.locked ip inum false d d ::ₘ r) w) (hr : ∀ x ∈ r, x.puts = false)
    (hlive : (w.proc p).live = false → E (.panic .zombieExit)) (heasy : ¬ w.Safe → Easy E)
    (hq : ∀ w', At p r w' → Looked r w w' → Q () (r, w')) :
    (Fs.iunlockput ip).Follows (solo p E) (.locked ip inum false d d ::ₘ r, w) Q := by
  refine Follows.seq (iunlock hat hlive fun w₁ hat₁ hsame₁ hdisk₁ _ => ?_)
  have hlooked : Looked r w w₁ := .of_disk hsame₁ hdisk₁
  refine iput_looked hat₁ hr (by rw [hsame₁.live]; exact hlive) (fun hns => heasy fun hs => ?_)
    fun w₂ hat₂ h₂ => hq w₂ hat₂ (hlooked.trans h₂)
  exact hns (hlooked.safe hs)

/-! ## Lookups -/

theorem dirlookup {name : Text} {Q : Option (Ip × Nat) → Multiset Hold × World → Prop}
    (hat : At p hs w) (hb : Bears E p r w) (hc : hs.card ≤ r.card + 1)
    (hdir : d.type ≠ .dir → Easy E) (hnone : lookup d.entries name = none → Q none (hs, w))
    (hsome : ∀ k ip w', lookup d.entries name = some k →
      At p (.ref ip (d.inumAt k) false ::ₘ hs) w' → Same hs w w' → w'.disk = w.disk →
      Q (some (ip, k)) (.ref ip (d.inumAt k) false ::ₘ hs, w')) :
    (dirlookup d name).Follows (solo p E) (hs, w) Q := by
  unfold Fs.dirlookup
  split
  · rename_i h
    have := hdir h
    exact panic rfl (Easy.of_ne _ (by decide) (by decide)) (Easy.of_ne _ (by decide) (by decide))
  split
  · rename_i hl
    exact hnone hl
  · rename_i k hl
    exact Follows.seq (iget hat hb hc fun ip w' hat' hsame hdisk =>
      hsome k ip w' hl hat' hsame hdisk)

theorem lookup_mem {es : List Dirent} {name : Text} {k : Nat} (h : lookup es name = some k) :
    ∃ de, es[k]? = some de ∧ de ∈ es ∧ de.inum ≠ 0 ∧ namecmp name de.name = true := by
  obtain ⟨hk, hp, -⟩ := List.findIdx?_eq_some_iff_getElem.mp h
  simp only [decide_eq_true_eq] at hp
  exact ⟨es[k], List.getElem?_eq_getElem hk, List.getElem_mem hk, hp.1, hp.2⟩

theorem inumAt_solid (hsolid : w.Solid) {name : Text} {k : Nat}
    (h : lookup (w.disk inum).entries name = some k) :
    (w.disk ((w.disk inum).inumAt k)).type ≠ .free := by
  obtain ⟨de, hget, hmem, hne, -⟩ := lookup_mem h
  rw [Dinode.inumAt, hget]
  exact hsolid.entries inum de hmem hne

theorem namexFrom {parent loaded : Bool} {names : List Text} {disk : Nat → Dinode}
    {Q : Option (Ip × Text) → Multiset Hold × World → Prop}
    (hat : At p (.ref ip inum loaded ::ₘ r) w) (hr : ∀ x ∈ r, x.puts = false)
    (hb : Bears E p r w) (heasy : ¬ w.Safe → Easy E) (hno : ¬ c → E (.panic .ilockNoType))
    (hsure : c → w.Safe ∧ w.Solid) (ht : c → (w.disk inum).type ≠ .free)
    (hd : ∀ i, w.disk i = disk i ∨ (w.disk i).type = .free)
    (hnone : ∀ w', At p r w' → Looked r w w' → walk disk parent inum names = none → Q none (r, w'))
    (hsome : ∀ ip' inum' loaded' name w', At p (.ref ip' inum' loaded' ::ₘ r) w' → Looked r w w' →
      walk disk parent inum names = some (inum', name) →
      (c → (w.disk inum').type ≠ .free) →
      Q (some (ip', name)) (.ref ip' inum' loaded' ::ₘ r, w')) :
    (namexFrom parent ip names).Follows (solo p E) (.ref ip inum loaded ::ₘ r, w) Q := by
  induction names generalizing ip inum loaded w with
  | nil =>
    unfold Fs.namexFrom
    split
    · rename_i hp
      refine Follows.seq (iput_looked hat hr hb.live heasy fun w' hat' hl => ?_)
      exact hnone w' hat' hl (by rw [walk, if_pos hp])
    · rename_i hp
      exact hsome ip inum loaded [] w hat (.of_disk (.refl r w) rfl) (by rw [walk, if_neg hp]) ht
  | cons name rest ih =>
    refine Follows.seq (ilock hat hb (fun hfree => hno fun h => ht h hfree)
      fun w₁ hat₁ hsame₁ hdisk₁ hty => ?_)
    -- an inode that ilock finds allocated is the one of the start
    have hcur : w.disk inum = disk inum := (hd inum).resolve_right hty
    have hl₁ : Looked r w w₁ := .of_disk hsame₁ hdisk₁
    have hb₁ := hb.same hsame₁
    have heasy₁ : ¬ w₁.Safe → Easy E := fun hns => heasy fun hs => hns (hl₁.safe hs)
    rw [hcur] at hat₁ hty ⊢
    show Prog.Follows (solo p E) (if (disk inum).type ≠ .dir then _ else _) _ _
    split
    · rename_i hdir
      refine Follows.seq (iunlockput_looked hat₁ hr hb₁.live heasy₁ fun w' hat' hl => ?_)
      exact hnone w' hat' (hl₁.trans hl) (by rw [walk, if_pos hdir])
    rename_i hdir
    split
    · rename_i hlast
      refine Follows.seq (iunlock hat₁ hb₁.live fun w' hat' hsame hdisk _ => ?_)
      refine hsome ip inum true name w' hat' (hl₁.trans (.of_disk hsame hdisk)) ?_ ?_
      · rw [walk, if_neg hdir, if_pos hlast]
      · intro _
        rw [hcur]
        exact hty
    rename_i hlast
    refine Follows.seq (dirlookup hat₁ hb₁ (by rw [Multiset.card_cons]) (fun h => absurd h hdir)
      (fun hl => ?_) fun k next w₂ hl hat₂ hsame₂ hdisk₂ => ?_)
    · refine Follows.seq (iunlockput_looked hat₁ hr hb₁.live heasy₁ fun w' hat' hl' => ?_)
      refine hnone w' hat' (hl₁.trans hl') ?_
      rw [walk, if_neg hdir, if_neg hlast, hl]
    · have hwalk : walk disk parent inum (name :: rest) =
          walk disk parent ((disk inum).inumAt k) rest := by
        rw [walk, if_neg hdir, if_neg hlast, hl]
      rw [hwalk] at hnone hsome
      have hl₂ : Looked r w w₂ :=
        hl₁.trans (.of_disk (hsame₂.mono (Multiset.le_cons_self _ _)) hdisk₂)
      rw [Multiset.cons_swap] at hat₂ ⊢
      have hr' : ∀ x ∈ Hold.ref next ((disk inum).inumAt k) false ::ₘ r, x.puts = false := by
        simpa [Hold.puts] using hr
      refine Follows.seq (iunlockput_looked hat₂ hr' (hb.same hl₂.same).live
        (fun hns => heasy fun hs => hns (hl₂.safe hs)) fun w₃ hat₃ h₃ => ?_)
      have hl₃ : Looked r w w₃ := hl₂.trans (h₃.mono (Multiset.le_cons_self _ _))
      have hdisk₃ : c → w₃.disk = w.disk := fun h => hl₃.quiet (hsure h).1
      refine ih hat₃ (hb.same hl₃.same) (fun hns => heasy fun hs => hns (hl₃.safe hs))
        (hl₃.sound hsure) ?_ (hl₃.chain hd) ?_ ?_
      · intro h
        rw [hdisk₃ h, ← hcur]
        rw [← hcur] at hl
        exact inumAt_solid (hsure h).2 hl
      · exact fun w₄ hat₄ hl₄ hw => hnone w₄ hat₄ (hl₃.trans hl₄) hw
      · intro ip' inum' loaded' name' w₄ hat₄ hl₄ hw ht₄
        refine hsome ip' inum' loaded' name' w₄ hat₄ (hl₃.trans hl₄) hw fun h => ?_
        rw [← hdisk₃ h]
        exact ht₄ h

theorem namex {parent : Bool} {path : Text} {Q : Option (Ip × Text) → Multiset Hold × World → Prop}
    (hat : At p r w) (hr : ∀ x ∈ r, x.puts = false) (hb : Bears E p r w)
    (heasy : ¬ w.Safe → Easy E) (hno : ¬ c → E (.panic .ilockNoType))
    (hsure : c → w.Safe ∧ w.Solid)
    (hnone : ∀ w', At p r w' → Looked r w w' → w.resolve p parent path = none → Q none (r, w'))
    (hsome : ∀ ip inum loaded name w', At p (.ref ip inum loaded ::ₘ r) w' → Looked r w w' →
      w.resolve p parent path = some (inum, name) →
      (c → (w.disk inum).type ≠ .free) →
      Q (some (ip, name)) (.ref ip inum loaded ::ₘ r, w')) :
    (namex path parent).Follows (solo p E) (r, w) Q := by
  -- the first inode, then the loop from there
  have hfrom : ∀ ip inum w₁, At p (.ref ip inum false ::ₘ r) w₁ → Same r w w₁ →
      w₁.disk = w.disk → w.start p path = some inum →
      (c → (w.disk inum).type ≠ .free) →
      (Fs.namexFrom parent ip (elements path)).Follows (solo p E)
        (.ref ip inum false ::ₘ r, w₁) Q := by
    intro ip inum w₁ hat₁ hsame₁ hdisk₁ hstart ht
    have hl₁ : Looked r w w₁ := .of_disk hsame₁ hdisk₁
    have hres : w.resolve p parent path = walk w.disk parent inum (elements path) := by
      rw [World.resolve, hstart]
      rfl
    rw [hres] at hnone hsome
    refine namexFrom hat₁ hr (hb.same hsame₁) (fun hns => heasy fun hs => hns (hl₁.safe hs)) hno
      (hl₁.sound hsure) (by rw [hdisk₁]; exact ht) hl₁.pruned ?_ ?_
    · exact fun w₂ hat₂ hl₂ hw => hnone w₂ hat₂ (hl₁.trans hl₂) hw
    · intro ip' inum' loaded' name w₂ hat₂ hl₂ hw ht₂
      rw [hdisk₁] at ht₂
      exact hsome ip' inum' loaded' name w₂ hat₂ (hl₁.trans hl₂) hw ht₂
  unfold Fs.namex
  split
  · rename_i hslash
    refine Follows.seq (iget hat hb (Nat.le_succ _) fun ip w₁ hat₁ hsame₁ hdisk₁ => ?_)
    exact hfrom ip ROOTINO w₁ hat₁ hsame₁ hdisk₁ (by rw [World.start, if_pos hslash])
      fun h => (hsure h).2.root
  · rename_i hslash
    refine Follows.seq (idupCwd hat hb fun ip inum w₁ hat₁ hsame₁ hdisk₁ hcwd hanch => ?_)
    exact hfrom ip inum w₁ hat₁ hsame₁ hdisk₁ (by rw [World.start, if_neg hslash, hcwd])
      fun h => (hsure h).2.anchored inum hanch

end Solo

end Xv6.Fs
