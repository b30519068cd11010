import Xv6.Fs.Holds

namespace Xv6.Fs

open Xv6.Framework

variable {ip dp : Ip} {inum pinum ninodes n omode : Nat} {loaded freeing : Bool} {d dd m : Dinode}
  {hs r : Multiset Hold} {path name : Text} {type : FileType} {major minor : Int}

namespace Typed

theorem op {β : Type} {o : Op} {f : Reply o → Fsop β} {Q : β → Multiset Hold → Prop}
    (h : allows o hs fun x hs' => (f x).Follows table hs' Q) :
    (perform o >>= f).Follows table hs Q := h

theorem iget {Q : Ip → Multiset Hold → Prop} (h : ∀ ip, Q ip (.ref ip inum false ::ₘ hs)) :
    (iget inum).Follows table hs Q := h

theorem ilock {Q : Nat × Dinode → Multiset Hold → Prop}
    (h : ∀ d, d.type ≠ .free → Q (inum, d) (.locked ip inum false d d ::ₘ r)) :
    (ilock ip).Follows table (.ref ip inum loaded ::ₘ r) Q :=
  ⟨inum, loaded, r, .inl rfl, inum, loaded, r, rfl, h⟩

/-- ilock of an inode that ialloc has just handed out. -/
theorem ilock_fresh {Q : Nat × Dinode → Multiset Hold → Prop}
    (h : ∀ d, d.type ≠ .free → Q (inum, d) (.locked ip inum false d d ::ₘ r)) :
    (Fs.ilock ip).Follows table (.fresh ip inum ::ₘ r) Q :=
  ⟨inum, false, r, .inr ⟨rfl, rfl⟩, inum, false, r, rfl, h⟩

variable {Q : Unit → Multiset Hold → Prop} {d' : Dinode} {bn : Nat} {x : Option Nat}

theorem iunlock (h : Q () (.ref ip inum true ::ₘ r)) :
    (iunlock ip).Follows table (.locked ip inum false d d ::ₘ r) Q :=
  ⟨inum, d, r, rfl, h⟩

/-- An update that forgets no block and frees nothing. -/
theorem iupdate (hb : m.blocks ⊆ d'.blocks)
    (hw : d.Whole → d'.Whole) (hn : freeing = true → d'.nlink = 0) (ht : d'.type ≠ .free)
    (h : Q () (.locked ip inum freeing d' d' ::ₘ r)) :
    (iupdate ip d').Follows table (.locked ip inum freeing m d ::ₘ r) Q :=
  ⟨inum, freeing, m, d, r, rfl, hb, hw, hn, .inl ⟨ht, h⟩⟩

theorem bfreeAll {bs : List Nat} (hm : m.addrs = bs)
    (h : Q () (.locked ip inum freeing { m with addrs := [] } d ::ₘ r)) :
    (bfreeAll ip bs).Follows table (.locked ip inum freeing m d ::ₘ r) Q := by
  induction bs generalizing m with
  | nil =>
    rw [← hm] at h
    exact h
  | cons b bs ih =>
    refine ⟨inum, freeing, m, d, r, rfl, nofun, ?_⟩
    refine ih ?_ ?_
    · simp [Dinode.shrink, hm]
    · simpa [Dinode.shrink] using h

/-- What itrunc leaves. -/
def truncated (d : Dinode) : Dinode := { d with addrs := [], indirect := none, entries := [] }

theorem whole_truncated (_ : d'.Whole) : (truncated d).Whole := Nat.zero_le _

theorem itrunc {Q : Dinode → Multiset Hold → Prop} (ht : d.type ≠ .free)
    (hn : freeing = true → d.nlink = 0)
    (h : Q (truncated d) (.locked ip inum freeing (truncated d) (truncated d) ::ₘ r)) :
    (itrunc ip d).Follows table (.locked ip inum freeing d d ::ₘ r) Q := by
  refine Follows.seq (bfreeAll rfl ?_)
  cases hi : d.indirect with
  | none =>
    refine Follows.seq (iupdate ?_ whole_truncated hn ht h)
    simp [Dinode.blocks]
  | some b =>
    refine Follows.seq ⟨inum, freeing, _, d, r, rfl, fun _ => rfl, ?_⟩
    refine Follows.seq (iupdate ?_ whole_truncated hn ht h)
    simp [Dinode.blocks, Dinode.shrink]

/-- An inode with block `bn`, where it has one. -/
structure Grown (bn : Nat) (d d' : Dinode) (x : Option Nat) : Prop where
  rest : d' = { d with addrs := d'.addrs, indirect := d'.indirect }
  addrs : d.addrs.length ≤ d'.addrs.length
  block : x.isSome → bn ≤ d.addrs.length → bn < d'.addrs.length

theorem Grown.none (bn : Nat) (d : Dinode) : Grown bn d d .none := ⟨rfl, Nat.le_refl _, nofun⟩

theorem bmapData {Q : Option Nat × Dinode → Multiset Hold → Prop}
    (h : ∀ x m', Grown bn m m' x → Q (x, m') (.locked ip inum false m' d ::ₘ r)) :
    (bmapData ip m).Follows table (.locked ip inum false m d ::ₘ r) Q :=
  ⟨inum, m, d, r, rfl, nofun, h _ m (.none bn m), fun b => h (some b) (m.grow false b)
    ⟨rfl, by simp [Dinode.grow], fun _ hbn => by simpa [Dinode.grow] using Nat.lt_succ_of_le hbn⟩⟩

theorem bmap {Q : Option Nat × Dinode → Multiset Hold → Prop}
    (h : ∀ x m', Grown bn m m' x → Q (x, m') (.locked ip inum false m' d ::ₘ r)) :
    (bmap ip m bn).Follows table (.locked ip inum false m d ::ₘ r) Q := by
  unfold Fs.bmap
  split
  · rename_i hget
    exact h _ m ⟨rfl, Nat.le_refl _, fun _ _ => (List.getElem?_eq_some_iff.mp hget).1⟩
  split
  · exact bmapData h
  split
  · split
    · exact bmapData h
    · rename_i hi
      refine ⟨inum, m, d, r, rfl, fun _ => hi, h _ m (.none bn m), fun b => ?_⟩
      refine bmapData fun x m' (hg : Grown bn _ m' x) => ?_
      exact h x m' ⟨by rw [hg.rest]; rfl, hg.addrs, hg.block⟩
  · exact rfl

def Written (d d' : Dinode) : Prop :=
  d' = { d with addrs := d'.addrs, indirect := d'.indirect, entries := d'.entries }

theorem Grown.written (h : Grown bn d d' x) :
    Written d d' := by
  rw [Written, h.rest]

theorem Grown.whole (h : Grown bn d d' x) (hw : d.Whole) :
    d'.Whole := by
  have hent : d'.entries = d.entries := by rw [h.rest]
  rw [Dinode.Whole, hent]
  exact hw.trans (Nat.mul_le_mul_right _ h.addrs)

/-- The entry that is written is in a block. -/
theorem Grown.whole_put {de : Dirent}
    (h : Grown (n * DIRENT / BSIZE) d d' x) (hx : x.isSome) (hn : n ≤ d.entries.length)
    (hw : d.Whole) : Dinode.Whole { d' with entries := putEntry d'.entries n de } := by
  have hw' := h.whole hw
  have hb := h.block hx
  simp only [Dinode.Whole, putEntry, DIRENT, BSIZE] at *
  have hle : n * 16 / 1024 < d'.addrs.length := hb (by omega)
  split
  · rwa [List.length_set]
  · rw [List.length_append, List.length_singleton, show d'.entries = d.entries by rw [h.rest]] at *
    omega

theorem Written.ne_free (h : Written d d') (ht : d.type ≠ .free) :
    d'.type ≠ .free := by
  rw [h]
  exact ht

theorem writei {de : Dirent} {Q : Bool × Dinode → Multiset Hold → Prop}
    (ht : d.type ≠ .free)
    (h : ∀ x d', Written d d' → Q (x, d') (.locked ip inum false d' d' ::ₘ r)) :
    (writei ip d n de).Follows table (.locked ip inum false d d ::ₘ r) Q := by
  unfold Fs.writei
  split
  · exact h false d rfl
  split
  · exact h false d rfl
  rename_i hn _
  refine Follows.seq (bmap fun x m' hg => ?_)
  have hw := hg.written
  cases x with
  | none =>
    refine Follows.seq (iupdate (List.Subset.refl _) hg.whole nofun (hw.ne_free ht) ?_)
    exact h false m' hw
  | some b =>
    refine Follows.seq (iupdate (List.Subset.refl _) (hg.whole_put rfl (Nat.le_of_not_lt hn)) nofun
      (hw.ne_free ht) ?_)
    exact h true _ (by rw [Written, hw])

theorem dirlookup {Q : Option (Ip × Nat) → Multiset Hold → Prop}
    (hnone : lookup d.entries name = none → Q none hs)
    (hsome : ∀ n ip, lookup d.entries name = some n →
      Q (some (ip, n)) (.ref ip ((d.entries[n]?.map Dirent.inum).getD 0) false ::ₘ hs)) :
    (dirlookup d name).Follows table hs Q := by
  unfold Fs.dirlookup
  split
  · exact rfl
  split
  · rename_i hl
    exact hnone hl
  · rename_i n hl
    exact fun ip => hsome n ip hl

theorem iallocFrom {Q : Option (Ip × Nat) → Multiset Hold → Prop}
    (ht : type ≠ .free) (hnone : Q none hs)
    (hsome : ∀ ip inum, Q (some (ip, inum)) (.fresh ip inum ::ₘ hs)) :
    (iallocFrom type n inum).Follows table hs Q := by
  induction n generalizing inum with
  | zero => exact hnone
  | succ n ih => exact ⟨ht, ih, hs, rfl, fun ip => hsome ip inum⟩

section Puts

variable (hr : ∀ x ∈ r, x.puts = false)
include hr

theorem iput (h : Q () r) :
    (iput ip).Follows table (.ref ip inum loaded ::ₘ r) Q := by
  refine op ⟨inum, loaded, r, rfl, hr, h, fun d ht hn => ?_⟩
  refine Follows.seq (itrunc ht (fun _ => hn) ?_)
  refine ⟨inum, true, _, _, r, rfl, ?_, id, fun _ => hn, .inr ⟨rfl, rfl, rfl, ?_⟩⟩
  · simp [Dinode.blocks]
  · exact ⟨inum, r, rfl, inum, r, rfl, hr, h⟩

theorem iunlockput (h : Q () r) :
    (iunlockput ip).Follows table (.locked ip inum false d d ::ₘ r) Q :=
  Follows.seq (iunlock (iput hr h))

theorem dirlink {Q : Bool × Dinode → Multiset Hold → Prop} (ht : d.type ≠ .free)
    (h : ∀ x d', Written d d' → Q (x, d') (.locked dp pinum false d' d' ::ₘ r)) :
    (dirlink dp d name inum).Follows table (.locked dp pinum false d d ::ₘ r) Q := by
  refine Follows.seq (dirlookup (fun _ => writei ht h) fun n ip _ => ?_)
  refine Follows.seq (iput ?_ (h false d rfl))
  simpa [Hold.puts] using hr

theorem namexFrom {parent : Bool} {names : List Text} {Q : Option (Ip × Text) → Multiset Hold → Prop}
    (hnone : Q none r)
    (hsome : ∀ ip inum loaded name, Q (some (ip, name)) (.ref ip inum loaded ::ₘ r)) :
    (namexFrom parent ip names).Follows table (.ref ip inum loaded ::ₘ r) Q := by
  induction names generalizing ip inum loaded with
  | nil =>
    unfold Fs.namexFrom
    split
    · exact Follows.seq (iput hr hnone)
    · exact hsome ip inum loaded []
  | cons name rest ih =>
    refine Follows.seq (ilock fun d ht => ?_)
    show Prog.Follows table (if d.type ≠ .dir then _ else _) _ _
    split
    · exact Follows.seq (iunlockput hr hnone)
    split
    · exact Follows.seq (iunlock (hsome ip inum true name))
    refine Follows.seq (dirlookup (fun _ => Follows.seq (iunlockput hr hnone)) fun n next _ => ?_)
    rw [Multiset.cons_swap]
    refine Follows.seq (iunlockput ?_ ih)
    simpa [Hold.puts] using hr

theorem namex {parent : Bool} {Q : Option (Ip × Text) → Multiset Hold → Prop}
    (hnone : Q none r)
    (hsome : ∀ ip inum loaded name, Q (some (ip, name)) (.ref ip inum loaded ::ₘ r)) :
    (namex path parent).Follows table r Q := by
  unfold Fs.namex
  split
  · exact Follows.seq (iget fun ip => namexFrom hr hnone hsome)
  · exact fun ip inum => namexFrom hr hnone hsome

/-- The entries "." and ".." of a directory just allocated. -/
theorem linkDots {Q : Bool × Dinode → Multiset Hold → Prop} (ht : d.type ≠ .free)
    (h : ∀ x d', Written d d' → Q (x, d') (.locked ip inum false d' d' ::ₘ r)) :
    (linkDots ip d inum pinum).Follows table (.locked ip inum false d d ::ₘ r) Q := by
  refine Follows.seq (dirlink hr ht fun x d' hw => ?_)
  cases x with
  | false => exact h false d' hw
  | true =>
    refine dirlink hr (hw.ne_free ht) fun x d'' hw' => h x d'' ?_
    rw [Written, hw', hw]

variable {Q : Option (Ip × Dinode) → Multiset Hold → Prop}

theorem createFail (ht : d.type ≠ .free)
    (h : Q none r) :
    (createFail dp ip d).Follows table
      (.locked ip inum false d d ::ₘ .locked dp pinum false dd dd ::ₘ r) Q := by
  refine Follows.seq (iupdate (List.Subset.refl _) id nofun ht ?_)
  refine Follows.seq (iunlockput (by simpa [Hold.puts] using hr) ?_)
  exact Follows.seq (iunlockput hr h)

theorem createEntry {x : Bool}
    (hd : d.type ≠ .free) (ht : dd.type ≠ .free) (hnone : Q none r)
    (hsome : Q (some (ip, d)) (.locked ip inum false d d ::ₘ r)) :
    (createEntry dp dd name type ip inum (x, d)).Follows table
      (.locked ip inum false d d ::ₘ .locked dp pinum false dd dd ::ₘ r) Q := by
  cases x with
  | false => exact createFail hr hd hnone
  | true =>
    have hr' : ∀ x ∈ Hold.locked ip inum false d d ::ₘ r, x.puts = false := by
      simpa [Hold.puts] using hr
    rw [Multiset.cons_swap]
    refine Follows.seq (dirlink hr' ht fun x dd' hw => ?_)
    cases x with
    | false =>
      rw [Multiset.cons_swap]
      exact createFail hr hd hnone
    | true =>
      have hdd := hw.ne_free ht
      by_cases hdir : type = .dir
      · simp only [hdir]
        exact Follows.seq (iupdate (List.Subset.refl _) id nofun hdd
          (Follows.seq (iunlockput hr' hsome)))
      · simp only [hdir]
        exact Follows.seq (iunlockput hr' hsome)

theorem createNew (hty : type ≠ .free)
    (ht : dd.type ≠ .free) (hnone : Q none r)
    (hsome : ∀ ip inum d, d.type ≠ .free → Q (some (ip, d)) (.locked ip inum false d d ::ₘ r)) :
    (createNew ninodes dp pinum dd name type major minor).Follows table
      (.locked dp pinum false dd dd ::ₘ r) Q := by
  refine Follows.seq (iallocFrom hty (Follows.seq (iunlockput hr hnone)) fun ip inum => ?_)
  refine Follows.seq (ilock_fresh fun d hd => ?_)
  have hr' : ∀ x ∈ Hold.locked dp pinum false dd dd ::ₘ r, x.puts = false := by
    simpa [Hold.puts] using hr
  refine Follows.seq (iupdate (List.Subset.refl _) id nofun hd ?_)
  refine Follows.seq ?_
  split
  · refine linkDots hr' hd fun x d' hw => ?_
    have hd' := hw.ne_free hd
    exact createEntry hr hd' ht hnone (hsome ip inum d' hd')
  · exact createEntry hr hd ht hnone (hsome ip inum _ hd)

theorem create (hty : type ≠ .free)
    (hnone : Q none r)
    (hsome : ∀ ip inum d, d.type ≠ .free → Q (some (ip, d)) (.locked ip inum false d d ::ₘ r)) :
    (create ninodes path type major minor).Follows table r Q := by
  refine Follows.seq (namex hr hnone fun dp pinum loaded name => ?_)
  refine Follows.seq (ilock fun dd ht => ?_)
  refine Follows.seq (dirlookup (fun _ => createNew hr hty ht hnone hsome) fun n ip _ => ?_)
  rw [Multiset.cons_swap]
  refine Follows.seq (iunlockput (by simpa [Hold.puts] using hr) ?_)
  refine Follows.seq (ilock fun d hd => ?_)
  show Prog.Follows table (if _ then _ else _) _ _
  split
  · exact hsome ip _ d hd
  · exact Follows.seq (iunlockput hr hnone)

end Puts

/-- A process holds nothing at the end of a call. -/
def Clean (_ : Int) (hs : Multiset Hold) : Prop := hs = 0

theorem openInode (ht : d.type ≠ .free) :
    (openInode ip d omode).Follows table (.locked ip inum false d d ::ₘ 0) Clean := by
  unfold Fs.openInode
  split
  · exact Follows.seq (iunlockput (by simp) rfl)
  refine Follows.seq ⟨Follows.seq (iunlockput (by simp) rfl), fun fd => ?_⟩
  have hend : ∀ d' : Dinode, Prog.Follows table (Fs.iunlock ip >>= fun _ =>
      perform (.fileInit fd ip) >>= fun _ => pure (fd : Int))
      (.locked ip inum false d' d' ::ₘ .reserved fd ::ₘ 0) Clean :=
    fun d' => Follows.seq (iunlock ⟨inum, 0, rfl, rfl⟩)
  rw [Multiset.cons_swap]
  by_cases htrunc : omode &&& O_TRUNC ≠ 0 ∧ d.type = .file
  · simp only [htrunc, ne_eq]
    exact Follows.seq (itrunc ht nofun (hend _))
  · simp only [htrunc]
    exact hend d

theorem sysOpen : (sysOpen ninodes path omode).Follows table 0 Clean := by
  unfold Fs.sysOpen
  split
  · exact rfl
  split
  · exact Follows.seq (create (by simp) (by simp) rfl fun ip inum d hd => openInode hd)
  refine Follows.seq (namex (by simp) rfl fun ip inum loaded name => ?_)
  refine Follows.seq (ilock fun d hd => ?_)
  show Prog.Follows table (if _ then _ else _) _ _
  split
  · exact Follows.seq (iunlockput (by simp) rfl)
  · exact openInode hd

theorem sysCreate (hty : type ≠ .free) :
    (sysCreate ninodes path type major minor).Follows table 0 Clean := by
  unfold Fs.sysCreate
  split
  · exact rfl
  refine Follows.seq (create (by simp) hty rfl fun ip inum d hd => ?_)
  exact Follows.seq (iunlockput (by simp) rfl)

theorem linkBad : (linkBad ip).Follows table (.ref ip inum loaded ::ₘ 0) Clean := by
  refine Follows.seq (ilock fun d hd => ?_)
  refine Follows.seq (iupdate (List.Subset.refl _) id nofun hd ?_)
  exact Follows.seq (iunlockput (by simp) rfl)

theorem sysLink {old new : Text} : (sysLink old new).Follows table 0 Clean := by
  unfold Fs.sysLink
  split
  · refine Follows.seq (namex (by simp) rfl fun ip inum loaded name => ?_)
    refine Follows.seq (ilock fun d hd => ?_)
    show Prog.Follows table (if _ then _ else _) _ _
    split
    · exact Follows.seq (iunlockput (by simp) rfl)
    refine Follows.seq (iupdate (List.Subset.refl _) id nofun hd ?_)
    refine Follows.seq (iunlock ?_)
    refine Follows.seq (namex (by simp [Hold.puts]) linkBad fun dp pinum loaded name => ?_)
    refine Follows.seq (ilock fun dd hdd => ?_)
    refine Follows.seq (dirlink (by simp [Hold.puts]) hdd fun x dd' hw => ?_)
    cases x with
    | false => exact Follows.seq (iunlockput (by simp [Hold.puts]) linkBad)
    | true =>
      refine Follows.seq (iunlockput (by simp [Hold.puts]) ?_)
      exact Follows.seq (iput (by simp) rfl)
  · exact rfl

theorem unlinkEntry (hd : d.type ≠ .free) (hdd : dd.type ≠ .free) :
    (unlinkEntry dp dd ip d n).Follows table
      (.locked ip inum false d d ::ₘ .locked dp pinum false dd dd ::ₘ 0) Clean := by
  unfold Fs.unlinkEntry
  split
  · exact rfl
  split
  · refine Follows.seq (iunlockput (by simp [Hold.puts]) ?_)
    exact Follows.seq (iunlockput (by simp) rfl)
  rw [Multiset.cons_swap]
  refine Follows.seq (writei hdd fun x dd' hw => ?_)
  cases x with
  | false => exact rfl
  | true =>
    have hend : ∀ e : Dinode, Prog.Follows table (Fs.iunlockput dp >>= fun _ =>
        Fs.iupdate ip { d with nlink := short (d.nlink - 1) } >>= fun _ =>
        Fs.iunlockput ip >>= fun _ => pure (0 : Int))
        (.locked dp pinum false e e ::ₘ .locked ip inum false d d ::ₘ 0) Clean := by
      intro e
      refine Follows.seq (iunlockput (by simp [Hold.puts]) ?_)
      refine Follows.seq (iupdate (List.Subset.refl _) id nofun hd ?_)
      exact Follows.seq (iunlockput (by simp) rfl)
    by_cases hdir : d.type = .dir
    · simp only [hdir]
      refine Follows.seq (iupdate (List.Subset.refl _) id nofun (hw.ne_free hdd) ?_)
      simpa only [hdir] using hend _
    · simp only [hdir]
      exact hend dd'

theorem sysUnlink : (sysUnlink path).Follows table 0 Clean := by
  unfold Fs.sysUnlink
  split
  · exact rfl
  refine Follows.seq (namex (by simp) rfl fun dp pinum loaded name => ?_)
  refine Follows.seq (ilock fun dd hdd => ?_)
  show Prog.Follows table (if _ then _ else _) _ _
  split
  · exact Follows.seq (iunlockput (by simp) rfl)
  refine Follows.seq (dirlookup (fun _ => Follows.seq (iunlockput (by simp) rfl)) fun n ip _ => ?_)
  exact Follows.seq (ilock fun d hd => unlinkEntry hd hdd)

theorem sysChdir : (sysChdir path).Follows table 0 Clean := by
  unfold Fs.sysChdir
  split
  · exact rfl
  refine Follows.seq (namex (by simp) rfl fun ip inum loaded name => ?_)
  refine Follows.seq (ilock fun d hd => ?_)
  show Prog.Follows table (if _ then _ else _) _ _
  split
  · exact Follows.seq (iunlockput (by simp) rfl)
  refine Follows.seq (iunlock (op fun cwd cinum cloaded => ?_))
  refine Follows.seq (iput (by simp [Hold.puts]) ?_)
  exact ⟨inum, 0, Multiset.cons_swap _ _ _, rfl⟩

theorem sysClose {fd : Fin NOFILE} : (sysClose fd).Follows table 0 Clean :=
  op ⟨by simp, rfl, rfl, fun _ _ _ => Follows.seq (iput (by simp) rfl)⟩

theorem sysDup {fd : Fin NOFILE} : (sysDup fd).Follows table 0 Clean := by
  refine ⟨by simp, fun x => ?_⟩
  cases x with
  | none => exact rfl
  | some fd => exact rfl

theorem fork : Fs.fork.Follows table 0 Clean := by
  refine ⟨by simp, fun x => ?_⟩
  cases x with
  | none => exact rfl
  | some np => exact rfl

theorem closeFiles {fds : List (Fin NOFILE)} :
    (closeFiles fds).Follows table 0 fun _ hs => hs = 0 := by
  induction fds with
  | nil => exact rfl
  | cons fd fds ih =>
    refine Follows.bind sysClose fun _ hs hc => ?_
    rw [hc]
    exact ih

theorem exit : Fs.exit.Follows table 0 Clean := by
  refine Follows.bind closeFiles fun _ hs hc => ?_
  rw [hc]
  refine op fun cwd inum loaded => ?_
  refine Follows.seq (iput (by simp [Hold.puts]) ?_)
  exact ⟨by simp, 0, rfl, rfl⟩

theorem body (c : Call) : (c.body ninodes).Follows table 0 Clean := by
  cases c with
  | «open» path omode => exact sysOpen
  | mkdir path => exact sysCreate (by simp)
  | mknod path major minor => exact sysCreate (by simp)
  | link old new => exact sysLink
  | unlink path => exact sysUnlink
  | chdir path => exact sysChdir
  | close fd => exact sysClose
  | dup fd => exact sysDup
  | fork => exact fork
  | exit => exact exit

end Typed

end Xv6.Fs
