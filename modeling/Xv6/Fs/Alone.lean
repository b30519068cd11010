import Xv6.Fs.Invariant

/-! # Calls that run alone

Rules for the code of a process while no other is in the kernel: besides what it holds, the whole
state is known at every point.
-/

namespace Xv6.Fs

open Xv6.Framework

variable {p : ProcId} {hs r r' : Multiset Hold} {w w' w'' : World} {ip e : Ip} {inum : Nat}
  {E : Stop → Prop} {o : Op}

/-- Only `p` holds anything. -/
def alone (p : ProcId) (hs : Multiset Hold) : Holds := update (fun _ => 0) p hs

theorem alone_self : alone p hs p = hs := update_self _ _ _

theorem alone_zero : alone p 0 = fun _ => 0 := update_eq_self _ _

def At (p : ProcId) (hs : Multiset Hold) (w : World) : Prop := Base False w (alone p hs)

def World.cwdInum (w : World) (p : ProcId) : Option Nat :=
  (w.proc p).cwd.map fun e => (w.inode e).inum

namespace World

theorem setInode_self (w : World) (ip : Ip) (v : Inode) : (w.setInode ip v).inode ip = v :=
  update_self _ _ _

end World

namespace At

theorem on_self (p : ProcId) (hs : Multiset Hold) (e : Ip) :
    (alone p hs).on e p = hs.filter (·.on = some e) := by
  rw [Holds.on, alone_self]

theorem on_other {q : ProcId} (hq : q ≠ p) (hs : Multiset Hold) (e : Ip) :
    (alone p hs).on e q = 0 := by
  rw [Holds.on, alone, update_of_ne hq, Multiset.filter_zero]

/-- The references to an inode are those of files and directories and the ones in flight. -/
theorem ref_eq (h : At p hs w) (e : Ip) :
    (w.inode e).ref = w.anchors e + (hs.filter (·.on = some e)).card := by
  have hent := (h.entries.entry e).ref
  rw [hent, Finset.sum_eq_single p, on_self]
  · intro q _ hq
    rw [on_other hq, Multiset.card_zero]
  · intro hp
    exact absurd (Finset.mem_univ p) hp

theorem fits (h : At p hs w) {x : Hold} (hx : x ∈ hs) (he : x.on = some e) :
    x.Fits (w.inode e) (w.backing e) := by
  apply (h.entries.entry e).fits p
  rw [on_self]
  exact Multiset.mem_filter.mpr ⟨hx, he⟩

theorem ref_pos (h : At p hs w) {x : Hold} (hx : x ∈ hs) (he : x.on = some e) :
    0 < (w.inode e).ref :=
  h.entries.live_inum (by rw [alone_self]; exact hx) he

/-- What is known of an inode whose lock the process has. -/
theorem locked {freeing : Bool} {m d : Dinode} (h : At p hs w)
    (hx : .locked ip inum freeing m d ∈ hs) :
    (w.inode ip).inum = inum ∧ (w.inode ip).valid = true ∧ (w.inode ip).copy = m ∧
      w.disk inum = d ∧ d.type ≠ .free := by
  obtain ⟨hi, hv, hc, hd, ht, -⟩ := h.fits hx rfl
  rw [World.backing_of_pos (h.ref_pos hx rfl), hi] at hd
  exact ⟨hi, hv, hc, hd, ht⟩

/-- An inode that nobody is changing is as it is on disk. -/
theorem coherent (h : At p hs w) (hv : (w.inode e).valid = true) (hpos : 0 < (w.inode e).ref)
    (hedit : ∀ x ∈ hs, x.on = some e → x.edits = false) :
    (w.inode e).copy = w.disk (w.inode e).inum ∧ (w.disk (w.inode e).inum).type ≠ .free := by
  rw [← World.backing_of_pos hpos]
  apply (h.entries.entry e).coherent hv hpos
  intro q x hx
  by_cases hq : q = p
  · subst hq
    rw [on_self, Multiset.mem_filter] at hx
    exact hedit x hx.1 hx.2
  · rw [on_other hq] at hx
    exact absurd hx (Multiset.notMem_zero x)

theorem unique (h : At p hs w) {e e' : Ip} (he : 0 < (w.inode e).ref)
    (he' : 0 < (w.inode e').ref) (hi : (w.inode e).inum = (w.inode e').inum) : e = e' :=
  h.entries.unique e e' he he' hi

theorem ref_pos_of_anchors (h : At p hs w) (ha : 0 < w.anchors e) : 0 < (w.inode e).ref := by
  have href := h.ref_eq e
  omega

end At

/-- Some file, working directory or pointer of `r` refers to the entry. -/
def World.Pinned (w : World) (r : Multiset Hold) (e : Ip) : Prop :=
  0 < w.anchors e ∨ ∃ x ∈ r, x.on = some e

theorem At.pinned_pos (h : At p hs w) (hr : r ≤ hs) (he : w.Pinned r e) :
    0 < (w.inode e).ref := by
  rcases he with ha | ⟨x, hx, hon⟩
  · exact h.ref_pos_of_anchors ha
  · exact h.ref_pos (Multiset.mem_of_le hr hx) hon

/-- What code leaves alone that only takes and drops references of its own, besides `r`, and
writes to the disk. -/
structure Same (r : Multiset Hold) (w w' : World) : Prop where
  ninodes : w'.ninodes = w.ninodes
  anchors : ∀ e, w'.anchors e = w.anchors e
  cwd : ∀ q, (w'.proc q).cwd = (w.proc q).cwd
  live : ∀ q, (w'.proc q).live = (w.proc q).live
  kept : ∀ e, w.Pinned r e → (w'.inode e).inum = (w.inode e).inum ∧
    ((w.inode e).valid = true → (w'.inode e).valid = true)

namespace Same

theorem refl (r : Multiset Hold) (w : World) : Same r w w :=
  ⟨rfl, fun _ => rfl, fun _ => rfl, fun _ => rfl, fun _ _ => ⟨rfl, id⟩⟩

theorem pinned (h : Same r w w') : w'.Pinned r e ↔ w.Pinned r e := by
  rw [World.Pinned, World.Pinned, h.anchors]

theorem trans (h : Same r w w') (h' : Same r w' w'') : Same r w w'' := by
  refine ⟨h'.ninodes.trans h.ninodes, fun e => (h'.anchors e).trans (h.anchors e),
    fun q => (h'.cwd q).trans (h.cwd q), fun q => (h'.live q).trans (h.live q), fun e he => ?_⟩
  obtain ⟨hi, hv⟩ := h.kept e he
  obtain ⟨hi', hv'⟩ := h'.kept e (h.pinned.mpr he)
  exact ⟨hi'.trans hi, fun hval => hv' (hv hval)⟩

theorem mono (h : Same r w w') (hr : r' ≤ r) : Same r' w w' := by
  refine ⟨h.ninodes, h.anchors, h.cwd, h.live, fun e he => h.kept e ?_⟩
  exact he.imp_right fun ⟨x, hx, hon⟩ => ⟨x, Multiset.mem_of_le hr hx, hon⟩

/-- A change of one inode of the table, of the disk and of the bitmap. -/
theorem of_entry {v : Inode} (hn : w'.ninodes = w.ninodes) (hf : w'.file = w.file)
    (hp : ∀ q, (w'.proc q).cwd = (w.proc q).cwd ∧ (w'.proc q).live = (w.proc q).live)
    (hi : w'.inode = update w.inode ip v)
    (h : w.Pinned r ip → v.inum = (w.inode ip).inum ∧
      ((w.inode ip).valid = true → v.valid = true)) : Same r w w' := by
  refine ⟨hn, World.anchors_congr w w' hf fun q => (hp q).1, fun q => (hp q).1, fun q => (hp q).2,
    fun e he => ?_⟩
  rw [hi]
  by_cases hne : e = ip
  · subst hne
    rw [update_self]
    exact h he
  · rw [update_of_ne hne]
    exact ⟨rfl, id⟩

theorem setInode {v : Inode} (h : w.Pinned r ip → v.inum = (w.inode ip).inum ∧
    ((w.inode ip).valid = true → v.valid = true)) : Same r w (w.setInode ip v) :=
  of_entry rfl rfl (fun _ => ⟨rfl, rfl⟩) rfl h

end Same

/-- How code runs alone, by the rules for inodes, if it may end in the stops of `E`. -/
def solo (p : ProcId) (E : Stop → Prop) : Discipline Op Reply (Multiset Hold × World) where
  allows o g K := allows o g.1 (fun x hs => ∀ w', At p hs w' → o.exec p g.2 = .ok (x, w') →
    K x (hs, w')) ∧ ∀ e, o.step p g.2 = .error e → E e
  mono h hK := ⟨allows_mono h.1 fun x _ hx w' hat he => hK x _ (hx w' hat he), h.2⟩

/-- No process is in the kernel. -/
def World.Quiet (w : World) : Prop := Base False w fun _ => 0

theorem World.Quiet.alone (h : w.Quiet) (p : ProcId) : At p 0 w := by
  rw [At, alone_zero]
  exact h

/-- The sections that end in neither of the two panics. -/
def Op.tame : Op → Bool
  | .load _ => false
  | .panic _ => false
  | _ => true

theorem Op.tame_stops (ho : o.tame = true) :
    ∀ s ∈ o.stops, s ≠ .panic .unlinkNlink ∧ s ≠ .panic .ilockNoType := by
  cases o with
  | load ip => cases ho
  | panic m => cases ho
  | _ => simp [Op.stops]

/-- Every stop is admitted but two panics: the one of unlink about the count of links and the one
of ilock. -/
class Easy (E : Stop → Prop) : Prop where
  of_ne : ∀ e, e ≠ .panic .unlinkNlink → e ≠ .panic .ilockNoType → E e

theorem Easy.of_tame [Easy E] (ho : o.tame = true) {e : Stop}
    (h : o.step p w = .error e) : E e := by
  rw [Op.step] at h
  split at h
  · cases h
    exact Easy.of_ne _ (by decide) (by decide)
  · have hne := Op.tame_stops ho e (Op.exec_stops h)
    exact Easy.of_ne e hne.1 hne.2

/-- The entries of the table without a file or working directory. -/
def World.spare (w : World) : Nat := (Finset.univ.filter fun e => w.anchors e = 0).card

/-- The stops that a lookup can end in besides the panic of ilock: it needs a process with a working
directory, an entry of the table for each pointer, and a lock that it does not have itself. -/
structure Bears (E : Stop → Prop) (p : ProcId) (hs : Multiset Hold) (w : World) : Prop where
  live : (w.proc p).live = false → E (.panic .zombieExit)
  cwd : (w.proc p).cwd = none → E (.panic .fault)
  full : w.spare ≤ hs.card + 1 → E (.panic .iget)
  busy : hs ≠ 0 → E .blocked

/-- The reference in hand is the last one to an inode without links. -/
structure World.Last (w : World) (r : Multiset Hold) (ip : Ip) (inum : Nat) : Prop where
  anchors : w.anchors ip = 0
  others : ∀ x ∈ r, x.on ≠ some ip
  valid : (w.inode ip).valid = true
  nlink : (w.disk inum).nlink = 0

namespace World.Last

theorem card_zero (h : w.Last r ip inum) : (r.filter (·.on = some ip)).card = 0 := by
  rw [Multiset.card_eq_zero, Multiset.filter_eq_nil]
  exact h.others

theorem not_pinned (h : w.Last r ip inum) : ¬ w.Pinned r ip := by
  rintro (ha | ⟨x, hx, hon⟩)
  · rw [h.anchors] at ha
    exact absurd ha (Nat.lt_irrefl 0)
  · exact h.others x hx hon

end World.Last

/-- An inode as iput leaves it. -/
def Dinode.freed (d : Dinode) : Dinode := { Typed.truncated d with type := .free }

theorem proc_update {proc : ProcId → Proc} {v : Proc} (hc : v.cwd = (proc p).cwd)
    (hl : v.live = (proc p).live) (q : ProcId) :
    (update proc p v q).cwd = (proc q).cwd ∧
      (update proc p v q).live = (proc q).live := by
  by_cases hq : q = p
  · subst hq
    rw [update_self]
    exact ⟨hc, hl⟩
  · rw [update_of_ne hq]
    exact ⟨rfl, rfl⟩

theorem Same.spare (h : Same r w w') : w'.spare = w.spare := by
  rw [World.spare, World.spare]
  simp only [h.anchors]

namespace Bears

theorem same (h : Bears E p hs w) (hw : Same r w w') : Bears E p hs w' := by
  refine ⟨fun hl => h.live ?_, fun hc => h.cwd ?_, fun hf => h.full ?_, h.busy⟩
  · rw [← hw.live, hl]
  · rw [← hw.cwd, hc]
  · rw [← hw.spare]
    exact hf

end Bears

namespace Solo

theorem op_of {K : Reply o → Multiset Hold × World → Prop} (hat : At p hs w)
    (hlive : (w.proc p).live = false → E (.panic .zombieExit))
    (herr : ∀ e, o.exec p w = .error e → Lawful e → E e)
    (h : allows o hs fun x hs' => ∀ w', At p hs' w' → o.exec p w = .ok (x, w') → K x (hs', w')) :
    (perform o).Follows (solo p E) (hs, w) K := by
  refine ⟨h, fun e he => ?_⟩
  rw [Op.step] at he
  split at he
  · rename_i hl
    cases he
    exact hlive hl
  · exact herr e he (Base.exec_error hat (by rw [alone_self]; exact h) he)

theorem op [Easy E] {K : Reply o → Multiset Hold × World → Prop} (ho : o.tame = true)
    (h : allows o hs fun x hs' => ∀ w', At p hs' w' → o.exec p w = .ok (x, w') → K x (hs', w')) :
    (perform o).Follows (solo p E) (hs, w) K :=
  ⟨h, fun _ he => Easy.of_tame ho he⟩

theorem panic {α : Type} {m : Panic} {Q : α → Multiset Hold × World → Prop}
    (hm : m.misuse = false) (hz : E (.panic .zombieExit)) (he : E (.panic m)) :
    (panic m : Fsop α).Follows (solo p E) (hs, w) Q := by
  refine ⟨hm, fun e h => ?_⟩
  rw [Op.step] at h
  split at h
  · cases h
    exact hz
  · cases h
    exact he

/-! ## References and locks -/

theorem iget_same (hat : At p hs w) (h : w.iget inum = .ok (ip, w')) :
    Same hs w w' ∧ w'.disk = w.disk := by
  rw [World.iget] at h
  split at h
  · cases h
    exact ⟨.setInode fun _ => ⟨rfl, id⟩, rfl⟩
  split at h
  · cases h
  · rename_i e hfind
    obtain ⟨rfl, rfl⟩ := Prod.mk.inj (Except.ok.inj h)
    have hzero : (w.inode e).ref = 0 := by simpa using find_ip hfind
    refine ⟨.setInode fun hpin => ?_, rfl⟩
    have hpos := hat.pinned_pos (le_refl hs) hpin
    omega

theorem card_on_le (hs : Multiset Hold) : ∑ e, (hs.filter (·.on = some e)).card ≤ hs.card := by
  induction hs using Multiset.induction with
  | empty => simp
  | cons x hs ih =>
    have hone : ∑ e, (if x.on = some e then 1 else 0) ≤ 1 := by
      cases hx : x.on with
      | none => simp
      | some e => simp
    have hcons : ∀ e, ((x ::ₘ hs).filter (·.on = some e)).card =
        (hs.filter (·.on = some e)).card + if x.on = some e then 1 else 0 := by
      intro e
      by_cases hx : x.on = some e <;> simp [hx]
    rw [Finset.sum_congr rfl fun e _ => hcons e, Finset.sum_add_distrib, Multiset.card_cons]
    omega

/-- With all entries in use, each is that of a file, a working directory or a pointer. -/
theorem spare_le (hat : At p hs w) (h : ∀ e, (w.inode e).ref ≠ 0) : w.spare ≤ hs.card := by
  have hone : ∀ e ∈ Finset.univ.filter fun e => w.anchors e = 0,
      1 ≤ (hs.filter (·.on = some e)).card := by
    intro e he
    have hne := h e
    have href := hat.ref_eq e
    rw [(Finset.mem_filter.mp he).2] at href
    omega
  calc w.spare ≤ ∑ e ∈ Finset.univ.filter fun e => w.anchors e = 0,
        (hs.filter (·.on = some e)).card := by
        rw [World.spare, Finset.card_eq_sum_ones]
        exact Finset.sum_le_sum hone
    _ ≤ ∑ e, (hs.filter (·.on = some e)).card :=
        Finset.sum_le_sum_of_subset (Finset.filter_subset _ _)
    _ ≤ hs.card := card_on_le hs

theorem iget {Q : Ip → Multiset Hold × World → Prop} (hat : At p hs w) (hb : Bears E p r w)
    (hc : hs.card ≤ r.card + 1)
    (h : ∀ ip w', At p (.ref ip inum false ::ₘ hs) w' → Same hs w w' → w'.disk = w.disk →
      Q ip (.ref ip inum false ::ₘ hs, w')) :
    (iget inum).Follows (solo p E) (hs, w) Q := by
  refine op_of hat hb.live (fun e he _ => ?_) fun ip w' hat' hexec => ?_
  · simp only [Op.exec, World.iget] at he
    split at he
    · cases he
    split at he
    · rename_i hnone
      cases he
      refine hb.full ((spare_le hat fun e hzero => ?_).trans hc)
      have := List.find?_eq_none.mp hnone e (List.mem_finRange e)
      simp [hzero] at this
    · cases he
  · obtain ⟨hsame, hdisk⟩ := iget_same hat hexec
    exact h ip w' hat' hsame hdisk

theorem idupCwd {Q : Ip → Multiset Hold × World → Prop} (hat : At p hs w) (hb : Bears E p r w)
    (h : ∀ ip inum w', At p (.ref ip inum false ::ₘ hs) w' → Same hs w w' → w'.disk = w.disk →
      w.cwdInum p = some inum → (∃ e, 0 < w.anchors e ∧ (w.inode e).inum = inum) →
      Q ip (.ref ip inum false ::ₘ hs, w')) :
    (perform .idupCwd).Follows (solo p E) (hs, w) Q := by
  refine op_of hat hb.live (fun e he _ => ?_) fun ip inum w' hat' hexec => ?_
  · simp only [Op.exec, World.idupCwd] at he
    split at he
    · rename_i hcwd
      cases he
      exact hb.cwd hcwd
    · cases he
  have hfit := hat'.fits (Multiset.mem_cons_self _ _) rfl
  simp only [Op.exec, World.idupCwd] at hexec
  split at hexec
  · cases hexec
  rename_i e hcwd
  obtain ⟨rfl, rfl⟩ := Prod.mk.inj (Except.ok.inj hexec)
  have hinum : (w.inode e).inum = inum := by
    have hfit' : ((w.setInode e _).inode e).inum = inum := hfit
    rw [World.setInode_self] at hfit'
    exact hfit'
  refine h e inum _ hat' (.setInode fun _ => ⟨rfl, id⟩) rfl ?_ ⟨e, ?_, hinum⟩
  · rw [World.cwdInum, hcwd, Option.map_some, hinum]
  · exact World.anchors_pos_of_cwd hcwd

theorem load_same {x : Nat × Dinode} (h : w.load ip = .ok (x, w')) :
    Same r w w' ∧ w'.disk = w.disk := by
  rw [World.load] at h
  split at h
  · cases h
    exact ⟨.refl r w, rfl⟩
  split at h
  · cases h
  · cases h
    exact ⟨.setInode fun _ => ⟨rfl, fun _ => rfl⟩, rfl⟩

/-- A lock that is taken is the process's own. -/
theorem acquiresleep_error {h : Hold} {e : Stop} (hat : At p (h ::ₘ r) w) (hl : h.locks = false)
    (hb : Bears E p r w) (he : w.acquiresleep p ip = .error e) (hlaw : Lawful e) : E e := by
  rw [World.acquiresleep] at he
  split at he
  · cases he
    cases hlaw _ rfl
  split at he
  · rename_i q hq
    cases he
    obtain ⟨x, hx, hxl⟩ := ((hat.entries.entry ip).lock q).mp hq
    refine hb.busy fun hr => ?_
    by_cases hqp : q = p
    · subst hqp
      rw [At.on_self, Multiset.mem_filter, hr, Multiset.mem_cons] at hx
      rcases hx.1 with rfl | hx
      · rw [hl] at hxl
        cases hxl
      · exact absurd hx (Multiset.notMem_zero x)
    · rw [At.on_other hqp] at hx
      exact absurd hx (Multiset.notMem_zero x)
  · cases he

theorem load_error {e : Stop} (hi : (w.inode ip).inum = inum)
    (ht : (w.disk inum).type = .free → E (.panic .ilockNoType)) (h : w.load ip = .error e) :
    E e := by
  simp only [World.load, hi] at h
  split at h
  · cases h
  split at h
  · rename_i hfree
    cases h
    exact ht hfree
  · cases h

variable {loaded : Bool} {Q : Unit → Multiset Hold × World → Prop} {d : Dinode}

/-- ilock, also of an inode that ialloc has just handed out. -/
theorem ilock_of {h : Hold} {Q : Nat × Dinode → Multiset Hold × World → Prop}
    (hat : At p (h ::ₘ r) w) (hb : Bears E p r w)
    (hh : h = .ref ip inum loaded ∨ h = .fresh ip inum ∧ loaded = false)
    (ht : (w.disk inum).type = .free → E (.panic .ilockNoType))
    (hq : ∀ w', At p (.locked ip inum false (w.disk inum) (w.disk inum) ::ₘ r) w' → Same r w w' →
      w'.disk = w.disk → (w.disk inum).type ≠ .free →
      Q (inum, w.disk inum) (.locked ip inum false (w.disk inum) (w.disk inum) ::ₘ r, w')) :
    (ilock ip).Follows (solo p E) (h ::ₘ r, w) Q := by
  have hl : h.locks = false := by
    rcases hh with rfl | ⟨rfl, -⟩ <;> rfl
  refine Follows.seq (op_of hat hb.live (fun e he hlaw => acquiresleep_error hat hl hb he hlaw)
    ⟨inum, loaded, r, ?_, fun w₁ hat₁ hexec => ?_⟩)
  · rcases hh with rfl | ⟨rfl, hloaded⟩
    · exact .inl rfl
    · exact .inr ⟨rfl, hloaded⟩
  have hsame₁ : Same r w w₁ ∧ w₁.disk = w.disk := by
    simp only [Op.exec, World.acquiresleep] at hexec
    split at hexec
    · cases hexec
    split at hexec
    · cases hexec
    · cases hexec
      exact ⟨.setInode fun _ => ⟨rfl, id⟩, rfl⟩
  have hi : (w₁.inode ip).inum = inum := hat₁.fits (Multiset.mem_cons_self _ _) rfl
  refine op_of hat₁ (hb.same hsame₁.1).live (fun e he _ => load_error hi ?_ he)
    ⟨inum, loaded, r, rfl, fun d hd w₂ hat₂ hload => ?_⟩
  · rw [hsame₁.2]
    exact ht
  · obtain ⟨hsame₂, hdisk₂⟩ := load_same hload
    have hlocked := hat₂.locked (Multiset.mem_cons_self _ _)
    have hdisk : w₂.disk = w.disk := hdisk₂.trans hsame₁.2
    obtain rfl : w.disk inum = d := by rw [← hdisk, hlocked.2.2.2.1]
    exact hq w₂ hat₂ (hsame₁.1.trans hsame₂) hdisk hd

theorem ilock {Q : Nat × Dinode → Multiset Hold × World → Prop}
    (hat : At p (.ref ip inum loaded ::ₘ r) w) (hb : Bears E p r w)
    (ht : (w.disk inum).type = .free → E (.panic .ilockNoType))
    (hq : ∀ w', At p (.locked ip inum false (w.disk inum) (w.disk inum) ::ₘ r) w' → Same r w w' →
      w'.disk = w.disk → (w.disk inum).type ≠ .free →
      Q (inum, w.disk inum) (.locked ip inum false (w.disk inum) (w.disk inum) ::ₘ r, w')) :
    (ilock ip).Follows (solo p E) (.ref ip inum loaded ::ₘ r, w) Q :=
  ilock_of hat hb (.inl rfl) ht hq

theorem iunlock
    (hat : At p (.locked ip inum false d d ::ₘ r) w)
    (hlive : (w.proc p).live = false → E (.panic .zombieExit))
    (hq : ∀ w', At p (.ref ip inum true ::ₘ r) w' → Same r w w' → w'.disk = w.disk →
      (w'.inode ip).valid = true → Q () (.ref ip inum true ::ₘ r, w')) :
    (iunlock ip).Follows (solo p E) (.locked ip inum false d d ::ₘ r, w) Q := by
  refine op_of hat hlive (fun e he hlaw => ?_) ⟨inum, d, r, rfl, fun w' hat' hexec => ?_⟩
  · obtain rfl := List.mem_singleton.mp (Op.exec_stops he)
    cases hlaw _ rfl
  simp only [Op.exec, World.iunlock] at hexec
  split at hexec
  · cases hexec
  cases hexec
  refine hq _ hat' (.setInode fun _ => ⟨rfl, id⟩) rfl ?_
  rw [World.setInode_self]
  exact (hat.locked (Multiset.mem_cons_self _ _)).2.1

/-! ## The fields of a locked inode -/

theorem iupdate_same (hi : (w.inode ip).inum = inum) :
    Same r w (w.iupdate ip d) ∧ (w.iupdate ip d).disk = update w.disk inum d := by
  refine ⟨.of_entry rfl rfl (fun _ => ⟨rfl, rfl⟩) rfl fun _ => ⟨rfl, id⟩, ?_⟩
  rw [← hi]
  rfl

theorem iupdate [Easy E] {freeing : Bool} {m d d' : Dinode}
    (hat : At p (.locked ip inum freeing m d ::ₘ r) w) (hb : m.blocks ⊆ d'.blocks)
    (hw : d.Whole → d'.Whole) (hn : freeing = true → d'.nlink = 0) (ht : d'.type ≠ .free)
    (hq : ∀ w', At p (.locked ip inum freeing d' d' ::ₘ r) w' → Same r w w' →
      w'.disk = update w.disk inum d' → Q () (.locked ip inum freeing d' d' ::ₘ r, w')) :
    (iupdate ip d').Follows (solo p E) (.locked ip inum freeing m d ::ₘ r, w) Q := by
  apply op rfl
  refine ⟨inum, freeing, m, d, r, rfl, hb, hw, hn, .inl ⟨ht, fun w' hat' hexec => ?_⟩⟩
  cases hexec
  have hi := (hat.locked (Multiset.mem_cons_self _ _)).1
  obtain ⟨hsame, hdisk⟩ := iupdate_same hi
  exact hq _ hat' hsame hdisk

theorem bfree_same {b : Nat} {indirect : Bool} (h : w.bfree ip b indirect = .ok ((), w')) :
    Same r w w' ∧ w'.disk = w.disk := by
  rw [World.bfree] at h
  split at h
  · cases h
  cases h
  exact ⟨.of_entry rfl rfl (fun _ => ⟨rfl, rfl⟩) rfl fun _ => ⟨rfl, id⟩, rfl⟩

theorem bfreeAll [Easy E] {freeing : Bool} {m d : Dinode} {bs : List Nat}
    (hat : At p (.locked ip inum freeing m d ::ₘ r) w)
    (hm : m.addrs = bs)
    (hq : ∀ w', At p (.locked ip inum freeing { m with addrs := [] } d ::ₘ r) w' → Same r w w' →
      w'.disk = w.disk → Q () (.locked ip inum freeing { m with addrs := [] } d ::ₘ r, w')) :
    (bfreeAll ip bs).Follows (solo p E) (.locked ip inum freeing m d ::ₘ r, w) Q := by
  induction bs generalizing m w with
  | nil =>
    have he : { m with addrs := [] } = m := by rw [← hm]
    rw [he] at hq
    exact hq w hat (.refl r w) rfl
  | cons b bs ih =>
    refine Follows.seq (op rfl ⟨inum, freeing, m, d, r, rfl, nofun, fun w₁ hat₁ hexec => ?_⟩)
    obtain ⟨hsame, hdisk⟩ := bfree_same hexec
    refine ih hat₁ (by simp [Dinode.shrink, hm]) fun w₂ hat₂ hsame₂ hdisk₂ => ?_
    exact hq w₂ hat₂ (hsame.trans hsame₂) (hdisk₂.trans hdisk)

theorem itrunc [Easy E] {freeing : Bool} {Q : Dinode → Multiset Hold × World → Prop}
    (hat : At p (.locked ip inum freeing d d ::ₘ r) w) (ht : d.type ≠ .free)
    (hn : freeing = true → d.nlink = 0)
    (hq : ∀ w', At p (.locked ip inum freeing (Typed.truncated d) (Typed.truncated d) ::ₘ r) w' →
      Same r w w' → w'.disk = update w.disk inum (Typed.truncated d) →
      Q (Typed.truncated d)
        (.locked ip inum freeing (Typed.truncated d) (Typed.truncated d) ::ₘ r, w')) :
    (itrunc ip d).Follows (solo p E) (.locked ip inum freeing d d ::ₘ r, w) Q := by
  refine Follows.seq (bfreeAll hat rfl fun w₁ hat₁ hsame₁ hdisk₁ => ?_)
  cases hi : d.indirect with
  | none =>
    rw [hi] at hat₁
    refine Follows.seq (iupdate hat₁ ?_ Typed.whole_truncated hn ht fun w₂ hat₂ hsame₂ hdisk₂ => ?_)
    · simp [Dinode.blocks]
    · exact hq w₂ hat₂ (hsame₁.trans hsame₂) (by rw [hdisk₂, hdisk₁]; rfl)
  | some b =>
    refine Follows.seq (op rfl ⟨inum, freeing, _, d, r, rfl, fun _ => rfl, fun w₂ hat₂ hexec => ?_⟩)
    obtain ⟨hsame₂, hdisk₂⟩ := bfree_same hexec
    refine Follows.seq (iupdate hat₂ ?_ Typed.whole_truncated hn ht fun w₃ hat₃ hsame₃ hdisk₃ => ?_)
    · simp [Dinode.blocks, Dinode.shrink]
    · exact hq w₃ hat₃ (hsame₁.trans (hsame₂.trans hsame₃)) (by rw [hdisk₃, hdisk₂, hdisk₁]; rfl)

/-! ## iput -/

theorem iput_first (h : w.iput p ip = .ok (some d, w')) :
    (w.inode ip).ref = 1 ∧ (w.inode ip).valid = true ∧ (w.inode ip).copy = d ∧ d.nlink = 0 ∧
      Same r w w' ∧ w'.disk = w.disk := by
  rw [World.iput] at h
  split at h
  · rename_i hc
    split at h
    · cases h
    obtain ⟨hd, rfl⟩ := Prod.mk.inj (Except.ok.inj h)
    cases hd
    refine ⟨hc.1, hc.2.1, rfl, hc.2.2, .of_entry rfl rfl (fun q => ?_) rfl fun _ => ⟨rfl, id⟩, rfl⟩
    exact proc_update (v := { w.proc p with iput := some ip }) rfl rfl q
  · cases Prod.mk.inj (Except.ok.inj h) |>.1

theorem iput_other (h : w.iput p ip = .ok (none, w')) :
    ¬ ((w.inode ip).ref = 1 ∧ (w.inode ip).valid = true ∧ (w.inode ip).copy.nlink = 0) ∧
      Same r w w' ∧ w'.disk = w.disk := by
  rw [World.iput] at h
  split at h
  · split at h
    · cases h
    · cases Prod.mk.inj (Except.ok.inj h) |>.1
  · rename_i hc
    cases h
    exact ⟨hc, .setInode fun _ => ⟨rfl, id⟩, rfl⟩

theorem invalidate [Easy E] (hpin : ¬ w.Pinned r ip)
    (hq : ∀ w', At p (.dropping ip inum ::ₘ r) w' → Same r w w' → w'.disk = w.disk →
      Q () (.dropping ip inum ::ₘ r, w')) :
    (perform (.invalidate ip)).Follows (solo p E) (.freed ip inum ::ₘ r, w) Q := by
  apply op rfl
  refine ⟨inum, r, rfl, fun w' hat' hexec => ?_⟩
  cases hexec
  exact hq _ hat' (.setInode fun h => absurd h hpin) rfl

theorem drop [Easy E] (hr : ∀ x ∈ r, x.puts = false)
    (hq : ∀ w', At p r w' → Same r w w' → w'.disk = w.disk → Q () (r, w')) :
    (perform (.drop ip)).Follows (solo p E) (.dropping ip inum ::ₘ r, w) Q := by
  apply op rfl
  refine ⟨inum, r, rfl, hr, fun w' hat' hexec => ?_⟩
  cases hexec
  refine hq _ hat' (.of_entry rfl rfl (fun q => ?_) rfl fun _ => ⟨rfl, id⟩) rfl
  exact proc_update (v := { w.proc p with iput := none }) rfl rfl q

/-- The rest of iput once it has found that it drops the last reference. -/
theorem iput_rest [Easy E]
    (hat : At p (.locked ip inum true d d ::ₘ r) w) (ht : d.type ≠ .free) (hn : d.nlink = 0)
    (hr : ∀ x ∈ r, x.puts = false) (hpin : ¬ w.Pinned r ip)
    (hq : ∀ w', At p r w' → Same r w w' → w'.disk = update w.disk inum d.freed →
      Q () (r, w')) :
    (Fs.itrunc ip d >>= fun d' => Fs.iupdate ip { d' with type := .free } >>= fun _ =>
      perform (.invalidate ip) >>= fun _ => perform (.drop ip)).Follows (solo p E)
      (.locked ip inum true d d ::ₘ r, w) Q := by
  refine Follows.seq (itrunc hat ht (fun _ => hn) fun w₁ hat₁ hsame₁ hdisk₁ => ?_)
  refine Follows.seq (op rfl ⟨inum, true, _, _, r, rfl, ?_, id, fun _ => hn,
    .inr ⟨rfl, rfl, rfl, fun w₂ hat₂ hexec => ?_⟩⟩)
  · simp [Dinode.blocks]
  cases hexec
  have hi := (hat₁.locked (Multiset.mem_cons_self _ _)).1
  obtain ⟨hsame₂, hdisk₂⟩ := iupdate_same hi
  have hsame := hsame₁.trans hsame₂
  have hpin₂ := hsame.pinned.not.mpr hpin
  refine Follows.seq (invalidate hpin₂ fun w₃ hat₃ hsame₃ hdisk₃ => ?_)
  refine drop hr fun w₄ hat₄ hsame₄ hdisk₄ => ?_
  refine hq w₄ hat₄ (hsame.trans (hsame₃.trans hsame₄)) ?_
  have hdisk : w₄.disk = update w₁.disk inum d.freed := by
    rw [hdisk₄, hdisk₃]
    exact hdisk₂
  rw [hdisk, hdisk₁, update_idem]

theorem iput
    (hat : At p (.ref ip inum loaded ::ₘ r) w) (hr : ∀ x ∈ r, x.puts = false)
    (hlive : (w.proc p).live = false → E (.panic .zombieExit))
    (heasy : w.Last r ip inum → Easy E)
    (hkeep : ¬ w.Last r ip inum → ∀ w', At p r w' → Same r w w' → w'.disk = w.disk → Q () (r, w'))
    (hfree : w.Last r ip inum → ∀ w', At p r w' → Same r w w' →
      w'.disk = update w.disk inum (w.disk inum).freed → Q () (r, w')) :
    (iput ip).Follows (solo p E) (.ref ip inum loaded ::ₘ r, w) Q := by
  have hself : Hold.ref ip inum loaded ∈ Hold.ref ip inum loaded ::ₘ r := Multiset.mem_cons_self _ _
  have hi : (w.inode ip).inum = inum := hat.fits hself rfl
  have hpos := hat.ref_pos hself rfl
  have href := hat.ref_eq ip
  rw [Entries.filter_cons_on rfl, Multiset.card_cons] at href
  refine Follows.seq (op_of hat hlive (fun e he hlaw => ?_) ⟨inum, loaded, r, rfl, hr,
    fun w' hat' hexec => ?_, fun d ht hn w₁ hat₁ hexec => ?_⟩)
  · obtain rfl := List.mem_singleton.mp (Op.exec_stops he)
    cases hlaw _ rfl
  · obtain ⟨hc, hsame, hdisk⟩ := iput_other hexec
    refine hkeep (fun hlast => hc ⟨?_, hlast.valid, ?_⟩) w' hat' hsame hdisk
    · rw [href, hlast.anchors, hlast.card_zero]
    · have hco := hat.coherent hlast.valid hpos fun x hx hon => ?_
      · rw [hco.1, hi]
        exact hlast.nlink
      · rcases Multiset.mem_cons.mp hx with rfl | hx
        · rfl
        · exact absurd hon (hlast.others x hx)
  · obtain ⟨hone, hv, hcopy, hn, hsame₁, hdisk₁⟩ := iput_first hexec
    have hcard : (r.filter (·.on = some ip)).card = 0 := by omega
    have hothers : ∀ x ∈ r, x.on ≠ some ip := by
      intro x hx hon
      rw [Multiset.card_eq_zero] at hcard
      have hmem : x ∈ r.filter (·.on = some ip) := Multiset.mem_filter.mpr ⟨hx, hon⟩
      rw [hcard] at hmem
      exact absurd hmem (Multiset.notMem_zero x)
    have hd : w.disk inum = d := by
      rw [← hdisk₁]
      exact (hat₁.locked (Multiset.mem_cons_self _ _)).2.2.2.1
    have hlast : w.Last r ip inum := ⟨by omega, hothers, hv, by rw [hd]; exact hn⟩
    have hpin : ¬ w₁.Pinned r ip := by
      rw [hsame₁.pinned]
      exact hlast.not_pinned
    have := heasy hlast
    refine iput_rest hat₁ ht hn hr hpin fun w₂ hat₂ hsame₂ hdisk₂ => ?_
    refine hfree hlast w₂ hat₂ (hsame₁.trans hsame₂) ?_
    rw [hdisk₂, hdisk₁, hd]

/-- The last reference to an inode is to one that is allocated. -/
theorem last_type (hat : At p (.ref ip inum loaded ::ₘ r) w)
    (hlast : w.Last r ip inum) : (w.disk inum).type ≠ .free := by
  have hself : Hold.ref ip inum loaded ∈ Hold.ref ip inum loaded ::ₘ r := Multiset.mem_cons_self _ _
  have hi : (w.inode ip).inum = inum := hat.fits hself rfl
  have hco := hat.coherent hlast.valid (hat.ref_pos hself rfl) fun x hx hon => ?_
  · rw [hi] at hco
    exact hco.2
  · rcases Multiset.mem_cons.mp hx with rfl | hx
    · rfl
    · exact absurd hon (hlast.others x hx)

end Solo

end Xv6.Fs
