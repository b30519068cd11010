import Xv6.Fs.Table

namespace Xv6.Fs

open Xv6.Framework

variable {c : Prop} {w w' : World} {H : Holds} {p : ProcId} {ip : Ip} {m r : Multiset Hold} {h h' : Hold}
  {inum : Nat}

theorem find_ip {q : Ip → Bool} (h : (List.finRange NINODE).find? q = some ip) : q ip = true :=
  List.find?_some h

theorem Blocks.setInode {H' : Holds} {v : Inode} (hB : Blocks w) (hE : Entries w H)
    (hE' : Entries (w.setInode ip v) H') (hpos : 0 < (w.inode ip).ref) (hpos' : 0 < v.ref)
    (hi : v.inum = (w.inode ip).inum)
    (hnow : (w.now ip).blocks ⊆ (if v.valid then v.copy else w.disk (w.inode ip).inum).blocks) :
    Blocks (w.setInode ip v) := by
  have hn : (w.setInode ip v).now ip = if v.valid then v.copy else w.disk (w.inode ip).inum := by
    simp only [World.now, World.setInode, update_self, hi]
  refine hB.edit hE hE' (fun e' hne => update_of_ne hne _ _) hpos ?_ ?_
    (fun _ _ => rfl) rfl (hB.tidy _) ?_
  · simpa [World.setInode] using hpos'
  · simpa [World.setInode] using hi
  · intro b hu
    rw [hn]
    exact .inl ⟨hu, fun h => hnow h⟩

theorem World.anchors_pos_of_cwd (hc : (w.proc p).cwd = some ip) : 0 < w.anchors ip := by
  have h3 := le_sum_univ (fun q => if (w.proc q).cwd = some ip then 1 else 0) p
  simp only [hc] at h3
  have h4 : 1 ≤ World.cwdAnchors w.proc ip := by
    unfold World.cwdAnchors
    exact h3
  exact Nat.lt_of_lt_of_le h4 (Nat.le_add_left _ _)

theorem calm_setInode (w : World) (ip : Ip) (v : Inode) : Calm w (w.setInode ip v) :=
  ⟨rfl, fun _ => rfl, fun _ => rfl, fun _ => rfl⟩

theorem Calm.setProc {v : Proc} (hc : Calm w w') (hl : v.live = (w'.proc p).live)
    (hd : v.cwd = (w'.proc p).cwd) (ho : v.ofile = (w'.proc p).ofile) : Calm w (w'.setProc p v) :=
  ⟨hc.file, fun q => (w'.setProc_field p Proc.live hl q).trans (hc.live q),
    fun q => (w'.setProc_field p Proc.cwd hd q).trans (hc.cwd q),
    fun q => (w'.setProc_field p Proc.ofile ho q).trans (hc.ofile q)⟩

namespace Base

/-- iget of an inode of the table, and idup. -/
theorem dup (hb : Base c w H) (hpos : 0 < (w.inode ip).ref) (hon : h.on = some ip)
    (hl : h.locks = false) (hput : h.puts = false) (hlo : h.loose = false)
    (hf : h.Fits (w.inode ip) (w.backing ip))
    (hm : ∀ e, m.filter (·.on = some e) = (H p).filter (·.on = some e))
    (hc : ∀ x : Hold, x.loose = true → m.count x ≤ (H p).count x) :
    Base c (w.setInode ip { w.inode ip with ref := (w.inode ip).ref + 1 })
      (update H p (h ::ₘ m)) := by
  have hE := hb.entries.add hpos hon hl hput hf hm
  exact ⟨hE, hb.procs.calm (calm_setInode w ip _) fun x hx =>
      Nat.le_trans (count_add hlo x hx) (hc x hx),
    fun h => (hb.blocks h).setInode hb.entries hE hpos (Nat.succ_pos _) rfl fun _ h => h⟩

/-- iget of an inode that the table does not have. -/
theorem recycle (hb : Base c w H) (hr : (w.inode ip).ref = 0)
    (hnew : ∀ e, 0 < (w.inode e).ref → (w.inode e).inum ≠ inum) (hon : h.on = some ip)
    (hl : h.locks = false) (hput : h.puts = false) (hlo : h.loose = false)
    (hf : h.Fits { w.inode ip with inum := inum, ref := 1, valid := false } (w.disk inum))
    (hm : ∀ e, m.filter (·.on = some e) = (H p).filter (·.on = some e))
    (hc : ∀ x : Hold, x.loose = true → m.count x ≤ (H p).count x) :
    Base c (w.setInode ip { w.inode ip with inum := inum, ref := 1, valid := false })
      (update H p (h ::ₘ m)) := by
  have hE := hb.entries.recycle hr hnew hon hl hput hf hm
  refine ⟨hE, hb.procs.calm (calm_setInode w ip _) fun x hx =>
    Nat.le_trans (count_add hlo x hx) (hc x hx), fun h => ⟨(hb.blocks h).tidy, ?_⟩⟩
  intro b hu hmeta
  obtain ⟨i, d, hcur, hbd⟩ := (hb.blocks h).owned b hu hmeta
  refine ⟨i, d, ?_, hbd⟩
  rcases hcur with ⟨e, hpos, hv, hi, hd⟩ | ⟨hn, hd⟩
  · have hne : e ≠ ip := fun hc => by rw [hc] at hpos; omega
    refine .inl ⟨e, ?_⟩
    simp only [World.setInode, update_of_ne hne]
    exact ⟨hpos, hv, hi, hd⟩
  · refine .inr ⟨fun e hpos hi => ?_, hd⟩
    by_cases hne : e = ip
    · subst hne
      simp only [World.setInode, update_self]
    · simp only [World.setInode, update_of_ne hne] at hpos hi ⊢
      exact hn e hpos hi

/-- `h` is what a lookup or ialloc gets. -/
theorem iget (hb : Base c w H) (hs : w.iget inum = .ok (ip, w'))
    (hh : h = .ref ip inum false ∧ m = H p ∨ h = .fresh ip inum ∧ H p = .claimed inum ::ₘ m) :
    Base c w' (update H p (h ::ₘ m)) := by
  have hm : ∀ e, m.filter (·.on = some e) = (H p).filter (·.on = some e) := by
    intro e
    rcases hh with ⟨-, rfl⟩ | ⟨-, hp⟩
    · rfl
    · rw [hp, Multiset.filter_cons_of_neg _ (by simp [Hold.on])]
  have hc : ∀ x : Hold, x.loose = true → m.count x ≤ (H p).count x := by
    intro x _
    rcases hh with ⟨-, rfl⟩ | ⟨-, hp⟩
    · exact Nat.le_refl _
    · rw [hp]
      exact Multiset.count_le_count_cons _ _ _
  obtain ⟨hon, hl, hput, hlo, hf⟩ : h.on = some ip ∧ h.locks = false ∧ h.puts = false ∧
      h.loose = false ∧ ∀ v d, v.inum = inum → h.Fits v d := by
    rcases hh with ⟨rfl, -⟩ | ⟨rfl, -⟩ <;> exact ⟨rfl, rfl, rfl, rfl, fun _ _ hi => hi⟩
  rw [World.iget] at hs
  split at hs
  · rename_i ip' hfind
    obtain ⟨rfl, rfl⟩ : ip' = ip ∧ _ = w' := by simpa using hs
    obtain ⟨hpos, hi⟩ : 0 < (w.inode ip').ref ∧ (w.inode ip').inum = inum := by
      simpa using find_ip hfind
    exact hb.dup hpos hon hl hput hlo (hf _ _ hi) hm hc
  · rename_i hnone
    split at hs
    · cases hs
    · rename_i ip' hfind
      obtain ⟨rfl, rfl⟩ : ip' = ip ∧ _ = w' := by simpa using hs
      have hr : (w.inode ip').ref = 0 := by simpa using find_ip hfind
      refine hb.recycle hr ?_ hon hl hput hlo (hf _ _ rfl) hm hc
      intro e hpos hi
      have := List.find?_eq_none.mp hnone e (List.mem_finRange e)
      simp at this
      omega

theorem anchored_pos (hb : Base c w H) (hc : (w.proc p).cwd = some ip) : 0 < (w.inode ip).ref := by
  have h1 := (hb.entries.entry ip).ref
  have h2 := World.anchors_pos_of_cwd hc
  omega

theorem idupCwd (hb : Base c w H) (hs : w.idupCwd p = .ok (ip, w')) :
    Base c w' (update H p (.ref ip (w.inode ip).inum false ::ₘ H p)) := by
  rw [World.idupCwd] at hs
  split at hs
  · cases hs
  · rename_i ip' hc
    cases hs
    exact hb.dup (hb.anchored_pos hc) rfl rfl rfl rfl rfl (fun _ => rfl) fun _ _ => Nat.le_refl _

variable {v : Inode}

/-- The entry of an inode that a process holds. -/
theorem held (hb : Base c w H) (hp : H p = h ::ₘ r) (hon : h.on = some ip) :
    Entry (w.inode ip) (w.backing ip) (w.anchors ip) (H.on ip)
        (fun q => (w.proc q).iput = some ip) ∧
      H.on ip p = h ::ₘ r.filter (·.on = some ip) ∧ 0 < (w.inode ip).ref ∧
      w.backing ip = w.disk (w.inode ip).inum := by
  have hent := hb.entries.entry ip
  have hon := Entries.on_cons hp hon
  exact ⟨hent, hon, hent.ref_pos hon, World.backing_of_pos (hent.ref_pos hon)⟩

/-- A step of a process on an inode that it holds, which changes at most the entry. -/
theorem swap (hb : Base c w H) (hp : H p = h ::ₘ r) (hon : h.on = some ip) (hon' : h'.on = some ip)
    (hnone : ∀ q, ∀ x ∈ update (H.on ip) p (r.filter (·.on = some ip)) q, x.locks = false)
    (hi : v.inum = (w.inode ip).inum) (hr : v.ref = (w.inode ip).ref)
    (hl : v.lock = if h'.locks then some p else none) (hput : h'.puts = h.puts)
    (hlo : h.loose = false) (hlo' : h'.loose = false) (hf : h'.Fits v (w.disk v.inum))
    (hc : v.valid = true → h'.edits = false →
      v.copy = w.disk v.inum ∧ (w.disk v.inum).type ≠ .free)
    (hnow : (if v.valid then v.copy else w.disk (w.inode ip).inum) = w.now ip) :
    Base c (w.setInode ip v) (update H p (h' ::ₘ r)) := by
  have hpos := (hb.held hp hon).2.2.1
  have hE : Entries (w.setInode ip v) (update H p (h' ::ₘ r)) :=
    hb.entries.swap hp hon hon' hnone hi hr hl hput hf hc fun _ _ => rfl
  exact ⟨hE, hb.procs.calm (calm_setInode w ip _) fun x hx => hp ▸ count_swap hlo hlo' x hx,
    fun h => (hb.blocks h).setInode hb.entries hE hpos (hr ▸ hpos) hi (by rw [hnow]; exact fun _ h => h)⟩

theorem acquiresleep {loaded : Bool} (hb : Base c w H) (hs : w.acquiresleep p ip = .ok ((), w'))
    (hp : H p = .ref ip inum loaded ::ₘ r ∨ H p = .fresh ip inum ::ₘ r ∧ loaded = false) :
    Base c w' (update H p (.locking ip inum loaded ::ₘ r)) := by
  rw [World.acquiresleep] at hs
  split at hs
  · cases hs
  split at hs
  · cases hs
  rename_i hpos _ hl
  cases hs
  have hent := hb.entries.entry ip
  have hback := World.backing_of_pos (Nat.not_lt.mp hpos)
  obtain ⟨h, hp, hon, hlo, hput, hf⟩ : ∃ h : Hold, H p = h ::ₘ r ∧ h.on = some ip ∧
      h.loose = false ∧ h.puts = false ∧
      (h.Fits (w.inode ip) (w.backing ip) → (w.inode ip).inum = inum) := by
    rcases hp with hp | ⟨hp, -⟩ <;> exact ⟨_, hp, rfl, rfl, rfl, id⟩
  have hon' := Entries.on_cons hp hon
  have hrest : ∀ q, ∀ x ∈ update (H.on ip) p (r.filter (·.on = some ip)) q,
      x.locks = false := by
    refine Entry.forall_update ?_ fun q _ => hent.unlocked hl q
    intro x hx
    exact hent.unlocked hl p x (by rw [hon']; exact Multiset.mem_cons_of_mem hx)
  refine hb.swap hp hon rfl hrest rfl rfl rfl hput.symm hlo rfl
    (hf (hent.fits_head hon')) ?_ rfl
  intro hv _
  have hco := hent.coherent hv (by omega) fun q x hx =>
    Hold.edits_eq_false (hent.unlocked hl q x hx)
  rwa [hback] at hco

theorem load {loaded : Bool} {x : Nat × Dinode} (hb : Base c w H) (hs : w.load ip = .ok (x, w'))
    (hp : H p = .locking ip inum loaded ::ₘ r) :
    x.1 = inum ∧ x.2.type ≠ .free ∧ x.2 = w.disk inum ∧
      Base c w' (update H p (.locked ip inum false x.2 x.2 ::ₘ r)) := by
  obtain ⟨hent, hon, hpos, hback⟩ := hb.held hp rfl
  have hinum : (w.inode ip).inum = inum := hent.fits_head hon
  have hrest := hent.sole hon rfl
  have hl : (w.inode ip).lock = some p := hent.owner hon rfl
  have hedit : ∀ q, ∀ x ∈ H.on ip q, x.edits = false := by
    intro q x hx
    by_cases hq : q = p
    · subst hq
      rw [hon] at hx
      rcases Multiset.mem_cons.mp hx with rfl | hx
      · rfl
      · exact Hold.edits_eq_false (hrest q x (by simpa using hx))
    · exact Hold.edits_eq_false (hrest q x (by simpa [update_of_ne hq] using hx))
  rw [World.load] at hs
  split at hs
  · rename_i hv
    cases hs
    obtain ⟨hco, hty⟩ := hent.coherent hv hpos hedit
    rw [hback, hinum] at hco hty
    refine ⟨hinum, hco ▸ hty, hco, ?_⟩
    have hsame : w.setInode ip (w.inode ip) = w := by
      rw [World.setInode, update_eq_self]
    have hb' : Base c (w.setInode ip (w.inode ip)) (update H p
        (.locked ip inum false (w.inode ip).copy (w.inode ip).copy ::ₘ r)) := by
      refine hb.swap hp rfl rfl hrest rfl rfl hl rfl rfl rfl ?_ (fun _ hc => by cases hc) rfl
      refine ⟨hinum, hv, rfl, ?_, hco ▸ hty, fun hc => by cases hc⟩
      rw [hinum]
      exact hco.symm
    rwa [hsame] at hb'
  · rename_i hv
    split at hs
    · cases hs
    · rename_i hty
      cases hs
      refine ⟨hinum, hty, by rw [hinum], ?_⟩
      refine hb.swap hp rfl rfl hrest rfl rfl hl rfl rfl rfl ?_ (fun _ hc => by cases hc) ?_
      · exact ⟨hinum, rfl, rfl, rfl, hty, fun hc => by cases hc⟩
      · simp [World.now, hv]

theorem iunlock {d : Dinode} (hb : Base c w H) (hs : w.iunlock p ip = .ok ((), w'))
    (hp : H p = .locked ip inum false d d ::ₘ r) :
    Base c w' (update H p (.ref ip inum true ::ₘ r)) := by
  rw [World.iunlock] at hs
  split at hs
  · cases hs
  cases hs
  obtain ⟨hent, hon, -, hback⟩ := hb.held hp rfl
  obtain ⟨hinum, hv, hcopy, hd, hty, -⟩ := hent.fits_head hon
  rw [hback] at hd
  refine hb.swap hp rfl rfl (hent.sole hon rfl) rfl rfl rfl rfl rfl rfl hinum ?_ rfl
  intro _ _
  exact ⟨hcopy.trans hd.symm, hd ▸ hty⟩

theorem invalidate (hb : Base c w H) (hp : H p = .freed ip inum ::ₘ r) :
    Base c (w.invalidate ip) (update H p (.dropping ip inum ::ₘ r)) := by
  obtain ⟨hent, hon, hpos, -⟩ := hb.held hp rfl
  obtain ⟨hinum, hblocks⟩ := hent.fits_head hon
  have hE : Entries (w.invalidate ip) (update H p (.dropping ip inum ::ₘ r)) :=
    hb.entries.swap hp rfl rfl (hent.sole hon rfl) rfl rfl rfl rfl hinum (fun hc => by cases hc)
      fun _ _ => rfl
  refine ⟨hE, hb.procs.calm (calm_setInode w ip _) fun x hx => hp ▸ count_swap rfl rfl x hx,
    fun h => (hb.blocks h).setInode hb.entries hE hpos hpos rfl fun b hbn => ?_⟩
  rw [World.now] at hbn
  split at hbn
  · simp [hblocks] at hbn
  · exact hbn

theorem iupdate {d m d' : Dinode} {freeing : Bool} (hb : Base c w H)
    (hp : H p = .locked ip inum freeing m d ::ₘ r) (hblocks : m.blocks ⊆ d'.blocks)
    (hw : d.Whole → d'.Whole) (hn : freeing = true → d'.nlink = 0)
    (hh : d'.type ≠ .free ∧ h' = .locked ip inum freeing d' d' ∨
      d'.type = .free ∧ freeing = true ∧ d'.blocks = [] ∧ h' = .freed ip inum) :
    Base c (w.iupdate ip d') (update H p (h' ::ₘ r)) := by
  obtain ⟨hent, hon, hpos, -⟩ := hb.held hp rfl
  obtain ⟨hinum, hv, hcopy, hd, -, -⟩ := hent.fits_head hon
  have hE : Entries (w.iupdate ip d') (update H p (h' ::ₘ r)) := by
    show Entries { w with
      inode := update w.inode ip { w.inode ip with copy := d' }
      disk := update w.disk (w.inode ip).inum d'
      used := w.used } _
    refine hb.entries.swap hp rfl ?_ (hent.sole hon rfl) rfl rfl
      ?_ ?_ ?_ ?_ fun i hne => update_of_ne hne _ _
    · rcases hh with ⟨-, rfl⟩ | ⟨-, -, -, rfl⟩ <;> rfl
    · rcases hh with ⟨-, rfl⟩ | ⟨-, -, -, rfl⟩ <;> exact hent.owner hon rfl
    · rcases hh with ⟨-, rfl⟩ | ⟨-, hfr, -, rfl⟩
      · rfl
      · exact hfr.symm
    · rcases hh with ⟨hty, rfl⟩ | ⟨hty, hfr, hbl, rfl⟩
      · exact ⟨hinum, hv, rfl, update_self _ _ _, hty, hn⟩
      · exact ⟨hinum, hbl⟩
    · intro _ hc
      rcases hh with ⟨-, rfl⟩ | ⟨-, -, -, rfl⟩ <;> cases hc
  refine ⟨hE, hb.procs.calm ⟨rfl, fun _ => rfl, fun _ => rfl, fun _ => rfl⟩ fun x hx =>
    hp ▸ count_swap rfl (by rcases hh with ⟨-, rfl⟩ | ⟨-, -, -, rfl⟩ <;> rfl) x hx, fun h => ?_⟩
  have hnow : (w.iupdate ip d').now ip = d' := by
    simp [World.now, World.iupdate, World.setInode, World.setDisk]
  refine (hb.blocks h).edit hb.entries hE (fun e' hne => update_of_ne hne _ _)
    hpos ?_ ?_ (fun i hne => update_of_ne hne _ _) rfl ?_ ?_
  · simpa [World.iupdate, World.setInode, World.setDisk] using hpos
  · simp [World.iupdate, World.setInode, World.setDisk]
  · simp only [World.iupdate, World.setDisk, update_self]
    refine ⟨fun hty => ?_, hw ?_⟩
    · rcases hh with ⟨hty', -⟩ | ⟨-, hfr, hbl, -⟩
      · exact absurd hty hty'
      · exact ⟨hbl, hn hfr⟩
    · rw [← hd, World.backing_of_pos hpos]
      exact ((hb.blocks h).tidy _).whole
  · intro b hu
    refine .inl ⟨hu, fun hbn => ?_⟩
    rw [World.now, if_pos hv, hcopy] at hbn
    rw [hnow]
    exact hblocks hbn

theorem setUsed {b : Nat} {u freeing : Bool} {m m' d : Dinode} (hb : Base c w H)
    (hp : H p = .locked ip inum freeing m d ::ₘ r) (hn : m'.nlink = m.nlink)
    (hown : ∀ b', update w.used b u b' = true →
      w.used b' = true ∧ (b' ∈ m.blocks → b' ∈ m'.blocks) ∨ b' ∈ m'.blocks) :
    Base c ((w.setUsed b u).setInode ip { w.inode ip with copy := m' })
      (update H p (.locked ip inum freeing m' d ::ₘ r)) := by
  obtain ⟨hent, hon, hpos, hback⟩ := hb.held hp rfl
  obtain ⟨hinum, hv, hcopy, hd, hty, hnl⟩ := hent.fits_head hon
  have hE : Entries ((w.setUsed b u).setInode ip { w.inode ip with copy := m' })
      (update H p (.locked ip inum freeing m' d ::ₘ r)) := by
    refine hb.entries.swap hp rfl rfl (hent.sole hon rfl) rfl
      rfl (hent.owner hon rfl) rfl ?_ (fun _ hc => by cases hc) fun _ _ => rfl
    exact ⟨hinum, hv, rfl, hback ▸ hd, hty, fun hf => hn.trans (hnl hf)⟩
  refine ⟨hE, hb.procs.calm ⟨rfl, fun _ => rfl, fun _ => rfl, fun _ => rfl⟩ fun x hx =>
    hp ▸ count_swap rfl rfl x hx, fun h => ?_⟩
  have hB := hb.blocks h
  refine hB.edit hb.entries hE (fun e' hne => update_of_ne hne _ _) hpos ?_
    ?_ (fun _ _ => rfl) rfl (hB.tidy _) ?_
  · simpa [World.setInode] using hpos
  · simp [World.setInode]
  · intro b' hu
    have hnow : World.now ((w.setUsed b u).setInode ip { w.inode ip with copy := m' }) ip = m' := by
      simp [World.now, World.setInode, hv]
    rw [hnow, World.now, if_pos hv, hcopy]
    exact hown b' hu

theorem balloc {indirect : Bool} {x : Option Nat} {m d : Dinode} (hb : Base c w H)
    (hs : w.balloc ip indirect = (x, w')) (hp : H p = .locked ip inum false m d ::ₘ r)
    (hi : indirect = true → m.indirect = none) :
    x = none ∧ w' = w ∨ ∃ b, x = some b ∧
      Base c w' (update H p (.locked ip inum false (m.grow indirect b) d ::ₘ r)) := by
  rw [World.balloc] at hs
  split at hs
  · cases hs
    exact .inl ⟨rfl, rfl⟩
  · rename_i b _
    cases hs
    refine .inr ⟨b, rfl, ?_⟩
    have hcopy : (w.inode ip).copy = m :=
      ((hb.entries.entry ip).fits_head (Entries.on_cons hp rfl)).2.2.1
    rw [hcopy]
    have hmem : ∀ b', b' ∈ (m.grow indirect b).blocks ↔ b' ∈ m.blocks ∨ b' = b := by
      intro b'
      cases indirect with
      | true => simp [Dinode.grow, Dinode.blocks, hi rfl]
      | false =>
        simp only [Dinode.grow, Dinode.blocks, List.mem_append, List.mem_singleton, Bool.false_eq_true,
          if_false]
        tauto
    refine hb.setUsed hp (by unfold Dinode.grow; split <;> rfl) fun b' hu => ?_
    by_cases hbb : b' = b
    · exact .inr ((hmem b').mpr (.inr hbb))
    · rw [update_of_ne hbb] at hu
      exact .inl ⟨hu, fun h => (hmem b').mpr (.inl h)⟩

theorem bfree {b : Nat} {indirect freeing : Bool} {m d : Dinode} (hb : Base c w H)
    (hs : w.bfree ip b indirect = .ok ((), w')) (hp : H p = .locked ip inum freeing m d ::ₘ r)
    (hi : indirect = true → m.indirect = some b) :
    Base c w' (update H p (.locked ip inum freeing (m.shrink indirect b) d ::ₘ r)) := by
  rw [World.bfree] at hs
  split at hs
  · cases hs
  cases hs
  have hcopy : (w.inode ip).copy = m :=
    ((hb.entries.entry ip).fits_head (Entries.on_cons hp rfl)).2.2.1
  rw [hcopy]
  refine hb.setUsed hp (by unfold Dinode.shrink; split <;> rfl) fun b' hu => ?_
  have hbb : b' ≠ b := fun hc => by
    subst hc
    simp at hu
  rw [update_of_ne hbb] at hu
  refine .inl ⟨hu, fun h => ?_⟩
  cases indirect with
  | true =>
    simp only [Dinode.blocks, hi rfl, Option.toList_some, List.mem_append, List.mem_singleton, hbb] at h
    simpa [Dinode.shrink, Dinode.blocks] using h
  | false =>
    simp only [Dinode.blocks, List.mem_append] at h ⊢
    exact h.imp_left (List.mem_erase_of_ne hbb).mpr

/-- What becomes of the blocks when the last reference to an entry is gone. -/
theorem leave {n : Nat} {H' : Holds} (hb : Base c w H) (proc : ProcId → Proc) (hp : H p = h ::ₘ r)
    (hon : h.on = some ip) (hl : h.locks = false) (hn : n + 1 = (w.inode ip).ref)
    (hE : Entries { w with
      inode := update w.inode ip { w.inode ip with ref := n }
      proc := proc } H') (hcons : c) :
    Blocks { w with
      inode := update w.inode ip { w.inode ip with ref := n }
      proc := proc } := by
  have hB := hb.blocks hcons
  obtain ⟨hent, hon', hpos, -⟩ := hb.held hp hon
  by_cases hz : n = 0
  · -- nobody has the inode locked, so what the table has is what the disk has
    refine ⟨hB.tidy, fun b hu hmeta => ?_⟩
    obtain ⟨i, d, hc, hbd⟩ := hB.owned b hu hmeta
    refine ⟨i, d, ?_, hbd⟩
    have hback := World.backing_of_pos hpos
    by_cases hi : i = (w.inode ip).inum
    · subst hi
      rw [(hb.entries.current hpos).mp hc]
      refine .inr ⟨fun e hpos' hi => ?_, ?_⟩
      · by_cases he : e = ip
        · subst he
          simp [hz] at hpos'
        · simp only [update_of_ne he] at hpos' hi
          exact absurd (hb.entries.unique e ip hpos' hpos hi) he
      · show w.disk (w.inode ip).inum = w.now ip
        unfold World.now
        split
        · rename_i hv
          obtain ⟨-, hr, hother⟩ := hent.alone hon' (by omega)
          refine hback ▸ (hent.coherent hv hpos fun q x hx => ?_).1.symm
          by_cases hq : q = p
          · subst hq
            rw [hon', hr] at hx
            obtain rfl : x = h := by simpa using hx
            exact Hold.edits_eq_false hl
          · rw [hother q hq] at hx
            simp at hx
        · rfl
    · exact hc.of_ne (fun e he => update_of_ne he _ _) (fun _ => Ne.symm hi)
        (fun h => by simp [hz] at h) rfl
  · refine hB.edit hb.entries hE (fun e he => update_of_ne he _ _) hpos
      ?_ ?_ (fun _ _ => rfl) rfl (hB.tidy _) fun b hu => .inl ⟨hu, fun hbn => ?_⟩
    · simp only [update_self]
      omega
    · simp only [update_self]
    · simpa [World.now] using hbn

theorem iput {loaded : Bool} {x : Option Dinode} (hb : Base c w H) (hs : w.iput p ip = .ok (x, w'))
    (hp : H p = .ref ip inum loaded ::ₘ r) (hput : ∀ x ∈ r, x.puts = false) :
    x = none ∧ Base c w' (update H p r) ∨ ∃ d, x = some d ∧ d.type ≠ .free ∧ d.nlink = 0 ∧
      Base c w' (update H p (.locked ip inum true d d ::ₘ r)) := by
  obtain ⟨hent, hon, hpos, -⟩ := hb.held hp rfl
  rw [World.iput] at hs
  split at hs
  · rename_i hc
    split at hs
    · cases hs
    · rename_i hl
      cases hs
      obtain ⟨hty, hE⟩ := hb.entries.free hp hc.1 hc.2.1 hc.2.2 hl hput
      refine .inr ⟨_, rfl, hty, hc.2.2, hE, ?_, ?_⟩
      · exact hb.procs.calm ((calm_setInode w ip _).setProc rfl rfl rfl) fun x hx =>
          hp ▸ count_swap rfl rfl x hx
      · intro h
        refine (hb.blocks h).edit hb.entries hE (fun e he => update_of_ne he _ _)
          hpos ?_ ?_ (fun _ _ => rfl) rfl ((hb.blocks h).tidy _) fun b hu => .inl ⟨hu, fun hbn => ?_⟩
        · simpa [World.setProc, World.setInode] using hpos
        · simp [World.setProc, World.setInode]
        · simpa [World.now, World.setProc, World.setInode] using hbn
  · cases hs
    have hE : Entries (w.setInode ip { w.inode ip with ref := (w.inode ip).ref - 1 })
        (update H p r) := by
      refine hb.entries.remove w.proc hp rfl rfl (by omega) (fun _ => rfl)
        (fun _ _ => rfl) fun e => ?_
      rw [(hb.entries.entry e).putting p]
      simp only [Holds.on, hp, Multiset.mem_filter, Multiset.mem_cons]
      constructor
      · rintro ⟨x, ⟨rfl | hx, hxe⟩, hxp⟩
        · simp [Hold.puts] at hxp
        · exact ⟨x, hx, hxe, hxp⟩
      · rintro ⟨x, hx, hxe, hxp⟩
        exact ⟨x, ⟨.inr hx, hxe⟩, hxp⟩
    exact .inl ⟨rfl, hE, hb.procs.calm (calm_setInode w ip _) fun x _ =>
      hp ▸ Multiset.count_le_count_cons _ _ _, hb.leave w.proc hp rfl rfl (by omega) hE⟩

theorem drop (hb : Base c w H) (hp : H p = .dropping ip inum ::ₘ r)
    (hput : ∀ x ∈ r, x.puts = false) : Base c (w.drop p ip) (update H p r) := by
  obtain ⟨hent, hon, hpos, -⟩ := hb.held hp rfl
  have hcalm : Calm w (w.drop p ip) := (calm_setInode w ip _).setProc rfl rfl rfl
  have hE : Entries (w.drop p ip) (update H p r) := by
    refine hb.entries.remove (update w.proc p { w.proc p with iput := none }) hp
      rfl rfl (by omega) hcalm.cwd (fun q hq => update_of_ne hq _ _) fun e => ?_
    simp only [update_self]
    constructor
    · intro hc
      cases hc
    · rintro ⟨x, hx, -, hxp⟩
      simp [hput x hx] at hxp
  exact ⟨hE, hb.procs.calm hcalm fun x _ => hp ▸ Multiset.count_le_count_cons _ _ _,
    hb.leave (update w.proc p { w.proc p with iput := none }) hp rfl rfl (by omega) hE⟩

theorem claim {type : FileType} {x : Bool} (hb : Base c w H) (hs : w.claim inum type = (x, w'))
    (hty : type ≠ .free) :
    x = false ∧ w' = w ∨ x = true ∧ Base c w' (update H p (.claimed inum ::ₘ H p)) := by
  rw [World.claim] at hs
  split at hs
  · rename_i hfree
    cases hs
    refine .inr ⟨rfl, hb.entries.claim hfree fun e => Multiset.filter_cons_of_neg _ (by simp [Hold.on]),
      hb.procs.calm ⟨rfl, fun _ => rfl, fun _ => rfl, fun _ => rfl⟩ fun x hx => count_add rfl x hx,
      fun h => ⟨?_, ?_⟩⟩
    · intro i
      by_cases hi : i = inum
      · subst hi
        simp only [World.setDisk, update_self]
        exact ⟨fun hf => absurd hf hty, Nat.zero_le _⟩
      · simp only [World.setDisk, update_of_ne hi]
        exact (hb.blocks h).tidy i
    · intro b hu hmeta
      obtain ⟨i, d, hc, hbd⟩ := (hb.blocks h).owned b hu hmeta
      refine ⟨i, d, ?_, hbd⟩
      rcases hc with hc | ⟨hn, hd⟩
      · exact .inl hc
      · refine .inr ⟨hn, ?_⟩
        by_cases hi : i = inum
        · subst hi
          rw [← hd, (((hb.blocks h).tidy i).free hfree).1] at hbd
          cases hbd
        · simpa only [World.setDisk, update_of_ne hi] using hd
  · cases hs
    exact .inl ⟨rfl, rfl⟩

end Base

end Xv6.Fs
