import Xv6.Fs.Entry
import Xv6.Fs.Slots

namespace Xv6.Fs

open Xv6.Framework

abbrev Holds := ProcId → Multiset Hold

def Holds.on (H : Holds) (e : Ip) : Holds := fun p => (H p).filter (·.on = some e)

theorem Holds.on_update (H : Holds) (p : ProcId) (m : Multiset Hold) (e : Ip) :
    Holds.on (update H p m) e =
      update (H.on e) p (m.filter (·.on = some e)) := by
  funext q
  by_cases hq : q = p
  · subst hq
    simp [Holds.on]
  · simp [Holds.on, update_of_ne hq]

namespace World

@[irreducible]
def fileAnchors (file : Fin NFILE → File) (e : Ip) : Nat :=
  ∑ f, (if (file f).ip = some e then 1 else 0)

@[irreducible]
def cwdAnchors (proc : ProcId → Proc) (e : Ip) : Nat :=
  ∑ p, (if (proc p).cwd = some e then 1 else 0)

def anchors (w : World) (e : Ip) : Nat := fileAnchors w.file e + cwdAnchors w.proc e

/-- The inode of an entry in use, as it is on disk. -/
def backing (w : World) (e : Ip) : Dinode :=
  if (w.inode e).ref = 0 then .zero else w.disk (w.inode e).inum

theorem backing_of_pos {w : World} {e : Ip} (h : 0 < (w.inode e).ref) :
    w.backing e = w.disk (w.inode e).inum := if_neg (Nat.ne_of_gt h)

@[irreducible]
def slots (w : World) (f : Fin NFILE) : Nat := ∑ p, slotsOf (w.proc p).ofile f

/-- What an inode is now: the fields in the table if they are valid, those on disk if not. -/
def Current (w : World) (inum : Nat) (d : Dinode) : Prop :=
  (∃ e, 0 < (w.inode e).ref ∧ (w.inode e).valid = true ∧ (w.inode e).inum = inum ∧
    (w.inode e).copy = d) ∨
  (∀ e, 0 < (w.inode e).ref → (w.inode e).inum = inum → (w.inode e).valid = false) ∧
    w.disk inum = d

theorem anchors_congr (w w' : World) (hf : w'.file = w.file)
    (hc : ∀ q, (w'.proc q).cwd = (w.proc q).cwd) (e : Ip) : w'.anchors e = w.anchors e := by
  unfold anchors cwdAnchors
  simp only [hf, hc]

/-- A field that a store to one process leaves alone. -/
theorem setProc_field {α : Type} (w : World) (p : ProcId) {v : Proc} (f : Proc → α)
    (hv : f v = f (w.proc p)) (q : ProcId) : f ((w.setProc p v).proc q) = f (w.proc q) := by
  by_cases hq : q = p
  · subst hq
    exact (congrArg f (update_self _ _ _)).trans hv
  · exact congrArg f (update_of_ne hq _ _)

end World

structure Entries (w : World) (H : Holds) : Prop where
  entry : ∀ e, Entry (w.inode e) (w.backing e) (w.anchors e) (H.on e)
    fun p => (w.proc p).iput = some e
  unique : ∀ e e', 0 < (w.inode e).ref → 0 < (w.inode e').ref →
    (w.inode e).inum = (w.inode e').inum → e = e'

def Hold.loose : Hold → Bool
  | .adrift => true
  | .reserved _ => true
  | _ => false

def Hold.Loose (w : World) (p : ProcId) : Hold → Prop
  | .adrift => (w.proc p).live = true ∧ (w.proc p).cwd = none
  | .reserved fd => (w.proc p).live = true ∧
      ∃ f, (w.proc p).ofile fd = some f ∧ (w.file f).ref = 1 ∧ (w.file f).ip = none
  | _ => True

/-- Processes and open files. -/
structure Procs (w : World) (H : Holds) : Prop where
  loose : ∀ p, ∀ h ∈ H p, h.Loose w p
  once : ∀ p (h : Hold), h.loose = true → (H p).count h ≤ 1
  slots : ∀ f, w.slots f ≤ (w.file f).ref
  unopened : ∀ f, (w.file f).ref = 0 → (w.file f).ip = none
  idle : ∀ p, (w.proc p).live = false → (w.proc p).cwd = none

/-- A free inode is clear, and a directory has no hole. -/
structure Dinode.Tidy (d : Dinode) : Prop where
  free : d.type = .free → d.blocks = [] ∧ d.nlink = 0
  whole : d.Whole

/-- The inodes on disk are tidy, and every data block in use is that of an inode. -/
structure Blocks (w : World) : Prop where
  tidy : ∀ i, (w.disk i).Tidy
  owned : ∀ b, w.used b = true → w.nmeta ≤ b → ∃ i d, w.Current i d ∧ b ∈ d.blocks

/-- `c` says that the disk is consistent. -/
structure Base (c : Prop) (w : World) (H : Holds) : Prop where
  entries : Entries w H
  procs : Procs w H
  blocks : c → Blocks w

variable {w w' : World} {H : Holds} {p : ProcId} {e : Ip} {m r : Multiset Hold} {h h' : Hold}

namespace Entries

theorem live_inum (hE : Entries w H) {x : Hold} (hx : x ∈ H p) (he : x.on = some e) :
    0 < (w.inode e).ref := by
  have hmem : x ∈ H.on e p := Multiset.mem_filter.mpr ⟨hx, he⟩
  obtain ⟨r, hr⟩ := Multiset.exists_cons_of_mem hmem
  exact (hE.entry e).ref_pos hr

theorem edit (hE : Entries w H) (hinode : ∀ e', e' ≠ e → w'.inode e' = w.inode e')
    (hanch : ∀ e', e' ≠ e → w'.anchors e' = w.anchors e')
    (hdisk : ∀ e', e' ≠ e → 0 < (w.inode e').ref →
      w'.disk (w.inode e').inum = w.disk (w.inode e').inum)
    (hm : ∀ e', e' ≠ e → m.filter (·.on = some e') = (H p).filter (·.on = some e'))
    (hput : ∀ e', e' ≠ e → ∀ q, (w'.proc q).iput = some e' ↔ (w.proc q).iput = some e')
    (hent : Entry (w'.inode e) (w'.backing e) (w'.anchors e)
      (update (H.on e) p (m.filter (·.on = some e))) fun q => (w'.proc q).iput = some e)
    (huniq : ∀ e', e' ≠ e → 0 < (w.inode e').ref → 0 < (w'.inode e).ref →
      (w.inode e').inum ≠ (w'.inode e).inum) :
    Entries w' (update H p m) := by
  constructor
  · intro e'
    rw [Holds.on_update]
    by_cases he : e' = e
    · subst he
      exact hent
    · have hb : w'.backing e' = w.backing e' := by
        rw [World.backing, World.backing, hinode e' he]
        split
        · rfl
        · exact hdisk e' he (by omega)
      have hs : update (H.on e') p (m.filter (·.on = some e')) = H.on e' := by
        rw [hm e' he]
        exact update_eq_self p _
      rw [hs, hinode e' he, hb, hanch e' he, show (fun q => (w'.proc q).iput = some e') =
        fun q => (w.proc q).iput = some e' from funext fun q => propext (hput e' he q)]
      exact hE.entry e'
  · intro e₁ e₂ h₁ h₂ hi
    by_cases he₁ : e₁ = e
    · by_cases he₂ : e₂ = e
      · rw [he₁, he₂]
      · rw [hinode e₂ he₂] at h₂ hi
        subst he₁
        exact absurd hi.symm (huniq e₂ he₂ h₂ h₁)
    · rw [hinode e₁ he₁] at h₁ hi
      by_cases he₂ : e₂ = e
      · subst he₂
        exact absurd hi (huniq e₁ he₁ h₁ h₂)
      · rw [hinode e₂ he₂] at h₂ hi
        exact hE.unique e₁ e₂ h₁ h₂ hi

theorem filter_cons_on (he : h.on = some e) :
    (h ::ₘ r).filter (·.on = some e) = h ::ₘ r.filter (·.on = some e) :=
  Multiset.filter_cons_of_pos r he

theorem on_cons (hp : H p = h ::ₘ r) (he : h.on = some e) :
    H.on e p = h ::ₘ r.filter (·.on = some e) := by
  rw [Holds.on, hp, filter_cons_on he]

theorem filter_cons_ne (he : h.on = some e) {e' : Ip} (hne : e' ≠ e) :
    (h ::ₘ r).filter (·.on = some e') = r.filter (·.on = some e') :=
  Multiset.filter_cons_of_neg r (by simpa [he] using hne.symm)

variable {v : Inode} {disk : Nat → Dinode} {used : Nat → Bool} {inum : Nat} {loaded : Bool}

theorem swap (hE : Entries w H) (hp : H p = h ::ₘ r) (he : h.on = some e) (he' : h'.on = some e)
    (hnone : ∀ q, ∀ x ∈ update (H.on e) p (r.filter (·.on = some e)) q, x.locks = false)
    (hi : v.inum = (w.inode e).inum) (hr : v.ref = (w.inode e).ref)
    (hl : v.lock = if h'.locks then some p else none) (hput : h'.puts = h.puts)
    (hf : h'.Fits v (disk v.inum))
    (hc : v.valid = true → h'.edits = false → v.copy = disk v.inum ∧ (disk v.inum).type ≠ .free)
    (hd : ∀ i, i ≠ v.inum → disk i = w.disk i) :
    Entries { w with
      inode := update w.inode e v
      disk := disk
      used := used } (update H p (h' ::ₘ r)) := by
  have hpos := (hE.entry e).ref_pos (on_cons hp he)
  have hanch := World.anchors_congr w { w with
    inode := update w.inode e v
    disk := disk
    used := used } rfl fun _ => rfl
  refine hE.edit (fun e' hne => update_of_ne hne _ _) (fun e' _ => hanch e') ?_ ?_
    (fun _ _ _ => Iff.rfl) ?_ ?_
  · intro e' hne hpos'
    refine hd _ fun hi' => hne (hE.unique e' e hpos' hpos (hi'.trans hi))
  · intro e' hne
    rw [hp, filter_cons_ne he hne, filter_cons_ne he' hne]
  · rw [filter_cons_on he']
    simp only [World.backing, update_self]
    rw [if_neg (by omega)]
    exact (hE.entry e).swap (on_cons hp he) hnone hi hr hl hput hf hc
  · intro e' hne hpos' _ hi'
    simp only [update_self] at hi'
    exact hne (hE.unique e' e hpos' hpos (hi'.trans hi))

theorem add (hE : Entries w H) (hpos : 0 < (w.inode e).ref) (he : h.on = some e)
    (hl : h.locks = false) (hput : h.puts = false) (hf : h.Fits (w.inode e) (w.backing e))
    (hm : ∀ e', m.filter (·.on = some e') = (H p).filter (·.on = some e')) :
    Entries (w.setInode e { w.inode e with ref := (w.inode e).ref + 1 })
      (update H p (h ::ₘ m)) := by
  have hanch := World.anchors_congr w (w.setInode e { w.inode e with ref := (w.inode e).ref + 1 })
    rfl fun _ => rfl
  refine hE.edit (fun e' hne => update_of_ne hne _ _) (fun e' _ => hanch e')
    (fun _ _ _ => rfl) (fun e' hne => (filter_cons_ne he hne).trans (hm e'))
    (fun _ _ _ => Iff.rfl) ?_ ?_
  · rw [filter_cons_on he, hm e]
    have hback : (w.setInode e { w.inode e with ref := (w.inode e).ref + 1 }).backing e =
        w.backing e := by
      simp only [World.backing, World.setInode, update_self]
      rw [if_neg (by omega), if_neg (by omega)]
    rw [hback, hanch e]
    simp only [World.setInode, update_self]
    exact (hE.entry e).add hpos (by omega) hl hput hf
  · intro e' hne hpos' _ hi
    simp only [World.setInode, update_self] at hi
    exact hne (hE.unique e' e hpos' hpos hi)

theorem recycle (hE : Entries w H) (hr : (w.inode e).ref = 0)
    (hnew : ∀ e', 0 < (w.inode e').ref → (w.inode e').inum ≠ inum) (he : h.on = some e)
    (hl : h.locks = false) (hput : h.puts = false)
    (hf : h.Fits { w.inode e with inum := inum, ref := 1, valid := false } (w.disk inum))
    (hm : ∀ e', m.filter (·.on = some e') = (H p).filter (·.on = some e')) :
    Entries (w.setInode e { w.inode e with inum := inum, ref := 1, valid := false })
      (update H p (h ::ₘ m)) := by
  have hanch := World.anchors_congr w
    (w.setInode e { w.inode e with inum := inum, ref := 1, valid := false }) rfl fun _ => rfl
  refine hE.edit (fun e' hne => update_of_ne hne _ _) (fun e' _ => hanch e')
    (fun _ _ _ => rfl) (fun e' hne => (filter_cons_ne he hne).trans (hm e'))
    (fun _ _ _ => Iff.rfl) ?_ ?_
  · rw [filter_cons_on he, hm e]
    simp only [World.backing, World.setInode, update_self]
    exact (hE.entry e).recycle hr hl hput hf
  · intro e' hne hpos' _ hi
    simp only [World.setInode, update_self] at hi
    exact hnew e' hpos' hi

/-- The last section of iput, whether or not the inode has been freed. -/
theorem remove {n : Nat} (hE : Entries w H) (proc : ProcId → Proc) (hp : H p = h ::ₘ r)
    (he : h.on = some e) (hl : h.locks = false) (hn : n + 1 = (w.inode e).ref)
    (hcwd : ∀ q, (proc q).cwd = (w.proc q).cwd) (hproc : ∀ q, q ≠ p → proc q = w.proc q)
    (hput : ∀ e', (proc p).iput = some e' ↔ ∃ x ∈ r, x.on = some e' ∧ x.puts = true) :
    Entries { w with
      inode := update w.inode e { w.inode e with ref := n }
      proc := proc } (update H p r) := by
  have hpos := (hE.entry e).ref_pos (on_cons hp he)
  have hanch := World.anchors_congr w { w with
    inode := update w.inode e { w.inode e with ref := n }
    proc := proc } rfl hcwd
  refine hE.edit (fun e' hne => update_of_ne hne _ _) (fun e' _ => hanch e')
    (fun _ _ _ => rfl) (fun e' hne => by rw [hp, filter_cons_ne he hne]) ?_ ?_ ?_
  · intro e' hne q
    by_cases hq : q = p
    · subst hq
      rw [(hE.entry e').putting q]
      simp only [hput e', Holds.on, hp, filter_cons_ne he hne, Multiset.mem_filter, and_assoc]
    · simp only [hproc q hq]
  · rw [hanch e]
    simp only [World.backing, update_self]
    refine (hE.entry e).remove (on_cons hp he) (by omega) hl ?_ ?_ ?_
    · intro q hq
      rw [hproc q hq]
    · simp only [hput e, Multiset.mem_filter, and_assoc]
    · intro hn'
      rw [World.backing, if_neg (by omega), if_neg (by omega)]
  · intro e' hne hpos' _ hi
    simp only [update_self] at hi
    exact hne (hE.unique e' e hpos' hpos hi)

/-- The first section of iput when it is to free the inode. -/
theorem free (hE : Entries w H)
    (hp : H p = .ref e inum loaded ::ₘ r) (hr : (w.inode e).ref = 1)
    (hv : (w.inode e).valid = true) (hn : (w.inode e).copy.nlink = 0)
    (hl : (w.inode e).lock = none) (hput : ∀ x ∈ r, x.puts = false) :
    (w.inode e).copy.type ≠ .free ∧
    Entries ((w.setInode e { w.inode e with lock := some p }).setProc p
        { w.proc p with iput := some e })
      (update H p
        (.locked e inum true (w.inode e).copy (w.inode e).copy ::ₘ r)) := by
  have hon := on_cons hp rfl
  have hent := hE.entry e
  have hpos : 0 < (w.inode e).ref := by omega
  have hback := World.backing_of_pos hpos
  obtain ⟨hco, hty⟩ := hent.coherent hv hpos fun q x hx =>
    Hold.edits_eq_false (hent.unlocked hl q x hx)
  have hother : ∀ e', e' ≠ e → (w.proc p).iput ≠ some e' := by
    intro e' hne hc
    obtain ⟨x, hx, hxp⟩ := ((hE.entry e').putting p).mp hc
    rw [Holds.on, hp, filter_cons_ne rfl hne] at hx
    simp [hput x (Multiset.mem_of_mem_filter hx)] at hxp
  have hnoput : r.countP (·.puts = true) = 0 :=
    Multiset.countP_eq_zero.mpr fun x hx => by simp [hput x hx]
  have hanch := World.anchors_congr w ((w.setInode e
    { w.inode e with lock := some p }).setProc p { w.proc p with iput := some e }) rfl
    (World.setProc_field _ p Proc.cwd rfl)
  refine ⟨hco ▸ hty, hE.edit (fun e' hne => update_of_ne hne _ _)
    (fun e' _ => hanch e') (fun _ _ _ => rfl) ?_ ?_ ?_ ?_⟩
  · intro e' hne
    rw [hp, filter_cons_ne rfl hne, filter_cons_ne rfl hne]
  · intro e' hne q
    by_cases hq : q = p
    · subst hq
      simp only [World.setProc, update_self, hother e' hne, Option.some.injEq,
        Ne.symm hne]
    · simp only [World.setProc, update_of_ne hq, World.setInode]
  · rw [hanch e, filter_cons_on rfl]
    simp only [World.backing, World.setProc, World.setInode, update_self]
    rw [if_neg (by omega)]
    refine hent.replace hon ?_ rfl rfl rfl ?_ ?_ ?_ ?_ ?_
    · refine Entry.forall_update ?_ fun q _ => hent.unlocked hl q
      intro x hx
      exact hent.unlocked hl p x (by rw [hon]; exact Multiset.mem_cons_of_mem hx)
    · intro q hq
      rw [update_of_ne hq]
    · simp [Hold.puts]
    · have hle := Multiset.countP_le_of_le (fun h : Hold => h.puts = true)
        (Multiset.filter_le (fun h : Hold => h.on = some e) r)
      rw [Multiset.countP_cons]
      split <;> omega
    · have hfit : (w.inode e).inum = inum := hent.fits_head hon
      refine ⟨hfit, hv, rfl, ?_, hco ▸ hty, fun _ => hn⟩
      rw [hco, hback]
    · intro _ hc
      cases hc
  · intro e' hne hpos' _ hi
    simp only [World.setProc, World.setInode, update_self] at hi
    exact hne (hE.unique e' e hpos' hpos hi)

/-- A file or a directory gives its reference to the process. -/
theorem unanchor (hE : Entries w H) (hi : w'.inode = w.inode)
    (hd : w'.disk = w.disk) (hput : ∀ q, (w'.proc q).iput = (w.proc q).iput)
    (ha : ∀ e', w'.anchors e' + (if some e = some e' then 1 else 0) = w.anchors e')
    (hm : ∀ e', m.filter (·.on = some e') = (H p).filter (·.on = some e')) :
    Entries w' (update H p (.ref e (w.inode e).inum loaded ::ₘ m)) := by
  have hent := hE.entry e
  have hself : w'.anchors e + 1 = w.anchors e := by simpa using ha e
  have hother (e' : Ip) (hne : e' ≠ e) : w'.anchors e' = w.anchors e' := by
    simpa [Ne.symm hne] using ha e'
  have hpos : 0 < (w.inode e).ref := by
    have := hent.ref
    omega
  refine hE.edit (fun e' _ => by rw [hi]) hother (fun e' _ _ => by rw [hd])
    (fun e' hne => (filter_cons_ne rfl hne).trans (hm e')) (fun e' _ q => by rw [hput q]) ?_ ?_
  · rw [filter_cons_on rfl, hm e]
    simp only [World.backing, hi, hd, hput]
    exact hent.add (n := (w.inode e).ref) hpos (by omega) rfl rfl rfl
  · intro e' hne hpos' _ hi'
    rw [hi] at hi'
    exact hne (hE.unique e' e hpos' hpos hi')

/-- The process gives its reference to a file or a directory. -/
theorem anchor (hE : Entries w H)
    (hp : H p = .ref e inum loaded ::ₘ r) (hi : w'.inode = w.inode) (hd : w'.disk = w.disk)
    (hput : ∀ q, (w'.proc q).iput = (w.proc q).iput)
    (ha : ∀ e', w'.anchors e' = w.anchors e' + if some e = some e' then 1 else 0)
    (hm : ∀ e', m.filter (·.on = some e') = r.filter (·.on = some e')) :
    Entries w' (update H p m) := by
  have hent := hE.entry e
  have hon := on_cons hp rfl
  have hpos := hent.ref_pos hon
  have hself : w'.anchors e = w.anchors e + 1 := by simpa using ha e
  have hother (e' : Ip) (hne : e' ≠ e) : w'.anchors e' = w.anchors e' := by
    simpa [Ne.symm hne] using ha e'
  refine hE.edit (fun e' _ => by rw [hi]) hother (fun e' _ _ => by rw [hd])
    (fun e' hne => by rw [hp, filter_cons_ne rfl hne, hm e']) (fun e' _ q => by rw [hput q]) ?_ ?_
  · rw [hm e]
    simp only [World.backing, hi, hd, hput]
    refine hent.remove (n := (w.inode e).ref) hon (by omega) rfl (fun _ _ => Iff.rfl) ?_
      fun _ => rfl
    rw [hent.putting p, hon]
    simp [Hold.puts]
  · intro e' hne hpos' _ hi'
    rw [hi] at hi'
    exact hne (hE.unique e' e hpos' hpos hi')

/-- A free inode is marked on disk. -/
theorem claim {d : Dinode} (hE : Entries w H) (hfree : (w.disk inum).type = .free)
    (hm : ∀ e', m.filter (·.on = some e') = (H p).filter (·.on = some e')) :
    Entries (w.setDisk inum d) (update H p m) := by
  have hanch := World.anchors_congr w (w.setDisk inum d) rfl fun _ => rfl
  refine ⟨fun e => ?_, hE.unique⟩
  have hs : Holds.on (update H p m) e = H.on e := by
    rw [Holds.on_update, hm e]
    exact update_eq_self p _
  rw [hs]
  have hent := hE.entry e
  by_cases hi : 0 < (w.inode e).ref ∧ (w.inode e).inum = inum
  -- an entry of a free inode is not locked, or freed by now, and its fields are not valid
  · have hback : w.backing e = w.disk inum := by
      rw [World.backing, if_neg (by omega), hi.2]
    refine { hent with fits := fun q x hx => ?_, coherent := fun hv hr hn => ?_ }
    · have hfit := hent.fits q x hx
      cases x with
      | locked ip i f m' d' =>
        obtain ⟨-, -, -, rfl, hty, -⟩ := hfit
        exact absurd (hback ▸ hfree) hty
      | _ => exact hfit
    · exact absurd (hback ▸ hfree) (hent.coherent hv hr hn).2
  · have hback : (w.setDisk inum d).backing e = w.backing e := by
      show (if (w.inode e).ref = 0 then Dinode.zero
        else update w.disk inum d (w.inode e).inum) =
        if (w.inode e).ref = 0 then Dinode.zero else w.disk (w.inode e).inum
      split
      · rfl
      · exact update_of_ne (fun hc => hi ⟨by omega, hc⟩) _ _
    rw [hback]
    exact hent

end Entries

/-- The processes and their files are as before, but for what they do in iput. -/
structure Calm (w w' : World) : Prop where
  file : w'.file = w.file
  live : ∀ q, (w'.proc q).live = (w.proc q).live
  cwd : ∀ q, (w'.proc q).cwd = (w.proc q).cwd
  ofile : ∀ q, (w'.proc q).ofile = (w.proc q).ofile

theorem World.slots_congr (w w' : World)
    (hp : ∀ q, (w'.proc q).ofile = (w.proc q).ofile) (f : Fin NFILE) :
    w'.slots f = w.slots f := by
  unfold World.slots
  simp only [hp]

theorem Procs.calm (hP : Procs w H) (hc : Calm w w')
    (hm : ∀ x : Hold, x.loose = true → m.count x ≤ (H p).count x) :
    Procs w' (update H p m) := by
  have hkept : ∀ q (x : Hold), x.Loose w q → x.Loose w' q := by
    intro q x hx
    cases x <;> simp_all [Hold.Loose, hc.file, hc.live q, hc.cwd q, hc.ofile q]
  constructor
  · refine Entry.forall_update ?_
      fun q _ x hx => hkept q x (hP.loose q x hx)
    intro x hx
    by_cases hl : x.loose = true
    · have hpos : 0 < (H p).count x := Nat.lt_of_lt_of_le (Multiset.count_pos.mpr hx) (hm x hl)
      exact hkept p x (hP.loose p x (Multiset.count_pos.mp hpos))
    · cases x <;> simp_all [Hold.Loose, Hold.loose]
  · intro q x hl
    by_cases hq : q = p
    · subst hq
      rw [update_self]
      exact Nat.le_trans (hm x hl) (hP.once q x hl)
    · rw [update_of_ne hq]
      exact hP.once q x hl
  · intro f
    rw [World.slots_congr w w' hc.ofile, hc.file]
    exact hP.slots f
  · rw [hc.file]
    exact hP.unopened
  · intro q hq
    rw [hc.live] at hq
    rw [hc.cwd]
    exact hP.idle q hq

theorem count_swap (hl : h.loose = false) (hl' : h'.loose = false) (x : Hold) (hx : x.loose = true) :
    (h' ::ₘ r).count x ≤ (h ::ₘ r).count x := by
  have h1 : x ≠ h := fun hc => by simp [hc, hl] at hx
  have h2 : x ≠ h' := fun hc => by simp [hc, hl'] at hx
  rw [Multiset.count_cons_of_ne h1, Multiset.count_cons_of_ne h2]

theorem count_add (hl : h.loose = false) (x : Hold) (hx : x.loose = true) :
    (h ::ₘ r).count x ≤ r.count x := by
  rw [Multiset.count_cons_of_ne fun hc => by simp [hc, hl] at hx]

namespace World

/-- The fields of an entry in use, as they are now. -/
def now (w : World) (e : Ip) : Dinode :=
  if (w.inode e).valid then (w.inode e).copy else w.disk (w.inode e).inum

end World

theorem Entries.current (hE : Entries w H) (hpos : 0 < (w.inode e).ref) {d : Dinode} :
    w.Current (w.inode e).inum d ↔ d = w.now e := by
  unfold World.now
  constructor
  · rintro (⟨e', hr, hv, hi, rfl⟩ | ⟨hn, rfl⟩)
    · rw [hE.unique e' e hr hpos hi] at hv ⊢
      rw [if_pos hv]
    · rw [if_neg (by simp [hn e hpos rfl])]
  · rintro rfl
    split
    · rename_i hv
      exact .inl ⟨e, hpos, hv, rfl, rfl⟩
    · rename_i hv
      refine .inr ⟨fun e' hr hi => ?_, rfl⟩
      rw [hE.unique e' e hr hpos hi]
      simpa using hv

/-- Only what the table has for one inode has changed. -/
theorem World.Current.of_ne {i : Nat} {d : Dinode}
    (hinode : ∀ e', e' ≠ e → w'.inode e' = w.inode e') (hold : 0 < (w.inode e).ref → (w.inode e).inum ≠ i)
    (hnew : 0 < (w'.inode e).ref → (w'.inode e).inum ≠ i) (hd : w'.disk i = w.disk i)
    (h : w.Current i d) : w'.Current i d := by
  rcases h with ⟨e', hr, hv, hi, hc⟩ | ⟨hn, hc⟩
  · have hne : e' ≠ e := fun h => hold (h ▸ hr) (h ▸ hi)
    refine .inl ⟨e', ?_⟩
    rw [hinode e' hne]
    exact ⟨hr, hv, hi, hc⟩
  · refine .inr ⟨fun e' hr hi => ?_, hd.trans hc⟩
    by_cases hne : e' = e
    · subst hne
      exact absurd hi (hnew hr)
    · rw [hinode e' hne] at hr hi ⊢
      exact hn e' hr hi

theorem Blocks.edit {H' : Holds} (hB : Blocks w) (hE : Entries w H) (hE' : Entries w' H')
    (hinode : ∀ e', e' ≠ e → w'.inode e' = w.inode e') (hpos : 0 < (w.inode e).ref)
    (hpos' : 0 < (w'.inode e).ref) (hi : (w'.inode e).inum = (w.inode e).inum)
    (hd : ∀ i, i ≠ (w.inode e).inum → w'.disk i = w.disk i) (hmeta : w'.nmeta = w.nmeta)
    (htidy : (w'.disk (w.inode e).inum).Tidy)
    (hown : ∀ b, w'.used b = true →
      w.used b = true ∧ (b ∈ (w.now e).blocks → b ∈ (w'.now e).blocks) ∨ b ∈ (w'.now e).blocks) :
    Blocks w' := by
  constructor
  · intro i
    by_cases hne : i = (w.inode e).inum
    · subst hne
      exact htidy
    · rw [hd i hne]
      exact hB.tidy i
  · intro b hu hb
    have hmine : b ∈ (w'.now e).blocks → ∃ i d, w'.Current i d ∧ b ∈ d.blocks :=
      fun h => ⟨_, _, (hE'.current hpos').mpr rfl, h⟩
    rcases hown b hu with ⟨hu', hkeep⟩ | h
    · obtain ⟨i, d, hc, hbd⟩ := hB.owned b hu' (hmeta ▸ hb)
      by_cases hne : i = (w.inode e).inum
      · subst hne
        rw [(hE.current hpos).mp hc] at hbd
        exact hmine (hkeep hbd)
      · exact ⟨i, d, hc.of_ne hinode (fun _ => Ne.symm hne) (fun _ => hi ▸ Ne.symm hne) (hd i hne), hbd⟩
    · exact hmine h

end Xv6.Fs
