import Xv6.Fs.Invariant

namespace Xv6.Fs

open Xv6.Framework

/-- Free inodes of the image are clear, its directories have no holes, and its data blocks in use are
those of inodes. -/
def Image.Sound (img : Image) : Prop :=
  (∀ i, (img.disk i).type = .free → (img.disk i).blocks = [] ∧ (img.disk i).nlink = 0) ∧
  (∀ i, (img.disk i).Whole) ∧
  ∀ b, img.used b = true → img.nmeta ≤ b → ∃ i, b ∈ (img.disk i).blocks

/-- The state of the system, with what each process holds and what the rest of its call may do. -/
structure Running (c : Prop) (s : Concurrent) (H : Holds) : Prop where
  base : Base c s.world H
  follows : ∀ p, (s.prog p).Follows table (H p) Typed.Clean
  pointers : ∀ p, s.pointers p = pointersOf (H p)
  lawful : ∀ m, s.stopped = some m → m.misuse = false

theorem boot_anchors (img : Image) (e : Ip) : (boot img).anchors e = if e = 0 then 1 else 0 := by
  have hfile : World.fileAnchors (boot img).file e = 0 := by
    unfold World.fileAnchors
    exact Finset.sum_eq_zero fun f _ => rfl
  have hcwd : World.cwdAnchors (boot img).proc e = if e = 0 then 1 else 0 := by
    unfold World.cwdAnchors
    rw [Finset.sum_eq_single (0 : ProcId)]
    · simp [boot, eq_comm]
    · intro p _ hp
      simp [boot, hp]
    · simp
  rw [World.anchors, hfile, hcwd, Nat.zero_add]

theorem boot_ref (img : Image) (e : Ip) :
    0 < ((boot img).inode e).ref ↔ e = 0 := by
  by_cases he : e = 0 <;> simp [boot, he]

theorem boot_entries (img : Image) : Entries (boot img) fun _ => 0 := by
  constructor
  · intro e
    have hon : Holds.on (fun _ => (0 : Multiset Hold)) e = fun _ => 0 := rfl
    rw [hon, boot_anchors]
    refine ⟨?_, ?_, ?_, ?_, ?_, ?_, ?_⟩
    · simp [boot]
    · simp [boot]
    · simp
    · simp [boot]
    · simp
    · simp
    · intro hv
      cases hv
  · intro e e' he he' _
    rw [(boot_ref img e).mp he, (boot_ref img e').mp he']

theorem boot_procs (img : Image) : Procs (boot img) fun _ => 0 := by
  refine ⟨by simp, by simp, fun f => ?_, fun _ _ => rfl, fun p hp => ?_⟩
  · have h : (boot img).slots f = 0 := by
      unfold World.slots slotsOf
      exact Finset.sum_eq_zero fun p _ => Finset.sum_eq_zero fun fd _ => rfl
    rw [h]
    exact Nat.zero_le _
  · simp only [boot, decide_eq_false_iff_not] at hp
    simp [boot, hp]

theorem boot_blocks {img : Image} (hi : img.Sound) : Blocks (boot img) := by
  refine ⟨fun i => ⟨hi.1 i, hi.2.1 i⟩, fun b hu hm => ?_⟩
  obtain ⟨i, hb⟩ := hi.2.2 b hu hm
  exact ⟨i, img.disk i, .inr ⟨fun e _ _ => rfl, rfl⟩, hb⟩

namespace Running

variable {c : Prop} {s t : Concurrent} {H : Holds} {l : Label}

theorem init (img : Image) : Running img.Sound (.init img) fun _ => 0 :=
  ⟨⟨boot_entries img, boot_procs img, boot_blocks⟩, fun _ => rfl, fun _ => rfl, nofun⟩

theorem start {p : ProcId} {call : Call} (hr : Running c s H) (hs : s.next (.start p call) = some t) :
    Running c t H := by
  simp only [Concurrent.next] at hs
  split at hs
  · cases hs
  split at hs
  · cases hs
  rename_i a hprog
  cases hs
  refine ⟨hr.base, fun q => ?_, hr.pointers, hr.lawful⟩
  show (update s.prog p (call.body s.world.ninodes) q).Follows table (H q) Typed.Clean
  by_cases hq : q = p
  · subst hq
    have hnone : H q = 0 := by
      have hf := hr.follows q
      rw [hprog] at hf
      exact hf
    rw [update_self, hnone]
    exact Typed.body call
  · rw [update_of_ne hq]
    exact hr.follows q

theorem step {p : ProcId} (hr : Running c s H) (hs : s.next (.step p) = some t) :
    ∃ H', Running c t H' := by
  simp only [Concurrent.next] at hs
  split at hs
  · cases hs
  split at hs
  · cases hs
  rename_i o k hprog
  have hf := hr.follows p
  rw [hprog] at hf
  have ha : allows o (H p) fun x m => (k x).Follows table m Typed.Clean := hf
  rw [Op.step] at hs
  by_cases hlive : (s.world.proc p).live = false
  · simp only [if_pos hlive] at hs
    cases hs
    exact ⟨H, hr.base, hr.follows, hr.pointers, fun m hm => by cases hm; rfl⟩
  simp only [if_neg hlive] at hs
  split at hs
  · rename_i x w' hx
    cases hs
    obtain ⟨m, hb, hm, hk⟩ := hr.base.exec_ok (by simpa using hlive) ha hx
    refine ⟨update H p m, hb, fun q => ?_, fun q => ?_, hr.lawful⟩
    · show (update s.prog p (k x) q).Follows table (update H p m q) Typed.Clean
      by_cases hq : q = p
      · subst hq
        rw [update_self, update_self]
        exact hk
      · rw [update_of_ne hq, update_of_ne hq]
        exact hr.follows q
    · show update s.pointers p (o.pointers x (s.pointers p)) q =
        pointersOf (update H p m q)
      by_cases hq : q = p
      · subst hq
        rw [update_self, update_self, hm, hr.pointers]
      · rw [update_of_ne hq, update_of_ne hq]
        exact hr.pointers q
  · rename_i m hx
    cases hs
    refine ⟨H, hr.base, hr.follows, hr.pointers, fun m' hm => ?_⟩
    exact hr.base.exec_error ha hx m' (congrArg Stop.panic (Option.some.inj hm))
  · cases hs

theorem next (hr : Running c s H) (hs : s.next l = some t) : ∃ H', Running c t H' := by
  cases l with
  | start p call => exact ⟨H, hr.start hs⟩
  | step p => exact hr.step hs

end Running

/-- In every run what the processes hold can be told. -/
theorem running {img : Image} {tr : List (Event Concurrent Label)} {s : Concurrent}
    (hp : Path Concurrent.next (.init img) tr s) : ∃ H, Running img.Sound s H :=
  hp.invariant (I := fun s => ∃ H, Running img.Sound s H)
    (fun _ _ _ ⟨_, hr⟩ hs _ => hr.next hs) ⟨_, Running.init img⟩ fun _ _ => trivial

theorem count_pointersOf (e : Ip) (hs : Multiset Hold) :
    (pointersOf hs).count e = (hs.filter (·.on = some e)).card := by
  induction hs using Multiset.induction with
  | empty => rfl
  | cons h hs ih =>
    cases hon : h.on with
    | none =>
      rw [pointersOf_cons_none hon, ih, Multiset.filter_cons_of_neg _ (by simp [hon])]
    | some ip =>
      rw [pointersOf_cons hon]
      by_cases he : ip = e
      · subst he
        rw [Multiset.count_cons_self, ih, Multiset.filter_cons_of_pos _ (by simpa using hon),
          Multiset.card_cons]
      · rw [Multiset.count_cons_of_ne (Ne.symm he), ih,
          Multiset.filter_cons_of_neg _ (by simpa [hon] using he)]

/-- At most one entry of the table is in use for a number. Its reference count is that of the open
files, the working directories and the pointers in flight; a process outside the kernel has none of
these, and who has the sleep-lock of an inode has one. So iput never waits for a sleep-lock with
itable.lock held. -/
theorem table_discipline {img : Image} {tr : List (Event Concurrent Label)} {s : Concurrent}
    (hp : Path Concurrent.next (.init img) tr s) :
    (∀ e e', 0 < (s.world.inode e).ref → 0 < (s.world.inode e').ref →
      (s.world.inode e).inum = (s.world.inode e').inum → e = e') ∧
    (∀ e, (s.world.inode e).ref = World.fileAnchors s.world.file e +
      World.cwdAnchors s.world.proc e + ∑ p, (s.pointers p).count e) ∧
    (∀ p n, s.prog p = .pure n → s.pointers p = 0) ∧
    (∀ e p, (s.world.inode e).lock = some p → e ∈ s.pointers p) ∧
    (∀ p e k, s.prog p = .op (.iput e) k → (s.world.inode e).ref = 1 →
      (s.world.inode e).lock = none) ∧
    s.stopped ≠ some .sched := by
  obtain ⟨H, hr⟩ := running hp
  refine ⟨hr.base.entries.unique, fun e => ?_, fun p n hn => ?_, fun e p hl => ?_,
    fun p e k hk href => ?_, fun hs => ?_⟩
  · have hsum : ∑ p, (s.pointers p).count e = ∑ p, (H.on e p).card := by
      refine Finset.sum_congr rfl fun p _ => ?_
      rw [hr.pointers, count_pointersOf]
      rfl
    rw [hsum]
    exact (hr.base.entries.entry e).ref
  · have hf := hr.follows p
    rw [hn] at hf
    rw [hr.pointers, show H p = 0 from hf]
    rfl
  · obtain ⟨h, hh, -⟩ := ((hr.base.entries.entry e).lock p).mp hl
    rw [hr.pointers, ← Multiset.count_pos, count_pointersOf]
    exact Multiset.card_pos_iff_exists_mem.mpr ⟨h, hh⟩
  · have hf := hr.follows p
    rw [hk] at hf
    obtain ⟨inum, loaded, r, hp, -⟩ := hf
    exact hr.base.lock_none hp href
  · have := hr.lawful _ hs
    cases this

/-- An image with nothing but the root directory, in block 46. -/
def emptyImage : Image where
  ninodes := 200
  size := 2000
  nmeta := 46
  used := fun b => b < 47
  disk := fun i => if i = ROOTINO then
    ⟨.dir, 0, 0, 1, [46], none, [⟨ROOTINO, dot⟩, ⟨ROOTINO, dotdot⟩]⟩ else .zero

/-- The first process in the middle of chdir("/"). -/
theorem table_discipline_chdir :
    let s := final Concurrent.next (.init emptyImage)
      [.start 0 (.chdir [slash, 0]), .step 0, .step 0]
    (s.world.inode 0).lock = some 0 ∧ 0 ∈ s.pointers 0 := by
  intro s
  have hp : Path Concurrent.next (.init emptyImage) _ s := path_final (by decide +kernel)
  have hl : (s.world.inode 0).lock = some 0 := by decide +kernel
  exact ⟨hl, (table_discipline hp).2.2.2.1 0 0 hl⟩

section Calls

variable {img : Image} {tr : List (Event Concurrent Label)} {s : Concurrent}

/-- No call stops the kernel because of an inode without a reference or without its lock. A
descriptor never leads to a free struct file, which has no inode, nor a dead process to a directory. -/
theorem calls_lawful (hp : Path Concurrent.next (.init img) tr s) :
    s.stopped ≠ some .ilock ∧ s.stopped ≠ some .iunlock ∧
    (∀ p fd f, (s.world.proc p).ofile fd = some f → 0 < (s.world.file f).ref) ∧
    (∀ f, (s.world.file f).ref = 0 → (s.world.file f).ip = none) ∧
    ∀ p, (s.world.proc p).live = false → (s.world.proc p).cwd = none := by
  obtain ⟨H, hr⟩ := running hp
  refine ⟨fun h => ?_, fun h => ?_, fun p fd f h => ?_, hr.base.procs.unopened, hr.base.procs.idle⟩
  · cases hr.lawful _ h
  · cases hr.lawful _ h
  · exact (slotsOf_pos h).trans_le ((World.slotsOf_le s.world p f).trans (hr.base.procs.slots f))

def rooted : Concurrent :=
  final Concurrent.next (.init emptyImage) [.start 0 (.chdir [slash, 0]), .step 0, .step 0]

theorem rooted_path : ∃ tr, Path Concurrent.next (.init emptyImage) tr rooted :=
  ⟨_, path_final (by decide +kernel)⟩

theorem calls_lawful_rooted :
    rooted.stopped ≠ some .ilock ∧ rooted.stopped ≠ some .iunlock ∧
    (∀ p fd f, (rooted.world.proc p).ofile fd = some f → 0 < (rooted.world.file f).ref) ∧
    (∀ f, (rooted.world.file f).ref = 0 → (rooted.world.file f).ip = none) ∧
    ∀ p, (rooted.world.proc p).live = false → (rooted.world.proc p).cwd = none :=
  calls_lawful rooted_path.choose_spec

/-- No block is lost: each data block in use is one of an inode, and a free inode has none. No
directory gets a hole, where a lookup would have bmap allocate a block. -/
theorem blocks_owned (hi : img.Sound) (hp : Path Concurrent.next (.init img) tr s) :
    (∀ i, (s.world.disk i).type = .free → (s.world.disk i).blocks = []) ∧
    (∀ i, (s.world.disk i).Whole) ∧
    ∀ b, s.world.used b = true → s.world.nmeta ≤ b → ∃ i d, s.world.Current i d ∧ b ∈ d.blocks := by
  obtain ⟨H, hr⟩ := running hp
  have hb := hr.base.blocks hi
  exact ⟨fun i h => ((hb.tidy i).free h).1, fun i => (hb.tidy i).whole, hb.owned⟩

theorem blocks_owned_rooted : ∃ i d, rooted.world.Current i d ∧ 46 ∈ d.blocks := by
  have hi : emptyImage.Sound := by
    refine ⟨fun i h => ?_, fun i => ?_, fun b hu hm => ⟨ROOTINO, ?_⟩⟩
    · by_cases hr : i = ROOTINO
      · simp [emptyImage, hr] at h
      · simp only [emptyImage, if_neg hr]
        exact ⟨rfl, rfl⟩
    · by_cases hr : i = ROOTINO <;> simp [emptyImage, hr, Dinode.Whole, Dinode.zero, DIRENT, BSIZE]
    · simp only [emptyImage, decide_eq_true_eq] at hu hm
      obtain rfl : b = 46 := by omega
      decide
  exact (blocks_owned hi rooted_path.choose_spec).2.2 46 (by decide +kernel) (by decide +kernel)

end Calls

end Xv6.Fs
