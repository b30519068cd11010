import Xv6.Memory.Calls

open Xv6.Framework

namespace Xv6.Memory

variable {first taken : Nat} {trampoline : Page} {tr : List (Event World Label)} {w : World}
  {pt : PageTable}

theorem count_frames (first last x : Nat) :
    (List.range' first (last - first)).reverse.count x = if first ≤ x ∧ x < last then 1 else 0 := by
  rw [List.count_reverse]
  have hmem : x ∈ List.range' first (last - first) ↔ first ≤ x ∧ x < last := by
    rw [List.mem_range'_1]
    omega
  by_cases hx : first ≤ x ∧ x < last
  · rw [if_pos hx]
    exact List.count_eq_one_of_mem List.nodup_range' (hmem.mpr hx)
  · rw [if_neg hx]
    exact List.count_eq_zero_of_not_mem fun hc => hx (hmem.mp hc)

theorem inv_boot (first trampoline : Page) (taken : Nat) :
    Inv first (boot first trampoline taken) := by
  have hp : ∀ p x, ((boot first trampoline taken).proc p).pages x = 0 :=
    fun p x => Unused.pages ⟨rfl, rfl, rfl, rfl, rfl⟩ x
  have hpiped : ∀ x, (boot first trampoline taken).piped x = 0 := by
    intro x
    refine if_neg ?_
    rintro ⟨f, b, hf⟩
    cases hf
  refine ⟨⟨rfl, ?_, ?_, ?_, ?_, ?_, ?_, ?_, ?_⟩, rfl⟩
  · intro x
    have hc := count_frames first (PHYSTOP / PGSIZE) x
    rw [← List.take_append_drop taken (List.range' first (PHYSTOP / PGSIZE - first)).reverse,
      List.count_append] at hc
    rw [World.places, hpiped]
    simp only [hp]
    show List.count x (List.drop taken _) + List.count x (List.take taken _) + 0 + 0 =
      if first ≤ x ∧ x < PHYSTOP / PGSIZE then 1 else 0
    rw [← hc, Nat.add_zero]
    exact Nat.add_comm ..
  · exact fun p => .inl ⟨rfl, rfl, rfl, rfl, rfl⟩
  · exact fun p _ fd => rfl
  · intro f
    have h0 : (boot first trampoline taken).refs f = 0 := by
      refine Finset.sum_eq_zero fun p _ => Finset.sum_eq_zero fun fd _ => ?_
      exact if_neg (by simp [boot])
    rw [h0]
    rfl
  · exact fun f _ => rfl
  · intro f x b hf
    cases hf
  · intro f g x b hf
    cases hf
  · intro f x b b' hf
    cases hf

theorem inv_path (hp : Path next (boot first trampoline taken) tr w)
    (hb : ∀ ev ∈ tr, Booting ev.pre ev.label) : Inv first w :=
  hp.invariant
    (fun _ _ _ h hn hc => inv_next h hc hn) (inv_boot first trampoline taken) hb

/-- The page tables of the system: of a process, or of the image that exec is building for it. -/
inductive Space
  | proc (p : Fin NPROC)
  | image (p : Fin NPROC)
deriving DecidableEq

def World.table (w : World) : Space → Option PageTable
  | .proc p => (w.proc p).pagetable
  | .image p => (w.proc p).loading.map fun t => t.2.1

def Space.owner : Space → Fin NPROC
  | .proc p => p
  | .image p => p

theorem table_image {p : Fin NPROC} (h : w.table (.image p) = some pt) :
    ∃ argv sz, (w.proc p).loading = some (argv, pt, sz) := by
  obtain ⟨⟨argv, pt', sz⟩, ht, he⟩ := Option.map_eq_some_iff.mp h
  have he : pt' = pt := he
  rw [he] at ht
  exact ⟨argv, sz, ht⟩

def Slot.argPages (s : Slot) (x : Page) : Nat := s.exec.elim 0 fun img => img.argv.count x

def World.heldIn (w : World) (a : Space) (x : Page) : Nat := (w.table a).elim 0 fun pt => pt.held x

/-- The pages of a process, by what they are. -/
theorem pages_split (w : World) (p : Fin NPROC) (x : Page) :
    (w.proc p).pages x = ((w.proc p).trapframe.elim 0 fun tf => hit tf x) + w.heldIn (.proc p) x +
      (w.proc p).argPages x + w.heldIn (.image p) x := by
  have himg : (w.proc p).exec.elim 0 (fun img => img.pages x) =
      (w.proc p).argPages x + w.heldIn (.image p) x := by
    rw [Slot.argPages, World.heldIn, World.table]
    cases hx : (w.proc p).exec with
    | none =>
      rw [Slot.loading, hx]
      rfl
    | some img =>
      obtain ⟨argv, table⟩ := img
      cases table with
      | none =>
        rw [Slot.loading, hx]
        rfl
      | some t =>
        rw [loading_iff.mpr hx, Option.map_some, Option.elim_some, Option.elim_some,
          Option.elim_some, Image.pages_some, PageTable.held]
  have hproc : w.heldIn (.proc p) x = (w.proc p).pagetable.elim 0 fun pt => pt.held x := rfl
  rw [Slot.pages, hproc]
  omega

theorem heldIn_eq {a : Space} (h : w.table a = some pt) (x : Page) :
    w.heldIn a x = pt.held x := by
  rw [World.heldIn, h, Option.elim_some]

theorem heldIn_le (w : World) (a : Space) (x : Page) :
    w.heldIn a x ≤ w.heldIn (.proc a.owner) x + w.heldIn (.image a.owner) x := by
  cases a with
  | proc p => exact Nat.le_add_right ..
  | image p => exact Nat.le_add_left ..

/-- What a process holds beside its tables, and one table, count apart. -/
theorem add_heldIn_le {p : Fin NPROC} {n : Nat} {x : Page} (a : Space)
    (hn : n + w.heldIn (.proc p) x + w.heldIn (.image p) x ≤ (w.proc p).pages x) :
    n + w.heldIn a x ≤ ∑ p, (w.proc p).pages x := by
  have h1 := heldIn_le w a x
  by_cases hp : p = a.owner
  · subst hp
    have h2 := le_sum_univ (fun p => (w.proc p).pages x) a.owner
    omega
  · have h2 := add_le_sum_univ (fun p => (w.proc p).pages x) hp
    have h3 := pages_split w a.owner x
    omega

/-- Two tables count apart. -/
theorem heldIn_add_le {a b : Space} (h : a ≠ b) (x : Page) :
    w.heldIn a x + w.heldIn b x ≤ ∑ p, (w.proc p).pages x := by
  by_cases hp : a.owner = b.owner
  · cases a with
    | proc p =>
      cases b with
      | proc q =>
        have hpq : p = q := hp
        exact absurd (by rw [hpq]) h
      | image q =>
        have hpq : p = q := hp
        subst hpq
        have h2 := le_sum_univ (fun p => (w.proc p).pages x) p
        have h3 := pages_split w p x
        omega
    | image p =>
      cases b with
      | proc q =>
        have hpq : p = q := hp
        subst hpq
        have h2 := le_sum_univ (fun p => (w.proc p).pages x) p
        have h3 := pages_split w p x
        omega
      | image q =>
        have hpq : p = q := hp
        exact absurd (by rw [hpq]) h
  · have h1 := heldIn_le w a x
    have h2 := heldIn_le w b x
    have h3 := add_le_sum_univ (fun p => (w.proc p).pages x) hp
    have h4 := pages_split w a.owner x
    have h5 := pages_split w b.owner x
    omega

/-- Every table of the system has the kernel's leaves where they belong. -/
theorem Good.kernelPart (h : Good first [] w) {a : Space} (ht : w.table a = some pt) :
    ∃ tf, KernelPart w.mem.trampoline tf pt := by
  cases a with
  | proc p =>
    have ht : (w.proc p).pagetable = some pt := ht
    rcases h.slots p with hu | ⟨tf, pt', hl⟩
    · rw [hu.pagetable] at ht
      cases ht
    · rw [hl.pagetable] at ht
      cases ht
      exact ⟨tf, hl.kernel⟩
  | image p =>
    obtain ⟨argv, sz, ht⟩ := table_image ht
    rcases h.slots p with hu | ⟨tf, pt, hl⟩
    · rw [loading_iff, hu.exec] at ht
      cases ht
    · exact ⟨tf, (loading_shape hl ht).kernel⟩

/-- A leaf for user mode is a leaf of the user part. -/
theorem KernelPart.user_below {tramp tf : Page} {i : Index} {pte : Pte}
    (h : KernelPart tramp tf pt) (hl : pt.leaf i = some pte) (hu : pte.perm.u = true) :
    vpn i < lastUser := by
  by_contra hc
  by_cases h1 : i = index TRAPFRAME
  · rw [h1, h.trapframe] at hl
    cases hl
    cases hu
  by_cases h2 : i = index TRAMPOLINE
  · rw [h2, h.trampoline] at hl
    cases hl
    cases hu
  have h3 : vpn i ≠ lastUser := fun he => h1 (vpn_injective (he.trans vpn_TRAPFRAME.symm))
  have h4 : vpn i ≠ lastUser + 1 := fun he => h2 (vpn_injective (he.trans vpn_TRAMPOLINE.symm))
  have h5 : MAXVA / PGSIZE = lastUser + 2 := by decide
  rw [h.above i (by omega)] at hl
  cases hl

/-- The page of a user leaf is held by its table. -/
theorem KernelPart.held_of_user {tramp tf x : Page} {i : Index} {pte : Pte}
    (h : KernelPart tramp tf pt) (hl : pt.leaf i = some pte) (hu : pte.perm.u = true)
    (hx : pte.page = x) : 1 + pt.tables x ≤ pt.held x := by
  have h1 := hit_le_user (h.user_below hl hu) hl x
  rw [hx, hit_self] at h1
  rw [PageTable.held]
  omega

/-- What a page that some table opens to user mode is not. -/
structure Private (w : World) (a : Space) (i : Index) (x : Page) : Prop where
  user : ∀ b pt j pte, w.table b = some pt → pt.leaf j = some pte → pte.perm.u = true →
    pte.page = x → b = a ∧ j = i
  table : ∀ b pt, w.table b = some pt → pt.tables x = 0
  trapframe : ∀ p, (w.proc p).trapframe ≠ some x
  pipe : ∀ f b, (w.file f).pipe ≠ some (x, b)
  argument : ∀ p img, (w.proc p).exec = some img → x ∉ img.argv
  free : x ∉ w.mem.freelist
  kernel : x ∉ w.kernel

theorem Good.private {a : Space} {i : Index} {pte : Pte} {x : Page}
    (h : Good first [] w) (ht : w.table a = some pt) (hl : pt.leaf i = some pte)
    (hu : pte.perm.u = true) (hx : pte.page = x) : Private w a i x := by
  obtain ⟨tf, hk⟩ := h.kernelPart ht
  have hheld : 1 + pt.tables x ≤ w.heldIn a x := by
    rw [heldIn_eq ht]
    exact hk.held_of_user hl hu hx
  have hwhole := h.whole x
  have hframe := w.mem.frame_le x
  rw [World.places] at hwhole
  have hself : w.heldIn a x ≤ ∑ p, (w.proc p).pages x := by
    have h1 := add_heldIn_le (w := w) (p := a.owner) (n := 0) (x := x) a (by
      have := pages_split w a.owner x
      omega)
    omega
  have hother : ∀ b pt', w.table b = some pt' → b ≠ a → pt'.held x = 0 := by
    intro b pt' hb hne
    have h1 := heldIn_add_le (w := w) hne x
    rw [heldIn_eq hb] at h1
    omega
  refine ⟨?_, ?_, ?_, ?_, ?_, ?_, ?_⟩
  · intro b pt' j pte' hb hj hu' hx'
    obtain ⟨tf', hk'⟩ := h.kernelPart hb
    have h1 := hk'.held_of_user hj hu' hx'
    have hba : b = a := by
      by_contra hne
      have h2 := hother b pt' hb hne
      omega
    subst hba
    rw [ht] at hb
    cases hb
    refine ⟨rfl, ?_⟩
    by_contra hne
    have h2 := add_le_sum_univ (fun i => ownLeaf x i (pt.leaf i)) hne
    simp only [hj, hl] at h2
    rw [ownLeaf_some (hk.user_below hj hu'), ownLeaf_some (hk.user_below hl hu), hx, hx',
      hit_self] at h2
    rw [heldIn_eq ht, PageTable.held, PageTable.user] at hself
    omega
  · intro b pt' hb
    by_cases hba : b = a
    · subst hba
      rw [ht] at hb
      cases hb
      omega
    · have h1 := hother b pt' hb hba
      rw [PageTable.held] at h1
      omega
  · intro p hp
    have h1 := add_heldIn_le (w := w) (p := p) (n := 1) (x := x) a (by
      have h2 := pages_split w p x
      rw [hp, Option.elim_some, hit_self] at h2
      omega)
    omega
  · intro f b hf
    rw [World.piped_of hf] at hwhole
    omega
  · intro p img hx hmem
    have h1 := add_heldIn_le (w := w) (p := p) (n := 1) (x := x) a (by
      have h2 := pages_split w p x
      have h3 := List.count_pos_iff.mpr hmem
      rw [Slot.argPages, hx, Option.elim_some] at h2
      omega)
    omega
  · intro hmem
    have h1 : 0 < w.mem.free x := List.count_pos_iff.mpr hmem
    omega
  · intro hmem
    have h1 := List.count_pos_iff.mpr hmem
    omega

/-- The system that main starts: userinit has run with memory to spare. -/
def booted (first trampoline : Page) (taken : Nat) : World :=
  final next (boot first trampoline taken) [⟨.userinit, []⟩]

theorem inv_booted (hroom : first + taken + 7 ≤ PHYSTOP / PGSIZE) :
    Inv first (booted first trampoline taken) := by
  have hboot := inv_boot first trampoline taken
  rw [booted, final, exec]
  cases hn : next (boot first trampoline taken) ⟨.userinit, []⟩ with
  | none => exact hboot
  | some w =>
    refine inv_next hboot (fun _ => ⟨by simp, ?_⟩) hn
    have hlen : (boot first trampoline taken).mem.freelist.length =
        PHYSTOP / PGSIZE - first - taken := by
      simp [boot]
    omega

/-- Every frame is in exactly one place: on the free list, a page of the kernel's from boot, a
trapframe, a page or a user leaf of one page table, an argument string of exec, or a pipe. A
page that is open to user mode is so through one leaf of one table, and is nothing else. -/
theorem frames_owned_once (hroom : first + taken + 7 ≤ PHYSTOP / PGSIZE)
    (hp : Path next (booted first trampoline taken) tr w)
    (hc : ∀ ev ∈ tr, ev.label.call ≠ .userinit) :
    (∀ x, w.places x = if first ≤ x ∧ x < PHYSTOP / PGSIZE then 1 else 0) ∧
      ∀ a pt i pte, w.table a = some pt → pt.leaf i = some pte → pte.perm.u = true →
        Private w a i pte.page := by
  have hinv : Inv first w :=
    hp.invariant
      (fun _ _ _ h hn hc => inv_next h (fun he => absurd he hc) hn) (inv_booted hroom) hc
  refine ⟨fun x => ?_, fun a pt i pte ht hl hu => hinv.good.private ht hl hu rfl⟩
  rw [hinv.good.whole x, Mem.frame, hinv.good.first]

/-- A fork that runs out of memory in uvmcopy, one that succeeds, and a pipe in the child. -/
def forksAndPipe : List Label :=
  [⟨.fork 0, [false, false, false, false, false, true]⟩, ⟨.fork 0, []⟩, ⟨.pipe 1 true, []⟩,
    ⟨.execArg 1 true true, []⟩, ⟨.execBegin 1 true, [false, true]⟩]

set_option maxRecDepth 8192 in
theorem frames_owned_once_forksAndPipe :
    556996 + 3 + 7 ≤ PHYSTOP / PGSIZE ∧
      (∀ ev ∈ events next (booted 556996 5 3) forksAndPipe, ev.label.call ≠ .userinit) ∧
      ∀ x, (final next (booted 556996 5 3) forksAndPipe).places x =
        if 556996 ≤ x ∧ x < PHYSTOP / PGSIZE then 1 else 0 := by
  have hp : Path next (booted 556996 5 3) _ (final next (booted 556996 5 3) forksAndPipe) :=
    path_final (by decide +kernel)
  have hc : ∀ ev ∈ events next (booted 556996 5 3) forksAndPipe, ev.label.call ≠ .userinit := by
    intro ev hev
    have hl := label_mem_of_events hev
    simp only [forksAndPipe, List.mem_cons, List.not_mem_nil, or_false] at hl
    rcases hl with hl | hl | hl | hl | hl <;> simp [hl]
  exact ⟨by decide, hc, (frames_owned_once (by decide) hp hc).1⟩

end Xv6.Memory
