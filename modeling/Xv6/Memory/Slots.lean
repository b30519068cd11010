import Xv6.Memory.Image

open Xv6.Framework

namespace Xv6.Memory

def PageTable.held (pt : PageTable) (x : Page) : Nat := pt.tables x + pt.user x

def Image.pages (img : Image) (x : Page) : Nat :=
  img.argv.count x + img.table.elim 0 fun t => t.1.held x

/-- How often a process holds a page: as its trapframe, in its page table, or inside exec. -/
def Slot.pages (s : Slot) (x : Page) : Nat :=
  (s.trapframe.elim 0 fun tf => hit tf x) + (s.pagetable.elim 0 fun pt => pt.held x) +
    s.exec.elim 0 fun img => img.pages x

theorem Image.pages_mk (argv : List Page) (table : Option (PageTable × Nat)) (x : Page) :
    Image.pages ⟨argv, table⟩ x = argv.count x + table.elim 0 fun t => t.1.held x := rfl

theorem Image.pages_some (argv : List Page) (pt : PageTable) (sz : Nat) (x : Page) :
    Image.pages ⟨argv, some (pt, sz)⟩ x = argv.count x + (pt.tables x + pt.user x) := by
  rw [pages_mk, Option.elim_some, PageTable.held]

structure Unused (s : Slot) : Prop where
  state : s.state = .unused
  trapframe : s.trapframe = none
  pagetable : s.pagetable = none
  sz : s.sz = 0
  exec : s.exec = none

/-- A slot with a trapframe and an address space of the shape that its size gives. -/
structure Built (tramp : Page) (s : Slot) (tf : Page) (pt : PageTable) : Prop where
  trapframe : s.trapframe = some tf
  pagetable : s.pagetable = some pt
  spans : Spans pt (Memory.pages s.sz)
  kernel : KernelPart tramp tf pt

/-- The image that exec builds has the shape of its size so far, all of it for user mode. -/
structure Loading (tramp tf : Page) (pt : PageTable) (sz : Nat) : Prop where
  spans : Spans pt (Memory.pages sz)
  kernel : KernelPart tramp tf pt
  user : AllUser pt

structure Live (tramp : Page) (s : Slot) (tf : Page) (pt : PageTable) : Prop
    extends Built tramp s tf pt where
  used : s.state ≠ .unused
  loading : ∀ img pt' sz, s.exec = some img → img.table = some (pt', sz) →
    Loading tramp tf pt' sz
  zombie : s.state = .zombie → s.exec = none

def Sound (tramp : Page) (s : Slot) : Prop := Unused s ∨ ∃ tf pt, Live tramp s tf pt

/-- Pages only move between the free list and one slot, which keeps its open files. -/
structure Moved (m : Mem) (s : Slot) (m' : Mem) (s' : Slot) : Prop where
  same : Same m m'
  ofile : s'.ofile = s.ofile
  count : ∀ x, m'.free x + s'.pages x = m.free x + s.pages x

/-- The pages of the free list and of one slot are different frames. -/
def Room (m : Mem) (s : Slot) : Prop := ∀ x, m.free x + s.pages x ≤ m.frame x

variable {m m' : Mem} {s s' : Slot} {tf tramp : Page} {pt : PageTable}

theorem Unused.pages (h : Unused s) (x : Page) : s.pages x = 0 := by
  rw [Slot.pages, h.trapframe, h.pagetable, h.exec]
  simp only [Option.elim_none]

theorem Built.pages (h : Built tramp s tf pt) (x : Page) :
    s.pages x = hit tf x + pt.held x + s.exec.elim 0 fun img => img.pages x := by
  rw [Slot.pages, h.trapframe, h.pagetable, Option.elim_some, Option.elim_some]

theorem Blank.built (h : Blank tramp tf pt) (ht : s.trapframe = some tf)
    (hp : s.pagetable = some pt) (hsz : s.sz = 0) : Built tramp s tf pt := by
  refine ⟨ht, hp, ?_, h.kernel⟩
  rw [hsz]
  exact h.spans

theorem Built.within (h : Built tramp s tf pt) (hr : Room m s) : Within m pt := by
  intro x
  have h1 := hr x
  rw [h.pages, PageTable.held] at h1
  omega

theorem freeproc_returns (h : Built tramp s tf pt) (he : s.exec = none) (hr : Room m s) :
    Returns (freeproc s) m fun s' m' => Unused s' ∧ Moved m s m' s' := by
  have hp : ∀ x, s.pages x = hit tf x + pt.tables x + pt.user x := by
    intro x
    rw [h.pages, he, PageTable.held, Option.elim_none]
    omega
  have hframe : m.frame tf = 1 := by
    have h1 := hr tf
    have h2 := m.frame_le tf
    rw [hp, hit_self] at h1
    omega
  rw [freeproc, h.trapframe, h.pagetable]
  refine Returns.bind (kfree_returns hframe) ?_
  rintro - m₁ ⟨hs₁, hf₁⟩
  have hw : Within m₁ pt := by
    intro x
    have h1 := hr x
    rw [hp] at h1
    rw [hf₁, hs₁.frame]
    omega
  refine Returns.bind (procFreepagetable_returns h.spans h.kernel hw) ?_
  rintro - m₂ ⟨hs₂, hf₂⟩
  have hu : Unused s.freed := ⟨rfl, rfl, rfl, rfl, he⟩
  refine Returns.pure ⟨hu, hs₁.trans hs₂, rfl, fun x => ?_⟩
  rw [hu.pages, hp, hf₂, hf₁]
  omega

/-- freeproc of a slot for which allocproc got no page table. -/
theorem freeproc_bare {tf : Option Page} (ht : s.trapframe = tf) (hp : s.pagetable = none)
    (he : s.exec = none) (hr : Room m s) :
    Returns (freeproc s) m fun s' m' => Unused s' ∧ Moved m s m' s' := by
  have hpg : ∀ x, s.pages x = tf.elim 0 fun tf => hit tf x := by
    intro x
    rw [Slot.pages, ht, hp, he]
    simp only [Option.elim_none, Nat.add_zero]
  have hu : Unused s.freed := ⟨rfl, rfl, rfl, rfl, he⟩
  rw [freeproc, ht, hp]
  cases tf with
  | none =>
    refine Returns.pure ⟨hu, .refl m, rfl, fun x => ?_⟩
    rw [hu.pages, hpg, Option.elim_none]
  | some tf =>
    have hframe : m.frame tf = 1 := by
      have h1 := hr tf
      have h2 := m.frame_le tf
      rw [hpg, Option.elim_some, hit_self] at h1
      omega
    refine Returns.bind (kfree_returns hframe) ?_
    rintro - m₁ ⟨hs₁, hf₁⟩
    refine Returns.pure ⟨hu, hs₁, rfl, fun x => ?_⟩
    rw [hu.pages, hpg, hf₁, Option.elim_some]
    omega

theorem allocproc_returns (h : Unused s) (hle : ∀ x, m.free x ≤ m.frame x) :
    Returns (allocproc s) m fun r m' =>
      Moved m s m' r.1 ∧
        (r.2 = false ∧ Unused r.1 ∨
          r.2 = true ∧ r.1.state = .unused ∧ r.1.sz = 0 ∧ r.1.exec = none ∧
            ∃ tf pt, r.1.trapframe = some tf ∧ r.1.pagetable = some pt ∧
              Blank m.trampoline tf pt) ∧
        ∀ n, Ample (n + 4) m → r.2 = true ∧ Ample n m' := by
  refine Returns.bind (kalloc_returns m) ?_
  rintro (- | tf) m₁ ⟨hs₁, hf₁, ha₁⟩
  · have hr : Room m₁ { s with trapframe := none } := by
      intro x
      have h1 := hle x
      have h2 := hf₁ x
      have h3 : Unused { s with trapframe := none } := ⟨h.state, rfl, h.pagetable, h.sz, h.exec⟩
      rw [h3.pages, hs₁.frame]
      omega
    refine Returns.bind (freeproc_bare rfl h.pagetable h.exec hr) ?_
    rintro s' m₂ ⟨hu, hmv⟩
    refine Returns.pure ⟨⟨hs₁.trans hmv.same, hmv.ofile, fun x => ?_⟩, .inl ⟨rfl, hu⟩, fun n hn => ?_⟩
    · have h1 := hmv.count x
      have h2 := hf₁ x
      have h3 : Unused { s with trapframe := none } := ⟨h.state, rfl, h.pagetable, h.sz, h.exec⟩
      rw [h3.pages] at h1
      rw [h.pages]
      simp only [Option.elim_none] at h2 ⊢
      omega
    · cases (ha₁ (n + 3) hn).1
  · have hf₁ : ∀ x, m.free x = m₁.free x + hit tf x := hf₁
    have hle₁ : ∀ x, m₁.free x ≤ m₁.frame x := by
      intro x
      have h1 := hle x
      have h2 := hf₁ x
      rw [hs₁.frame]
      omega
    refine Returns.bind (procPagetable_returns tf m₁ hle₁) ?_
    rintro r m₂ ⟨hs₂, hmap, ha₂⟩
    rcases hmap with ⟨rfl, hf₂⟩ | ⟨pt, rfl, hf₂, hblank⟩
    · have hpg : ∀ x, Slot.pages { s with trapframe := some tf, pagetable := none } x = hit tf x := by
        intro x
        rw [Slot.pages]
        simp [h.exec]
      have hr : Room m₂ { s with trapframe := some tf, pagetable := none } := by
        intro x
        have h1 := hle x
        have h2 := hf₁ x
        rw [hpg, hf₂, (hs₁.trans hs₂).frame]
        omega
      refine Returns.bind (freeproc_bare rfl rfl h.exec hr) ?_
      rintro s' m₃ ⟨hu, hmv⟩
      refine Returns.pure ⟨⟨(hs₁.trans hs₂).trans hmv.same, hmv.ofile, fun x => ?_⟩,
        .inl ⟨rfl, hu⟩, fun n hn => ?_⟩
      · have h1 := hmv.count x
        have h2 := hf₁ x
        have h3 := hf₂ x
        rw [hpg] at h1
        rw [h.pages]
        simp only
        omega
      · cases (ha₂ n (ha₁ (n + 3) hn).2).1
    · refine Returns.pure ⟨⟨hs₁.trans hs₂, rfl, fun x => ?_⟩,
        .inr ⟨rfl, h.state, h.sz, h.exec, tf, pt, rfl, rfl, ?_⟩, fun n hn => ?_⟩
      · have h1 := hf₁ x
        have h2 := hf₂ x
        have hb := hblank.built (s := { s with trapframe := some tf, pagetable := some pt }) rfl rfl
          h.sz
        rw [h.pages, hb.pages, h.exec, PageTable.held, hblank.user, Option.elim_none]
        omega
      · rw [← hs₁.trampoline]
        exact hblank
      · exact ⟨rfl, (ha₂ n (ha₁ (n + 3) hn).2).2⟩

theorem Moved.trans {m'' : Mem} {s'' : Slot} (h : Moved m s m' s') (h' : Moved m' s' m'' s'') :
    Moved m s m'' s'' :=
  ⟨h.same.trans h'.same, h'.ofile.trans h.ofile, fun x => (h'.count x).trans (h.count x)⟩

theorem Room.moved (h : Room m s) (hm : Moved m s m' s') : Room m' s' := by
  intro x
  rw [hm.same.frame, hm.count]
  exact h x

theorem Built.moved {pt' : PageTable} (h : Built tramp s tf pt) (h' : Built tramp s' tf pt')
    (he : Edited m pt m' pt') (hx : s'.exec = s.exec) (ho : s'.ofile = s.ofile) :
    Moved m s m' s' := by
  refine ⟨he.same, ho, fun x => ?_⟩
  have h1 := he.count x
  rw [h.pages, h'.pages, hx, PageTable.held, PageTable.held]
  omega

theorem forkSlot_returns {p : Slot} {ptf : Page} {old : PageTable} (hp : Built tramp p ptf old)
    (h : Unused s) (ht : m.trampoline = tramp) (hle : ∀ x, m.free x ≤ m.frame x) :
    Returns (forkSlot p s) m fun r m' =>
      Moved m s m' r.1 ∧
        (r.2 = false ∧ Unused r.1 ∨
          r.2 = true ∧ r.1.exec = none ∧ ∃ tf pt, Built tramp r.1 tf pt) := by
  subst ht
  refine Returns.bind (allocproc_returns h hle) ?_
  rintro ⟨np, r⟩ m₁ ⟨hmv, hres, -⟩
  rcases hres with ⟨rfl, hu⟩ | ⟨rfl, hst, hsz, hex, tf, pt, htf, hpt, hblank⟩
  · exact Returns.pure ⟨hmv, .inl ⟨rfl, hu⟩⟩
  have hpt : np.pagetable = some pt := hpt
  have hb : Built m.trampoline np tf pt := hblank.built htf hpt hsz
  have hroom : Room m₁ np := Room.moved (fun x => by rw [h.pages]; exact hle x) hmv
  simp only [hp.pagetable, hpt]
  refine Returns.bind (uvmcopy_returns hp.spans hblank.spans (hb.within hroom)) ?_
  rintro ⟨pt', r⟩ m₂ ⟨he, htrue, hfalse⟩
  cases r with
  | false =>
    have hb' : Built m.trampoline { np with pagetable := some pt' } tf pt' := by
      refine ⟨htf, rfl, ?_, hb.kernel.edited he⟩
      show Spans pt' (Memory.pages np.sz)
      rw [hsz]
      exact hfalse rfl
    have hmv' := hb.moved hb' he rfl rfl
    refine Returns.bind (freeproc_returns hb' hex (hroom.moved hmv')) ?_
    rintro s' m₃ ⟨hu, hmv''⟩
    exact Returns.pure ⟨(hmv.trans hmv').trans hmv'', .inl ⟨rfl, hu⟩⟩
  | true =>
    have hb' : Built m.trampoline { np with pagetable := some pt', sz := p.sz } tf pt' :=
      ⟨htf, rfl, htrue rfl, hb.kernel.edited he⟩
    exact Returns.pure ⟨hmv.trans (hb.moved hb' he rfl rfl), .inr ⟨rfl, hex, tf, pt', hb'⟩⟩

theorem Live.rebuilt {pt' : PageTable} (h : Live tramp s tf pt) (hb : Built tramp s' tf pt')
    (hst : s'.state = s.state) (hex : s'.exec = s.exec) : Live tramp s' tf pt' where
  toBuilt := hb
  used := by
    rw [hst]
    exact h.used
  loading := by
    rw [hex]
    exact h.loading
  zombie := by
    rw [hst, hex]
    exact h.zombie

/-- What each part of a call does to the slot of its process: pages move, and the slot keeps its
shape. -/
def Steps (tramp tf : Page) (m : Mem) (s : Slot) (s' : Slot) (m' : Mem) : Prop :=
  Moved m s m' s' ∧ s'.state = s.state ∧ ∃ pt, Live tramp s' tf pt

theorem growproc_returns (h : Live tramp s tf pt) (hr : Room m s) (n : Int32) :
    Returns (growproc s n) m (Steps tramp tf m s) := by
  have hw : Within m pt := h.within hr
  simp only [growproc, h.pagetable]
  by_cases h1 : 0 < n.toInt
  · rw [if_pos h1]
    refine Returns.bind (uvmalloc_returns h.spans hw (s.sz + n.toInt.toNat) true false) ?_
    rintro ⟨pt', sz⟩ m' ⟨he, -, hres⟩
    have hk := h.kernel.edited he
    rcases hres with ⟨h0, hsp⟩ | ⟨h0, -, hsp⟩
    · subst h0
      have hb : Built tramp { s with pagetable := some pt' } tf pt' := ⟨h.trapframe, rfl, hsp, hk⟩
      exact Returns.pure ⟨h.moved hb he rfl rfl, rfl, pt', h.rebuilt hb rfl rfl⟩
    · obtain ⟨sz, rfl⟩ := Nat.exists_eq_succ_of_ne_zero h0
      have hb : Built tramp { s with pagetable := some pt', sz := sz + 1 } tf pt' :=
        ⟨h.trapframe, rfl, hsp, hk⟩
      exact Returns.pure ⟨h.moved hb he rfl rfl, rfl, pt', h.rebuilt hb rfl rfl⟩
  rw [if_neg h1]
  by_cases h2 : n.toInt < 0
  · rw [if_pos h2]
    refine Returns.bind (uvmdealloc_returns h.spans hw
      (((s.sz : Int) + n.toInt) % 2 ^ 64).toNat) ?_
    rintro ⟨pt', sz⟩ m' ⟨he, -, hsp, -⟩
    have hb : Built tramp { s with pagetable := some pt', sz := sz } tf pt' :=
      ⟨h.trapframe, rfl, hsp, h.kernel.edited he⟩
    exact Returns.pure ⟨h.moved hb he rfl rfl, rfl, pt', h.rebuilt hb rfl rfl⟩
  · rw [if_neg h2]
    exact Returns.pure ⟨⟨.refl m, rfl, fun x => rfl⟩, rfl, pt, h⟩

/-- exec gives up: the half-built table and the argument strings go back to the free list. -/
theorem execBad_returns {img : Image} (h : Built tramp s tf pt)
    (hl : ∀ pt' sz, img.table = some (pt', sz) → Spans pt' (Memory.pages sz) ∧
      KernelPart tramp tf pt')
    (hr : Room m { s with exec := some img }) :
    Returns (execBad s img) m fun s' m' =>
      s' = { s with exec := none } ∧ Moved m { s with exec := some img } m' s' := by
  obtain ⟨argv, table⟩ := img
  have hb : Built tramp { s with exec := some ⟨argv, table⟩ } tf pt :=
    ⟨h.trapframe, h.pagetable, h.spans, h.kernel⟩
  have hb' : Built tramp { s with exec := none } tf pt :=
    ⟨h.trapframe, h.pagetable, h.spans, h.kernel⟩
  -- once the table is freed, the argument strings are left
  have hrest : ∀ m₁, Same m m₁ →
      (∀ x, m₁.free x = m.free x + table.elim 0 fun t => t.1.held x) →
      Returns (kfreeAll argv >>= fun _ => pure { s with exec := none }) m₁ fun s' m' =>
        s' = { s with exec := none } ∧ Moved m { s with exec := some ⟨argv, table⟩ } m' s' := by
    intro m₁ hs₁ hf₁
    have hle : ∀ x, argv.count x ≤ m₁.frame x := by
      intro x
      have h1 := hr x
      rw [hb.pages, Option.elim_some, Image.pages_mk] at h1
      rw [hs₁.frame]
      omega
    refine Returns.bind (kfreeAll_returns argv m₁ hle) ?_
    rintro - m₂ ⟨hs₂, hf₂⟩
    refine Returns.pure ⟨rfl, hs₁.trans hs₂, rfl, fun x => ?_⟩
    have h1 := hf₁ x
    have h2 := hf₂ x
    rw [hb.pages, hb'.pages, Option.elim_some, Option.elim_none, Image.pages_mk]
    omega
  cases table with
  | none => exact hrest m (.refl m) fun x => by rw [Option.elim_none, Nat.add_zero]
  | some t =>
    obtain ⟨pt', sz⟩ := t
    obtain ⟨hsp, hk⟩ := hl pt' sz rfl
    have hw : Within m pt' := by
      intro x
      have h1 := hr x
      rw [hb.pages, Option.elim_some, Image.pages_some] at h1
      omega
    refine Returns.bind (procFreepagetable_returns hsp hk hw) ?_
    rintro - m₁ ⟨hs₁, hf₁⟩
    refine hrest m₁ hs₁ fun x => ?_
    rw [Option.elim_some, PageTable.held, hf₁, Nat.add_assoc]

theorem Live.leave (h : Live tramp s tf pt) : Live tramp { s with exec := none } tf pt where
  toBuilt := ⟨h.trapframe, h.pagetable, h.spans, h.kernel⟩
  used := h.used
  loading := by
    intro img pt' sz hx
    cases hx
  zombie := fun _ => rfl

theorem Live.with_argv (h : Live tramp s tf pt) (hst : s.state = .live) (argv : List Page) :
    Live tramp { s with exec := some ⟨argv, none⟩ } tf pt where
  toBuilt := ⟨h.trapframe, h.pagetable, h.spans, h.kernel⟩
  used := h.used
  loading := by
    intro img pt' sz hx ht
    cases hx
    cases ht
  zombie := fun hz => by rw [hst] at hz; cases hz

theorem Live.with_table {argv : List Page} {pt' : PageTable} {sz : Nat}
    (h : Live tramp s tf pt) (hst : s.state = .live) (hl : Loading tramp tf pt' sz) :
    Live tramp { s with exec := some ⟨argv, some (pt', sz)⟩ } tf pt where
  toBuilt := ⟨h.trapframe, h.pagetable, h.spans, h.kernel⟩
  used := h.used
  loading := by
    intro img pt'' sz' hx ht
    cases hx
    cases ht
    exact hl
  zombie := fun hz => by rw [hst] at hz; cases hz

end Xv6.Memory
