import Xv6.Memory.World
import Xv6.Memory.Slots

open Xv6.Framework

namespace Xv6.Memory

variable {m m₁ : Mem} {s : Slot} {tf tramp : Page} {pt pt' : PageTable} {argv : List Page}
  {sz : Nat}

theorem Live.bad_returns {img : Image} (h : Live tramp s tf pt) (hr : Room m s)
    (hm : Moved m s m₁ { s with exec := some img })
    (hl : ∀ pt' sz, img.table = some (pt', sz) → Spans pt' (Memory.pages sz) ∧
      KernelPart tramp tf pt') :
    Returns (execBad s img) m₁ (Steps tramp tf m s) := by
  refine (execBad_returns h.toBuilt hl (hr.moved hm)).mono ?_
  rintro s' m' ⟨rfl, hm'⟩
  exact ⟨hm.trans hm', rfl, pt, h.leave⟩

theorem Loading.shape (h : Loading tramp tf pt' sz) {argv : List Page} :
    ∀ pt sz', (⟨argv, some (pt', sz)⟩ : Image).table = some (pt, sz') →
      Spans pt (Memory.pages sz') ∧ KernelPart tramp tf pt := by
  intro pt sz' ht
  cases ht
  exact ⟨h.spans, h.kernel⟩

theorem pages_args (h : Built tramp s tf pt) (ha : s.args = some argv) (x : Page) :
    s.pages x = hit tf x + pt.held x + argv.count x := by
  rw [h.pages]
  rw [Slot.args] at ha
  split at ha
  next hx =>
    cases ha
    rw [hx, Option.elim_none, List.count_nil]
  next argv' hx =>
    cases ha
    rw [hx, Option.elim_some, Image.pages_mk, Option.elim_none, Nat.add_zero]
  · cases ha

theorem loading_iff : s.loading = some (argv, pt', sz) ↔ s.exec = some ⟨argv, some (pt', sz)⟩ := by
  constructor
  · intro ha
    obtain ⟨⟨argv', table⟩, hx, ht⟩ := Option.bind_eq_some_iff.mp ha
    obtain ⟨t, ht, he⟩ := Option.map_eq_some_iff.mp ht
    cases he
    have ht : table = some (pt', sz) := ht
    rw [hx, ht]
  · intro hx
    rw [Slot.loading, hx]
    rfl

theorem pages_loading (h : Built tramp s tf pt) (ha : s.loading = some (argv, pt', sz)) (x : Page) :
    s.pages x = hit tf x + pt.held x + (argv.count x + (pt'.tables x + pt'.user x)) := by
  rw [h.pages, loading_iff.mp ha, Option.elim_some, Image.pages_some]

theorem loading_shape (h : Live tramp s tf pt) (ha : s.loading = some (argv, pt', sz)) :
    Loading tramp tf pt' sz :=
  h.loading _ pt' sz (loading_iff.mp ha) rfl

/-- The pages of a slot inside exec before it has a table. -/
theorem Built.pages_argv (h : Built tramp s tf pt) (argv : List Page) (x : Page) :
    Slot.pages { s with exec := some ⟨argv, none⟩ } x = hit tf x + pt.held x + argv.count x := by
  have hb : Built tramp { s with exec := some ⟨argv, none⟩ } tf pt :=
    ⟨h.trapframe, h.pagetable, h.spans, h.kernel⟩
  exact pages_args hb rfl x

theorem Built.pages_table (h : Built tramp s tf pt) (argv : List Page) (pt' : PageTable) (sz : Nat)
    (x : Page) :
    Slot.pages { s with exec := some ⟨argv, some (pt', sz)⟩ } x =
      hit tf x + pt.held x + (argv.count x + (pt'.tables x + pt'.user x)) := by
  have hb : Built tramp { s with exec := some ⟨argv, some (pt', sz)⟩ } tf pt :=
    ⟨h.trapframe, h.pagetable, h.spans, h.kernel⟩
  exact pages_loading hb rfl x

theorem execArg_returns (h : Live tramp s tf pt) (hst : s.state = .live) (hr : Room m s)
    (ha : s.args = some argv) (fetchaddr fetchstr : Bool) :
    Returns (execArg s argv fetchaddr fetchstr) m (Steps tramp tf m s) := by
  have hnone : ∀ argv pt' sz, (⟨argv, none⟩ : Image).table = some (pt', sz) →
      Spans pt' (Memory.pages sz) ∧ KernelPart tramp tf pt' := by
    intro argv pt' sz ht
    cases ht
  have hm : Moved m s m { s with exec := some ⟨argv, none⟩ } := by
    refine ⟨.refl m, rfl, fun x => ?_⟩
    rw [h.pages_argv, pages_args h.toBuilt ha]
  rw [execArg]
  by_cases h1 : MAXARG ≤ argv.length
  · rw [if_pos h1]
    exact h.bad_returns hr hm (hnone argv)
  rw [if_neg h1]
  cases fetchaddr with
  | false => exact h.bad_returns hr hm (hnone argv)
  | true =>
    refine Returns.bind (kalloc_returns m) ?_
    rintro (- | a) m₁ ⟨hs, hf, -⟩
    · refine h.bad_returns hr ⟨hs, rfl, fun x => ?_⟩ (hnone argv)
      have h1 := hf x
      rw [h.pages_argv, pages_args h.toBuilt ha]
      simp only [Option.elim_none] at h1
      omega
    · have hm' : Moved m s m₁ { s with exec := some ⟨argv ++ [a], none⟩ } := by
        refine ⟨hs, rfl, fun x => ?_⟩
        have h1 : m.free x = m₁.free x + hit a x := hf x
        have h2 : [a].count x = hit a x := by
          simp only [List.count_cons, List.count_nil, hit, beq_iff_eq, Nat.zero_add]
        rw [h.pages_argv, pages_args h.toBuilt ha, List.count_append]
        omega
      cases fetchstr with
      | false => exact h.bad_returns hr hm' (hnone _)
      | true => exact Returns.pure ⟨hm', rfl, pt, h.with_argv hst _⟩

theorem execBegin_returns (h : Live tramp s tf pt) (hst : s.state = .live) (hr : Room m s)
    (ht : m.trampoline = tramp) (ha : s.args = some argv) (found : Bool) :
    Returns (execBegin s argv found) m (Steps tramp tf m s) := by
  subst ht
  have hnone : ∀ pt' sz, (⟨argv, none⟩ : Image).table = some (pt', sz) →
      Spans pt' (Memory.pages sz) ∧ KernelPart m.trampoline tf pt' := by
    intro pt' sz ht
    cases ht
  rw [execBegin]
  split
  next hx =>
    rw [h.trapframe] at hx
    cases hx
  rename_i tf' hx
  obtain rfl : tf = tf' := by
    rw [h.trapframe] at hx
    exact Option.some.inj hx
  cases found with
  | false =>
    refine h.bad_returns hr ⟨.refl m, rfl, fun x => ?_⟩ hnone
    rw [h.pages_argv, pages_args h.toBuilt ha]
  | true =>
    have hle : ∀ x, m.free x ≤ m.frame x := fun x => (Nat.le_add_right ..).trans (hr x)
    refine Returns.bind (procPagetable_returns tf m hle) ?_
    rintro r m₁ ⟨hs, hres, -⟩
    rcases hres with ⟨rfl, hf⟩ | ⟨pt', rfl, hf, hblank⟩
    · refine h.bad_returns hr ⟨hs, rfl, fun x => ?_⟩ hnone
      rw [h.pages_argv, pages_args h.toBuilt ha, hf]
    · have hl : Loading m.trampoline tf pt' 0 := ⟨hblank.spans, hblank.kernel, hblank.allUser⟩
      refine Returns.pure ⟨⟨hs, rfl, fun x => ?_⟩, rfl, pt, h.with_table hst hl⟩
      have h1 := hf x
      rw [h.pages_table, pages_args h.toBuilt ha, hblank.user]
      omega

/-- The image grows by an edit of its table. -/
theorem Live.moved_table {pt'' : PageTable} {sz' : Nat} (h : Live tramp s tf pt)
    (ha : s.loading = some (argv, pt', sz)) (he : Edited m pt' m₁ pt'') :
    Moved m s m₁ { s with exec := some ⟨argv, some (pt'', sz')⟩ } := by
  refine ⟨he.same, rfl, fun x => ?_⟩
  have h1 := he.count x
  rw [h.pages_table, pages_loading h.toBuilt ha]
  omega

theorem within_loading (h : Built tramp s tf pt) (ha : s.loading = some (argv, pt', sz))
    (hr : Room m s) : Within m pt' := by
  intro x
  have h1 := hr x
  rw [pages_loading h ha] at h1
  omega

/-- The pages of a segment that readi fills lie below its end. -/
theorem segment_pages {vaddr filesz memsz : UInt64} (hfile : ¬memsz < filesz)
    (hover : ¬vaddr + memsz < vaddr) (hal : vaddr.toNat % PGSIZE = 0) :
    vaddr.toNat / PGSIZE + (filesz.toUInt32.toNat + PGSIZE - 1) / PGSIZE ≤
      Memory.pages (vaddr + memsz).toNat := by
  have h1 : (vaddr + memsz).toNat = (vaddr.toNat + memsz.toNat) % 2 ^ 64 := UInt64.toNat_add ..
  have h2 : filesz.toUInt32.toNat = filesz.toNat % 2 ^ 32 := UInt64.toNat_toUInt32 ..
  have h3 : ¬memsz.toNat < filesz.toNat := by rwa [← UInt64.lt_iff_toNat_lt]
  have h4 : ¬(vaddr + memsz).toNat < vaddr.toNat := by rwa [← UInt64.lt_iff_toNat_lt]
  have h6 := memsz.toNat_lt
  rw [pages_eq]
  simp only [PGSIZE] at hal ⊢
  omega

theorem execSegment_returns (h : Live tramp s tf pt) (hst : s.state = .live) (hr : Room m s)
    (ha : s.loading = some (argv, pt', sz)) (ph : Option Proghdr) (read : Nat) :
    Returns (execSegment s argv pt' sz ph read) m (Steps tramp tf m s) := by
  have hl := loading_shape h ha
  have hm : Moved m s m { s with exec := some ⟨argv, some (pt', sz)⟩ } :=
    h.moved_table ha (.refl m pt')
  have hbad : Returns (execBad s ⟨argv, some (pt', sz)⟩) m (Steps tramp tf m s) :=
    h.bad_returns hr hm hl.shape
  cases ph with
  | none => exact hbad
  | some ph =>
    rw [execSegment]
    by_cases h1 : ph.load = false
    · rw [if_pos h1]
      exact Returns.pure ⟨⟨.refl m, rfl, fun x => rfl⟩, rfl, pt, h⟩
    rw [if_neg h1]
    by_cases h2 : ph.memsz < ph.filesz
    · rw [if_pos h2]
      exact hbad
    rw [if_neg h2]
    by_cases h3 : ph.vaddr + ph.memsz < ph.vaddr
    · rw [if_pos h3]
      exact hbad
    rw [if_neg h3]
    by_cases h4 : ph.vaddr.toNat % PGSIZE ≠ 0
    · rw [if_pos h4]
      exact hbad
    rw [if_neg h4]
    refine Returns.bind (uvmalloc_returns hl.spans (within_loading h.toBuilt ha hr) _ _ _) ?_
    rintro ⟨pt'', sz'⟩ m₁ ⟨he, hall, hres⟩
    have hk := hl.kernel.edited he
    rcases hres with ⟨h0, hsp⟩ | ⟨h0, hmax, hsp⟩
    · subst h0
      exact h.bad_returns hr (h.moved_table ha he) (Loading.shape ⟨hsp, hk, hall hl.user⟩)
    · obtain ⟨sz', rfl⟩ := Nat.exists_eq_succ_of_ne_zero h0
      have hl' : Loading tramp tf pt'' (sz' + 1) := ⟨hsp, hk, hall hl.user⟩
      have hm' : Moved m s m₁ { s with exec := some ⟨argv, some (pt'', sz' + 1)⟩ } :=
        h.moved_table ha he
      have hseg : ph.vaddr.toNat / PGSIZE + (ph.filesz.toUInt32.toNat + PGSIZE - 1) / PGSIZE ≤
          Memory.pages (sz' + 1) := by
        refine (segment_pages h2 h3 (by simpa using h4)).trans (pages_mono ?_)
        omega
      have hva : ph.vaddr.toNat / PGSIZE * PGSIZE = ph.vaddr.toNat :=
        Nat.div_mul_cancel (Nat.dvd_of_mod_eq_zero (by simpa using h4))
      have hload := loadseg_returns (m := m₁) hsp hl'.user _ _ read hseg
      rw [hva] at hload
      refine Returns.bind hload ?_
      rintro (- | -) m₂ hm₂
      · cases hm₂
        exact h.bad_returns hr hm' hl'.shape
      · cases hm₂
        exact Returns.pure ⟨hm', rfl, pt, h.with_table hst hl'⟩

/-- The stack is two pages, the lower of them the guard. -/
theorem guard_page {sz' : Nat} (h : sz' = max (PGROUNDUP sz) (PGROUNDUP sz + (USERSTACK + 1) * PGSIZE)) :
    sz' - (USERSTACK + 1) * PGSIZE = Memory.pages sz * PGSIZE ∧
      Memory.pages sz < Memory.pages sz' := by
  rw [h]
  simp only [Memory.pages, PGROUNDUP, PGSIZE]
  omega

theorem execCommit_returns (h : Live tramp s tf pt) (hr : Room m s)
    (ha : s.loading = some (argv, pt', sz)) (pushed : Bool) :
    Returns (execCommit s argv pt' sz pushed) m (Steps tramp tf m s) := by
  have hl := loading_shape h ha
  have hround : Spans pt' (Memory.pages (PGROUNDUP sz)) := by
    rw [← pages_mul, pages_page]
    exact hl.spans
  refine Returns.bind (uvmalloc_returns hround (within_loading h.toBuilt ha hr) _ _ _) ?_
  rintro ⟨pt'', sz'⟩ m₁ ⟨he, -, hres⟩
  have hk := hl.kernel.edited he
  rcases hres with ⟨h0, hsp⟩ | ⟨h0, hmax, hsp⟩
  · subst h0
    refine h.bad_returns hr (h.moved_table ha he) ?_
    intro pt₂ sz₂ ht
    cases ht
    exact ⟨hsp, hk⟩
  · obtain ⟨sz', rfl⟩ := Nat.exists_eq_succ_of_ne_zero h0
    obtain ⟨hguard, hlt⟩ := guard_page hmax
    simp only
    rw [hguard]
    refine Returns.bind (uvmclear_returns hsp hlt) ?_
    rintro pt₂ m₂ ⟨he', hsp'⟩
    have he₂ := he.trans he'
    have hk' := hl.kernel.edited he₂
    have hm : Moved m s m₂ { s with exec := some ⟨argv, some (pt₂, sz' + 1)⟩ } :=
      h.moved_table ha he₂
    cases pushed with
    | false =>
      refine h.bad_returns hr hm ?_
      intro pt₃ sz₃ ht
      cases ht
      exact ⟨hsp', hk'⟩
    | true =>
      have hroom := hr.moved hm
      have hw : Within m₂ pt := by
        intro x
        have h1 := hroom x
        rw [h.pages_table, PageTable.held] at h1
        omega
      rw [if_pos rfl]
      split
      next hx =>
        rw [h.pagetable] at hx
        cases hx
      rename_i old hx
      obtain rfl : pt = old := by
        rw [h.pagetable] at hx
        exact Option.some.inj hx
      refine Returns.bind (procFreepagetable_returns h.spans h.kernel hw) ?_
      rintro - m₃ ⟨hs₃, hf₃⟩
      have hle : ∀ x, argv.count x ≤ m₃.frame x := by
        intro x
        have h1 := hroom x
        rw [h.pages_table] at h1
        rw [hs₃.frame]
        omega
      refine Returns.bind (kfreeAll_returns argv m₃ hle) ?_
      rintro - m₄ ⟨hs₄, hf₄⟩
      have hb : Built tramp { s with pagetable := some pt₂, sz := sz' + 1, exec := none } tf pt₂ :=
        ⟨h.trapframe, rfl, hsp', hk'⟩
      refine Returns.pure ⟨hm.trans ⟨hs₃.trans hs₄, rfl, fun x => ?_⟩, rfl, pt₂, hb, h.used, ?_,
        fun _ => rfl⟩
      · have h3 := hf₃ x
        have h4 := hf₄ x
        rw [hb.pages, h.pages_table, Option.elim_none, PageTable.held, PageTable.held]
        omega
      · intro img pt₅ sz₅ hx
        cases hx

end Xv6.Memory
