import Xv6.Memory.Process
import Xv6.Memory.Space

open Xv6.Framework

namespace Xv6.Memory

variable {m m' : Mem} {pt pt' : PageTable} {n k : Nat} {tf tramp : Page}

/-! Freeing the pages of a table. -/

section Freewalk

variable {α : Type} {free : α → Kernel Unit} {g : Page → α → Nat} {P : α → Prop}

theorem freeEntries_returns
    (hfree : ∀ t m, P t → (∀ x, g x t ≤ m.frame x) →
      Returns (free t) m fun _ m' => Same m m' ∧ ∀ x, m'.free x = m.free x + g x t)
    (es : List (Option α)) :
    ∀ m : Mem, (∀ t, some t ∈ es → P t) →
      (∀ x, (es.map fun e => e.elim 0 (g x)).sum ≤ m.frame x) →
      Returns (freeEntries free es) m fun _ m' =>
        Same m m' ∧ ∀ x, m'.free x = m.free x + (es.map fun e => e.elim 0 (g x)).sum := by
  induction es with
  | nil =>
    intro m _ _
    exact Returns.pure ⟨.refl m, fun x => rfl⟩
  | cons e es ih =>
    intro m hP hle
    cases e with
    | none =>
      simp only [List.map_cons, Option.elim_none, List.sum_cons, Nat.zero_add] at hle ⊢
      exact ih m (fun t ht => hP t (List.mem_cons_of_mem _ ht)) hle
    | some t =>
      simp only [List.map_cons, Option.elim_some, List.sum_cons] at hle ⊢
      have hle1 : ∀ x, g x t ≤ m.frame x := fun x => (Nat.le_add_right ..).trans (hle x)
      refine Returns.bind (hfree t m (hP t List.mem_cons_self) hle1) ?_
      rintro - m' ⟨hs, hf⟩
      have hle2 : ∀ x, (es.map fun e => e.elim 0 (g x)).sum ≤ m'.frame x := by
        intro x
        rw [hs.frame]
        exact (Nat.le_add_left ..).trans (hle x)
      refine (ih m' (fun t ht => hP t (List.mem_cons_of_mem _ ht)) hle2).mono ?_
      rintro - m'' ⟨hs', hf'⟩
      refine ⟨hs.trans hs', fun x => ?_⟩
      rw [hf' x, hf x, Nat.add_assoc]

theorem freeTable_returns
    (hfree : ∀ t m, P t → (∀ x, g x t ≤ m.frame x) →
      Returns (free t) m fun _ m' => Same m m' ∧ ∀ x, m'.free x = m.free x + g x t)
    (t : Table α) (m : Mem) (hP : ∀ i u, t.entry i = some u → P u)
    (hle : ∀ x, t.weigh (g x) x ≤ m.frame x) :
    Returns (freeTable free t) m fun _ m' =>
      Same m m' ∧ ∀ x, m'.free x = m.free x + t.weigh (g x) x := by
  have hsum : ∀ x, (((List.finRange 512).map t.entry).map fun e => e.elim 0 (g x)).sum =
      ∑ i, (t.entry i).elim 0 (g x) := by
    intro x
    rw [List.map_map]
    rfl
  refine Returns.bind (freeEntries_returns hfree _ m ?_ ?_) ?_
  · intro u hu
    obtain ⟨i, -, hi⟩ := List.mem_map.mp hu
    exact hP i u hi
  · intro x
    rw [hsum]
    exact (Nat.le_add_left ..).trans (hle x)
  · rintro - m' ⟨hs, hf⟩
    have hframe : m'.frame t.page = 1 := by
      have h1 := hle t.page
      have h2 := m.frame_le t.page
      rw [Table.weigh, hit_self] at h1
      rw [hs.frame]
      omega
    refine (kfree_returns hframe).mono ?_
    rintro - m'' ⟨hs', hf'⟩
    refine ⟨hs.trans hs', fun x => ?_⟩
    have h1 := hf x
    have h2 := hf' x
    rw [hsum] at h1
    rw [Table.weigh]
    omega

end Freewalk

theorem freeLow_returns (low : Table Pte) (m : Mem) (h : ∀ i, low.entry i = none)
    (hle : ∀ x, lowPages x low ≤ m.frame x) :
    Returns (freeLow low) m fun _ m' =>
      Same m m' ∧ ∀ x, m'.free x = m.free x + lowPages x low := by
  have hw : ∀ x, lowPages x low = hit low.page x := by
    intro x
    simp [lowPages, Table.weigh, h]
  have hnone : ¬((List.finRange 512).any fun i => (low.entry i).isSome) = true := by
    simp [h]
  rw [freeLow, if_neg hnone]
  simp only [hw] at hle ⊢
  have hframe : m.frame low.page = 1 := by
    have h1 := hle low.page
    have h2 := m.frame_le low.page
    rw [hit_self] at h1
    omega
  exact kfree_returns hframe

/-- No leaf hangs below a level-1 table. -/
def Bare (mid : Table (Table Pte)) : Prop := ∀ j low, mid.entry j = some low → ∀ i, low.entry i = none

theorem freeMid_returns (mid : Table (Table Pte)) (m : Mem) (h : Bare mid)
    (hle : ∀ x, midPages x mid ≤ m.frame x) :
    Returns (freeTable freeLow mid) m fun _ m' =>
      Same m m' ∧ ∀ x, m'.free x = m.free x + midPages x mid :=
  freeTable_returns freeLow_returns mid m
    h hle

theorem freewalk_returns (h : ∀ i, pt.leaf i = none) (hle : ∀ x, pt.tables x ≤ m.frame x) :
    Returns (freewalk pt) m fun _ m' =>
      Same m m' ∧ ∀ x, m'.free x = m.free x + pt.tables x := by
  have hbare : ∀ i mid, pt.entry i = some mid → Bare mid := by
    intro i mid hi j low hj c
    have hl := h (i, j, c)
    rw [PageTable.leaf_eq hi hj] at hl
    exact hl
  exact freeTable_returns freeMid_returns pt m hbare hle

theorem PageTable.user_none (h : ∀ i, pt.leaf i = none) (x : Page) : pt.user x = 0 := by
  refine Finset.sum_eq_zero fun i _ => ?_
  rw [h i, ownLeaf]
  simp

theorem uvmfree_returns {sz : Nat} (h : Spans pt (pages sz))
    (hk : ∀ i, lastUser ≤ vpn i → pt.leaf i = none) (hw : Within m pt) :
    Returns (uvmfree pt sz) m fun _ m' =>
      Same m m' ∧ ∀ x, m'.free x = m.free x + pt.tables x + pt.user x := by
  -- the table once the user pages are gone
  have hunmap : Returns (if sz > 0 then uvmunmap pt 0 (PGROUNDUP sz / PGSIZE) true else pure pt) m
      fun pt' m' => Edited m pt m' pt' ∧ ∀ i, pt'.leaf i = none := by
    by_cases hsz : sz > 0
    · rw [if_pos hsz, show PGROUNDUP sz / PGSIZE = pages sz from rfl]
      refine (uvmunmap_returns (h.unmappable hw (Nat.zero_add _).le)).mono ?_
      rintro pt' m' ⟨hs, ht, hf, hl⟩
      refine ⟨h.edited_unmap (Nat.zero_add _).le hs ht hf hl, fun i => ?_⟩
      rw [hl i]
      split
      · rfl
      next hr =>
        by_cases hi : vpn i < lastUser
        · exact h.free i (by omega) hi
        · exact hk i (by omega)
    · rw [if_neg hsz]
      refine Returns.pure ⟨.refl m pt, fun i => ?_⟩
      have h0 : pages sz = 0 := by
        have : sz = 0 := by omega
        rw [this]
        rfl
      by_cases hi : vpn i < lastUser
      · exact h.free i (by omega) hi
      · exact hk i (by omega)
  refine Returns.bind hunmap ?_
  rintro pt' m' ⟨he, hl⟩
  have hw' := hw.edited he
  have hle : ∀ x, pt'.tables x ≤ m'.frame x := by
    intro x
    have := hw' x
    omega
  refine (freewalk_returns hl hle).mono ?_
  rintro - m'' ⟨hs, hf⟩
  refine ⟨he.same.trans hs, fun x => ?_⟩
  have h1 := hf x
  have h2 := he.count x
  have h3 := PageTable.user_none hl x
  omega

/-- The leaves of the kernel in a user page table: the trampoline, and below it the trapframe of
the process, neither of them for user mode. -/
structure KernelPart (tramp tf : Page) (pt : PageTable) : Prop where
  trampoline : pt.leaf (index TRAMPOLINE) = some ⟨tramp, ⟨true, false, true, false⟩⟩
  trapframe : pt.leaf (index TRAPFRAME) = some ⟨tf, ⟨true, true, false, false⟩⟩
  above : ∀ i, MAXVA / PGSIZE ≤ vpn i → pt.leaf i = none

theorem vpn_TRAMPOLINE : vpn (index TRAMPOLINE) = lastUser + 1 := by decide

theorem vpn_TRAPFRAME : vpn (index TRAPFRAME) = lastUser := by decide

theorem KernelPart.edited (h : KernelPart tramp tf pt) (he : Edited m pt m' pt') :
    KernelPart tramp tf pt' where
  trampoline := by
    rw [he.kernel _ (by rw [vpn_TRAMPOLINE]; omega)]
    exact h.trampoline
  trapframe := by
    rw [he.kernel _ (by rw [vpn_TRAPFRAME])]
    exact h.trapframe
  above := by
    intro i hi
    have hu : lastUser ≤ MAXVA / PGSIZE := by decide
    rw [he.kernel i (hu.trans hi)]
    exact h.above i hi

/-- Removing one of the kernel's two leaves. -/
theorem unmapKernel_returns {va : Nat} (hva : va / PGSIZE * PGSIZE = va) (hlt : va < MAXVA)
    (hk : lastUser ≤ va / PGSIZE) {pte : Pte} (hl : pt.leaf (index va) = some pte)
    (hr : pte.perm.r = true) (hw : Within m pt) :
    Returns (uvmunmap pt va 1 false) m fun pt' m' =>
      Same m m' ∧ (∀ x, m'.free x = m.free x) ∧ (∀ x, pt'.tables x = pt.tables x) ∧
        (∀ x, pt'.user x = pt.user x) ∧ pt'.leaf = update pt.leaf (index va) none := by
  have hv := vpn_index hlt
  have hun : Unmappable pt m (va / PGSIZE) 1 false := by
    refine ⟨?_, ?_, by simp, fun _ => hk, hw.user_le⟩
    · simp only [MAXVA, PGSIZE] at hlt ⊢
      omega
    · intro i h1 h2
      have hi : i = index va := vpn_injective (by omega)
      rw [hi]
      exact ⟨pte, hl, hr⟩
  have h := uvmunmap_returns hun
  rw [hva] at h
  refine h.mono ?_
  rintro pt' m' ⟨hs, ht, hf, hl'⟩
  have hleaf : pt'.leaf = update pt.leaf (index va) none := by
    funext i
    rw [hl' i]
    by_cases hi : i = index va
    · rw [hi, update_self, if_pos (by omega)]
    · have hne : vpn i ≠ va / PGSIZE := fun hc => hi (vpn_injective (hc.trans hv.symm))
      rw [update_of_ne hi, if_neg (by omega)]
  have hu : ∀ x, pt'.user x = pt.user x := by
    intro x
    have h1 := sum_update_add pt.leaf (ownLeaf x) (index va) none
    have h0 : ∀ e, ownLeaf x (index va) e = 0 := by
      intro e
      rw [ownLeaf, if_neg (by omega)]
    rw [h0, h0, ← hleaf, Nat.add_zero, Nat.add_zero] at h1
    exact h1
  refine ⟨hs, fun x => ?_, ht, hu, hleaf⟩
  have h1 := hf x
  have h2 := hu x
  omega

theorem procFreepagetable_returns {sz : Nat} (h : Spans pt (pages sz))
    (hk : KernelPart tramp tf pt) (hw : Within m pt) :
    Returns (procFreepagetable pt sz) m fun _ m' =>
      Same m m' ∧ ∀ x, m'.free x = m.free x + pt.tables x + pt.user x := by
  refine Returns.bind (unmapKernel_returns (by decide) (by decide) (by decide)
    hk.trampoline rfl hw) ?_
  rintro pt₁ m₁ ⟨hs₁, hf₁, ht₁, hu₁, hl₁⟩
  have hw₁ : Within m₁ pt₁ := by
    intro x
    rw [hf₁, ht₁, hu₁, hs₁.frame]
    exact hw x
  have hne : index TRAPFRAME ≠ index TRAMPOLINE := by decide
  have htf : pt₁.leaf (index TRAPFRAME) = some ⟨tf, ⟨true, true, false, false⟩⟩ := by
    rw [hl₁]
    exact hk.trapframe
  refine Returns.bind (unmapKernel_returns (by decide) (by decide) (by decide)
    htf rfl hw₁) ?_
  rintro pt₂ m₂ ⟨hs₂, hf₂, ht₂, hu₂, hl₂⟩
  have hw₂ : Within m₂ pt₂ := by
    intro x
    rw [hf₂, ht₂, hu₂, hs₂.frame]
    exact hw₁ x
  -- below the kernel's leaves nothing changed, and above them there was nothing
  have hlow : ∀ i, vpn i < lastUser → pt₂.leaf i = pt.leaf i := by
    intro i hi
    have h1 : i ≠ index TRAPFRAME := fun hc => by rw [hc, vpn_TRAPFRAME] at hi; omega
    have h2 : i ≠ index TRAMPOLINE := fun hc => by rw [hc, vpn_TRAMPOLINE] at hi; omega
    rw [hl₂, update_of_ne h1, hl₁, update_of_ne h2]
  have hhigh : ∀ i, lastUser ≤ vpn i → pt₂.leaf i = none := by
    intro i hi
    by_cases h1 : i = index TRAPFRAME
    · rw [hl₂, h1, update_self]
    rw [hl₂, update_of_ne h1]
    by_cases h2 : i = index TRAMPOLINE
    · rw [hl₁, h2, update_self]
    rw [hl₁, update_of_ne h2]
    apply hk.above
    have h3 : vpn i ≠ lastUser := fun hc => h1 (vpn_injective (hc.trans vpn_TRAPFRAME.symm))
    have h4 : vpn i ≠ lastUser + 1 := fun hc => h2 (vpn_injective (hc.trans vpn_TRAMPOLINE.symm))
    have h5 : MAXVA / PGSIZE = lastUser + 2 := by decide
    omega
  have hsp : Spans pt₂ (pages sz) := by
    refine ⟨h.below, fun i hi => ?_, fun i hi hi' => ?_⟩
    · have hb := h.below
      rw [hlow i (by omega)]
      exact h.mapped i hi
    · rw [hlow i hi']
      exact h.free i hi hi'
  refine (uvmfree_returns hsp hhigh hw₂).mono ?_
  rintro - m₃ ⟨hs₃, hf₃⟩
  refine ⟨(hs₁.trans hs₂).trans hs₃, fun x => ?_⟩
  rw [hf₃, hf₂, hf₁, ht₂, ht₁, hu₂, hu₁]

/-- Mapping one of the kernel's leaves where its level-0 table is already there. -/
theorem mappages_reached {va : Nat} {pa : Page} {perm : Perm} (hva : va < MAXVA)
    (hal : va % PGSIZE = 0) (hreach : pt.Reached (index va)) (hfree : pt.leaf (index va) = none)
    (m : Mem) :
    mappages pt va PGSIZE pa perm m =
      .ok ((pt.setLeaf (index va) (some ⟨pa, perm⟩), true), m) := by
  have h1 : ¬(va % PGSIZE ≠ 0) := by simpa using hal
  have h2 : ¬(pt.leaf (index va)).isSome = true := by rw [hfree]; simp
  rw [mappages, if_neg h1, show PGSIZE / PGSIZE = 1 from rfl]
  show (walk pt va true m).bind _ = _
  rw [walk_reached hreach hva]
  simp only [Except.bind, if_neg h2]
  rfl

theorem tables_cleared (p x : Page) : PageTable.tables (Table.cleared p) x = hit p x := by
  rw [PageTable.tables, Table.weigh_cleared]

theorem Spans.of_none (h : ∀ i, vpn i < lastUser → pt.leaf i = none) : Spans pt 0 where
  below := Nat.zero_le _
  mapped := fun _ hi => absurd hi (Nat.not_lt_zero _)
  free := fun i _ hi => h i hi

/-- A new page table has the kernel's leaves and no user page. -/
structure Blank (tramp tf : Page) (pt : PageTable) : Prop where
  kernel : KernelPart tramp tf pt
  none : ∀ i, vpn i < lastUser → pt.leaf i = none

theorem Blank.spans (h : Blank tramp tf pt) : Spans pt 0 := .of_none h.none

theorem Blank.allUser (h : Blank tramp tf pt) : AllUser pt := by
  intro i pte hi hl
  rw [h.none i hi] at hl
  cases hl

theorem Blank.user (h : Blank tramp tf pt) (x : Page) : pt.user x = 0 := by
  refine Finset.sum_eq_zero fun i _ => ?_
  rw [ownLeaf]
  split
  next hi =>
    rw [h.none i hi]
    rfl
  · rfl

theorem procPagetable_returns (tf : Page) (m : Mem) (hle : ∀ x, m.free x ≤ m.frame x) :
    Returns (procPagetable tf) m fun r m' =>
      Same m m' ∧ (r = none ∧ (∀ x, m'.free x = m.free x) ∨
        ∃ pt, r = some pt ∧ (∀ x, m'.free x + pt.tables x = m.free x) ∧
          Blank m.trampoline tf pt) ∧
      ∀ n, Ample (n + 3) m → r.isSome ∧ Ample n m' := by
  refine Returns.bind_ok rfl ?_
  rw [uvmcreate, bind_assoc]
  refine Returns.bind (kalloc_returns m) ?_
  rintro (- | p) m₁ ⟨hs₁, hf₁, ha₁⟩
  · refine Returns.pure ⟨hs₁, .inl ⟨rfl, fun x => (hf₁ x).symm⟩, fun n hn => ?_⟩
    cases (ha₁ (n + 2) (hn.mono (by omega))).1
  simp only [pure_bind]
  refine Returns.bind (mappages_returns (Table.cleared p) (by decide) rfl rfl
    m₁) ?_
  rintro ⟨pt, r⟩ m₂ ⟨hs₂, hf₂, hmap, ha₂⟩
  have hf₁ : ∀ x, m.free x = m₁.free x + hit p x := hf₁
  simp only [tables_cleared] at hf₂ hmap ha₂
  rcases hmap with ⟨rfl, hl, -⟩ | ⟨rfl, hl⟩
  · -- both leaves lie in one level-0 table, so the second one needs no page
    have hsome : (pt.leaf (index TRAMPOLINE)).isSome := by
      rw [hl]
      rfl
    have hreach : pt.Reached (index TRAPFRAME) := by
      obtain ⟨mid, low, h1, h2⟩ := PageTable.reached_of_leaf hsome
      exact ⟨mid, low, h1, h2⟩
    have hne : index TRAPFRAME ≠ index TRAMPOLINE := by decide
    have hnone : pt.leaf (index TRAPFRAME) = none := by
      rw [hl]
      rfl
    refine Returns.bind_ok (mappages_reached (by decide) rfl hreach hnone m₂) ?_
    have hl' := PageTable.leaf_setLeaf hreach (some ⟨tf, ⟨true, true, false, false⟩⟩)
    refine Returns.pure ⟨hs₁.trans hs₂, .inr ⟨_, rfl, fun x => ?_, ⟨?_, ?_, ?_⟩, ?_⟩, fun n hn => ?_⟩
    · rw [PageTable.tables_setLeaf hreach, hf₂, hf₁]
    · rw [hl', update_of_ne hne.symm, hl, update_self]
    · rw [hl', update_self]
    · intro i hi
      have h5 : MAXVA / PGSIZE = lastUser + 2 := by decide
      have h1 : i ≠ index TRAPFRAME := fun hc => by rw [hc, vpn_TRAPFRAME] at hi; omega
      have h2 : i ≠ index TRAMPOLINE := fun hc => by rw [hc, vpn_TRAMPOLINE] at hi; omega
      rw [hl', update_of_ne h1, hl, update_of_ne h2]
      rfl
    · intro i hi
      have h1 : i ≠ index TRAPFRAME := fun hc => by rw [hc, vpn_TRAPFRAME] at hi; omega
      have h2 : i ≠ index TRAMPOLINE := fun hc => by rw [hc, vpn_TRAMPOLINE] at hi; omega
      rw [hl', update_of_ne h1, hl, update_of_ne h2]
      rfl
    · exact ⟨rfl, (ha₂ n (ha₁ (n + 2) hn).2).2⟩
  · have hnone : ∀ i, pt.leaf i = none := fun i => by rw [hl]; rfl
    have hw : Within m₂ pt := by
      intro x
      have h1 := hf₁ x
      have h2 := hf₂ x
      have h3 := hle x
      have h4 := PageTable.user_none hnone x
      rw [(hs₁.trans hs₂).frame]
      omega
    refine Returns.bind (uvmfree_returns (.of_none fun i _ => hnone i)
      (fun i _ => hnone i) hw) ?_
    rintro - m₃ ⟨hs₃, hf₃⟩
    refine Returns.pure ⟨(hs₁.trans hs₂).trans hs₃, .inl ⟨rfl, fun x => ?_⟩, fun n hn => ?_⟩
    · rw [hf₃, PageTable.user_none hnone, Nat.add_zero, hf₂, hf₁]
    · cases (ha₂ n (ha₁ (n + 2) hn).2).1

/-- With memory at boot, uvmfirst maps the page of initcode. -/
theorem uvmfirst_returns (h : Blank tramp tf pt) (hw : Within m pt) (ha : Ample 3 m) :
    Returns (uvmfirst pt) m fun pt' m' => Edited m pt m' pt' ∧ Spans pt' 1 := by
  refine Returns.bind (kalloc_returns m) ?_
  rintro (- | p) m₁ ⟨hs₁, hf₁, ha₁⟩
  · cases (ha₁ 2 ha).1
  have hheld : Held m pt p m₁ pt := .of_kalloc hs₁ hf₁
  refine Returns.bind (hheld.mappages_returns hw h.spans rfl) ?_
  rintro ⟨pt', r⟩ m₂ ⟨hmap, ha₂⟩
  rcases hmap with ⟨-, he, hsp, -⟩ | ⟨hr, -⟩
  · exact Returns.pure ⟨he, hsp⟩
  · rw [(ha₂ 0 (ha₁ 2 ha).2).1] at hr
    cases hr

theorem uvmclear_returns (h : Spans pt n) (hk : k < n) :
    Returns (uvmclear pt (k * PGSIZE)) m fun pt' m' => Edited m pt m' pt' ∧ Spans pt' n := by
  have hb := h.below
  obtain ⟨hva, hv⟩ := vpn_user (hk.trans_le hb)
  obtain ⟨pte, hl, hr⟩ := h.mapped (index (k * PGSIZE)) (by omega)
  have hreach : pt.Reached (index (k * PGSIZE)) := PageTable.reached_of_leaf (by rw [hl]; rfl)
  refine Returns.bind_ok (walk_reached hreach hva false m) ?_
  simp only [hl, Option.map_some]
  have hleaf := PageTable.leaf_setLeaf hreach
    (some { pte with perm := { pte.perm with u := false } })
  refine Returns.pure ⟨⟨.refl m, fun x => ?_, fun i hi => ?_⟩, hb, fun i hi => ?_, fun i hi hi' => ?_⟩
  · have hu := PageTable.user_setLeaf hreach
      (some { pte with perm := { pte.perm with u := false } }) x
    rw [hl, ownLeaf_some (by omega), ownLeaf_some (by omega)] at hu
    rw [PageTable.tables_setLeaf hreach]
    simp only at hu
    omega
  · have hne : i ≠ index (k * PGSIZE) := fun hc => by rw [hc] at hi; omega
    rw [hleaf, update_of_ne hne]
  · by_cases hc : i = index (k * PGSIZE)
    · exact ⟨{ pte with perm := { pte.perm with u := false } },
        by rw [hleaf, hc, update_self], hr⟩
    · rw [hleaf, update_of_ne hc]
      exact h.mapped i hi
  · have hne : i ≠ index (k * PGSIZE) := fun hc => by rw [hc] at hi; omega
    rw [hleaf, update_of_ne hne]
    exact h.free i hi hi'

theorem walkaddr_eq (h : Spans pt n) (hu : AllUser pt) (hk : k < n) :
    walkaddr pt (k * PGSIZE) m = .ok (true, m) := by
  have hb := h.below
  obtain ⟨hva, hv⟩ := vpn_user (hk.trans_le hb)
  obtain ⟨pte, hl, -⟩ := h.mapped (index (k * PGSIZE)) (by omega)
  have hreach : pt.Reached (index (k * PGSIZE)) := PageTable.reached_of_leaf (by rw [hl]; rfl)
  rw [walkaddr, if_neg (Nat.not_le.mpr hva)]
  show (walk pt (k * PGSIZE) false m).bind _ = _
  rw [walk_reached hreach hva]
  simp only [Except.bind, hl, Option.map_some, hu _ pte (by omega) hl]
  rfl

/-- loadseg finds a user page behind each address of the segment. -/
theorem loadseg_returns (h : Spans pt n) (hu : AllUser pt) (c : Nat) :
    ∀ k read, k + c ≤ n → Returns (loadseg pt (k * PGSIZE) c read) m fun _ m' => m' = m := by
  induction c with
  | zero =>
    intro k read _
    exact Returns.pure rfl
  | succ c ih =>
    intro k read hk
    have hw := walkaddr_eq (m := m) h hu (show k < n by omega)
    cases read with
    | zero => exact Returns.bind_ok hw (Returns.pure rfl)
    | succ read =>
      refine Returns.bind_ok hw ?_
      rw [← Nat.succ_mul]
      exact ih (k + 1) read (by omega)

theorem kfreeAll_returns (as : List Page) :
    ∀ m : Mem, (∀ x, as.count x ≤ m.frame x) →
      Returns (kfreeAll as) m fun _ m' => Same m m' ∧ ∀ x, m'.free x = m.free x + as.count x := by
  induction as with
  | nil =>
    intro m _
    exact Returns.pure ⟨.refl m, fun x => rfl⟩
  | cons a as ih =>
    intro m hle
    have hc : ∀ x, (a :: as).count x = as.count x + hit a x := by
      intro x
      simp only [List.count_cons, hit, beq_iff_eq]
    have hframe : m.frame a = 1 := by
      have h1 := hle a
      have h2 := m.frame_le a
      rw [hc, hit_self] at h1
      omega
    refine Returns.bind (kfree_returns hframe) ?_
    rintro - m₁ ⟨hs₁, hf₁⟩
    have hle' : ∀ x, as.count x ≤ m₁.frame x := by
      intro x
      have h1 := hle x
      rw [hc] at h1
      rw [hs₁.frame]
      omega
    refine (ih m₁ hle').mono ?_
    rintro - m₂ ⟨hs₂, hf₂⟩
    refine ⟨hs₁.trans hs₂, fun x => ?_⟩
    rw [hf₂, hf₁, hc]
    omega

end Xv6.Memory
