import Mathlib.Algebra.BigOperators.Fin
import Xv6.Memory.Walk

open Xv6.Framework

namespace Xv6.Memory

def pages (sz : Nat) : Nat := PGROUNDUP sz / PGSIZE

theorem pages_mul (sz : Nat) : pages sz * PGSIZE = PGROUNDUP sz := by
  simp only [pages, PGROUNDUP, PGSIZE]
  omega

theorem pages_eq (sz : Nat) : pages sz = (sz + PGSIZE - 1) / PGSIZE := by
  simp only [pages, PGROUNDUP, PGSIZE]
  omega

theorem pages_page (n : Nat) : pages (n * PGSIZE) = n := by
  simp only [pages, PGROUNDUP, PGSIZE]
  omega

theorem pages_mono {a b : Nat} (h : a ≤ b) : pages a ≤ pages b := by
  simp only [pages, PGROUNDUP, PGSIZE]
  omega

/-- The user part of a page table maps exactly its first `n` pages. -/
structure Spans (pt : PageTable) (n : Nat) : Prop where
  below : n ≤ lastUser
  mapped : ∀ i, vpn i < n → ∃ pte, pt.leaf i = some pte ∧ pte.perm.r = true
  free : ∀ i, n ≤ vpn i → vpn i < lastUser → pt.leaf i = none

/-- The pages of the free list and of one page table are different frames. -/
def Within (m : Mem) (pt : PageTable) : Prop :=
  ∀ x, m.free x + pt.tables x + pt.user x ≤ m.frame x

/-- A change of the user part of a table: pages only move between it and the free list, and the
kernel's leaves stay. -/
structure Edited (m : Mem) (pt : PageTable) (m' : Mem) (pt' : PageTable) : Prop where
  same : Same m m'
  count : ∀ x, m'.free x + pt'.tables x + pt'.user x = m.free x + pt.tables x + pt.user x
  kernel : ∀ i, lastUser ≤ vpn i → pt'.leaf i = pt.leaf i

/-- Every user page can be reached from user mode; the guard page of a stack cannot. -/
def AllUser (pt : PageTable) : Prop :=
  ∀ i pte, vpn i < lastUser → pt.leaf i = some pte → pte.perm.u = true

variable {m m' m'' : Mem} {pt pt' pt'' : PageTable} {n k : Nat}

theorem Edited.refl (m : Mem) (pt : PageTable) : Edited m pt m pt :=
  ⟨.refl m, fun _ => rfl, fun _ _ => rfl⟩

theorem Edited.trans (h : Edited m pt m' pt') (h' : Edited m' pt' m'' pt'') :
    Edited m pt m'' pt'' :=
  ⟨h.same.trans h'.same, fun x => (h'.count x).trans (h.count x),
    fun i hi => (h'.kernel i hi).trans (h.kernel i hi)⟩

theorem Within.edited (hw : Within m pt) (h : Edited m pt m' pt') : Within m' pt' := by
  intro x
  rw [h.same.frame, h.count]
  exact hw x

theorem Within.user_le (h : Within m pt) (x : Page) : pt.user x ≤ m.frame x := by
  have := h x
  omega

theorem ownLeaf_some {i : Index} {pte : Pte} (h : vpn i < lastUser) (x : Page) :
    ownLeaf x i (some pte) = hit pte.page x := by
  rw [ownLeaf, if_pos h]
  rfl

theorem hit_le_user {i : Index} {pte : Pte} (h : vpn i < lastUser) (hl : pt.leaf i = some pte)
    (x : Page) : hit pte.page x ≤ pt.user x := by
  rw [← ownLeaf_some h, ← hl]
  exact le_sum_univ (fun j => ownLeaf x j (pt.leaf j)) i

/-- The frames are fewer than the user pages of an address space, so growth stops below TRAPFRAME
for want of memory. -/
theorem Spans.le_frames (h : Spans pt n) (hw : Within m pt) : n ≤ PHYSTOP / PGSIZE := by
  have hmap : ∀ j, j < n → ∃ p i, vpn i = j ∧ ∀ x, ownLeaf x i (pt.leaf i) = hit p x := by
    intro j hj
    have hb := h.below
    obtain ⟨hva, hv⟩ := vpn_user (hj.trans_le hb)
    obtain ⟨pte, hl, -⟩ := h.mapped (index (j * PGSIZE)) (by omega)
    refine ⟨pte.page, _, hv, fun x => ?_⟩
    rw [hl, ownLeaf_some (by omega)]
  choose! f g hg hf using hmap
  have hcard := Finset.card_le_card_of_injOn (s := Finset.range n)
    (t := Finset.range (PHYSTOP / PGSIZE)) f ?_ ?_
  · simpa using hcard
  · intro j hj
    have hj : j < n := by simpa using hj
    have h1 := le_sum_univ (fun i => ownLeaf (f j) i (pt.leaf i)) (g j)
    have h2 := hw.user_le (f j)
    rw [hf j hj, hit_self] at h1
    rw [PageTable.user] at h2
    have h3 : m.frame (f j) ≠ 0 := by omega
    simp only [Mem.frame, ne_eq, ite_eq_right_iff, Classical.not_imp] at h3
    simpa using h3.1.2
  · intro j hj k hk he
    have hj : j < n := by simpa using hj
    have hk : k < n := by simpa using hk
    by_contra hne
    have hgne : g j ≠ g k := by
      intro hc
      have h1 := hg j hj
      have h2 := hg k hk
      rw [hc] at h1
      omega
    have h1 := add_le_sum_univ (fun i => ownLeaf (f j) i (pt.leaf i)) hgne
    rw [hf j hj, hf k hk, ← he, hit_self] at h1
    have h2 := hw.user_le (f j)
    have h3 := m.frame_le (f j)
    rw [PageTable.user] at h2
    omega

theorem Spans.lt_lastUser (h : Spans pt n) (hw : Within m pt) : n < lastUser :=
  Nat.lt_of_le_of_lt (h.le_frames hw) (by decide)

theorem Spans.unmappable (h : Spans pt n) (hw : Within m pt) {a c : Nat} (hc : a + c ≤ n) :
    Unmappable pt m a c true where
  below := by
    have := h.below
    simp only [lastUser, TRAPFRAME, TRAMPOLINE, PGSIZE] at this ⊢
    omega
  mapped := fun i _ hi => h.mapped i (by omega)
  user := fun _ => hc.trans h.below
  kernel := by simp
  frames := hw.user_le

theorem Spans.unmap (h : Spans pt n) {a : Nat} (ha : a ≤ n)
    (hl : ∀ i, pt'.leaf i = if a ≤ vpn i ∧ vpn i < a + (n - a) then none else pt.leaf i) :
    Spans pt' a where
  below := ha.trans h.below
  mapped := by
    intro i hi
    rw [hl i, if_neg (by omega)]
    exact h.mapped i (by omega)
  free := by
    intro i hi hu
    rw [hl i]
    split
    · rfl
    · exact h.free i (by omega) hu

theorem Spans.edited_unmap (h : Spans pt n) {a c : Nat} (hc : a + c ≤ n) (hs : Same m m')
    (ht : ∀ x, pt'.tables x = pt.tables x)
    (hf : ∀ x, m'.free x + pt'.user x = m.free x + pt.user x)
    (hl : ∀ i, pt'.leaf i = if a ≤ vpn i ∧ vpn i < a + c then none else pt.leaf i) :
    Edited m pt m' pt' where
  same := hs
  count := by
    intro x
    have := ht x
    have := hf x
    omega
  kernel := by
    intro i hi
    have := h.below
    rw [hl i, if_neg (by omega)]

theorem AllUser.unmap (h : AllUser pt) {a c : Nat}
    (hl : ∀ i, pt'.leaf i = if a ≤ vpn i ∧ vpn i < a + c then none else pt.leaf i) :
    AllUser pt' := by
  intro i pte hi hp
  rw [hl i] at hp
  split at hp
  · cases hp
  · exact h i pte hi hp

theorem uvmdealloc_returns {oldsz : Nat} (h : Spans pt (pages oldsz)) (hw : Within m pt)
    (newsz : Nat) :
    Returns (uvmdealloc pt oldsz newsz) m fun r m' =>
      Edited m pt m' r.1 ∧ r.2 = min oldsz newsz ∧ Spans r.1 (pages r.2) ∧
        (AllUser pt → AllUser r.1) := by
  rw [uvmdealloc]
  by_cases h1 : newsz ≥ oldsz
  · rw [if_pos h1]
    exact Returns.pure ⟨.refl m pt, (Nat.min_eq_left h1).symm, h, id⟩
  rw [if_neg h1]
  have hmin : newsz = min oldsz newsz := (Nat.min_eq_right (by omega)).symm
  have hle : pages newsz ≤ pages oldsz := pages_mono (by omega)
  by_cases h2 : PGROUNDUP newsz < PGROUNDUP oldsz
  · rw [if_pos h2]
    have hcount : (PGROUNDUP oldsz - PGROUNDUP newsz) / PGSIZE = pages oldsz - pages newsz := by
      rw [← pages_mul, ← pages_mul, ← Nat.sub_mul, Nat.mul_div_cancel _ (by decide)]
    simp only [hcount]
    rw [← pages_mul newsz]
    refine Returns.bind (uvmunmap_returns (h.unmappable hw (by omega))) ?_
    rintro pt' m' ⟨hs, ht, hf, hl⟩
    exact Returns.pure ⟨h.edited_unmap (by omega) hs ht hf hl, hmin, h.unmap hle hl,
      fun hu => hu.unmap hl⟩
  · rw [if_neg h2]
    have heq : pages newsz = pages oldsz := by
      have h3 := pages_mul newsz
      have h4 := pages_mul oldsz
      simp only [PGSIZE] at h3 h4
      omega
    refine Returns.pure ⟨.refl m pt, hmin, ?_, id⟩
    show Spans pt (pages newsz)
    rw [heq]
    exact h

theorem Spans.congr (h : Spans pt n) (hl : pt'.leaf = pt.leaf) : Spans pt' n := by
  refine ⟨h.below, ?_, ?_⟩
  · rw [hl]
    exact h.mapped
  · rw [hl]
    exact h.free

/-- A page in flight: taken from the free list by kalloc, and not yet in the table. -/
structure Held (m : Mem) (pt : PageTable) (p : Page) (m' : Mem) (pt' : PageTable) : Prop where
  same : Same m m'
  count : ∀ x, m'.free x + hit p x + pt'.tables x + pt'.user x =
    m.free x + pt.tables x + pt.user x
  leaf : pt'.leaf = pt.leaf

theorem Held.of_kalloc {p : Page} (hs : Same m m')
    (hf : ∀ x, m.free x = m'.free x + hit p x) : Held m pt p m' pt :=
  ⟨hs, fun x => by rw [hf x], rfl⟩

theorem Held.kfree_returns {p : Page} (h : Held m pt p m' pt') (hw : Within m pt) :
    Returns (kfree p) m' fun _ m'' => Edited m pt m'' pt' := by
  have hframe : m'.frame p = 1 := by
    have h1 := h.count p
    have h2 := hw p
    have h3 := m.frame_le p
    rw [hit_self] at h1
    rw [h.same.frame]
    omega
  refine (Memory.kfree_returns hframe).mono ?_
  rintro - m'' ⟨hs, hf⟩
  refine ⟨h.same.trans hs, fun x => ?_, fun i _ => by rw [h.leaf]⟩
  have h1 := hf x
  have h2 := h.count x
  omega

/-- The page that follows the user part is mapped, or only page-table pages are added. -/
theorem Held.mappages_returns {p : Page} {perm : Perm} (h : Held m pt p m' pt') (hw : Within m pt)
    (hp : Spans pt k) (hr : perm.r = true) :
    Returns (mappages pt' (k * PGSIZE) PGSIZE p perm) m' fun r m'' =>
      (r.2 = true ∧ Edited m pt m'' r.1 ∧ Spans r.1 (k + 1) ∧
          (perm.u = true → AllUser pt → AllUser r.1) ∨
        r.2 = false ∧ Held m pt p m'' r.1) ∧
      ∀ n, Ample (n + 2) m' → r.2 = true ∧ Ample n m'' := by
  have hk : k < lastUser := hp.lt_lastUser hw
  obtain ⟨hva, hv⟩ := vpn_user hk
  have hnone : pt'.leaf (index (k * PGSIZE)) = none := by
    rw [h.leaf]
    exact hp.free _ (by omega) (by omega)
  refine (Memory.mappages_returns pt' hva (by simp) hnone m').mono ?_
  rintro ⟨pt'', r⟩ m'' ⟨hs, hf, hmap, ha⟩
  refine ⟨?_, ha⟩
  rcases hmap with ⟨hr', hl, hu⟩ | ⟨hr', hl⟩
  · refine .inl ⟨hr', ⟨h.same.trans hs, ?_, ?_⟩, ⟨hk, ?_, ?_⟩, ?_⟩
    · intro x
      have h1 := hf x
      have h2 := hu x
      have h3 := h.count x
      rw [ownLeaf_some (by omega)] at h2
      simp only at h1 h2 ⊢
      omega
    · intro i hi
      have hne : i ≠ index (k * PGSIZE) := by
        intro hc
        rw [hc] at hi
        omega
      rw [hl, Function.update_of_ne hne, h.leaf]
    · intro i hi
      by_cases hc : i = index (k * PGSIZE)
      · exact ⟨⟨p, perm⟩, by rw [hl, hc, Function.update_self], hr⟩
      · have hne : vpn i ≠ k := fun he => hc (vpn_injective (he.trans hv.symm))
        rw [hl, Function.update_of_ne hc, h.leaf]
        exact hp.mapped i (by omega)
    · intro i hi hi'
      have hne : i ≠ index (k * PGSIZE) := by
        intro hc
        rw [hc] at hi
        omega
      rw [hl, Function.update_of_ne hne, h.leaf]
      exact hp.free i (by omega) hi'
    · intro hu' hall i pte hi he
      by_cases hc : i = index (k * PGSIZE)
      · rw [hl, hc, Function.update_self] at he
        cases he
        exact hu'
      · rw [hl, Function.update_of_ne hc, h.leaf] at he
        exact hall i pte hi he
  · refine .inr ⟨hr', h.same.trans hs, ?_, hl.trans h.leaf⟩
    intro x
    have h1 := hf x
    have h2 := h.count x
    have h3 := PageTable.user_congr hl x
    omega

theorem allocLoop_returns {k₀ : Nat} (perm : Perm) (hr : perm.r = true) (hu : perm.u = true)
    (n : Nat) :
    ∀ (pt : PageTable) (k : Nat) (m : Mem), k₀ ≤ k → Spans pt k → Within m pt →
      Returns (allocLoop (k₀ * PGSIZE) perm pt (k * PGSIZE) n) m fun r m' =>
        Edited m pt m' r.1 ∧ (AllUser pt → AllUser r.1) ∧
          (r.2 = true → Spans r.1 (k + n)) ∧ (r.2 = false → Spans r.1 k₀) := by
  induction n with
  | zero =>
    intro pt k m _ hp _
    exact Returns.pure ⟨.refl m pt, id, fun _ => hp, by simp⟩
  | succ n ih =>
    intro pt k m hk hp hw
    -- giving the pages of this call back, from a state that only added page-table pages
    have hback : ∀ pt' m', Edited m pt m' pt' → Spans pt' k → (AllUser pt → AllUser pt') →
        Returns (do return ((← uvmdealloc pt' (k * PGSIZE) (k₀ * PGSIZE)).1, false)) m' fun r m'' =>
          Edited m pt m'' r.1 ∧ (AllUser pt → AllUser r.1) ∧
            (r.2 = true → Spans r.1 (k + (n + 1))) ∧ (r.2 = false → Spans r.1 k₀) := by
      intro pt' m' he hp' hall
      have hp'' : Spans pt' (pages (k * PGSIZE)) := by rwa [pages_page]
      refine Returns.bind (uvmdealloc_returns hp'' (hw.edited he) (k₀ * PGSIZE)) ?_
      rintro ⟨pt'', sz⟩ m'' ⟨he', hsz, hsp, hall'⟩
      refine Returns.pure ⟨he.trans he', fun h => hall' (hall h), by simp, fun _ => ?_⟩
      have hmin : min (k * PGSIZE) (k₀ * PGSIZE) = k₀ * PGSIZE :=
        Nat.min_eq_right (Nat.mul_le_mul_right _ hk)
      have hsz : sz = k₀ * PGSIZE := hsz.trans hmin
      rw [hsz, pages_page] at hsp
      exact hsp
    refine Returns.bind (kalloc_returns m) ?_
    rintro (- | p) m' ⟨hs, hf, -⟩
    · have he : Edited m pt m' pt := ⟨hs, fun x => by rw [hf x]; rfl, fun _ _ => rfl⟩
      exact hback pt m' he hp id
    · have hheld : Held m pt p m' pt := Held.of_kalloc hs hf
      refine Returns.bind (hheld.mappages_returns hw hp hr) ?_
      rintro ⟨pt', r⟩ m'' ⟨hmap, -⟩
      rcases hmap with ⟨rfl, he, hp', hall⟩ | ⟨rfl, hheld'⟩
      · rw [← Nat.succ_mul]
        refine (ih pt' (k + 1) m'' (by omega) hp' (hw.edited he)).mono ?_
        rintro ⟨pt'', r⟩ m₃ ⟨he', hall', ht, hf'⟩
        refine ⟨he.trans he', fun h => hall' (hall hu h), ?_, hf'⟩
        rw [show k + (n + 1) = k + 1 + n by omega]
        exact ht
      · refine Returns.bind (hheld'.kfree_returns hw) ?_
        intro _ m₃ he
        refine hback pt' m₃ he (hp.congr hheld'.leaf) fun h i pte hi hl => ?_
        rw [hheld'.leaf] at hl
        exact h i pte hi hl

theorem pages_grow {oldsz newsz : Nat} (h : ¬newsz < oldsz) :
    pages oldsz + (newsz - PGROUNDUP oldsz + PGSIZE - 1) / PGSIZE = pages newsz := by
  simp only [pages, PGROUNDUP, PGSIZE]
  omega

theorem uvmalloc_returns {oldsz : Nat} (h : Spans pt (pages oldsz)) (hw : Within m pt)
    (newsz : Nat) (w x : Bool) :
    Returns (uvmalloc pt oldsz newsz w x) m fun r m' =>
      Edited m pt m' r.1 ∧ (AllUser pt → AllUser r.1) ∧
        (r.2 = 0 ∧ Spans r.1 (pages oldsz) ∨
          r.2 ≠ 0 ∧ r.2 = max oldsz newsz ∧ Spans r.1 (pages r.2)) := by
  rw [uvmalloc]
  by_cases h1 : newsz < oldsz
  · rw [if_pos h1]
    refine Returns.pure ⟨.refl m pt, id, .inr ⟨?_, ?_, h⟩⟩
    · show oldsz ≠ 0
      omega
    · show oldsz = max oldsz newsz
      omega
  · rw [if_neg h1, ← pages_mul oldsz]
    refine Returns.bind (allocLoop_returns ⟨true, w, x, true⟩ rfl rfl _ pt
      (pages oldsz) m le_rfl h hw) ?_
    rintro ⟨pt', r⟩ m' ⟨he, hall, ht, hf⟩
    cases r with
    | false => exact Returns.pure ⟨he, hall, .inl ⟨rfl, hf rfl⟩⟩
    | true =>
      refine Returns.pure ⟨he, hall, ?_⟩
      have ht := ht rfl
      rw [pages_mul, pages_grow h1] at ht
      by_cases h0 : newsz = 0
      · refine .inl ⟨h0, ?_⟩
        have : oldsz = newsz := by omega
        rw [this]
        exact ht
      · exact .inr ⟨h0, (Nat.max_eq_right (by omega)).symm, ht⟩

/-- uvmcopy fills a table without user pages, or leaves it so. -/
theorem copyLoop_returns {old : PageTable} {c : Nat} (hold : Spans old c) (n : Nat) :
    ∀ (pt : PageTable) (k : Nat) (m : Mem), k + n = c → Spans pt k → Within m pt →
      Returns (copyLoop old pt (k * PGSIZE) n) m fun r m' =>
        Edited m pt m' r.1 ∧ (r.2 = true → Spans r.1 c) ∧ (r.2 = false → Spans r.1 0) := by
  induction n with
  | zero =>
    intro pt k m hk hp _
    refine Returns.pure ⟨.refl m pt, fun _ => ?_, by simp⟩
    rw [← hk]
    exact hp
  | succ n ih =>
    intro pt k m hk hp hw
    have hback : ∀ pt' m', Edited m pt m' pt' → Spans pt' k →
        Returns (do return (← uvmunmap pt' 0 (k * PGSIZE / PGSIZE) true, false)) m' fun r m'' =>
          Edited m pt m'' r.1 ∧ (r.2 = true → Spans r.1 c) ∧ (r.2 = false → Spans r.1 0) := by
      intro pt' m' he hp'
      rw [Nat.mul_div_cancel k (by decide), ← Nat.zero_mul PGSIZE]
      refine Returns.bind (uvmunmap_returns (hp'.unmappable (hw.edited he) (by omega))) ?_
      rintro pt'' m'' ⟨hs, ht, hf, hl⟩
      refine Returns.pure ⟨he.trans (hp'.edited_unmap (by omega) hs ht hf hl), by simp,
        fun _ => hp'.unmap (Nat.zero_le k) hl⟩
    have hb := hold.below
    obtain ⟨hva, hv⟩ := vpn_user (show k < lastUser by omega)
    obtain ⟨pte, hleaf, hr⟩ := hold.mapped (index (k * PGSIZE)) (by omega)
    have hreach : old.Reached (index (k * PGSIZE)) :=
      PageTable.reached_of_leaf (by rw [hleaf]; rfl)
    refine Returns.bind_ok (walk_reached hreach hva false m) ?_
    simp only [hleaf]
    refine Returns.bind (kalloc_returns m) ?_
    rintro (- | p) m' ⟨hs, hf, -⟩
    · have he : Edited m pt m' pt := ⟨hs, fun x => by rw [hf x]; rfl, fun _ _ => rfl⟩
      exact hback pt m' he hp
    · have hheld : Held m pt p m' pt := Held.of_kalloc hs hf
      refine Returns.bind (hheld.mappages_returns hw hp hr) ?_
      rintro ⟨pt', r⟩ m'' ⟨hmap, -⟩
      rcases hmap with ⟨rfl, he, hp', -⟩ | ⟨rfl, hheld'⟩
      · rw [← Nat.succ_mul]
        refine (ih pt' (k + 1) m'' (by omega) hp' (hw.edited he)).mono ?_
        rintro ⟨pt'', r⟩ m₃ ⟨he', ht, hf'⟩
        exact ⟨he.trans he', ht, hf'⟩
      · refine Returns.bind (hheld'.kfree_returns hw) ?_
        intro _ m₃ he
        exact hback pt' m₃ he (hp.congr hheld'.leaf)

theorem uvmcopy_returns {old : PageTable} {sz : Nat} (hold : Spans old (pages sz))
    (hp : Spans pt 0) (hw : Within m pt) :
    Returns (uvmcopy old pt sz) m fun r m' =>
      Edited m pt m' r.1 ∧ (r.2 = true → Spans r.1 (pages sz)) ∧ (r.2 = false → Spans r.1 0) := by
  rw [uvmcopy, ← pages_eq]
  exact copyLoop_returns hold _ pt 0 m (by omega) hp hw

end Xv6.Memory
